import MoneyLaundering.Merge.MergeFns
import MoneyLaundering.Messages.Classes
import MoneyLaundering.Support.Condense

/-!
# The group-by functions

What a group-by builds of one batch of transactions or accounts: groups, each with the
affinity by which it is routed.
-/

open Messages

variable {A : Type} (hash : String → ℤ)

/-- `AFFINITY_SHARDS` of the two group-bys of banks. -/
def bankAffinityShards : ℤ := 10

/-- Entries about banks, in one dictionary for each affinity. -/
def bankAffinities {V : Type} (data : Dict String V) : List (Dict String V × ℤ) :=
  (Dict.gather (fun e : String × V => hash e.1 % bankAffinityShards) Dict.empty
    (fun part e => part.set e.1 e.2) data.entries).entries.map fun group => (group.2, group.1)

namespace UC2MaxAmountGroupBy

/-- The entry of a transaction. -/
def entry (t : Transaction A) : String × String × A := (t.fromBank, t.fromAccount, t.amountPaid)

/-- The largest amount of each bank, with its account. -/
def maxesByBank (gt : A → A → Bool) (transactions : List (Transaction A)) :
    Dict String (String × A) :=
  transactions.foldl (fun maxes t => UC2BankId.keepMax gt maxes (entry t)) Dict.empty

end UC2MaxAmountGroupBy

/-- `UC2MaxAmountGroupByFn`; `gt` compares amounts. -/
def uc2MaxAmountGroupBy (gt : A → A → Bool) (msg : DataMsg (List (Transaction A))) :
    List (Dict String (String × A) × ℤ) :=
  bankAffinities hash (UC2MaxAmountGroupBy.maxesByBank gt msg.body)

/-- `UC2BankNamesGroupByFn`. -/
def uc2BankNamesGroupBy (msg : DataMsg (List Account)) : List (Dict String String × ℤ) :=
  bankAffinities hash (Dict.ofList (msg.body.map fun a => (a.bankId, a.bankName)))

namespace UC3SumGroupBy

/-- Count one transaction. -/
def addTransaction [Zero A] [Add A] (sumCounts : Dict String (A × ℕ)) (t : Transaction A) :
    Dict String (A × ℕ) :=
  let curr := sumCounts.getD t.paymentFormat (0, 0)
  sumCounts.set t.paymentFormat (curr.1 + t.amountPaid, curr.2 + 1)

end UC3SumGroupBy

/-- `UC3SumGroupByFn`: one group for each payment format. -/
def uc3SumGroupBy [Zero A] [Add A] (msg : DataMsg (List (Transaction A))) :
    List (Dict String (A × ℕ) × ℤ) :=
  (msg.body.foldl UC3SumGroupBy.addTransaction Dict.empty).entries.map fun e =>
    (Dict.empty.set e.1 e.2, hash e.1)
