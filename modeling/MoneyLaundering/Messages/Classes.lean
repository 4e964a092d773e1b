import MoneyLaundering.Messages.GraphSrc
import MoneyLaundering.Messages.Values

/-!
# The classes of messages

Every class of messages lists its fields to be packed, and is built again from a list of
unpacked fields, whose first one is the text of the client identifier.  The header carries
the client identifier, so the lists of fields here leave it out: `fields` is `_fields`
without its first entry where that is the client identifier.
-/

namespace Messages

open GraphSrc

variable {A : Type}

/-- Build a message from the client identifier and the fields after it. -/
def withClient {X : Type} (build : UUID → List (Value A) → Option X) :
    List (Value A) → Option X
  | [] => none
  | client :: args => do
    let clientId ← uuidOfStr (← client.str?)
    build clientId args

@[simp] theorem withClient_cons {X : Type} (build : UUID → List (Value A) → Option X)
    (clientId : UUID) (args : List (Value A)) :
    withClient build (.str (uuidStr clientId) :: args) = build clientId args := by
  simp [withClient, Value.str?, uuidOfStr_uuidStr]

/-! ## End-of-files -/

structure EOF where
  clientId : UUID
  processedCount : ℤ
  expectedCount : ℤ
  nextExpectedCount : ℤ
  origin : ℤ
  nextExpectedPerShard : Dict ℤ ℤ
deriving DecidableEq

namespace EOF

def fields (m : EOF) : List (Value A) :=
  [.int m.processedCount, .int m.expectedCount, .int m.nextExpectedCount, .int m.origin,
    .ofDict .int .int m.nextExpectedPerShard]

/-- An argument of the constructor, or its default. -/
def argOr {X : Type} (args : List (Value A)) (i : ℕ) (read : Value A → Option X)
    (default : X) : Option X :=
  match args[i]? with
  | none => some default
  | some v => read v

def fromFields : List (Value A) → Option EOF :=
  withClient fun clientId args =>
    if args.length ≤ 5 then do
      return ⟨clientId, ← argOr args 0 Value.int? (-1), ← argOr args 1 Value.int? (-1),
        ← argOr args 2 Value.int? (-1), ← argOr args 3 Value.int? (-1),
        ← argOr args 4 (Value.dict? Value.int? Value.int?) Dict.empty⟩
    else none

theorem fromFields_fields (m : EOF) :
    fromFields (.str (uuidStr m.clientId) :: (m.fields : List (Value A))) = some m := by
  have hdict : Value.dict? Value.int? Value.int?
      (Value.ofDict .int .int m.nextExpectedPerShard : Value A) =
        some m.nextExpectedPerShard :=
    Value.dict?_ofDict (fun _ : ℤ => rfl) (fun _ : ℤ => rfl) _
  simp [fromFields, fields, argOr, Value.int?, hdict]

end EOF

/-! ## Transactions and accounts -/

/-- What a transaction holds as its time: no class checks that it is a `datetime`. -/
inductive Timestamp where
  | datetime (d : DateTime)
  | text (s : String)
deriving DecidableEq

namespace Timestamp

/-- A `datetime` is packed as its text, `_mp_default`. -/
def pack : Timestamp → Value A
  | .datetime d => .str d.str
  | .text s => .str s

def IsDatetime : Timestamp → Prop
  | .datetime _ => True
  | .text _ => False

instance : DecidablePred IsDatetime := fun t =>
  match t with
  | .datetime _ => isTrue trivial
  | .text _ => isFalse id

end Timestamp

structure Transaction (A : Type) where
  timestamp : Timestamp
  fromBank : String
  fromAccount : String
  toBank : String
  toAccount : String
  amountReceived : A
  receivingCurrency : String
  amountPaid : A
  paymentCurrency : String
  paymentFormat : String
deriving DecidableEq

namespace Transaction

/-- The row of a transaction. -/
def row (t : Transaction A) : Value A :=
  .list [t.timestamp.pack, .str t.fromBank, .str t.fromAccount, .str t.toBank,
    .str t.toAccount, .float t.amountReceived, .str t.receivingCurrency, .float t.amountPaid,
    .str t.paymentCurrency, .str t.paymentFormat]

/-- A transaction with the fields of a row, `Transaction(...)`; `read` says how its first
field is taken over. -/
def ofRow (read : Value A → Option Timestamp) : Value A → Option (Transaction A)
  | .list [timestamp, fromBank, fromAccount, toBank, toAccount, amountReceived,
      receivingCurrency, amountPaid, paymentCurrency, paymentFormat] => do
    return ⟨← read timestamp, ← fromBank.str?, ← fromAccount.str?, ← toBank.str?,
      ← toAccount.str?, ← amountReceived.float?, ← receivingCurrency.str?,
      ← amountPaid.float?, ← paymentCurrency.str?, ← paymentFormat.str?⟩
  | _ => none

/-- The transaction with another time. -/
def withTimestamp (timestamp : Timestamp) (t : Transaction A) : Transaction A :=
  { t with timestamp := timestamp }

theorem ofRow_row (read : Value A → Option Timestamp) (t : Transaction A) :
    ofRow read t.row = (read t.timestamp.pack).map fun ts => t.withTimestamp ts := by
  cases h : read t.timestamp.pack <;> simp [ofRow, row, h, Value.str?, Value.float?,
    withTimestamp]

end Transaction

structure Transactions (A : Type) where
  clientId : UUID
  transactions : List (Transaction A)
deriving DecidableEq

namespace Transactions

def fields (m : Transactions A) : List (Value A) := m.transactions.map Transaction.row

/-- `fast_datetime(...)` of the first field of a row. -/
def readTimestamp (v : Value A) : Option Timestamp := do
  return .datetime (← fastDatetime (← v.str?))

def fromFields : List (Value A) → Option (Transactions A) :=
  withClient fun clientId rows => do
    return ⟨clientId, ← rows.mapM (Transaction.ofRow readTimestamp)⟩

theorem fromFields_fields (m : Transactions A)
    (h : ∀ t ∈ m.transactions, t.timestamp.IsDatetime) :
    fromFields (.str (uuidStr m.clientId) :: m.fields) = some m := by
  have hrows : m.fields.mapM (Transaction.ofRow readTimestamp) = some m.transactions := by
    apply mapM_map_some_of_mem
    intro t ht
    have hread : readTimestamp (t.timestamp.pack : Value A) = some t.timestamp := by
      cases hts : t.timestamp with
      | datetime d => simp [readTimestamp, Timestamp.pack, Value.str?, fastDatetime_str]
      | text s => exact absurd (h t ht) (by simp [hts, Timestamp.IsDatetime])
    rw [Transaction.ofRow_row, hread]
    rfl
  simp [fromFields, hrows]

end Transactions

structure Account where
  bankName : String
  bankId : String
  accountNumber : String
  entityId : String
  entityName : String
deriving DecidableEq

namespace Account

def row (a : Account) : Value A :=
  .list [.str a.bankName, .str a.bankId, .str a.accountNumber, .str a.entityId,
    .str a.entityName]

def ofRow : Value A → Option Account
  | .list [bankName, bankId, accountNumber, entityId, entityName] => do
    return ⟨← bankName.str?, ← bankId.str?, ← accountNumber.str?, ← entityId.str?,
      ← entityName.str?⟩
  | _ => none

theorem ofRow_row (a : Account) : ofRow (a.row : Value A) = some a := by
  simp [ofRow, row, Value.str?]

end Account

structure Accounts where
  clientId : UUID
  accounts : List Account
deriving DecidableEq

namespace Accounts

def fields (m : Accounts) : List (Value A) := m.accounts.map Account.row

def fromFields : List (Value A) → Option Accounts :=
  withClient fun clientId rows => do return ⟨clientId, ← rows.mapM Account.ofRow⟩

theorem fromFields_fields (m : Accounts) :
    fromFields (.str (uuidStr m.clientId) :: (m.fields : List (Value A))) = some m := by
  have hrows : (m.fields : List (Value A)).mapM Account.ofRow = some m.accounts :=
    mapM_map_some Account.ofRow_row m.accounts
  simp [fromFields, hrows]

end Accounts

/-! ## Messages without a payload -/

/-- A message that has a client identifier only. -/
structure ClientOnly where
  clientId : UUID
deriving DecidableEq

namespace ClientOnly

def fields (_ : ClientOnly) : List (Value A) := []

/-- The fields after the client identifier are not looked at. -/
def fromFields : List (Value A) → Option ClientOnly :=
  withClient fun clientId _ => some ⟨clientId⟩

theorem fromFields_fields (m : ClientOnly) :
    fromFields (.str (uuidStr m.clientId) :: (m.fields : List (Value A))) = some m := by
  simp [fromFields]

end ClientOnly

abbrev FIN : Type := ClientOnly

abbrev Abort : Type := ClientOnly

abbrev HelloAck : Type := ClientOnly

/-- The new leader of the supervisors. -/
structure SupervisorLeader where
  idx : ℤ
deriving DecidableEq

namespace SupervisorLeader

def fields (m : SupervisorLeader) : List (Value A) := [.int m.idx]

def fromFields (fields : List (Value A)) : Option SupervisorLeader := do
  return ⟨← (← fields[1]?).int?⟩

theorem fromFields_fields (v : Value A) (m : SupervisorLeader) :
    fromFields (v :: m.fields) = some m := by
  simp [fromFields, fields, Value.int?]

end SupervisorLeader

/-! ## Results -/

structure Response where
  clientId : UUID
  body : String
  last : Bool
  ucId : ℤ
deriving DecidableEq

namespace Response

def fields (m : Response) : List (Value A) := [.int m.ucId, .str m.body, .bool m.last]

def fromFields : List (Value A) → Option Response :=
  withClient fun clientId args =>
    match args with
    | [ucId, body, last] => do return ⟨clientId, ← body.str?, ← last.bool?, ← ucId.int?⟩
    | _ => none

theorem fromFields_fields (m : Response) :
    fromFields (.str (uuidStr m.clientId) :: (m.fields : List (Value A))) = some m := by
  simp [fromFields, fields, Value.str?, Value.bool?, Value.int?]

end Response

structure TransactionCount where
  clientId : UUID
  count : ℤ
deriving DecidableEq

namespace TransactionCount

def fields (m : TransactionCount) : List (Value A) := [.int m.count]

def fromFields : List (Value A) → Option TransactionCount :=
  withClient fun clientId args => do return ⟨clientId, ← (← args[0]?).int?⟩

theorem fromFields_fields (m : TransactionCount) :
    fromFields (.str (uuidStr m.clientId) :: (m.fields : List (Value A))) = some m := by
  simp [fromFields, fields, Value.int?]

end TransactionCount

/-! ## Tables, one row for each entry -/

/-- The maxima of the banks: the account and its amount. -/
structure MaxByBank (A : Type) where
  clientId : UUID
  data : Dict String (String × A)
deriving DecidableEq

namespace MaxByBank

def row (e : String × String × A) : Value A := .list [.str e.1, .str e.2.1, .float e.2.2]

def ofRow : Value A → Option (String × String × A)
  | .list (bankId :: account :: amount :: _) => do
    return (← bankId.str?, ← account.str?, ← amount.float?)
  | _ => none

theorem ofRow_row (e : String × String × A) : ofRow (row e) = some e := rfl

def fields (m : MaxByBank A) : List (Value A) := m.data.entries.map row

def fromFields : List (Value A) → Option (MaxByBank A) :=
  withClient fun clientId rows => do return ⟨clientId, .ofList (← rows.mapM ofRow)⟩

theorem fromFields_fields (m : MaxByBank A) :
    fromFields (.str (uuidStr m.clientId) :: m.fields) = some m := by
  have hrows : m.fields.mapM ofRow = some m.data.entries :=
    mapM_map_some ofRow_row _
  simp [fromFields, hrows, Dict.ofList_entries]

end MaxByBank

structure BankNames where
  clientId : UUID
  data : Dict String String
deriving DecidableEq

namespace BankNames

def row (e : String × String) : Value A := .list [.str e.1, .str e.2]

def ofRow : Value A → Option (String × String)
  | .list (bankId :: bankName :: _) => do return (← bankId.str?, ← bankName.str?)
  | _ => none

theorem ofRow_row (e : String × String) : ofRow (row e : Value A) = some e := rfl

def fields (m : BankNames) : List (Value A) := m.data.entries.map row

def fromFields : List (Value A) → Option BankNames :=
  withClient fun clientId rows => do return ⟨clientId, .ofList (← rows.mapM ofRow)⟩

theorem fromFields_fields (m : BankNames) :
    fromFields (.str (uuidStr m.clientId) :: (m.fields : List (Value A))) = some m := by
  have hrows : (m.fields : List (Value A)).mapM ofRow = some m.data.entries :=
    mapM_map_some ofRow_row _
  simp [fromFields, hrows, Dict.ofList_entries]

end BankNames

/-- A bank, its account with the largest amount, and its name. -/
structure MergedBankData (A : Type) where
  clientId : UUID
  entries : List (String × String × A × String)
deriving DecidableEq

namespace MergedBankData

def row (e : String × String × A × String) : Value A :=
  .list [.str e.1, .str e.2.1, .float e.2.2.1, .str e.2.2.2]

def ofRow : Value A → Option (String × String × A × String)
  | .list [bankId, account, amount, bankName] => do
    return (← bankId.str?, ← account.str?, ← amount.float?, ← bankName.str?)
  | _ => none

theorem ofRow_row (e : String × String × A × String) :
    ofRow (row e) = some e := rfl

def fields (m : MergedBankData A) : List (Value A) := m.entries.map row

def fromFields : List (Value A) → Option (MergedBankData A) :=
  withClient fun clientId rows => do return ⟨clientId, ← rows.mapM ofRow⟩

theorem fromFields_fields (m : MergedBankData A) :
    fromFields (.str (uuidStr m.clientId) :: m.fields) = some m := by
  have hrows : m.fields.mapM ofRow = some m.entries := mapM_map_some ofRow_row _
  simp [fromFields, hrows]

end MergedBankData

/-- The sum and the number of transactions of each payment format. -/
structure SumByPaymentFormat (A : Type) where
  clientId : UUID
  sumCounts : Dict String (A × ℤ)
deriving DecidableEq

namespace SumByPaymentFormat

def row (e : String × A × ℤ) : Value A := .list [.str e.1, .float e.2.1, .int e.2.2]

def ofRow : Value A → Option (String × A × ℤ)
  | .list [paymentFormat, totalSum, transactionsCount] => do
    return (← paymentFormat.str?, ← totalSum.float?, ← transactionsCount.int?)
  | _ => none

theorem ofRow_row (e : String × A × ℤ) : ofRow (row e) = some e := rfl

def fields (m : SumByPaymentFormat A) : List (Value A) := m.sumCounts.entries.map row

def fromFields : List (Value A) → Option (SumByPaymentFormat A) :=
  withClient fun clientId rows => do return ⟨clientId, .ofList (← rows.mapM ofRow)⟩

theorem fromFields_fields (m : SumByPaymentFormat A) :
    fromFields (.str (uuidStr m.clientId) :: m.fields) = some m := by
  have hrows : m.fields.mapM ofRow = some m.sumCounts.entries :=
    mapM_map_some ofRow_row _
  simp [fromFields, hrows, Dict.ofList_entries]

end SumByPaymentFormat

/-- The average amount of each payment format. -/
structure AvgByFormat (A : Type) where
  clientId : UUID
  averages : Dict String A
deriving DecidableEq

namespace AvgByFormat

def row (e : String × A) : Value A := .list [.str e.1, .float e.2]

def ofRow : Value A → Option (String × A)
  | .list [paymentFormat, average] => do return (← paymentFormat.str?, ← average.float?)
  | _ => none

theorem ofRow_row (e : String × A) : ofRow (row e) = some e := rfl

def fields (m : AvgByFormat A) : List (Value A) := m.averages.entries.map row

def fromFields : List (Value A) → Option (AvgByFormat A) :=
  withClient fun clientId rows => do return ⟨clientId, .ofList (← rows.mapM ofRow)⟩

theorem fromFields_fields (m : AvgByFormat A) :
    fromFields (.str (uuidStr m.clientId) :: m.fields) = some m := by
  have hrows : m.fields.mapM ofRow = some m.averages.entries :=
    mapM_map_some ofRow_row _
  simp [fromFields, hrows, Dict.ofList_entries]

end AvgByFormat

/-- Transactions and the averages of the payment formats. -/
structure MergedTransactions (A : Type) where
  clientId : UUID
  transactions : List (Transaction A)
  averages : Dict String A
deriving DecidableEq

/-- The index that `i` stands for in a slice of a list of the given length. -/
def sliceIndex (length : ℕ) (i : ℤ) : ℕ :=
  if i < 0 then (i + length).toNat else min i.toNat length

/-- `xs[i:j]`. -/
def listSlice {X : Type} (i j : ℤ) (xs : List X) : List X :=
  (xs.drop (sliceIndex xs.length i)).take
    (sliceIndex xs.length j - sliceIndex xs.length i)

namespace MergedTransactions

/-- The row of an average: what comes after its value is not looked at. -/
def averageOfRow : Value A → Option (String × A)
  | .list (paymentFormat :: average :: _) => do
    return (← paymentFormat.str?, ← average.float?)
  | _ => none

/-- The first field of a row as it is. -/
def readTimestamp (v : Value A) : Option Timestamp := v.str?.map .text

def fields (m : MergedTransactions A) : List (Value A) :=
  .int m.transactions.length ::
    (m.transactions.map Transaction.row ++ m.averages.entries.map AvgByFormat.row)

def fromFields (fields : List (Value A)) : Option (MergedTransactions A) := do
  let clientId ← uuidOfStr (← (← fields[0]?).str?)
  let transactionsCount ← (← fields[1]?).int?
  let transactionFields := listSlice 2 (2 + transactionsCount) fields
  let transactions ← transactionFields.mapM (Transaction.ofRow readTimestamp)
  let dataFields := listSlice (2 + transactionsCount) fields.length fields
  return ⟨clientId, transactions, .ofList (← dataFields.mapM averageOfRow)⟩

theorem averageOfRow_row (e : String × A) : averageOfRow (AvgByFormat.row e) = some e := rfl

/-- The text that the time of a transaction is packed as. -/
def textOf : Timestamp → Timestamp
  | .datetime d => .text d.str
  | .text s => .text s

/-- The message with the texts of the times. -/
def withTexts (m : MergedTransactions A) : MergedTransactions A :=
  { m with transactions := m.transactions.map fun t => t.withTimestamp (textOf t.timestamp) }

theorem listSlice_append {X : Type} (x y : X) (xs ys : List X) :
    listSlice 2 (2 + (xs.length : ℤ)) (x :: y :: (xs ++ ys)) = xs ∧
      listSlice (2 + (xs.length : ℤ)) ((x :: y :: (xs ++ ys)).length : ℤ)
        (x :: y :: (xs ++ ys)) = ys := by
  have htwo : sliceIndex (x :: y :: (xs ++ ys)).length 2 = 2 := by
    simp [sliceIndex]
  have hmid : sliceIndex (x :: y :: (xs ++ ys)).length (2 + xs.length) =
      2 + xs.length := by
    simp only [sliceIndex, List.length_cons, List.length_append]
    split <;> omega
  have hend : sliceIndex (x :: y :: (xs ++ ys)).length
      ((x :: y :: (xs ++ ys)).length : ℤ) = 2 + xs.length + ys.length := by
    simp only [sliceIndex, List.length_cons, List.length_append]
    split <;> omega
  constructor
  · rw [listSlice, htwo, hmid]
    simp
  · rw [listSlice, hmid, hend, Nat.add_comm 2 xs.length]
    simp

/-- The times of the transactions come back as texts. -/
theorem fromFields_fields (m : MergedTransactions A) :
    fromFields (.str (uuidStr m.clientId) :: m.fields) = some m.withTexts := by
  obtain ⟨htransactions, haverages⟩ := listSlice_append
    (.str (uuidStr m.clientId) : Value A) (.int m.transactions.length)
    (m.transactions.map Transaction.row) (m.averages.entries.map AvgByFormat.row)
  have hrows : (m.transactions.map Transaction.row).mapM
      (Transaction.ofRow (A := A) readTimestamp) = some m.withTexts.transactions := by
    apply Dict.mapM_map_eq
    intro t _
    have hread : readTimestamp (t.timestamp.pack : Value A) = some (textOf t.timestamp) := by
      cases t.timestamp <;> rfl
    rw [Transaction.ofRow_row, hread, Option.map_some]
  have hdata : (m.averages.entries.map AvgByFormat.row).mapM averageOfRow =
      some m.averages.entries := mapM_map_some averageOfRow_row _
  rw [List.length_map] at htransactions haverages
  simp only [fields] at *
  simp only [fromFields, List.getElem?_cons_zero, List.getElem?_cons_succ, Value.str?,
    Value.int?, Option.bind_eq_bind, Option.bind_some, uuidOfStr_uuidStr, htransactions,
    haverages, hrows, hdata, Dict.ofList_entries]
  rfl

end MergedTransactions

/-! ## Graphs -/

/-- `fields()` of a node. -/
def packNode (node : Node) : Value A := .list [.str node.bank, .str node.account]

def nodeOf : Value A → Option Node
  | .list [bank, account] => do return ⟨← bank.str?, ← account.str?⟩
  | _ => none

theorem nodeOf_packNode (node : Node) : nodeOf (packNode node : Value A) = some node := rfl

def packNodes (nodes : NodeSet) : Value A := .list (nodes.elems.map packNode)

/-- The set of the nodes of a list. -/
def nodesOf (v : Value A) : Option NodeSet := do
  return .ofList Node.key (← (← v.list?).mapM nodeOf)

theorem nodesOf_packNodes (nodes : NodeSet) :
    nodesOf (packNodes nodes : Value A) = some nodes := by
  have hnodes := mapM_map_some (nodeOf_packNode (A := A)) nodes.elems
  simp [nodesOf, packNodes, Value.list?, hnodes, OrderedSet.ofList_elems]

/-- `fields()` of a path. -/
def packPath (path : Path) : Value A :=
  .list [packNode path.origin, packNode path.destination]

structure Graph where
  clientId : UUID
  nodes : Nodes
deriving DecidableEq

namespace Graph

def packEntry (e : Entry) : Value A :=
  .list [packNode e.1, packNodes e.2.1, packNodes e.2.2]

def entryOf : Value A → Option Entry
  | .list [node, predecessors, successors] => do
    return (← nodeOf node, ← nodesOf predecessors, ← nodesOf successors)
  | _ => none

theorem entryOf_packEntry (e : Entry) : entryOf (packEntry e : Value A) = some e := by
  simp [entryOf, packEntry, nodeOf_packNode, nodesOf_packNodes]

def fields (m : Graph) : List (Value A) := [.list (m.nodes.entries.map packEntry)]

def fromFields : List (Value A) → Option Graph :=
  withClient fun clientId args => do
    let entries ← (← (← args[0]?).list?).mapM entryOf
    return ⟨clientId, .ofList Node.key entries⟩

theorem fromFields_fields (m : Graph) :
    fromFields (.str (uuidStr m.clientId) :: (m.fields : List (Value A))) = some m := by
  have hentries := mapM_map_some (entryOf_packEntry (A := A)) m.nodes.entries
  simp [fromFields, fields, Value.list?, hentries, KeyedDict.ofList_entries]

end Graph

structure HighDegree where
  clientId : UUID
  hiOut : NodeSet
  hiIn : NodeSet
deriving DecidableEq

namespace HighDegree

def fields (m : HighDegree) : List (Value A) := [packNodes m.hiOut, packNodes m.hiIn]

def fromFields : List (Value A) → Option HighDegree :=
  withClient fun clientId args => do
    return ⟨clientId, ← nodesOf (← args[0]?), ← nodesOf (← args[1]?)⟩

theorem fromFields_fields (m : HighDegree) :
    fromFields (.str (uuidStr m.clientId) :: (m.fields : List (Value A))) = some m := by
  simp [fromFields, fields, nodesOf_packNodes]

end HighDegree

/-- One node with its neighbours, as texts. -/
structure NodeMsg where
  clientId : UUID
  node : Node
  predecesors : NodeSet
  succesors : NodeSet
deriving DecidableEq

namespace NodeMsg

/-- The set of the nodes of a list of texts. -/
def nodesOfStr (v : Value A) : Option NodeSet := do
  return .ofList Node.key (← (← v.list?).mapM fun text : Value A => do
    Node.ofStr (← text.str?))

def packNodesStr (nodes : NodeSet) : Value A :=
  .list (nodes.elems.map fun node => .str node.str)

def fields (m : NodeMsg) : List (Value A) :=
  [.str m.node.str, packNodesStr m.predecesors, packNodesStr m.succesors]

def fromFields : List (Value A) → Option NodeMsg :=
  withClient fun clientId args => do
    return ⟨clientId, ← Node.ofStr (← (← args[0]?).str?), ← nodesOfStr (← args[1]?),
      ← nodesOfStr (← args[2]?)⟩

/-- No text of a node has a comma. -/
def CommaFree (m : NodeMsg) : Prop :=
  m.node.CommaFree ∧ (∀ node ∈ m.predecesors.elems, node.CommaFree) ∧
    ∀ node ∈ m.succesors.elems, node.CommaFree

instance (m : NodeMsg) : Decidable m.CommaFree :=
  inferInstanceAs (Decidable (_ ∧ _))

theorem nodesOfStr_packNodesStr {nodes : NodeSet} (h : ∀ node ∈ nodes.elems, node.CommaFree) :
    nodesOfStr (packNodesStr nodes : Value A) = some nodes := by
  have hnodes : (nodes.elems.map fun node => (.str node.str : Value A)).mapM
      (fun text : Value A => do Node.ofStr (← text.str?)) = some nodes.elems := by
    apply mapM_map_some_of_mem
    intro node hnode
    simp [Value.str?, Node.ofStr_str (h node hnode)]
  simp only [nodesOfStr, packNodesStr, Value.list?, Option.bind_eq_bind, Option.bind_some]
    at hnodes ⊢
  simp [hnodes, OrderedSet.ofList_elems]

theorem fromFields_fields (m : NodeMsg) (h : m.CommaFree) :
    fromFields (.str (uuidStr m.clientId) :: (m.fields : List (Value A))) = some m := by
  simp [fromFields, fields, Value.str?, Node.ofStr_str h.1, nodesOfStr_packNodesStr h.2.1,
    nodesOfStr_packNodesStr h.2.2]

end NodeMsg

structure PathCounts where
  clientId : UUID
  counts : KeyedDict Path.key ℤ
deriving DecidableEq

namespace PathCounts

def packEntry (e : Path × ℤ) : Value A := .list [packPath e.1, .int e.2]

def entryOf : Value A → Option (Path × ℤ)
  | .list [.list [origin, destination], count] => do
    return (⟨← nodeOf origin, ← nodeOf destination⟩, ← count.int?)
  | _ => none

theorem entryOf_packEntry (e : Path × ℤ) : entryOf (packEntry e : Value A) = some e := rfl

def fields (m : PathCounts) : List (Value A) := [.list (m.counts.entries.map packEntry)]

def fromFields : List (Value A) → Option PathCounts :=
  withClient fun clientId args => do
    let entries ← (← (← args[0]?).list?).mapM entryOf
    return ⟨clientId, .ofList Path.key entries⟩

theorem fromFields_fields (m : PathCounts) :
    fromFields (.str (uuidStr m.clientId) :: (m.fields : List (Value A))) = some m := by
  have hentries := mapM_map_some (entryOf_packEntry (A := A)) m.counts.entries
  simp [fromFields, fields, Value.list?, hentries, KeyedDict.ofList_entries]

end PathCounts

structure PathMsg where
  clientId : UUID
  path : Path
  counts : ℤ
deriving DecidableEq

namespace PathMsg

/-- A node of the first two entries of a list. -/
def nodeAt (v : Value A) : Option Node := do
  let texts ← v.list?
  return ⟨← (← texts[0]?).str?, ← (← texts[1]?).str?⟩

theorem nodeAt_packNode (node : Node) : nodeAt (packNode node : Value A) = some node := rfl

def fields (m : PathMsg) : List (Value A) := [packPath m.path, .int m.counts]

def fromFields : List (Value A) → Option PathMsg :=
  withClient fun clientId args => do
    let f ← (← args[0]?).list?
    let onode ← nodeAt (← f[0]?)
    let dnode ← nodeAt (← f[1]?)
    return ⟨clientId, ⟨onode, dnode⟩, ← (← args[1]?).int?⟩

theorem fromFields_fields (m : PathMsg) :
    fromFields (.str (uuidStr m.clientId) :: (m.fields : List (Value A))) = some m := by
  simp [fromFields, fields, packPath, nodeAt_packNode, Value.list?, Value.int?]

end PathMsg

/-! ## Messages of a ring -/

structure RingDone where
  clientId : UUID
  origin : ℤ
deriving DecidableEq

namespace RingDone

def fields (m : RingDone) : List (Value A) := [.int m.origin]

def fromFields : List (Value A) → Option RingDone :=
  withClient fun clientId args =>
    match args with
    | [origin] => do return ⟨clientId, ← origin.int?⟩
    | _ => none

theorem fromFields_fields (m : RingDone) :
    fromFields (.str (uuidStr m.clientId) :: (m.fields : List (Value A))) = some m := by
  simp [fromFields, fields, Value.int?]

end RingDone

structure RingSentData where
  clientId : UUID
  origin : ℤ
  sentDataAmount : ℤ
  sentData : Bool
  done : Bool
deriving DecidableEq

namespace RingSentData

def fields (m : RingSentData) : List (Value A) :=
  [.int m.origin, .int m.sentDataAmount, .bool m.sentData, .bool m.done]

def fromFields : List (Value A) → Option RingSentData :=
  withClient fun clientId args =>
    match args with
    | [origin, sentDataAmount, sentData, done] => do
      return ⟨clientId, ← origin.int?, ← sentDataAmount.int?, ← sentData.bool?,
        ← done.bool?⟩
    | _ => none

theorem fromFields_fields (m : RingSentData) :
    fromFields (.str (uuidStr m.clientId) :: (m.fields : List (Value A))) = some m := by
  simp [fromFields, fields, Value.int?, Value.bool?]

end RingSentData

/-- The token of a barrier: the counts of each peer for each shard. -/
structure RingBarrier where
  clientId : UUID
  origin : ℤ
  sentBy : Dict ℤ (Dict ℤ ℤ)
deriving DecidableEq

namespace RingBarrier

/-- The counts of one peer. -/
def packCounts : Dict ℤ ℤ → Value A := .ofDict .int .int

def counts? : Value A → Option (Dict ℤ ℤ) := Value.dict? Value.int? Value.int?

theorem counts?_packCounts (counts : Dict ℤ ℤ) :
    counts? (packCounts counts : Value A) = some counts :=
  Value.dict?_ofDict (fun _ : ℤ => rfl) (fun _ : ℤ => rfl) counts

def fields (m : RingBarrier) : List (Value A) :=
  [.int m.origin, .ofDict .int packCounts m.sentBy]

def fromFields : List (Value A) → Option RingBarrier :=
  withClient fun clientId args =>
    match args with
    | [origin] => do return ⟨clientId, ← origin.int?, Dict.empty⟩
    | [origin, sentBy] => do
      return ⟨clientId, ← origin.int?, ← Value.dict? Value.int? counts? sentBy⟩
    | _ => none

theorem fromFields_fields (m : RingBarrier) :
    fromFields (.str (uuidStr m.clientId) :: (m.fields : List (Value A))) = some m := by
  have hdict : Value.dict? Value.int? counts?
      (Value.ofDict .int packCounts m.sentBy : Value A) = some m.sentBy :=
    Value.dict?_ofDict (fun _ : ℤ => rfl) counts?_packCounts _
  simp [fromFields, fields, Value.int?, hdict]

end RingBarrier

end Messages
