import MoneyLaundering.Aggregate.Tables
import MoneyLaundering.Restart.Counts

/-!
# The snapshots of the tables

Three aggregates and the merge of banks keep tables in memory.  A snapshot has the rows of
a table in their order, as pairs or as a dictionary, and a restored instance has the same
tables, so its results have the same entries in the same order.
-/

open Messages

variable {A : Type}

/-! ## Rows -/

/-- The account of a bank and its amount, `(account, amount)`. -/
def dumpMax (v : String × A) : PyValue A := .tuple [.str v.1, .float v.2]

/-- `(account, float(amount))`. -/
def loadMax : PyValue A → Option (String × A)
  | .list [account, amount] => do return (← account.str?, ← amount.float?)
  | _ => none

theorem loadMax_dumpMax (v : String × A) : loadMax (dumpMax v).repacked = some v := by
  simp [loadMax, dumpMax]

/-- A dictionary of names, which a snapshot takes as it is. -/
def dumpNames (names : Dict String String) : PyValue A := .ofDict id (fun e => .str e.2) names

/-- `dict(data)`. -/
def loadNames (v : PyValue A) : Option (Dict String String) := v.dict? some PyValue.str?

theorem loadNames_dumpNames (names : Dict String String) :
    loadNames (dumpNames names : PyValue A).repacked = some names := by
  apply PyValue.dict?_ofDict fun _ => rfl
  intro e _
  simp

/-! ## Aggregates -/

namespace TableFn

variable {D α β : Type}

inductive Op (α : Type) where
  | aggregate (msg : DataMsg α)
  | getResult (clientId : UUID)
  | discard (clientId : UUID)

inductive Result (β : Type) where
  | nothing
  | result (entries : List (β × ℤ))

/-- `{str(cid): dump(table) for cid, table in tables.items()}`. -/
def snapshotState (dump : D → PyValue A) (tables : Dict UUID D) : PyValue A :=
  .ofDict uuidStr (fun e => dump e.2) tables

/-- `{UUID(cid): load(v) for cid, v in snapshot.items()}`. -/
def restoreState (load : PyValue A → Option D) (v : PyValue A) : Option (Dict UUID D) :=
  v.dict? uuidOfStr load

/-- An aggregate with a table for each client; `dump` and `load` are what its snapshot does
with a table. -/
def component (T : TableFn D α β) (dump : D → PyValue A) (load : PyValue A → Option D) :
    Component (PyValue A) where
  State := Dict UUID D
  Op := Op α
  Result := Result β
  Choice := Unit
  step
    | _, .aggregate msg, tables => (.nothing, T.aggregate msg tables)
    | _, .getResult clientId, tables =>
      (.result (T.getResult clientId tables).1, (T.getResult clientId tables).2)
    | _, .discard clientId, tables => (.nothing, T.toAggregateFn.discard clientId tables)
  snapshot _ := snapshotState dump
  restore := restoreState load
  Agree := Eq

theorem restoreState_snapshotState {dump : D → PyValue A} {load : PyValue A → Option D}
    (h : ∀ table, load (dump table).repacked = some table) (tables : Dict UUID D) :
    restoreState load (snapshotState dump tables).repacked = some tables :=
  PyValue.dict?_ofDict uuidOfStr_uuidStr fun e _ => h e.2

end TableFn

namespace UC2MaxAmount

/-- `list(mbb.data.items())`. -/
def dump (maxes : Dict String (String × A)) : PyValue A := .ofItems dumpMax maxes

/-- `{bank: (acc, float(amt)) for bank, (acc, amt) in entries}`. -/
def load (v : PyValue A) : Option (Dict String (String × A)) := v.ofPairs? loadMax

theorem load_dump (maxes : Dict String (String × A)) : load (dump maxes).repacked = some maxes :=
  PyValue.ofPairs?_ofItems fun e _ => loadMax_dumpMax e.2

end UC2MaxAmount

namespace UC3Avg

/-- `(s, c)`. -/
def dumpSum (v : A × ℕ) : PyValue A := .tuple [.float v.1, .int v.2]

/-- `(float(s), int(c))`. -/
def loadSum : PyValue A → Option (A × ℕ)
  | .list [s, c] => do return (← s.float?, ← c.nat?)
  | _ => none

theorem loadSum_dumpSum (v : A × ℕ) : loadSum (dumpSum v).repacked = some v := by
  simp [loadSum, dumpSum]

/-- `list(sc.sum_counts.items())`. -/
def dump (sumCounts : Dict String (A × ℕ)) : PyValue A := .ofItems dumpSum sumCounts

/-- `{fmt: (float(s), int(c)) for fmt, (s, c) in entries}`. -/
def load (v : PyValue A) : Option (Dict String (A × ℕ)) := v.ofPairs? loadSum

theorem load_dump (sumCounts : Dict String (A × ℕ)) :
    load (dump sumCounts).repacked = some sumCounts :=
  PyValue.ofPairs?_ofItems fun e _ => loadSum_dumpSum e.2

end UC3Avg

/-! ## The merge of banks -/

namespace UC2BankId

/-- `snapshot_state`. -/
def snapshotState (f : UC2BankId A) : PyValue A :=
  .dict [("max", .ofDict uuidStr (fun e => .ofDict id (fun e => dumpMax e.2) e.2) f.maxAmounts),
    ("names", .ofDict uuidStr (fun e => dumpNames e.2) f.bankNames)]

/-- `restore_state`. -/
def restoreState (v : PyValue A) : Option (UC2BankId A) := do
  let maxAmounts ← v.get "max" (.dict [])
  let bankNames ← v.get "names" (.dict [])
  return ⟨← maxAmounts.dict? uuidOfStr fun data => data.dict? some loadMax,
    ← bankNames.dict? uuidOfStr loadNames⟩

theorem restoreState_snapshotState (f : UC2BankId A) :
    restoreState (snapshotState f).repacked = some f := by
  have hdata : ∀ data : Dict String (String × A), (PyValue.ofDict id
      (fun e => dumpMax e.2) data).repacked.dict? some loadMax = some data := fun data =>
    PyValue.dict?_ofDict (fun _ => rfl) fun e _ => loadMax_dumpMax e.2
  have hmax : (PyValue.ofDict uuidStr (fun e => PyValue.ofDict id (fun e => dumpMax e.2) e.2)
      f.maxAmounts).repacked.dict? uuidOfStr (fun data => data.dict? some loadMax) =
        some f.maxAmounts :=
    PyValue.dict?_ofDict uuidOfStr_uuidStr fun e _ => hdata e.2
  have hnames : (PyValue.ofDict uuidStr (fun e => dumpNames e.2) f.bankNames :
      PyValue A).repacked.dict? uuidOfStr loadNames = some f.bankNames :=
    PyValue.dict?_ofDict uuidOfStr_uuidStr fun e _ => loadNames_dumpNames e.2
  simp [restoreState, snapshotState, PyValue.get, List.lookup_cons, hmax, hnames]

inductive Op (A : Type) where
  | left (msg : DataMsg (BankInput A))
  | right (msg : DataMsg (BankInput A))
  | getResult (clientId : UUID)
  | discard (clientId : UUID)

inductive Result (A : Type) where
  | nothing
  | result (messages : List (List (String × String × A × String)))

/-- `UC2BankIdMergeFn` with its operations. -/
def component (gt : A → A → Bool) : Component (PyValue A) where
  State := UC2BankId A
  Op := Op A
  Result := Result A
  Choice := Unit
  step
    | _, .left msg, f => (.nothing, f.left gt msg)
    | _, .right msg, f => (.nothing, f.right msg)
    | _, .getResult clientId, f => (.result (f.getResult clientId).1, (f.getResult clientId).2)
    | _, .discard clientId, f => (.nothing, f.discard clientId)
  snapshot _ := snapshotState
  restore := restoreState
  Agree := Eq

end UC2BankId
