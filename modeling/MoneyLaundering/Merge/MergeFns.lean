import MoneyLaundering.Messages.GraphSrc
import MoneyLaundering.Ring.Controllers
import MoneyLaundering.Spill.LineCodec

/-!
# The merge functions

The business functions of the three merges.  The first joins two tables of banks; the
second joins averages with transactions that are spilled to disk; the third prunes the
edges of a graph that is spilled to disk by the nodes of high degree.
-/

/-! ## Banks -/

/-- An input of the merge of banks, of either side. -/
inductive BankInput (A : Type) where
  /-- The account with the largest amount of each bank. -/
  | maxByBank (data : Dict String (String × A))
  /-- The name of each bank. -/
  | bankNames (data : Dict String String)
deriving DecidableEq

/-- `UC2BankIdMergeFn`. -/
structure UC2BankId (A : Type) where
  maxAmounts : Dict UUID (Dict String (String × A))
  bankNames : Dict UUID (Dict String String)

namespace UC2BankId

variable {A : Type} (gt : A → A → Bool)

/-- Keep the larger amount of a bank. -/
def keepMax (state : Dict String (String × A)) (entry : String × String × A) :
    Dict String (String × A) :=
  match state.get? entry.1 with
  | none => state.set entry.1 entry.2
  | some curr => if gt entry.2.2 curr.2 then state.set entry.1 entry.2 else state

/-- `left`. -/
def left (msg : DataMsg (BankInput A)) (f : UC2BankId A) : UC2BankId A :=
  match msg.body with
  | .maxByBank data =>
    { f with
      maxAmounts := f.maxAmounts.set msg.clientId (data.entries.foldl
        (keepMax gt) (f.maxAmounts.getD msg.clientId Dict.empty)) }
  | .bankNames _ => f

/-- `right`. -/
def right (msg : DataMsg (BankInput A)) (f : UC2BankId A) : UC2BankId A :=
  match msg.body with
  | .maxByBank _ => f
  | .bankNames data =>
    { f with
      bankNames := f.bankNames.set msg.clientId (data.entries.foldl
        (fun names e => names.set e.1 e.2)
        (f.bankNames.getD msg.clientId Dict.empty)) }

/-- The banks of which both sides are known. -/
def mergeEntries (maxAmounts : Dict String (String × A))
    (bankNames : Dict String String) : List (String × String × A × String) :=
  maxAmounts.entries.filterMap fun e =>
    (bankNames.get? e.1).map fun name => (e.1, e.2.1, e.2.2, name)

/-- `discard`. -/
def discard (clientId : UUID) (f : UC2BankId A) : UC2BankId A :=
  ⟨f.maxAmounts.erase clientId, f.bankNames.erase clientId⟩

/-- `get_result`: one message. -/
def getResult (clientId : UUID) (f : UC2BankId A) :
    List (List (String × String × A × String)) × UC2BankId A :=
  ([mergeEntries (f.maxAmounts.getD clientId Dict.empty)
      (f.bankNames.getD clientId Dict.empty)], f.discard clientId)

end UC2BankId

/-- The merge of banks; `gt` compares amounts. -/
def uc2BankIdMergeFn {A : Type} (gt : A → A → Bool) :
    MergeFn (UC2BankId A) (UC2BankId A) (BankInput A)
      (List (String × String × A × String)) where
  provider := ⟨fun _ _ => ⟨Dict.empty, Dict.empty⟩, fun f => (f, f), fun s _ => s, id⟩
  left := UC2BankId.left gt
  right := UC2BankId.right
  getResult := UC2BankId.getResult
  discard := UC2BankId.discard

/-! ## Averages -/

/-- An input of the merge of averages, of either side. -/
inductive AverageInput (T A : Type) where
  /-- The average of each payment format. -/
  | avgByFormat (averages : Dict String A)
  | transactions (transactions : List T)
deriving DecidableEq

/-- A chunk of its result: transactions and the averages. -/
abbrev MergedChunk (T A : Type) : Type := List T × Dict String A

/-- `UC3BankIdMergeFn`. -/
structure UC3BankId (A : Type) where
  averages : Dict UUID (Dict String A)
  spill : PersistentSpill

namespace UC3BankId

variable {T A : Type} (codec : LineCodec T) (paymentFormat : T → String)

/-- The most transactions of one chunk, `_CHUNK_SIZE`. -/
def chunkSize : ℕ := 10000

/-- `left`. -/
def left (msg : DataMsg (AverageInput T A)) (f : UC3BankId A) : UC3BankId A :=
  match msg.body with
  | .avgByFormat averages =>
    { f with
      averages := f.averages.set msg.clientId (averages.entries.foldl
        (fun averages e => averages.set e.1 e.2)
        (f.averages.getD msg.clientId Dict.empty)) }
  | .transactions _ => f

/-- `right`. -/
def right (msg : DataMsg (AverageInput T A)) (f : UC3BankId A) : UC3BankId A :=
  match msg.body with
  | .avgByFormat _ => f
  | .transactions transactions =>
    { f with spill := transactions.foldl (codec.spill msg.clientId) f.spill }

section Chunks

variable (size : ℕ)

/-- The chunks of the transactions that have an average, and the batch at the end; `size` is
the most transactions of one chunk. -/
def batches (averages : Dict String A) :
    List T → List T → List (MergedChunk T A) × List T
  | batch, [] => ([], batch)
  | batch, t :: ts =>
    if (averages.get? (paymentFormat t)).isNone then batches averages batch ts
    else if size ≤ (batch ++ [t]).length then
      let rest := batches averages [] ts
      ((batch ++ [t], averages) :: rest.1, rest.2)
    else batches averages (batch ++ [t]) ts

/-- All chunks; there is at least one. -/
def chunks (averages : Dict String A) (ts : List T) : List (MergedChunk T A) :=
  let (full, batch) := batches paymentFormat size averages [] ts
  let emitted := if batch = [] then full else full ++ [(batch, averages)]
  if emitted = [] then [([], averages)] else emitted

/-- `get_result` with chunks of a size. -/
def getResultOf (clientId : UUID) (f : UC3BankId A) :
    List (MergedChunk T A) × UC3BankId A :=
  (chunks paymentFormat size (f.averages.getD clientId Dict.empty)
      (codec.entries clientId f.spill),
    ⟨f.averages.erase clientId, (f.spill.iterLines clientId).2⟩)

end Chunks

/-- `get_result`. -/
def getResult : UUID → UC3BankId A → List (MergedChunk T A) × UC3BankId A :=
  getResultOf codec paymentFormat chunkSize

/-- `discard`. -/
def discard (clientId : UUID) (f : UC3BankId A) : UC3BankId A :=
  ⟨f.averages.erase clientId, f.spill.clear clientId⟩

/-- What it puts into a checkpoint. -/
def provider : Snapshotable (UC3BankId A)
    (Dict UUID (Dict String A) × Dict UUID ℕ) where
  fresh drained f := ⟨Dict.empty, f.spill.restarted drained⟩
  snapshotState f := ((f.averages, f.spill.snapshotState.1),
    { f with spill := f.spill.snapshotState.2 })
  restoreState s f := ⟨s.1, f.spill.restoreState s.2⟩
  clearStaleSpill f := { f with spill := f.spill.clearAll }

end UC3BankId

/-- The merge of averages. -/
def uc3BankIdMergeFn {T A : Type} (codec : LineCodec T) (paymentFormat : T → String) :
    MergeFn (UC3BankId A) (Dict UUID (Dict String A) × Dict UUID ℕ)
      (AverageInput T A) (MergedChunk T A) where
  provider := UC3BankId.provider
  left := UC3BankId.left
  right := UC3BankId.right codec
  getResult := UC3BankId.getResult codec paymentFormat
  discard := UC3BankId.discard

/-! ## Graphs -/

open GraphSrc

/-- An input of the pruning of a graph, of either side. -/
inductive PruneInput where
  | highDegree (hiOut hiIn : List Node)
  | graph (nodes : Nodes)

/-- `UC4PruneMergeFn`. -/
structure UC4Prune where
  hiOut : Dict UUID NodeSet
  hiIn : Dict UUID NodeSet
  spill : PersistentSpill

namespace UC4Prune

/-- `SPLIT_THRESHOLD` and `_CHUNK_SIZE`. -/
def splitThreshold : ℕ := 250000

def chunkSize : ℕ := 50000

/-- The slices of a list of the given length. -/
def slices {T : Type} (n : ℕ) (xs : List T) : List (List T) :=
  (List.range ((xs.length + n - 1) / n)).map fun i => (xs.drop (i * n)).take n

variable (codec : LineCodec Entry) (order : NodeOrder) (side : ℕ → ℕ → ℕ)

/-- `_salted_tiles`: a node with too many paths through it is sent in tiles, which are cut
in the order in which a process goes through a set.  `side p s` is the integer part of the
root of `SPLIT_THRESHOLD * p / s`, so neither set may be empty. -/
def saltedTiles (node : Node) (preds succs : NodeSet)
    (_h : preds.size ≠ 0 ∧ succs.size ≠ 0) : List Nodes :=
  let chunkP := max 1 (side preds.size succs.size)
  let chunkS := max 1 (side succs.size preds.size)
  (slices chunkP (order.elems preds)).flatMap fun pchunk =>
    (slices chunkS (order.elems succs)).map fun schunk =>
      KeyedDict.empty.assign node
        (OrderedSet.ofList Node.key pchunk, OrderedSet.ofList Node.key schunk)

/-- The loop of `get_result`: what is yielded, and the batch at the end. -/
def prune (hiOut hiIn : NodeSet) : Nodes → ℕ → List Entry → List Nodes × Nodes
  | batch, _, [] => ([], batch)
  | batch, batchSize, (node, allPreds, allSuccs) :: entries =>
    let preds := allPreds.inter hiOut
    let succs := allSuccs.inter hiIn
    if h : preds.size = 0 ∨ succs.size = 0 then prune hiOut hiIn batch batchSize entries
    else if splitThreshold < preds.size * succs.size then
      let rest := prune hiOut hiIn batch batchSize entries
      (saltedTiles order side node preds succs (not_or.mp h) ++ rest.1, rest.2)
    else
      let batch := batch.assign node (preds, succs)
      let batchSize := batchSize + (preds.size + succs.size)
      if chunkSize ≤ batchSize then
        let rest := prune hiOut hiIn KeyedDict.empty 0 entries
        (batch :: rest.1, rest.2)
      else prune hiOut hiIn batch batchSize entries

/-- `left`. -/
def left (msg : DataMsg PruneInput) (f : UC4Prune) : UC4Prune :=
  match msg.body with
  | .highDegree hiOut hiIn =>
    { f with
      hiOut := f.hiOut.set msg.clientId
        ((f.hiOut.getD msg.clientId .empty).update hiOut)
      hiIn := f.hiIn.set msg.clientId
        ((f.hiIn.getD msg.clientId .empty).update hiIn) }
  | .graph _ => f

/-- `right`. -/
def right (msg : DataMsg PruneInput) (f : UC4Prune) : UC4Prune :=
  match msg.body with
  | .highDegree _ _ => f
  | .graph nodes =>
    { f with
      spill := nodes.entries.foldl (codec.spill msg.clientId) f.spill }

/-- The graphs of a result. -/
def graphs (hiOut hiIn : NodeSet) (entries : List Entry) : List Nodes :=
  let (full, batch) := prune order side hiOut hiIn KeyedDict.empty 0 entries
  if batch.size = 0 then full else full ++ [batch]

/-- `get_result`. -/
def getResult (clientId : UUID) (f : UC4Prune) : List Nodes × UC4Prune :=
  (graphs order side (f.hiOut.getD clientId .empty) (f.hiIn.getD clientId .empty)
      (codec.entries clientId f.spill),
    ⟨f.hiOut.erase clientId, f.hiIn.erase clientId, (f.spill.iterLines clientId).2⟩)

/-- `discard`. -/
def discard (clientId : UUID) (f : UC4Prune) : UC4Prune :=
  ⟨f.hiOut.erase clientId, f.hiIn.erase clientId, f.spill.clear clientId⟩

/-- What it puts into a checkpoint. -/
def provider : Snapshotable UC4Prune
    (Dict UUID NodeSet × Dict UUID NodeSet × Dict UUID ℕ) where
  fresh drained f := ⟨Dict.empty, Dict.empty, f.spill.restarted drained⟩
  snapshotState f := ((f.hiOut, f.hiIn, f.spill.snapshotState.1),
    { f with spill := f.spill.snapshotState.2 })
  restoreState s f := ⟨s.1, s.2.1, f.spill.restoreState s.2.2⟩
  clearStaleSpill f := { f with spill := f.spill.clearAll }

end UC4Prune

/-- The pruning of a graph. -/
def uc4PruneMergeFn (codec : LineCodec Entry) (order : NodeOrder) (side : ℕ → ℕ → ℕ) :
    MergeFn UC4Prune (Dict UUID NodeSet × Dict UUID NodeSet × Dict UUID ℕ) PruneInput
      Nodes where
  provider := UC4Prune.provider
  left := UC4Prune.left
  right := UC4Prune.right codec
  getResult := UC4Prune.getResult codec order side
  discard := UC4Prune.discard
