import Mathlib.Data.List.Perm.Basic
import MoneyLaundering.Join.JoinFns
import MoneyLaundering.Ring.Controllers
import MoneyLaundering.Support.PyValue
import MoneyLaundering.Support.Restart

/-!
# The snapshots of the counts

What a controller counts rides its checkpoint: the completion state of a ring, the counts
of what was sent, the announced counts of a merge, and the counts of a join.  Identifiers
and shards become texts in a snapshot, and sets become lists.

Three of them come back as they were.  The clients that a join has finalized may come back
in another order, which only their own list shows.
-/

open Messages JoinRouteHandler

/-- The order in which a set is gone through. -/
structure Listing (X : Type) where
  elems : Finset X → List X
  eq_val : ∀ s, (elems s : Multiset X) = s.val

namespace Listing

variable {X : Type} [DecidableEq X]

theorem toFinset_elems (order : Listing X) (s : Finset X) : (order.elems s).toFinset = s := by
  ext x
  rw [List.mem_toFinset, ← Multiset.mem_coe, order.eq_val, Finset.mem_val]

end Listing

variable {A : Type}

/-- `{str(c): n for c, n in counts.items()}`. -/
def dumpCounts (counts : Dict UUID ℤ) : PyValue A :=
  .ofDict uuidStr (fun e => .int e.2) counts

/-- `{UUID(c): n for c, n in snapshot.items()}`. -/
def loadCounts (v : PyValue A) : Option (Dict UUID ℤ) := v.dict? uuidOfStr PyValue.int?

theorem loadCounts_dumpCounts (counts : Dict UUID ℤ) :
    loadCounts (dumpCounts counts : PyValue A).repacked = some counts := by
  apply PyValue.dict?_ofDict uuidOfStr_uuidStr
  intro e _
  simp

/-! ## Counts by shard -/

namespace ShardCounts

/-- `{str(s): n for s, n in sent.items()}`. -/
def dump (sent : ShardCounts) : PyValue A :=
  .ofDict Nat.repr (fun e : ℕ × ℕ => .int e.2) sent

/-- `{int(s): n for s, n in sent.items()}`. -/
def load (v : PyValue A) : Option ShardCounts :=
  v.dict? (fun s => parseInt 10 s.toList) PyValue.nat?

theorem load_dump (sent : ShardCounts) : load (dump sent : PyValue A).repacked = some sent := by
  apply PyValue.dict?_ofDict parseInt_repr
  intro e _
  simp

end ShardCounts

namespace SentCounts

/-- `snapshot_state`. -/
def snapshotState (counts : SentCounts) : PyValue A :=
  .ofDict uuidStr (fun e => ShardCounts.dump e.2) counts

/-- `restore_state`. -/
def restoreState (v : PyValue A) : Option SentCounts := v.dict? uuidOfStr ShardCounts.load

theorem restoreState_snapshotState (counts : SentCounts) :
    restoreState (snapshotState counts : PyValue A).repacked = some counts :=
  PyValue.dict?_ofDict uuidOfStr_uuidStr fun e _ => ShardCounts.load_dump e.2

inductive Op where
  | add (clientId : UUID) (shard : ℕ)
  | pop (clientId : UUID)

inductive Result where
  | nothing
  | counts (counts : ShardCounts)

/-- `SentCounts` with its operations. -/
def component : Component (PyValue A) where
  State := SentCounts
  Op := Op
  Result := Result
  Choice := Unit
  step
    | _, .add clientId shard, counts => (.nothing, counts.add clientId shard)
    | _, .pop clientId, counts => (.counts (counts.pop clientId).1, (counts.pop clientId).2)
  snapshot _ := snapshotState
  restore := restoreState
  Agree := Eq

end SentCounts

/-! ## The announced counts of a merge -/

namespace MergeEofCounts

/-- `snapshot_state`. -/
def snapshotState (counts : MergeEofCounts) : PyValue A :=
  .dict [("left", dumpCounts counts.left), ("right", dumpCounts counts.right)]

/-- `restore_state`. -/
def restoreState (v : PyValue A) : Option MergeEofCounts := do
  let left ← v.get "left" (.dict [])
  let right ← v.get "right" (.dict [])
  return ⟨← loadCounts left, ← loadCounts right⟩

theorem restoreState_snapshotState (counts : MergeEofCounts) :
    restoreState (snapshotState counts : PyValue A).repacked = some counts := by
  simp [restoreState, snapshotState, PyValue.get, loadCounts_dumpCounts, List.lookup_cons]

inductive Op where
  | note (side : Side) (clientId : UUID) (expected : ℤ)
  | combined (clientId : UUID)
  | drop (clientId : UUID)

inductive Result where
  | nothing
  | combined (expected : Option ℤ)

/-- `MergeEofCounts` with what a merge does with it. -/
def component : Component (PyValue A) where
  State := MergeEofCounts
  Op := Op
  Result := Result
  Choice := Unit
  step
    | _, .note side clientId expected, counts => (.nothing, counts.note side clientId expected)
    | _, .combined clientId, counts => (.combined (counts.combined clientId), counts)
    | _, .drop clientId, counts => (.nothing, counts.drop clientId)
  snapshot _ := snapshotState
  restore := restoreState
  Agree := Eq

end MergeEofCounts

/-! ## The counts of a join -/

namespace JoinCounts

/-- `snapshot_state`. -/
def snapshotState (order : SetOrder UUID) (counts : JoinCounts) : PyValue A :=
  .dict [("received", .ofDict uuidStr (fun e : UUID × ℕ => .int e.2) counts.received),
    ("expected", dumpCounts counts.expected),
    ("finalized", .ofTexts uuidStr (order.elems counts.finalized))]

/-- `restore_state`; a set is the distinct elements of a list. -/
def restoreState (v : PyValue A) : Option JoinCounts := do
  let received ← v.get "received" (.dict [])
  let expected ← v.get "expected" (.dict [])
  let finalized ← v.get "finalized" (.list [])
  return ⟨← received.dict? uuidOfStr PyValue.nat?, ← loadCounts expected,
    (← finalized.texts? uuidOfStr).dedup⟩

/-- `finalized_clients`. -/
def finalizedClients (order : SetOrder UUID) (counts : JoinCounts) : List UUID :=
  order.elems counts.finalized

theorem restoreState_snapshotState (order : SetOrder UUID) (counts : JoinCounts) :
    restoreState (snapshotState order counts : PyValue A).repacked =
      some ⟨counts.received, counts.expected, (order.elems counts.finalized).dedup⟩ := by
  have hreceived : PyValue.dict? uuidOfStr PyValue.nat? (PyValue.ofDict uuidStr
      (fun e : UUID × ℕ => .int e.2) counts.received : PyValue A).repacked =
        some counts.received := by
    apply PyValue.dict?_ofDict uuidOfStr_uuidStr
    intro e _
    simp
  have hfinalized := PyValue.texts?_ofTexts (A := A) uuidOfStr_uuidStr
    (order.elems counts.finalized)
  simp [restoreState, snapshotState, PyValue.get, List.lookup_cons, hreceived, hfinalized,
    loadCounts_dumpCounts]

inductive Op where
  | incReceived (clientId : UUID)
  | setExpected (clientId : UUID) (expected : ℤ)
  | isComplete (clientId : UUID)
  | isFinalized (clientId : UUID)
  | finalizedClients
  | markFinalized (clientId : UUID)
  | drop (clientId : UUID)

inductive Result where
  | nothing
  | flag (value : Bool)
  | clients (clients : List UUID)

/-- The same result, up to the order of a list of clients. -/
inductive Result.Agree : Result → Result → Prop where
  | nothing : Agree .nothing .nothing
  | flag (value : Bool) : Agree (.flag value) (.flag value)
  | clients {cs cs' : List UUID} (h : cs.Perm cs') : Agree (.clients cs) (.clients cs')

/-- `_JoinCounts` with its operations. -/
def component : Component (PyValue A) where
  State := JoinCounts
  Op := Op
  Result := Result
  Choice := SetOrder UUID
  step
    | _, .incReceived clientId, counts => (.nothing, counts.incReceived clientId)
    | _, .setExpected clientId expected, counts =>
      (.nothing, counts.setExpected clientId expected)
    | _, .isComplete clientId, counts => (.flag (counts.isComplete clientId), counts)
    | _, .isFinalized clientId, counts => (.flag (counts.isFinalized clientId), counts)
    | order, .finalizedClients, counts => (.clients (counts.finalizedClients order), counts)
    | _, .markFinalized clientId, counts => (.nothing, counts.markFinalized clientId)
    | _, .drop clientId, counts => (.nothing, counts.drop clientId)
  snapshot := snapshotState
  restore := restoreState
  Agree := Result.Agree

/-- The same counts, and the same set of finalized clients. -/
structure Same (counts counts' : JoinCounts) : Prop where
  received : counts.received = counts'.received
  expected : counts.expected = counts'.expected
  finalized : ∀ c, c ∈ counts.finalized ↔ c ∈ counts'.finalized

variable {counts counts' : JoinCounts}

theorem Same.perm_finalizedClients (h : Same counts counts') (order order' : SetOrder UUID) :
    (counts.finalizedClients order).Perm (counts'.finalizedClients order') := by
  have hdedup : counts.finalized.dedup.Perm counts'.finalized.dedup := by
    apply (List.perm_ext_iff_of_nodup (List.nodup_dedup _) (List.nodup_dedup _)).mpr
    intro c
    rw [List.mem_dedup, List.mem_dedup, h.finalized c]
  exact (order.perm _).trans (hdedup.trans (order'.perm _).symm)

theorem Same.isComplete_eq (h : Same counts counts') (clientId : UUID) :
    counts.isComplete clientId = counts'.isComplete clientId := by
  rw [isComplete, isComplete, h.received, h.expected]

theorem Same.isFinalized_eq (h : Same counts counts') (clientId : UUID) :
    counts.isFinalized clientId = counts'.isFinalized clientId := by
  rw [Bool.eq_iff_iff, isFinalized_iff, isFinalized_iff, h.finalized clientId]

theorem Same.incReceived (h : Same counts counts') (clientId : UUID) :
    Same (counts.incReceived clientId) (counts'.incReceived clientId) := by
  refine ⟨?_, h.expected, h.finalized⟩
  rw [JoinCounts.incReceived, JoinCounts.incReceived, h.received]

theorem Same.setExpected (h : Same counts counts') (clientId : UUID) (expected : ℤ) :
    Same (counts.setExpected clientId expected) (counts'.setExpected clientId expected) := by
  refine ⟨h.received, ?_, h.finalized⟩
  rw [JoinCounts.setExpected, JoinCounts.setExpected, h.expected]

theorem mem_finalized_markFinalized {c clientId : UUID} :
    c ∈ (counts.markFinalized clientId).finalized ↔
      c ∈ counts.finalized ∨ c = clientId := by
  rw [JoinCounts.markFinalized]
  split
  · next hmem =>
      constructor
      · exact Or.inl
      · intro h
        exact h.elim id fun heq => heq ▸ hmem
  · simp

theorem Same.markFinalized (h : Same counts counts') (clientId : UUID) :
    Same (counts.markFinalized clientId) (counts'.markFinalized clientId) := by
  refine ⟨?_, ?_, fun c => ?_⟩
  · rw [JoinCounts.markFinalized, JoinCounts.markFinalized, h.received]
  · rw [JoinCounts.markFinalized, JoinCounts.markFinalized, h.expected]
  · rw [mem_finalized_markFinalized, mem_finalized_markFinalized, h.finalized c]

theorem Same.drop (h : Same counts counts') (clientId : UUID) :
    Same (counts.drop clientId) (counts'.drop clientId) := by
  refine ⟨?_, ?_, fun c => ?_⟩
  · rw [JoinCounts.drop, JoinCounts.drop, h.received]
  · rw [JoinCounts.drop, JoinCounts.drop, h.expected]
  · simp only [JoinCounts.drop, List.mem_filter, h.finalized c]

/-- An operation keeps the counts the same, and only the list of the finalized clients can
come in another order. -/
theorem isSimulation_same : (component (A := A)).IsSimulation Same := by
  intro order order' op counts counts' h
  cases op with
  | incReceived clientId => exact ⟨.nothing, h.incReceived clientId⟩
  | setExpected clientId expected => exact ⟨.nothing, h.setExpected clientId expected⟩
  | isComplete clientId =>
      refine ⟨?_, h⟩
      change Result.Agree (.flag _) (.flag (JoinCounts.isComplete clientId counts'))
      rw [← h.isComplete_eq clientId]
      exact .flag _
  | isFinalized clientId =>
      refine ⟨?_, h⟩
      change Result.Agree (.flag _) (.flag (JoinCounts.isFinalized clientId counts'))
      rw [← h.isFinalized_eq clientId]
      exact .flag _
  | finalizedClients => exact ⟨.clients (h.perm_finalizedClients order order'), h⟩
  | markFinalized clientId => exact ⟨.nothing, h.markFinalized clientId⟩
  | drop clientId => exact ⟨.nothing, h.drop clientId⟩

/-- What comes back has the same clients finalized. -/
theorem same_restored (order : SetOrder UUID) (counts : JoinCounts) :
    Same counts ⟨counts.received, counts.expected, (order.elems counts.finalized).dedup⟩ := by
  refine ⟨rfl, rfl, fun c => ?_⟩
  rw [List.mem_dedup, (order.perm _).mem_iff, List.mem_dedup]

end JoinCounts

/-! ## The completion state of a ring -/

namespace Phase

/-- `phase.name`. -/
def name : Phase → String
  | .processing => "PROCESSING"
  | .emitted => "EMITTED"
  | .done => "DONE"

/-- `Phase[name]`. -/
def ofName? : String → Option Phase
  | "PROCESSING" => some .processing
  | "EMITTED" => some .emitted
  | "DONE" => some .done
  | _ => none

theorem ofName?_name (phase : Phase) : ofName? phase.name = some phase := by
  cases phase <;> rfl

end Phase

namespace Client

/-- What a snapshot has of a client. -/
def dump (cl : Client) : PyValue A :=
  .list [.int cl.expected, .int cl.received, ShardCounts.dump cl.sent, .str cl.phase.name]

def load : PyValue A → Option Client
  | .list [expected, received, sent, phase] => do
    return ⟨← expected.int?, ← received.nat?, ← ShardCounts.load sent,
      ← Phase.ofName? (← phase.str?)⟩
  | _ => none

theorem load_dump (cl : Client) : load (dump cl : PyValue A).repacked = some cl := by
  simp [load, dump, ShardCounts.load_dump, Phase.ofName?_name]

end Client

namespace RingCompletion

/-- `snapshot_state`. -/
def snapshotState (order : Listing UUID) (rc : RingCompletion) : PyValue A :=
  .dict [("clients", .ofDict uuidStr (fun e => e.2.dump) rc.clients),
    ("aborted", .ofTexts uuidStr (order.elems rc.aborted))]

/-- `restore_state`, which takes a snapshot without the key of the clients for their map. -/
def restoreState (v : PyValue A) : Option RingCompletion := do
  let clients ← v.get "clients" v
  let aborted ← v.get "aborted" (.list [])
  return ⟨← clients.dict? uuidOfStr Client.load, (← aborted.texts? uuidOfStr).toFinset⟩

theorem restoreState_snapshotState (order : Listing UUID) (rc : RingCompletion) :
    restoreState (snapshotState order rc : PyValue A).repacked = some rc := by
  have hclients : PyValue.dict? uuidOfStr Client.load (PyValue.ofDict uuidStr
      (fun e => e.2.dump) rc.clients : PyValue A).repacked = some rc.clients :=
    PyValue.dict?_ofDict uuidOfStr_uuidStr fun e _ => e.2.load_dump
  have haborted := PyValue.texts?_ofTexts (A := A) uuidOfStr_uuidStr (order.elems rc.aborted)
  simp [restoreState, snapshotState, PyValue.get, List.lookup_cons, hclients, haborted,
    order.toFinset_elems]

inductive Op where
  | onData (clientId : UUID)
  | drop (clientId : UUID)
  | onUpstreamEof (clientId : UUID) (expected : ℤ)
  | recheck
  | resolvedClients
  | reportSent (clientId : UUID) (sent : ShardCounts)
  | onToken (token : BarrierToken)

inductive Result where
  | nothing
  /-- The clients to emit. -/
  | emit (clients : List UUID)
  | clients (clients : List UUID)
  | actions (actions : List BarrierAction)

/-- `RingCompletion` with its operations. -/
def component (self : Peer) : Component (PyValue A) where
  State := RingCompletion
  Op := Op
  Result := Result
  Choice := Listing UUID
  step
    | _, .onData clientId, rc => (.emit (rc.onData clientId).2, (rc.onData clientId).1)
    | _, .drop clientId, rc => (.nothing, rc.drop clientId)
    | _, .onUpstreamEof clientId expected, rc =>
      (.emit (rc.onUpstreamEof clientId expected).2, (rc.onUpstreamEof clientId expected).1)
    | _, .recheck, rc => (.emit rc.recheck, rc)
    | _, .resolvedClients, rc => (.clients rc.resolvedClients, rc)
    | _, .reportSent clientId sent, rc =>
      (.actions (rc.reportSent self clientId sent).2, (rc.reportSent self clientId sent).1)
    | _, .onToken token, rc => (.actions (rc.onToken self token).2, (rc.onToken self token).1)
  snapshot := snapshotState
  restore := restoreState
  Agree := Eq

/-- No operation goes through the set of the aborted clients. -/
theorem indistinguishable_component (self : Peer) (rc : RingCompletion) :
    (component (A := A) self).Indistinguishable rc rc := by
  apply Component.indistinguishable_of_step_eq rfl
  intro order order' op rc
  cases op <;> rfl

end RingCompletion
