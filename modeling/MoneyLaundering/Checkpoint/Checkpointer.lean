import Mathlib.Data.Finset.Basic
import MoneyLaundering.Checkpoint.Deduplicator
import MoneyLaundering.Support.Crash

/-!
# The checkpointer

Deduplication with batched checkpoints.  Acknowledgements are held until the
checkpoint that covers them is durable.  The machine below is one process with
its checkpoint file and the broker's view of its input queues.
-/

open Crash

/-! ## State providers -/

/-- The objects a checkpoint captures besides the dedup table: the business
function, the output counters and the extra providers, together with whatever
they keep on disk.

`fresh` is what a restarted process finds before it restores anything; its first
argument says how much of each unflushed buffer reached the disk. -/
structure Snapshotable (C S : Type) where
  fresh : (UUID → ℕ → ℕ) → C → C
  snapshotState : C → S × C
  restoreState : S → C → C
  clearStaleSpill : C → C

/-- The stored checkpoint.  `state` holds its entries `state`, `out_seq` and
`extra`. -/
structure Blob (S : Type) where
  state : S
  dedup : Dict ProducerId (ℕ × Finset ℕ)
  aborted : Finset UUID

/-- Whether the checkpoint recorded the given pair. -/
def Blob.Recorded {S : Type} (b : Blob S) (id : ProducerId × ℕ) : Prop :=
  (Deduplicator.restore b.dedup).Recorded id

/-! ## The machine -/

/-- The effects of a controller that a crash or an exception can separate. -/
inductive Effect where
  | snapshot
  | save
  | restore
  | ack
  | free
  | forward
  | send (shard : ℕ)
deriving DecidableEq

/-- A process, its checkpoint and its deliveries.  `τ` are delivery tags, one for
each copy in a queue; `ω` are the entries of the history. -/
structure Machine (C S τ ω : Type) where
  state : C
  dedup : Deduplicator
  pendingAcks : List τ
  aborted : Finset UUID
  dirty : Bool
  /-- Whether the process is consuming. -/
  up : Bool
  /-- The checkpoint on disk. -/
  store : Option (Blob S)
  acked : Finset τ
  /-- The tags handed to the current process. -/
  taken : Finset τ
  /-- The tags handed to any process so far. -/
  delivered : Finset τ
  /-- What happened so far, newest first. -/
  log : List ω

namespace Machine

variable {C S τ ω : Type}

/-- A machine that was never started. -/
def initial (c : C) : Machine C S τ ω :=
  ⟨c, .fresh, [], ∅, false, false, none, ∅, ∅, ∅, []⟩

/-- Append an entry to the history. -/
def logged (m : Machine C S τ ω) (e : ω) : Machine C S τ ω :=
  { m with log := e :: m.log }

/-- The machine right after a crash. -/
def reboot (K : Snapshotable C S) (drained : UUID → ℕ → ℕ)
    (m : Machine C S τ ω) : Machine C S τ ω :=
  { m with
    state := K.fresh drained m.state
    dedup := .fresh
    pendingAcks := []
    aborted := ∅
    dirty := false
    up := false
    taken := ∅ }

/-- Whether the durable dedup table has the given pair. -/
def StoreRecorded (m : Machine C S τ ω) (id : ProducerId × ℕ) : Prop :=
  ∃ b, m.store = some b ∧ b.Recorded id

section Acks

variable [DecidableEq τ]

/-- Acknowledge one delivery. -/
def ackTag (tag : τ) (m : Machine C S τ ω) : Machine C S τ ω :=
  { m with acked := insert tag m.acked }

/-- Acknowledge a list of deliveries. -/
def ackAll (tags : List τ) (m : Machine C S τ ω) : Machine C S τ ω :=
  { m with acked := m.acked ∪ tags.toFinset }

/-- Hand a copy to the process. -/
def deliver (tag : τ) (m : Machine C S τ ω) : Machine C S τ ω :=
  { m with
    taken := insert tag m.taken
    delivered := insert tag m.delivered }

theorem ackAll_nil (m : Machine C S τ ω) : m.ackAll [] = m := by
  simp [ackAll]

theorem ackTag_ackAll (m : Machine C S τ ω) (tags : List τ) (tag : τ) :
    (m.ackAll tags).ackTag tag = m.ackAll (tags ++ [tag]) := by
  have h : insert tag (m.acked ∪ tags.toFinset) =
      m.acked ∪ (tags ++ [tag]).toFinset := by
    ext x
    simp
  simp only [ackAll, ackTag, h]

end Acks

/-- The business state is captured; buffered bytes may reach the disk. -/
def snapshotted (K : Snapshotable C S) (m : Machine C S τ ω) :
    Machine C S τ ω :=
  { m with state := (K.snapshotState m.state).2 }

/-- The captured state replaces the checkpoint on disk. -/
def saved (s : S) (m : Machine C S τ ω) : Machine C S τ ω :=
  { m with
    store := some ⟨s, m.dedup.snapshot, m.aborted⟩
    dirty := false }

/-- A checkpoint of the whole state. -/
def checkpointed (K : Snapshotable C S) (m : Machine C S τ ω) :
    Machine C S τ ω :=
  (m.snapshotted K).saved (K.snapshotState m.state).1

/-- Every held acknowledgement is sent. -/
def released [DecidableEq τ] (m : Machine C S τ ω) : Machine C S τ ω :=
  { m.ackAll m.pendingAcks with pendingAcks := [] }

/-- A message was applied and its acknowledgement is held back. -/
def recorded {α : Type} (tag : τ) (msg : DataMsg α) (m : Machine C S τ ω) :
    Machine C S τ ω :=
  { m with
    dedup := m.dedup.record msg.producerId msg.seq
    dirty := true
    pendingAcks := m.pendingAcks ++ [tag] }

/-- A restarted process takes over the state of a checkpoint. -/
def restored (K : Snapshotable C S) (b : Blob S) (m : Machine C S τ ω) :
    Machine C S τ ω :=
  { m with
    state := K.restoreState b.state m.state
    dedup := .restore b.dedup
    aborted := b.aborted }

end Machine

/-! ## Operations -/

namespace Checkpointer

variable {C S τ ω α : Type} [DecidableEq τ]

/-- Acknowledge one delivery now. -/
def ack (tag : τ) : Prog Effect (Machine C S τ ω) Unit :=
  Prog.change .ack (Machine.ackTag tag)

/-- Capture the state, then replace the checkpoint file. -/
def save (K : Snapshotable C S) : Prog Effect (Machine C S τ ω) Unit := do
  let s ← Prog.act .snapshot fun m =>
    ((K.snapshotState m.state).1, m.snapshotted K)
  Prog.change .save (Machine.saved s)

/-- Release the held acknowledgements. -/
def releaseAcks : Prog Effect (Machine C S τ ω) Unit := do
  let m ← Prog.read
  Prog.forEach m.pendingAcks ack
  Prog.modify fun m => { m with pendingAcks := [] }

/-- Save if there is something to save, then release the acknowledgements. -/
def checkpointAndFlush (K : Snapshotable C S) (force : Bool) :
    Prog Effect (Machine C S τ ω) Unit := do
  let m ← Prog.read
  Prog.when (m.dirty || force) (save K)
  releaseAcks

/-- The public entry to `checkpointAndFlush`. -/
def flush (K : Snapshotable C S) (force : Bool) :
    Prog Effect (Machine C S τ ω) Unit :=
  checkpointAndFlush K force

/-- Remember that a client was aborted. -/
def markAborted (clientId : UUID) : Prog Effect (Machine C S τ ω) Unit :=
  Prog.modify fun m =>
    { m with aborted := insert clientId m.aborted, dirty := true }

/-- Process one delivery of a data message at most once. -/
def handleData (K : Snapshotable C S) (every : ℕ) (tag : τ) (msg : DataMsg α)
    (apply : Prog Effect (Machine C S τ ω) Unit) :
    Prog Effect (Machine C S τ ω) Unit := do
  let m ← Prog.read
  if msg.clientId ∈ m.aborted then ack tag
  else if m.dedup.isDuplicate msg.producerId msg.seq then ack tag
  else do
    apply
    Prog.modify (Machine.recorded tag msg)
    let m ← Prog.read
    Prog.when (max 1 every ≤ m.pendingAcks.length) (checkpointAndFlush K false)

/-- Load the checkpoint, if there is one. -/
def restore (K : Snapshotable C S) :
    Prog Effect (Machine C S τ ω) Bool := do
  let m ← Prog.read
  match m.store with
  | none => do
    Prog.change .restore fun m => { m with state := K.clearStaleSpill m.state }
    pure false
  | some b => do
    Prog.change .restore (Machine.restored K b)
    pure true

/-- Route one delivery to its handler. -/
def dispatch (K : Snapshotable C S) (every : ℕ) (tag : τ) (msg : Message α)
    (onEof : UUID → ℤ → Prog Effect (Machine C S τ ω) Unit)
    (onData : DataMsg α → Prog Effect (Machine C S τ ω) Unit)
    (onAbort : UUID → Prog Effect (Machine C S τ ω) Unit) :
    Prog Effect (Machine C S τ ω) Unit :=
  match msg with
  | .eof clientId expectedCount => do
    flush K false
    onEof clientId expectedCount
    ack tag
  | .abort clientId => do
    onAbort clientId
    ack tag
  | .data msg => handleData K every tag msg (onData msg)

/-! ## Specifications -/

section Specs

variable {P : Machine C S τ ω → Prop} {Q : Machine C S τ ω → Prop}
  {I : Machine C S τ ω → Prop}

theorem spec_ack {tag : τ} (hI : ∀ m, P m → I m)
    (hQ : ∀ m, P m → Q (m.ackTag tag)) :
    Spec P (ack tag) (fun _ => Q) I :=
  Spec.change hI hQ

omit [DecidableEq τ] in
theorem spec_save {K : Snapshotable C S} (hbefore : ∀ m, P m → I m)
    (hbetween : ∀ m, P m → I (m.snapshotted K))
    (hQ : ∀ m, P m → Q (m.checkpointed K)) :
    Spec P (save K) (fun _ => Q) I := by
  refine Spec.bind (Q := fun s t =>
    ∃ m, P m ∧ s = (K.snapshotState m.state).1 ∧ t = m.snapshotted K) ?_ ?_
  · exact Spec.act hbefore fun m hm => ⟨m, hm, rfl, rfl⟩
  · intro s
    refine Spec.change ?_ ?_
    · rintro _ ⟨m, hm, -, rfl⟩
      exact hbetween m hm
    · rintro _ ⟨m, hm, rfl, rfl⟩
      exact hQ m hm

/-- Acknowledgements go out one by one, so `I` has to hold for every prefix of
the held ones. -/
theorem spec_releaseAcks
    (hI : ∀ m tags rest, P m → m.pendingAcks = tags ++ rest → I (m.ackAll tags))
    (hQ : ∀ m, P m → Q m.released) :
    Spec P releaseAcks (fun _ => Q) I := by
  refine Spec.read_bind fun m => Spec.bind
    (Q := fun _ t => P m ∧ t = m.ackAll m.pendingAcks) ?_ fun _ => ?_
  · refine (Spec.forEach (I := fun tags t => P m ∧ t = m.ackAll tags)
      m.pendingAcks ?_).pre ?_
    · intro before tag after hsplit
      refine spec_ack ?_ ?_
      · rintro _ ⟨hm, rfl⟩
        exact hI m before (tag :: after) hm hsplit
      · rintro _ ⟨hm, rfl⟩
        exact ⟨hm, Machine.ackTag_ackAll m before tag⟩
    · rintro _ ⟨rfl, hm⟩
      exact ⟨hm, (Machine.ackAll_nil _).symm⟩
  · refine Spec.modify ?_
    rintro _ ⟨hm, rfl⟩
    exact hQ m hm

theorem spec_checkpointAndFlush {R : Machine C S τ ω → Prop}
    {K : Snapshotable C S} {force : Bool}
    (hsave : ∀ m, P m → (m.dirty || force) = true →
      I m ∧ I (m.snapshotted K) ∧ R (m.checkpointed K))
    (hskip : ∀ m, P m → m.dirty = false → force = false → R m)
    (hI : ∀ m tags rest, R m → m.pendingAcks = tags ++ rest → I (m.ackAll tags))
    (hQ : ∀ m, R m → Q m.released) :
    Spec P (checkpointAndFlush K force) (fun _ => Q) I := by
  refine Spec.read_bind fun m => Spec.bind (Q := fun _ => R) ?_
    fun _ => spec_releaseAcks hI hQ
  refine Spec.when ?_ ?_
  · intro hc
    refine spec_save ?_ ?_ ?_
    · rintro _ ⟨rfl, hm⟩
      exact (hsave _ hm hc).1
    · rintro _ ⟨rfl, hm⟩
      exact (hsave _ hm hc).2.1
    · rintro _ ⟨rfl, hm⟩
      exact (hsave _ hm hc).2.2
  · rintro hc _ ⟨rfl, hm⟩
    rw [Bool.not_eq_true, Bool.or_eq_false_iff] at hc
    exact hskip _ hm hc.1 hc.2

/-- One delivery: an aborted client's and a duplicate are acknowledged at once;
any other message is applied and recorded, and a full batch is flushed. -/
theorem spec_handleData {R : Machine C S τ ω → Prop} {K : Snapshotable C S}
    {every : ℕ} {tag : τ} {msg : DataMsg α}
    {apply : Prog Effect (Machine C S τ ω) Unit}
    (haborted : ∀ m, P m → msg.clientId ∈ m.aborted →
      I m ∧ Q (m.ackTag tag))
    (hduplicate : ∀ m, P m → msg.clientId ∉ m.aborted →
      m.dedup.Recorded msg.identity → I m ∧ Q (m.ackTag tag))
    (happly : Spec
      (fun m => P m ∧ msg.clientId ∉ m.aborted ∧
        ¬m.dedup.Recorded msg.identity)
      apply (fun _ m => R (m.recorded tag msg)) I)
    (hflush : Spec (fun m => R m ∧ max 1 every ≤ m.pendingAcks.length)
      (checkpointAndFlush K false) (fun _ => Q) I)
    (hhold : ∀ m, R m → m.pendingAcks.length < max 1 every → Q m) :
    Spec P (handleData K every tag msg apply) (fun _ => Q) I := by
  refine Spec.read_bind fun m => Spec.ite ?_ fun hnot => Spec.ite ?_ ?_
  · intro hmem
    refine spec_ack ?_ ?_
    · rintro _ ⟨rfl, hm⟩
      exact (haborted _ hm hmem).1
    · rintro _ ⟨rfl, hm⟩
      exact (haborted _ hm hmem).2
  · intro hdup
    refine spec_ack ?_ ?_
    · rintro _ ⟨rfl, hm⟩
      exact (hduplicate _ hm hnot hdup).1
    · rintro _ ⟨rfl, hm⟩
      exact (hduplicate _ hm hnot hdup).2
  · intro hnew
    refine Spec.bind (happly.pre ?_) fun _ => ?_
    · rintro _ ⟨rfl, hm⟩
      exact ⟨hm, hnot, hnew⟩
    · refine Spec.bind (Spec.modify (Q := R) fun _ h => h) fun _ => ?_
      refine Spec.read_bind fun m' => Spec.when ?_ ?_
      · intro hfull
        refine hflush.pre ?_
        rintro _ ⟨rfl, hm⟩
        exact ⟨hm, hfull⟩
      · rintro hfull _ ⟨rfl, hm⟩
        exact hhold _ hm (not_le.mp hfull)

omit [DecidableEq τ] in
theorem spec_restore {K : Snapshotable C S} {Q : Bool → Machine C S τ ω → Prop}
    (hI : ∀ m, P m → I m)
    (hnone : ∀ m, P m → m.store = none →
      Q false { m with state := K.clearStaleSpill m.state })
    (hsome : ∀ m b, P m → m.store = some b → Q true (m.restored K b)) :
    Spec P (restore K) Q I := by
  refine Spec.read_bind fun m => ?_
  cases hstore : m.store with
  | none =>
      refine Spec.bind (Q := fun _ => Q false)
        (Spec.change ?_ ?_) fun _ => Spec.pure fun _ h => h
      · rintro _ ⟨rfl, hm⟩
        exact hI _ hm
      · rintro _ ⟨rfl, hm⟩
        exact hnone _ hm hstore
  | some b =>
      refine Spec.bind (Q := fun _ => Q true)
        (Spec.change ?_ ?_) fun _ => Spec.pure fun _ h => h
      · rintro _ ⟨rfl, hm⟩
        exact hI _ hm
      · rintro _ ⟨rfl, hm⟩
        exact hsome _ b hm hstore

theorem spec_dispatch {K : Snapshotable C S} {every : ℕ} {tag : τ}
    {msg : Message α} {onEof : UUID → ℤ → Prog Effect (Machine C S τ ω) Unit}
    {onData : DataMsg α → Prog Effect (Machine C S τ ω) Unit}
    {onAbort : UUID → Prog Effect (Machine C S τ ω) Unit}
    (heof : ∀ c k, msg = .eof c k → Spec P
      (do flush K false; onEof c k; ack tag) (fun _ => Q) I)
    (habort : ∀ c, msg = .abort c → Spec P
      (do onAbort c; ack tag) (fun _ => Q) I)
    (hdata : ∀ d, msg = .data d → Spec P
      (handleData K every tag d (onData d)) (fun _ => Q) I) :
    Spec P (dispatch K every tag msg onEof onData onAbort) (fun _ => Q) I := by
  cases msg with
  | eof c k => exact heof c k rfl
  | abort c => exact habort c rfl
  | data d => exact hdata d rfl

end Specs

end Checkpointer
