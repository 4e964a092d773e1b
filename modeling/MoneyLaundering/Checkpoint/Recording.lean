import MoneyLaundering.Checkpoint.Checkpointer
import MoneyLaundering.Support.Following

/-!
# Checkpoints with more in them

A provider that puts more into its snapshots than another one, and restores the same from
them, cannot be told from it: the checkpointer runs as before.  A provider that records the
state that a snapshot was taken of is one of these.
-/

open Crash

/-- What is in a checkpoint, with its state changed. -/
def Blob.mapState {S S' : Type} (g : S' → S) (b : Blob S') : Blob S :=
  ⟨g b.state, b.dedup, b.aborted⟩

namespace Snapshotable

variable {C S S' : Type}

/-- The state after the snapshot is kept beside it; nobody reads it. -/
def recording (K : Snapshotable C S) : Snapshotable C (S × C) where
  fresh := K.fresh
  snapshotState c := (K.snapshotState c, (K.snapshotState c).2)
  restoreState s c := K.restoreState s.1 c
  clearStaleSpill := K.clearStaleSpill

/-- The snapshots of provider `K'` have those of `K` in them, and nothing else is read. -/
structure Follows (g : S' → S) (K' : Snapshotable C S') (K : Snapshotable C S) : Prop where
  fresh : K.fresh = K'.fresh
  snapshotState : ∀ c, K.snapshotState c = ((g (K'.snapshotState c).1), (K'.snapshotState c).2)
  restoreState : ∀ s c, K.restoreState (g s) c = K'.restoreState s c
  clearStaleSpill : K.clearStaleSpill = K'.clearStaleSpill

theorem follows_recording (K : Snapshotable C S) : Follows Prod.fst K.recording K :=
  ⟨rfl, fun _ => rfl, fun _ _ => rfl, rfl⟩

end Snapshotable

namespace Machine

variable {C S S' τ ω : Type}

/-- The machine whose checkpoint has something else in it. -/
def mapStore (g : S' → S) (m : Machine C S' τ ω) : Machine C S τ ω where
  state := m.state
  dedup := m.dedup
  pendingAcks := m.pendingAcks
  aborted := m.aborted
  dirty := m.dirty
  up := m.up
  store := m.store.map (Blob.mapState g)
  acked := m.acked
  taken := m.taken
  delivered := m.delivered
  log := m.log

variable {g : S' → S} {K' : Snapshotable C S'} {K : Snapshotable C S}

theorem mapStore_reboot (hK : K'.Follows g K) (drained : UUID → ℕ → ℕ)
    (m : Machine C S' τ ω) :
    (m.mapStore g).reboot K drained = (m.reboot K' drained).mapStore g := by
  rw [reboot, hK.fresh]
  rfl

theorem mapStore_snapshotted (hK : K'.Follows g K) (m : Machine C S' τ ω) :
    (m.mapStore g).snapshotted K = (m.snapshotted K').mapStore g := by
  have hstate : (m.mapStore g).state = m.state := rfl
  rw [snapshotted, hstate, hK.snapshotState]
  rfl

theorem mapStore_restored (hK : K'.Follows g K) (b : Blob S') (m : Machine C S' τ ω) :
    (m.mapStore g).restored K (b.mapState g) = (m.restored K' b).mapStore g := by
  have hstate : (m.mapStore g).state = m.state := rfl
  have hblob : (b.mapState g).state = g b.state := rfl
  rw [restored, hstate, hblob, hK.restoreState]
  rfl

end Machine

namespace Checkpointer

open Prog (Follows)

variable {C S S' τ ω α : Type} [DecidableEq τ] {g : S' → S} {K' : Snapshotable C S'}
  {K : Snapshotable C S}

theorem follows_ack (tag : τ) :
    Follows (Machine.mapStore g) (ack tag : Prog Effect (Machine C S' τ ω) Unit) (ack tag) :=
  .change fun _ => rfl

omit [DecidableEq τ] in
theorem follows_save (hK : K'.Follows g K) :
    Follows (Machine.mapStore g) (save K' : Prog Effect (Machine C S' τ ω) Unit) (save K) := by
  constructor
  · exact fun _ => rfl
  · intro m
    change Machine.saved (K.snapshotState m.state).1 ((m.mapStore g).snapshotted K) = _
    rw [Machine.mapStore_snapshotted hK, hK.snapshotState]
    rfl
  · intro m
    change [(Effect.snapshot, m.mapStore g), (.save, (m.mapStore g).snapshotted K)] = _
    rw [Machine.mapStore_snapshotted hK]
    rfl

theorem follows_flush (hK : K'.Follows g K) (force : Bool) :
    Follows (Machine.mapStore g) (flush K' force : Prog Effect (Machine C S' τ ω) Unit)
      (flush K force) := by
  refine .read_bind fun m => .bind (.when (follows_save hK)) fun _ => .read_bind fun m => ?_
  exact .bind (.forEach (fun tag => follows_ack tag) _) fun _ => .modify fun _ => rfl

omit [DecidableEq τ] in
theorem follows_restore (hK : K'.Follows g K) :
    Follows (Machine.mapStore g) (restore K' : Prog Effect (Machine C S' τ ω) Bool)
      (restore K) := by
  refine .read_bind fun m => ?_
  have hstore : (m.mapStore g).store = m.store.map (Blob.mapState g) := rfl
  rw [hstore]
  cases m.store with
  | none =>
      refine .bind (.change fun m => ?_) fun _ => .pure false
      rw [hK.clearStaleSpill]
      rfl
  | some b =>
      exact .bind (.change (Machine.mapStore_restored hK b)) fun _ => .pure true

theorem follows_handleData (hK : K'.Follows g K) (every : ℕ) (tag : τ) (msg : DataMsg α)
    {apply' : Prog Effect (Machine C S' τ ω) Unit} {apply : Prog Effect (Machine C S τ ω) Unit}
    (happly : Follows (Machine.mapStore g) apply' apply) :
    Follows (Machine.mapStore g) (handleData K' every tag msg apply')
      (handleData K every tag msg apply) := by
  refine .read_bind fun m => .ite (follows_ack tag) (.ite (follows_ack tag) ?_)
  refine .bind happly fun _ => .bind (.modify fun _ => rfl) fun _ => ?_
  exact .read_bind fun m => .when (follows_flush hK false)

theorem follows_dispatch (hK : K'.Follows g K) (every : ℕ) (tag : τ) (msg : Message α)
    {onEof' : UUID → ℤ → Prog Effect (Machine C S' τ ω) Unit}
    {onData' : DataMsg α → Prog Effect (Machine C S' τ ω) Unit}
    {onAbort' : UUID → Prog Effect (Machine C S' τ ω) Unit}
    {onEof : UUID → ℤ → Prog Effect (Machine C S τ ω) Unit}
    {onData : DataMsg α → Prog Effect (Machine C S τ ω) Unit}
    {onAbort : UUID → Prog Effect (Machine C S τ ω) Unit}
    (heof : ∀ c k, Follows (Machine.mapStore g) (onEof' c k) (onEof c k))
    (hdata : ∀ d, Follows (Machine.mapStore g) (onData' d) (onData d))
    (habort : ∀ c, Follows (Machine.mapStore g) (onAbort' c) (onAbort c)) :
    Follows (Machine.mapStore g) (dispatch K' every tag msg onEof' onData' onAbort')
      (dispatch K every tag msg onEof onData onAbort) := by
  cases msg with
  | eof c k => exact .bind (follows_flush hK false) fun _ => .bind (heof c k) fun _ =>
      follows_ack tag
  | abort c => exact .bind (habort c) fun _ => follows_ack tag
  | data d => exact follows_handleData hK every tag d (hdata d)

end Checkpointer
