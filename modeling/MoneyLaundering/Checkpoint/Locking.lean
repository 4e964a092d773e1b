import MoneyLaundering.Checkpoint.Checkpointer
import MoneyLaundering.Support.Lock

/-!
# The lock of the checkpointer

Every public operation of a checkpointer takes its lock, and a data message is applied
with the lock held.  The operations of `Checkpointer` leave the lock out; here they are
with the lock, and what relates the two.
-/

open Crash LockProg

namespace LockedCheckpointer

variable {C S τ ω α : Type} [DecidableEq τ]

/-- `flush`. -/
def flush (K : Snapshotable C S) (force : Bool) :
    LockProg Effect (Machine C S τ ω) Unit :=
  withLock (lift (Checkpointer.checkpointAndFlush K force))

/-- `mark_aborted`. -/
def markAborted (clientId : UUID) : LockProg Effect (Machine C S τ ω) Unit :=
  withLock (lift (Checkpointer.markAborted clientId))

/-- `handle_data`: the message is applied under the lock. -/
def handleData (K : Snapshotable C S) (every : ℕ) (tag : τ) (msg : DataMsg α)
    (apply : LockProg Effect (Machine C S τ ω) Unit) :
    LockProg Effect (Machine C S τ ω) Unit :=
  withLock do
    let m ← lift Prog.read
    if msg.clientId ∈ m.aborted then lift (Checkpointer.ack tag)
    else if m.dedup.isDuplicate msg.producerId msg.seq then
      lift (Checkpointer.ack tag)
    else do
      apply
      lift (Prog.modify (Machine.recorded tag msg))
      let m ← lift Prog.read
      when (max 1 every ≤ m.pendingAcks.length)
        (lift (Checkpointer.checkpointAndFlush K false))

/-- `dispatch`. -/
def dispatch (K : Snapshotable C S) (every : ℕ) (tag : τ) (msg : Message α)
    (onEof : UUID → ℤ → LockProg Effect (Machine C S τ ω) Unit)
    (onData : DataMsg α → LockProg Effect (Machine C S τ ω) Unit)
    (onAbort : UUID → LockProg Effect (Machine C S τ ω) Unit) :
    LockProg Effect (Machine C S τ ω) Unit :=
  match msg with
  | .eof clientId expectedCount => do
    flush K false
    onEof clientId expectedCount
    lift (Checkpointer.ack tag)
  | .abort clientId => do
    onAbort clientId
    lift (Checkpointer.ack tag)
  | .data msg => handleData K every tag msg (onData msg)

/-! ## Without the lock -/

theorem erases_flush (K : Snapshotable C S) (force : Bool) :
    Erases false (flush K force : LockProg Effect (Machine C S τ ω) Unit)
      (Checkpointer.flush K force) :=
  Erases.withLock (Erases.lift _)

omit [DecidableEq τ] in
theorem erases_markAborted (clientId : UUID) :
    Erases false (markAborted clientId : LockProg Effect (Machine C S τ ω) Unit)
      (Checkpointer.markAborted clientId) :=
  Erases.withLock (Erases.lift _)

/-- A data message whose processing does not take the lock. -/
theorem erases_handleData (K : Snapshotable C S) (every : ℕ) (tag : τ)
    (msg : DataMsg α) {l : LockProg Effect (Machine C S τ ω) Unit}
    {m : Prog Effect (Machine C S τ ω) Unit} (h : Erases true l m) :
    Erases false (handleData K every tag msg l)
      (Checkpointer.handleData K every tag msg m) := by
  apply Erases.withLock
  apply Erases.bind (Erases.lift _)
  intro before
  apply Erases.ite (Erases.lift _)
  apply Erases.ite (Erases.lift _)
  apply Erases.bind h
  intro _
  apply Erases.bind (Erases.lift _)
  intro _
  apply Erases.bind (Erases.lift _)
  intro after
  exact Erases.when (Erases.lift _)

/-- One delivery, when no handler takes the lock while a data message is applied. -/
theorem erases_dispatch (K : Snapshotable C S) (every : ℕ) (tag : τ)
    (msg : Message α)
    {onEof : UUID → ℤ → LockProg Effect (Machine C S τ ω) Unit}
    {onData : DataMsg α → LockProg Effect (Machine C S τ ω) Unit}
    {onAbort : UUID → LockProg Effect (Machine C S τ ω) Unit}
    {onEof' : UUID → ℤ → Prog Effect (Machine C S τ ω) Unit}
    {onData' : DataMsg α → Prog Effect (Machine C S τ ω) Unit}
    {onAbort' : UUID → Prog Effect (Machine C S τ ω) Unit}
    (heof : ∀ c k, Erases false (onEof c k) (onEof' c k))
    (hdata : ∀ d, msg = .data d → Erases true (onData d) (onData' d))
    (habort : ∀ c, Erases false (onAbort c) (onAbort' c)) :
    Erases false (dispatch K every tag msg onEof onData onAbort)
      (Checkpointer.dispatch K every tag msg onEof' onData' onAbort') := by
  cases msg with
  | eof c k =>
      apply Erases.bind (erases_flush K false)
      intro _
      apply Erases.bind (heof c k)
      intro _
      exact Erases.lift _
  | abort c =>
      apply Erases.bind (habort c)
      intro _
      exact Erases.lift _
  | data d => exact erases_handleData K every tag d (hdata d rfl)

/-! ## Specifications -/

section Specs

variable {P Q R I B : Machine C S τ ω → Prop}

theorem spec_flush {K : Snapshotable C S} {force : Bool}
    (h : Spec P (Checkpointer.checkpointAndFlush K force) (fun _ => Q) I) :
    LockSpec false P (flush K force) (fun _ => Q) B I :=
  LockSpec.withLock (LockSpec.lift h)

omit [DecidableEq τ] in
theorem spec_markAborted {clientId : UUID}
    (hQ : ∀ m, P m →
      Q { m with aborted := insert clientId m.aborted, dirty := true }) :
    LockSpec false P (markAborted clientId) (fun _ => Q) B I :=
  LockSpec.withLock (LockSpec.lift (Spec.modify hQ))

/-- One delivery of a data message: as without the lock, unless its processing
waits. -/
theorem spec_handleData {K : Snapshotable C S} {every : ℕ} {tag : τ}
    {msg : DataMsg α} {apply : LockProg Effect (Machine C S τ ω) Unit}
    (haborted : ∀ m, P m → msg.clientId ∈ m.aborted →
      I m ∧ Q (m.ackTag tag))
    (hduplicate : ∀ m, P m → msg.clientId ∉ m.aborted →
      m.dedup.Recorded msg.identity → I m ∧ Q (m.ackTag tag))
    (happly : LockSpec true
      (fun m => P m ∧ msg.clientId ∉ m.aborted ∧
        ¬m.dedup.Recorded msg.identity)
      apply (fun _ m => R (m.recorded tag msg)) B I)
    (hflush : Spec (fun m => R m ∧ max 1 every ≤ m.pendingAcks.length)
      (Checkpointer.checkpointAndFlush K false) (fun _ => Q) I)
    (hhold : ∀ m, R m → m.pendingAcks.length < max 1 every → Q m) :
    LockSpec false P (handleData K every tag msg apply) (fun _ => Q) B I := by
  apply LockSpec.withLock
  apply LockSpec.read_bind
  intro before
  apply LockSpec.ite
  · intro hmem
    apply LockSpec.lift
    apply Checkpointer.spec_ack
    · rintro m ⟨rfl, hm⟩
      exact (haborted m hm hmem).1
    · rintro m ⟨rfl, hm⟩
      exact (haborted m hm hmem).2
  intro hnot
  apply LockSpec.ite
  · intro hdup
    apply LockSpec.lift
    apply Checkpointer.spec_ack
    · rintro m ⟨rfl, hm⟩
      exact (hduplicate m hm hnot hdup).1
    · rintro m ⟨rfl, hm⟩
      exact (hduplicate m hm hnot hdup).2
  intro hnew
  apply LockSpec.bind (happly.pre _)
  · intro _
    apply LockSpec.bind (Q := fun _ => R)
    · exact LockSpec.lift (Spec.modify fun _ h => h)
    intro _
    apply LockSpec.read_bind
    intro after
    apply LockSpec.when
    · intro hfull
      apply LockSpec.lift
      apply hflush.pre
      rintro m ⟨rfl, hm⟩
      exact ⟨hm, hfull⟩
    · rintro hfull m ⟨rfl, hm⟩
      exact hhold m hm (not_le.mp hfull)
  · rintro m ⟨rfl, hm⟩
    exact ⟨hm, hnot, hnew⟩

end Specs

end LockedCheckpointer
