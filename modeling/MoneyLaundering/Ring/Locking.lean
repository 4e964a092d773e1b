import MoneyLaundering.Checkpoint.Locking
import MoneyLaundering.Ring.Controllers

/-!
# A ring node and the lock of its checkpointer

No class of ring node calls the checkpointer while a data message is applied: the
emission that a message may complete sends, forwards and counts only.  So the node
with the lock does what the node of `RingNode` does.
-/

open Crash LockProg

namespace LockedRingNode

variable {Q F S E α β : Type} [DecidableEq Q]

/-- Programs of a node that takes the lock of its checkpointer. -/
abbrev LockedNodeProg (Q F S E β A : Type) : Type :=
  LockProg Effect (Node Q F S E β) A

/-- `_on_eof`. -/
def onEof (C : Controller Q F S E α β) (q : Q) (clientId : UUID)
    (expected : ℤ) : LockedNodeProg Q F S E β Unit := do
  let emits ← lift (Prog.compute (RingNode.noteEof C q clientId expected))
  when (emits ≠ []) (LockedCheckpointer.flush C.provider true)
  lift (RingNode.runEmits C emits)
  LockedCheckpointer.flush C.provider true
  lift (Prog.forEach emits (RingNode.free C))

/-- `_on_abort`. -/
def onAbort (C : Controller Q F S E α β) (clientId : UUID) :
    LockedNodeProg Q F S E β Unit := do
  lift (Prog.modify fun m =>
    m.withState fun s => { s with rc := s.rc.drop clientId })
  lift (RingNode.discard C clientId)
  LockedCheckpointer.markAborted clientId
  LockedCheckpointer.flush C.provider true
  lift (RingNode.downstreamAbort C clientId)

/-- `_on_data_msg`. -/
def onDataMsg (C : Controller Q F S E α β) (tag : Q × ℕ) (msg : Message α) :
    LockedNodeProg Q F S E β Unit :=
  LockedCheckpointer.dispatch C.provider C.checkpointEvery tag msg
    (onEof C tag.1) (fun msg => lift (RingNode.onData C tag.1 msg)) (onAbort C)

variable (C : Controller Q F S E α β)

theorem erases_onEof (q : Q) (clientId : UUID) (expected : ℤ) :
    Erases false (onEof C q clientId expected)
      (RingNode.onEof C q clientId expected) := by
  apply Erases.bind (Erases.lift _)
  intro emits
  apply Erases.bind (Erases.when (LockedCheckpointer.erases_flush _ _))
  intro _
  apply Erases.bind (Erases.lift _)
  intro _
  apply Erases.bind (LockedCheckpointer.erases_flush _ _)
  intro _
  exact Erases.lift _

theorem erases_onAbort (clientId : UUID) :
    Erases false (onAbort C clientId) (RingNode.onAbort C clientId) := by
  apply Erases.bind (Erases.lift _)
  intro _
  apply Erases.bind (Erases.lift _)
  intro _
  apply Erases.bind (LockedCheckpointer.erases_markAborted _)
  intro _
  apply Erases.bind (LockedCheckpointer.erases_flush _ _)
  intro _
  exact Erases.lift _

/-- A delivery of an input queue is served as without the lock. -/
theorem erases_onDataMsg (tag : Q × ℕ) (msg : Message α) :
    Erases false (onDataMsg C tag msg) (RingNode.onDataMsg C tag msg) :=
  LockedCheckpointer.erases_dispatch _ _ _ _ (erases_onEof C tag.1)
    (fun _ _ => Erases.lift _) (erases_onAbort C)

end LockedRingNode
