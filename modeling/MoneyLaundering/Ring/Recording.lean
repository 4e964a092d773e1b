import MoneyLaundering.Checkpoint.Recording
import MoneyLaundering.Ring.Deliveries

/-!
# Nodes that record what they checkpoint

A statement about a checkpoint and the state that it was taken of needs that state.  A node
may keep it beside its snapshot: nothing reads it, and every run of the node is a run of the
recording one, so what is shown of the recording node holds of the node.
-/

open Crash
open Crash.Prog (Follows)

variable {Q F S E α β : Type}

/-- What is recorded besides is forgotten. -/
def NodeSnapshot.forget (b : NodeSnapshot (S × F) E) : NodeSnapshot S E :=
  ⟨b.state.1, b.extra, b.outSeq, b.rc⟩

namespace Controller

/-- The node keeps the business state that a snapshot was taken of. -/
def recording (C : Controller Q F S E α β) : Controller Q F (S × F) E α β where
  self := C.self
  checkpointEvery := C.checkpointEvery
  nShards := C.nShards
  producer := C.producer
  fn := C.fn.recording
  extra₀ := C.extra₀
  process := C.process
  outputs := C.outputs
  countSent := C.countSent
  getResult := C.getResult
  sentCounts := C.sentCounts
  noteEof := C.noteEof
  discard := C.discard
  free := C.free

theorem follows_recording (C : Controller Q F S E α β) :
    C.recording.provider.Follows NodeSnapshot.forget C.provider :=
  ⟨rfl, fun _ => rfl, fun _ _ => rfl, rfl⟩

end Controller

namespace Node

/-- The node of which a recording node is the record. -/
def forget (m : Node Q F (S × F) E β) : Node Q F S E β := m.mapStore NodeSnapshot.forget

theorem storedRc_forget (m : Node Q F (S × F) E β) : m.forget.storedRc = m.storedRc := by
  have hstore : m.forget.store = m.store.map (Blob.mapState NodeSnapshot.forget) := rfl
  rw [storedRc, storedRc, hstore]
  cases m.store <;> rfl

end Node

namespace RingNode

variable (C : Controller Q F S E α β)

theorem follows_send (x : UUID) (o : Output β) :
    Follows Node.forget (send C.recording x o : NodeProg Q F (S × F) E β Unit) (send C x o) := by
  refine .change fun m => ?_
  cases hstamp : o.stamp with
  | none =>
      simp only [published, hstamp]
      rfl
  | some id =>
      simp only [published, hstamp]
      rfl

theorem follows_perform (a : BarrierAction) :
    Follows Node.forget (perform C.recording a : NodeProg Q F (S × F) E β Unit)
      (perform C a) := by
  cases a with
  | forward token => exact .change fun _ => rfl
  | downstreamEof x counts =>
      refine .forEach (fun shard => ?_) _
      exact .change fun _ => rfl

theorem follows_emit (x : UUID) :
    Follows Node.forget (emit C.recording x : NodeProg Q F (S × F) E β Unit) (emit C x) := by
  refine .bind (.modify fun _ => rfl) fun _ => .bind (.compute fun _ => rfl) fun outs => ?_
  refine .bind (.forEach (follows_send C x) outs) fun _ => ?_
  exact .bind (.compute fun _ => rfl) fun actions => .forEach (follows_perform C) actions

theorem follows_runEmits (xs : List UUID) :
    Follows Node.forget (runEmits C.recording xs : NodeProg Q F (S × F) E β Unit)
      (runEmits C xs) :=
  .forEach (follows_emit C) xs

theorem follows_free (xs : List UUID) :
    Follows Node.forget (Prog.forEach xs (free C.recording) : NodeProg Q F (S × F) E β Unit)
      (Prog.forEach xs (free C)) := by
  refine .forEach (fun x => ?_) xs
  exact .change fun _ => rfl

theorem follows_onData (q : Q) (msg : DataMsg α) :
    Follows Node.forget (onData C.recording q msg : NodeProg Q F (S × F) E β Unit)
      (onData C q msg) := by
  refine .bind (.modify fun _ => rfl) fun _ => .bind (.forEach (fun o => ?_) _) fun _ => ?_
  · exact .bind (follows_send C msg.clientId o) fun _ => .modify fun _ => rfl
  · exact .bind (.compute fun _ => rfl) fun emits => follows_runEmits C emits

variable [DecidableEq Q]

theorem follows_flush (force : Bool) :
    Follows Node.forget
      (Checkpointer.flush C.recording.provider force : NodeProg Q F (S × F) E β Unit)
      (Checkpointer.flush C.provider force) :=
  Checkpointer.follows_flush C.follows_recording force

theorem follows_onEof (q : Q) (x : UUID) (k : ℤ) :
    Follows Node.forget (onEof C.recording q x k : NodeProg Q F (S × F) E β Unit)
      (onEof C q x k) := by
  refine .bind (.compute fun m => ?_) fun emits => .bind (.when (follows_flush C true))
    fun _ => .bind (follows_runEmits C emits) fun _ => .bind (follows_flush C true)
      fun _ => follows_free C emits
  cases htotal : (C.noteEof q x k m.state.extra).1 with
  | none =>
      rw [noteEof_none htotal, noteEof_none (C := C.recording) htotal]
      rfl
  | some total =>
      rw [noteEof_some htotal, noteEof_some (C := C.recording) htotal]
      rfl

theorem follows_onAbort (x : UUID) :
    Follows Node.forget (onAbort C.recording x : NodeProg Q F (S × F) E β Unit)
      (onAbort C x) := by
  refine .bind (.modify fun _ => rfl) fun _ => .bind (.change fun _ => rfl) fun _ => ?_
  refine .bind (.modify fun _ => rfl) fun _ => .bind (follows_flush C true) fun _ => ?_
  refine .forEach (fun shard => ?_) _
  exact .change fun _ => rfl

theorem follows_onRingMsg (t : BarrierToken) :
    Follows Node.forget (onRingMsg C.recording t : NodeProg Q F (S × F) E β Unit)
      (onRingMsg C t) :=
  .bind (.compute fun _ => rfl) fun actions => .bind (.forEach (follows_perform C) actions)
    fun _ => follows_flush C true

theorem follows_start :
    Follows Node.forget (start C.recording : NodeProg Q F (S × F) E β Unit) (start C) := by
  refine .bind (.modify fun _ => rfl) fun _ => .bind
    (Checkpointer.follows_restore C.follows_recording) fun restored => ?_
  refine .bind (.when ?_) fun _ => .modify fun _ => rfl
  refine .read_bind fun m => .bind (follows_runEmits C m.rc.recheck) fun _ => ?_
  exact .read_bind fun m => .bind (follows_free C m.rc.resolvedClients) fun _ =>
    follows_flush C true

theorem follows_handler (arrivals : Q → ℕ → Option (Message α)) (call : Call Q) :
    Follows Node.forget (handler C.recording arrivals call) (handler C arrivals call) := by
  cases call with
  | start => exact follows_start C
  | token t => exact follows_onRingMsg C t
  | deliver tag =>
      change Follows _ (receive C.recording tag (arrivals tag.1 tag.2))
        (receive C tag (arrivals tag.1 tag.2))
      cases arrivals tag.1 tag.2 with
      | none => exact .pure ()
      | some msg =>
          refine .bind (.modify fun _ => rfl) fun _ => ?_
          exact Checkpointer.follows_dispatch C.follows_recording _ tag msg
            (follows_onEof C tag.1) (follows_onData C tag.1) (follows_onAbort C)

end RingNode
