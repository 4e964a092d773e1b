import MoneyLaundering.Checkpoint.Locking

/-!
# The join

The last stage of a use case: it collects what the stages before it send for a client,
and once it has as many messages as the end-of-file announces it sends the result in
chunks.  Its counts ride the checkpoint of its business function.
-/

open Crash LockProg

/-- A chunk of a result. -/
structure Response where
  clientId : UUID
  ucId : ℕ
  body : String
  last : Bool
deriving DecidableEq

/-- `_JoinCounts`: what was received and what is expected, for each client. -/
structure JoinCounts where
  received : Dict UUID ℕ
  expected : Dict UUID ℤ
  /-- A set, in the order of insertion. -/
  finalized : List UUID
deriving DecidableEq

namespace JoinCounts

/-- No client is known. -/
def empty : JoinCounts := ⟨Dict.empty, Dict.empty, []⟩

def incReceived (clientId : UUID) (counts : JoinCounts) : JoinCounts :=
  { counts with
    received := counts.received.set clientId (counts.received.getD clientId 0 + 1) }

def setExpected (clientId : UUID) (expected : ℤ) (counts : JoinCounts) :
    JoinCounts :=
  { counts with expected := counts.expected.set clientId expected }

def isComplete (clientId : UUID) (counts : JoinCounts) : Bool :=
  match counts.expected.get? clientId with
  | none => false
  | some expected => expected ≤ (counts.received.getD clientId 0 : ℤ)

def isFinalized (clientId : UUID) (counts : JoinCounts) : Bool :=
  clientId ∈ counts.finalized

def markFinalized (clientId : UUID) (counts : JoinCounts) : JoinCounts where
  received := counts.received.erase clientId
  expected := counts.expected.erase clientId
  finalized :=
    if clientId ∈ counts.finalized then counts.finalized
    else counts.finalized ++ [clientId]

def drop (clientId : UUID) (counts : JoinCounts) : JoinCounts where
  received := counts.received.erase clientId
  expected := counts.expected.erase clientId
  finalized := counts.finalized.filter fun c => c ≠ clientId

theorem isFinalized_iff {clientId : UUID} {counts : JoinCounts} :
    counts.isFinalized clientId = true ↔ clientId ∈ counts.finalized :=
  decide_eq_true_iff

end JoinCounts

/-- The business function of a use case.  `getResponses` gives the text of each chunk
and whether it is the last one; there is at least one. -/
structure JoinFn (F S α : Type) where
  provider : Snapshotable F S
  join : DataMsg α → F → F
  getResponses : UUID → F → List (String × Bool) × F
  discard : UUID → F → F
  responses_ne : ∀ clientId f, (getResponses clientId f).1 ≠ []

/-- The state a join hands to its checkpointer. -/
structure JoinState (F : Type) where
  fn : F
  counts : JoinCounts

/-- What a checkpoint keeps of it. -/
structure JoinSnapshot (S : Type) where
  state : S
  counts : JoinCounts

/-- The handler of one use case. -/
structure JoinRouteHandler (F S α : Type) where
  fn : JoinFn F S α
  ucId : ℕ
  checkpointEvery : ℕ

/-- A handler's process, its checkpoint and its queue.  The history is what it sent,
newest first. -/
abbrev JoinNode (F S : Type) : Type :=
  Machine (JoinState F) (JoinSnapshot S) ℕ Response

namespace JoinRouteHandler

variable {F S α : Type}

/-- The checkpointed part of a handler. -/
def provider (J : JoinRouteHandler F S α) :
    Snapshotable (JoinState F) (JoinSnapshot S) where
  fresh drained s := ⟨J.fn.provider.fresh drained s.fn, .empty⟩
  snapshotState s :=
    (⟨(J.fn.provider.snapshotState s.fn).1, s.counts⟩,
      { s with fn := (J.fn.provider.snapshotState s.fn).2 })
  restoreState b s := ⟨J.fn.provider.restoreState b.state s.fn, b.counts⟩
  clearStaleSpill s := { s with fn := J.fn.provider.clearStaleSpill s.fn }

/-- Programs of a handler. -/
abbrev JoinProg (F S A : Type) : Type := LockProg Effect (JoinNode F S) A

/-- Change the business state. -/
def withFn (f : F → F) (m : JoinNode F S) : JoinNode F S :=
  { m with state := { m.state with fn := f m.state.fn } }

/-- Change the counts. -/
def withCounts (f : JoinCounts → JoinCounts) (m : JoinNode F S) : JoinNode F S :=
  { m with state := { m.state with counts := f m.state.counts } }

variable (J : JoinRouteHandler F S α)

/-- Take the result of a client. -/
def takeResponses (clientId : UUID) (m : JoinNode F S) :
    List (String × Bool) × JoinNode F S :=
  ((J.fn.getResponses clientId m.state.fn).1,
    withFn (fun f => (J.fn.getResponses clientId f).2) m)

/-- Send one chunk to the client. -/
def sendResponse (clientId : UUID) (chunk : String × Bool) :
    Prog Effect (JoinNode F S) Unit :=
  Prog.change (.send 0) fun m =>
    m.logged ⟨clientId, J.ucId, chunk.1, chunk.2⟩

/-- Drop what the client accumulated. -/
def discard (clientId : UUID) : Prog Effect (JoinNode F S) Unit :=
  Prog.change .free (withFn (J.fn.discard clientId))

/-- The first part of `_maybe_finalize`: send the result and mark the client. -/
def sendResult (clientId : UUID) : Prog Effect (JoinNode F S) Unit := do
  let chunks ← Prog.compute (J.takeResponses clientId)
  Prog.forEach chunks (J.sendResponse clientId)
  Prog.modify (withCounts (JoinCounts.markFinalized clientId))

/-- `_maybe_finalize`. -/
def maybeFinalize (clientId : UUID) : JoinProg F S Unit := do
  let m ← lift Prog.read
  if m.state.counts.isFinalized clientId then pure ()
  else if !m.state.counts.isComplete clientId then pure ()
  else do
    lift (J.sendResult clientId)
    LockedCheckpointer.flush J.provider true
    lift (J.discard clientId)

/-- `_on_eof`. -/
def onEof (clientId : UUID) (expected : ℤ) : JoinProg F S Unit := do
  lift (Prog.modify (withCounts (JoinCounts.setExpected clientId expected)))
  J.maybeFinalize clientId

/-- `_on_abort`. -/
def onAbort (clientId : UUID) : JoinProg F S Unit := do
  lift (J.discard clientId)
  lift (Prog.modify (withCounts (JoinCounts.drop clientId)))
  LockedCheckpointer.markAborted clientId
  LockedCheckpointer.flush J.provider true

/-- Accumulate a message. -/
def joined (msg : DataMsg α) (m : JoinNode F S) : JoinNode F S :=
  withCounts (JoinCounts.incReceived msg.clientId) (withFn (J.fn.join msg) m)

/-- `_on_data`. -/
def onData (msg : DataMsg α) : JoinProg F S Unit := do
  lift (Prog.modify (J.joined msg))
  J.maybeFinalize msg.clientId

/-- `_handle_message`. -/
def handleMessage (tag : ℕ) (msg : Message α) : JoinProg F S Unit :=
  LockedCheckpointer.dispatch J.provider J.checkpointEvery tag msg
    J.onEof J.onData J.onAbort

/-- `start`: take over the checkpoint, drop what finalized clients left, and start
consuming. -/
def start : JoinProg F S Unit := do
  let restored ← lift (Checkpointer.restore J.provider)
  when (restored = true) do
    lift do
      let m ← Prog.read
      Prog.forEach m.state.counts.finalized J.discard
    LockedCheckpointer.flush J.provider true
  lift (Prog.modify fun m => { m with up := true })

/-! ## Runs -/

/-- What a handler can be called for. -/
inductive Call where
  | start
  | deliver (tag : ℕ)

/-- Take a copy from the queue and handle it. -/
def receive (tag : ℕ) : Option (Message α) → JoinProg F S Unit
  | none => pure ()
  | some msg => do
    lift (Prog.modify (Machine.deliver tag))
    J.handleMessage tag msg

/-- The copies before this one were handed over or are acknowledged. -/
def InOrder (arrivals : ℕ → Option (Message α)) (tag : ℕ)
    (m : JoinNode F S) : Prop :=
  ∀ i < tag, (arrivals i).isSome → i ∈ m.acked ∨ i ∈ m.taken

/-- The calls that a handler may serve: a handler that waits for its own lock serves
none. -/
def Enabled (arrivals : ℕ → Option (Message α)) :
    Call → Locked (JoinNode F S) → Prop
  | .start, s => s.held = false ∧ s.inner.up = false
  | .deliver tag, s => s.held = false ∧ s.inner.up = true ∧
      (arrivals tag).isSome ∧ tag ∉ s.inner.acked ∧ tag ∉ s.inner.taken ∧
        InOrder arrivals tag s.inner

/-- The program that serves a call. -/
def serve (arrivals : ℕ → Option (Message α)) : Call → JoinProg F S Unit
  | .start => J.start
  | .deliver tag => J.receive tag (arrivals tag)

/-- A handler with its queue, which delivers again, in order, what is not
acknowledged.  `guard` are the calls that a run may make, and `crashable` the states in
which a crash may fall that drains the given parts of the buffers. -/
def system (arrivals : ℕ → Option (Message α)) (guard : Call → JoinNode F S → Prop)
    (crashable : (UUID → ℕ → ℕ) → JoinNode F S → Prop) :
    System Effect (Locked (JoinNode F S)) Call (UUID → ℕ → ℕ) where
  enabled call s := Enabled arrivals call s ∧ guard call s.inner
  handler call := LockProg.run (J.serve arrivals call)
  crashable _ drained s := crashable drained s.inner
  reboot _ k s := ⟨false, s.inner.reboot J.provider k⟩

/-- A handler before its first start. -/
def fresh (f : F) : Locked (JoinNode F S) :=
  ⟨false, Machine.initial ⟨f, .empty⟩⟩

instance (arrivals : ℕ → Option (Message α)) (tag : ℕ) :
    DecidablePred (InOrder (F := F) (S := S) arrivals tag) := fun m =>
  inferInstanceAs (Decidable (∀ i < tag, (arrivals i).isSome →
    i ∈ m.acked ∨ i ∈ m.taken))

instance (arrivals : ℕ → Option (Message α)) (call : Call) :
    DecidablePred (Enabled (F := F) (S := S) arrivals call) := fun s =>
  match call with
  | .start => inferInstanceAs (Decidable (s.held = false ∧ s.inner.up = false))
  | .deliver tag => inferInstanceAs (Decidable (s.held = false ∧
      s.inner.up = true ∧ (arrivals tag).isSome ∧ tag ∉ s.inner.acked ∧
        tag ∉ s.inner.taken ∧ InOrder arrivals tag s.inner))

/-! ## A use case -/

/-- `UC5Join`: the transactions that were counted for each client, in one chunk. -/
def uc5Join : JoinFn (Dict UUID ℕ) (Dict UUID ℕ) ℕ where
  provider :=
    { fresh _ _ := Dict.empty
      snapshotState state := (state, state)
      restoreState snapshot _ := snapshot
      clearStaleSpill := id }
  join el state := state.set el.clientId (state.getD el.clientId 0 + el.body)
  getResponses clientId state :=
    ([("--- UC5 ---\ncount: " ++ toString (state.getD clientId 0) ++ "\n", true)],
      state.erase clientId)
  discard clientId state := state.erase clientId
  responses_ne _ _ := by simp

/-- Its handler, with a checkpoint after each message. -/
def uc5Handler : JoinRouteHandler (Dict UUID ℕ) (Dict UUID ℕ) ℕ := ⟨uc5Join, 5, 1⟩

end JoinRouteHandler
