import MoneyLaundering.Checkpoint.Checkpointer
import MoneyLaundering.Ring.Completion

/-!
# Controllers of an affinity ring

One node of a ring: it consumes its input queues and the barrier ring, and every
change of its state rides the same checkpoint.  The parts that the classes of
nodes supply are the fields of a `Controller`; the machinery they share is the
namespace `RingNode`.
-/

open Crash

/-- The state a node hands to its checkpointer: the business function, the extra
provider of its class, the output counters by producer id, and the ring. -/
structure NodeState (F E : Type) where
  fn : F
  extra : E
  seqs : ProducerId → ℕ
  rc : RingCompletion

/-- What a checkpoint keeps of it. -/
structure NodeSnapshot (S E : Type) where
  state : S
  extra : E
  outSeq : ProducerId → ℕ
  rc : RingCompletion

/-- A message for one downstream shard, counted over all of the node's outputs.
`stamp` is the identity it keeps; without one the output stamps its own. -/
structure Output (β : Type) where
  shard : ℕ
  stamp : Option (ProducerId × ℕ)
  payload : β
deriving DecidableEq

/-- The history of a node. -/
inductive Event (β : Type) where
  | restarted
  /-- A stamped message was published. -/
  | data (shard : ℕ) (stamp : ProducerId × ℕ) (clientId : UUID) (payload : β)
  | eof (shard : ℕ) (clientId : UUID) (expected : ℕ)
  | abort (shard : ℕ) (clientId : UUID)
  /-- A token was passed to the next peer. -/
  | forward (token : BarrierToken)
  /-- The emission of a client began. -/
  | emitting (clientId : UUID)
  /-- The counts of a client were reported to the ring. -/
  | reported (clientId : UUID) (sent : ShardCounts)
  /-- The barrier of a client was closed in the given phase. -/
  | closed (clientId : UUID) (phase : Phase) (expectedPerShard : ShardCounts)
  | freed (clientId : UUID)
deriving DecidableEq

/-- What the class of a node supplies.  `Q` are its input queues. -/
structure Controller (Q F S E α β : Type) where
  self : Peer
  checkpointEvery : ℕ
  /-- The number of outputs, `external_txs`. -/
  nShards : ℕ
  /-- The id with which an output stamps its messages. -/
  producer : ℕ → ProducerId
  fn : Snapshotable F S
  extra₀ : E
  /-- What an input changes in the business state. -/
  process : Q → DataMsg α → F → F
  /-- What is sent while an input is processed. -/
  outputs : DataMsg α → List (Output β)
  countSent : UUID → ℕ → E → E
  /-- What is sent when the input is locally complete. -/
  getResult : UUID → F → List (Output β) × F
  /-- The counts to report after that. -/
  sentCounts : UUID → List (Output β) → E → ShardCounts × E
  /-- The count to wait for, once every queue announced its own. -/
  noteEof : Q → UUID → ℤ → E → Option ℤ × E
  discard : UUID → F → E → F × E
  free : UUID → F → E → F × E

namespace Controller

variable {Q F S E α β : Type}

/-- The checkpointed part of the node. -/
def provider (C : Controller Q F S E α β) :
    Snapshotable (NodeState F E) (NodeSnapshot S E) where
  fresh drained s := ⟨C.fn.fresh drained s.fn, C.extra₀, fun _ => 0, .new⟩
  snapshotState s :=
    (⟨(C.fn.snapshotState s.fn).1, s.extra, s.seqs, s.rc⟩,
      { s with fn := (C.fn.snapshotState s.fn).2 })
  restoreState b s := ⟨C.fn.restoreState b.state s.fn, b.extra, b.outSeq, b.rc⟩
  clearStaleSpill s := { s with fn := C.fn.clearStaleSpill s.fn }

/-- A node before its first start. -/
def fresh (C : Controller Q F S E α β) (f : F) : NodeState F E :=
  ⟨f, C.extra₀, fun _ => 0, .new⟩

end Controller

/-- One node: its process, its checkpoint, its queues and its history. -/
abbrev Node (Q F S E β : Type) : Type :=
  Machine (NodeState F E) (NodeSnapshot S E) (Q × ℕ) (Event β)

namespace Node

variable {Q F S E β : Type}

/-- Change the state of the providers. -/
def withState (f : NodeState F E → NodeState F E) (m : Node Q F S E β) :
    Node Q F S E β :=
  { m with state := f m.state }

/-- The completion state in memory. -/
abbrev rc (m : Node Q F S E β) : RingCompletion := m.state.rc

/-- The completion state of the last checkpoint. -/
def storedRc (m : Node Q F S E β) : RingCompletion :=
  match m.store with
  | none => .new
  | some b => b.state.rc

end Node

/-! ## Operations -/

namespace RingNode

variable {Q F S E α β : Type} [DecidableEq Q]

/-- Programs of a node. -/
abbrev NodeProg (Q F S E β A : Type) : Type := Prog Effect (Node Q F S E β) A

/-- Publish one message on its shard. -/
def published (C : Controller Q F S E α β) (clientId : UUID) (o : Output β)
    (m : Node Q F S E β) : Node Q F S E β :=
  match o.stamp with
  | some id => m.logged (.data o.shard id clientId o.payload)
  | none =>
    let id := C.producer o.shard
    let seq := m.state.seqs id + 1
    (m.withState fun s => { s with seqs := Function.update s.seqs id seq }).logged
      (.data o.shard (id, seq) clientId o.payload)

/-- `external_txs[shard].send`, or `send_stamped` for a message with an identity. -/
def send (C : Controller Q F S E α β) (clientId : UUID) (o : Output β) :
    NodeProg Q F S E β Unit :=
  Prog.change (.send o.shard) (published C clientId o)

/-- Pass the token to the next peer. -/
def forward (token : BarrierToken) : NodeProg Q F S E β Unit :=
  Prog.change .forward fun m => m.logged (.forward token)

/-- One end-of-file for each downstream shard. -/
def downstreamEof (C : Controller Q F S E α β) (clientId : UUID)
    (expectedPerShard : ShardCounts) : NodeProg Q F S E β Unit :=
  Prog.forEach (List.range C.nShards) fun shard =>
    Prog.change (.send shard) fun m =>
      m.logged (.eof shard clientId (expectedPerShard.getD shard 0))

/-- One abort for each downstream shard. -/
def downstreamAbort (C : Controller Q F S E α β) (clientId : UUID) :
    NodeProg Q F S E β Unit :=
  Prog.forEach (List.range C.nShards) fun shard =>
    Prog.change (.send shard) fun m => m.logged (.abort shard clientId)

/-- Perform one action of the barrier. -/
def perform (C : Controller Q F S E α β) :
    BarrierAction → NodeProg Q F S E β Unit
  | .forward token => forward token
  | .downstreamEof clientId expectedPerShard =>
    downstreamEof C clientId expectedPerShard

/-- `_run` on what `report_sent` and `on_token` return. -/
def runBarrier (C : Controller Q F S E α β) (actions : List BarrierAction) :
    NodeProg Q F S E β Unit :=
  Prog.forEach actions (perform C)

/-- The entries for the barriers that `actions` close, in the phase that the
completion state has before. -/
def closings (before : RingCompletion) (actions : List BarrierAction) :
    List (Event β) :=
  actions.filterMap fun
    | .forward _ => none
    | .downstreamEof clientId expectedPerShard =>
      some (.closed clientId (before.client clientId).phase expectedPerShard)

/-- Take the result of a client out of the business state. -/
def takeResult (C : Controller Q F S E α β) (clientId : UUID)
    (m : Node Q F S E β) : List (Output β) × Node Q F S E β :=
  ((C.getResult clientId m.state.fn).1,
    m.withState fun s => { s with fn := (C.getResult clientId s.fn).2 })

/-- Report the counts of a client to the ring. -/
def reportSent (C : Controller Q F S E α β) (clientId : UUID)
    (outs : List (Output β)) (m : Node Q F S E β) :
    List BarrierAction × Node Q F S E β :=
  let counted := C.sentCounts clientId outs m.state.extra
  let reported := m.rc.reportSent C.self clientId counted.1
  (reported.2,
    { m with
      state := { m.state with extra := counted.2, rc := reported.1 }
      log := closings (m.rc.markEmitted clientId counted.1) reported.2 ++
        .reported clientId counted.1 :: m.log })

/-- `_emit`: send the result of a client and report what was sent. -/
def emit (C : Controller Q F S E α β) (clientId : UUID) :
    NodeProg Q F S E β Unit := do
  Prog.modify fun m => m.logged (.emitting clientId)
  let outs ← Prog.compute (takeResult C clientId)
  Prog.forEach outs (send C clientId)
  let actions ← Prog.compute (reportSent C clientId outs)
  runBarrier C actions

/-- `_run` on the clients to emit. -/
def runEmits (C : Controller Q F S E α β) (clientIds : List UUID) :
    NodeProg Q F S E β Unit :=
  Prog.forEach clientIds (emit C)

/-- `_free`: release what a resolved client still holds. -/
def free (C : Controller Q F S E α β) (clientId : UUID) :
    NodeProg Q F S E β Unit :=
  Prog.change .free fun m =>
    (m.withState fun s =>
      { s with
        fn := (C.free clientId s.fn s.extra).1
        extra := (C.free clientId s.fn s.extra).2 }).logged (.freed clientId)

/-- `_discard`: release the business state of an aborted client. -/
def discard (C : Controller Q F S E α β) (clientId : UUID) :
    NodeProg Q F S E β Unit :=
  Prog.change .free fun m => m.withState fun s =>
    { s with
      fn := (C.discard clientId s.fn s.extra).1
      extra := (C.discard clientId s.fn s.extra).2 }

/-- Run an operation of the ring. -/
def onRing {A : Type} (f : RingCompletion → RingCompletion × A)
    (m : Node Q F S E β) : A × Node Q F S E β :=
  ((f m.rc).2, m.withState fun s => { s with rc := (f m.rc).1 })

/-- `_on_data`. -/
def onData (C : Controller Q F S E α β) (q : Q) (msg : DataMsg α) :
    NodeProg Q F S E β Unit := do
  Prog.modify fun m =>
    m.withState fun s => { s with fn := C.process q msg s.fn }
  Prog.forEach (C.outputs msg) fun o => do
    send C msg.clientId o
    Prog.modify fun m => m.withState fun s =>
      { s with extra := C.countSent msg.clientId o.shard s.extra }
  let emits ← Prog.compute (onRing fun rc => rc.onData msg.clientId)
  runEmits C emits

/-- The completion of a client, once the count to wait for is known. -/
def noteEof (C : Controller Q F S E α β) (q : Q) (clientId : UUID)
    (expected : ℤ) (m : Node Q F S E β) : List UUID × Node Q F S E β :=
  let noted := C.noteEof q clientId expected m.state.extra
  let m := m.withState fun s => { s with extra := noted.2 }
  match noted.1 with
  | none => ([], m)
  | some total => onRing (fun rc => rc.onUpstreamEof clientId total) m

/-- `_on_eof`: the checkpoint is written before and after the emission, and only
then the emitted clients are freed. -/
def onEof (C : Controller Q F S E α β) (q : Q) (clientId : UUID)
    (expected : ℤ) : NodeProg Q F S E β Unit := do
  let emits ← Prog.compute (noteEof C q clientId expected)
  Prog.when (emits ≠ []) (Checkpointer.flush C.provider true)
  runEmits C emits
  Checkpointer.flush C.provider true
  Prog.forEach emits (free C)

/-- `_on_abort`. -/
def onAbort (C : Controller Q F S E α β) (clientId : UUID) :
    NodeProg Q F S E β Unit := do
  Prog.modify fun m => m.withState fun s => { s with rc := s.rc.drop clientId }
  discard C clientId
  Checkpointer.markAborted clientId
  Checkpointer.flush C.provider true
  downstreamAbort C clientId

/-- What a token changes in memory, before anything is sent. -/
def receiveToken (C : Controller Q F S E α β) (token : BarrierToken)
    (m : Node Q F S E β) : List BarrierAction × Node Q F S E β :=
  let (rc, actions) := m.rc.onToken C.self token
  (actions,
    { m with
      state := { m.state with rc := rc }
      log := closings m.rc actions ++ m.log })

/-- `_on_ring_msg`.  No token makes a node emit, so nothing is freed after the
checkpoint. -/
def onRingMsg (C : Controller Q F S E α β) (token : BarrierToken) :
    NodeProg Q F S E β Unit := do
  let actions ← Prog.compute (receiveToken C token)
  runBarrier C actions
  Checkpointer.flush C.provider true

/-- `_on_data_msg`: one delivery of an input queue. -/
def onDataMsg (C : Controller Q F S E α β) (tag : Q × ℕ) (msg : Message α) :
    NodeProg Q F S E β Unit :=
  Checkpointer.dispatch C.provider C.checkpointEvery tag msg (onEof C tag.1)
    (onData C tag.1) (onAbort C)

/-- `start`: take over the checkpoint, emit what it left complete, free what it
left resolved, and start consuming. -/
def start (C : Controller Q F S E α β) : NodeProg Q F S E β Unit := do
  Prog.modify fun m => m.logged .restarted
  let restored ← Checkpointer.restore C.provider
  Prog.when (restored = true) do
    let m ← Prog.read
    runEmits C m.rc.recheck
    let m ← Prog.read
    Prog.forEach m.rc.resolvedClients (free C)
    Checkpointer.flush C.provider true
  Prog.modify fun m => { m with up := true }

/-! ## Runs -/

/-- What a node can be called for. -/
inductive Call (Q : Type) where
  | start
  | deliver (tag : Q × ℕ)
  | token (token : BarrierToken)

/-- The copies before this one were handed over or are acknowledged. -/
def InOrder (arrivals : Q → ℕ → Option (Message α)) (tag : Q × ℕ)
    (m : Node Q F S E β) : Prop :=
  ∀ i < tag.2, (arrivals tag.1 i).isSome →
    (tag.1, i) ∈ m.acked ∨ (tag.1, i) ∈ m.taken

/-- The calls that a node may serve.  A copy of an input queue is redelivered
until it is acknowledged, but not twice to one process; in a `fifo` queue it also
waits for the copies before it.  A token may arrive at any time and any number
of times. -/
def Enabled (arrivals : Q → ℕ → Option (Message α)) (fifo : Bool) :
    Call Q → Node Q F S E β → Prop
  | .start, m => m.up = false
  | .deliver tag, m =>
    m.up = true ∧ (arrivals tag.1 tag.2).isSome ∧ tag ∉ m.acked ∧
      tag ∉ m.taken ∧ (fifo = true → InOrder arrivals tag m)
  | .token _, m => m.up = true

/-- Take a copy from its queue and process it. -/
def receive (C : Controller Q F S E α β) (tag : Q × ℕ) :
    Option (Message α) → NodeProg Q F S E β Unit
  | none => pure ()
  | some msg => do
    Prog.modify (Machine.deliver tag)
    onDataMsg C tag msg

/-- The program that serves a call. -/
def handler (C : Controller Q F S E α β)
    (arrivals : Q → ℕ → Option (Message α)) :
    Call Q → NodeProg Q F S E β Unit
  | .start => start C
  | .deliver tag => receive C tag (arrivals tag.1 tag.2)
  | .token token => onRingMsg C token

/-- A node with its queues. -/
def system (C : Controller Q F S E α β)
    (arrivals : Q → ℕ → Option (Message α)) (fifo : Bool)
    (crashable : Node Q F S E β → Prop) :
    System Effect (Node Q F S E β) (Call Q) (UUID → ℕ → ℕ) where
  enabled := Enabled arrivals fifo
  handler := handler C arrivals
  crashable _ _ := crashable
  reboot _ := Machine.reboot C.provider

instance (arrivals : Q → ℕ → Option (Message α)) (tag : Q × ℕ) :
    DecidablePred (InOrder (F := F) (S := S) (E := E) (β := β) arrivals tag) :=
  fun m => inferInstanceAs (Decidable (∀ i < tag.2,
    (arrivals tag.1 i).isSome → (tag.1, i) ∈ m.acked ∨ (tag.1, i) ∈ m.taken))

instance (arrivals : Q → ℕ → Option (Message α)) (fifo : Bool) (call : Call Q) :
    DecidablePred (Enabled (F := F) (S := S) (E := E) (β := β)
      arrivals fifo call) := fun m =>
  match call with
  | .start => inferInstanceAs (Decidable (m.up = false))
  | .deliver tag => inferInstanceAs (Decidable (m.up = true ∧
      (arrivals tag.1 tag.2).isSome ∧ tag ∉ m.acked ∧ tag ∉ m.taken ∧
        (fifo = true → InOrder arrivals tag m)))
  | .token _ => inferInstanceAs (Decidable (m.up = true))

end RingNode
