import MoneyLaundering.Ring.Node

/-!
# The classes of controllers

Filters and group-bys send what they derive from an input while they process it;
aggregates and merges accumulate and send their result when the input is locally
complete.
-/

/-! ## Extra providers -/

/-- Per-client, per-shard sent counts of a stateless node. -/
abbrev SentCounts : Type := Dict UUID ShardCounts

namespace SentCounts

/-- One more message of the client went to the shard. -/
def add (clientId : UUID) (shard : ℕ) (counts : SentCounts) : SentCounts :=
  let shards := counts.getD clientId Dict.empty
  counts.set clientId (shards.set shard (shards.getD shard 0 + 1))

/-- Take the counts of a client out. -/
def pop (clientId : UUID) (counts : SentCounts) : ShardCounts × SentCounts :=
  (counts.getD clientId Dict.empty, counts.erase clientId)

end SentCounts

/-- The announced counts of the two inputs of a merge. -/
structure MergeEofCounts where
  left : Dict UUID ℤ
  right : Dict UUID ℤ
deriving DecidableEq

/-- The two inputs of a merge. -/
inductive Side where
  | left
  | right
deriving DecidableEq

namespace MergeEofCounts

/-- Nothing was announced. -/
def empty : MergeEofCounts := ⟨Dict.empty, Dict.empty⟩

/-- One side announced its count. -/
def note (side : Side) (clientId : UUID) (expected : ℤ)
    (counts : MergeEofCounts) : MergeEofCounts :=
  match side with
  | .left => { counts with left := counts.left.set clientId expected }
  | .right => { counts with right := counts.right.set clientId expected }

/-- The combined count, once both sides have announced theirs. -/
def combined (clientId : UUID) (counts : MergeEofCounts) : Option ℤ :=
  match counts.left.get? clientId, counts.right.get? clientId with
  | some l, some r => some (l + r)
  | _, _ => none

/-- Forget a client. -/
def drop (clientId : UUID) (counts : MergeEofCounts) : MergeEofCounts :=
  ⟨counts.left.erase clientId, counts.right.erase clientId⟩

end MergeEofCounts

/-- The business state of a node that has none. -/
def nullState : Snapshotable Unit Unit where
  fresh _ _ := ()
  snapshotState _ := ((), ())
  restoreState _ _ := ()
  clearStaleSpill _ := ()

/-! ## Stateless nodes -/

/-- The data every node is constructed with. -/
structure NodeConfig where
  self : Peer
  checkpointEvery : ℕ
  producer : ℕ → ProducerId

/-- A shard chosen by the identity of the message: the last four bytes of the
producer id plus the sequence number. -/
def shardOf {α : Type} (msg : DataMsg α) (nshards : ℕ) : ℕ :=
  (msg.producerId.toNat % 2 ^ 32 + msg.seq) % nshards

/-- A node that emits each input as it processes it and only reports at the
end. -/
def statelessRingNode {α β : Type} (cfg : NodeConfig) (nShards : ℕ)
    (outputs : DataMsg α → List (Output β)) :
    Controller Unit Unit Unit SentCounts α β where
  self := cfg.self
  checkpointEvery := cfg.checkpointEvery
  nShards := nShards
  producer := cfg.producer
  fn := nullState
  extra₀ := Dict.empty
  process _ _ f := f
  outputs := outputs
  countSent := SentCounts.add
  getResult _ f := ([], f)
  sentCounts clientId _ counts := counts.pop clientId
  noteEof _ _ expected counts := (some expected, counts)
  discard clientId f counts := (f, (counts.pop clientId).2)
  free _ f counts := (f, counts)

/-- Forward each filtered message to one shard, under its own identity. -/
def ringFilter {α β : Type} (cfg : NodeConfig) (nShards : ℕ)
    (filter : DataMsg α → β) : Controller Unit Unit Unit SentCounts α β :=
  statelessRingNode cfg nShards fun msg =>
    [⟨shardOf msg nShards, some msg.identity, filter msg⟩]

namespace RingBroadcastFilter

variable {α β : Type}

/-- One message for every broadcast route; `shard` is the first flat index. -/
def broadcast (msg : DataMsg α) : ℕ → List (DataMsg α → β) → List (Output β)
  | _, [] => []
  | shard, filter :: routes =>
    ⟨shard, some msg.identity, filter msg⟩ :: broadcast msg (shard + 1) routes

/-- One message for one shard of every sharded route. -/
def sharded (msg : DataMsg α) :
    ℕ → List (ℕ × (DataMsg α → β)) → List (Output β)
  | _, [] => []
  | shard, (nshards, filter) :: routes =>
    ⟨shard + shardOf msg nshards, some msg.identity, filter msg⟩ ::
      sharded msg (shard + nshards) routes

end RingBroadcastFilter

/-- Send each message to every broadcast route and to one shard of every sharded
route. -/
def ringBroadcastFilter {α β : Type} (cfg : NodeConfig)
    (broadcastRoutes : List (DataMsg α → β))
    (shardedRoutes : List (ℕ × (DataMsg α → β))) :
    Controller Unit Unit Unit SentCounts α β :=
  statelessRingNode cfg
    (broadcastRoutes.length + (shardedRoutes.map Prod.fst).sum) fun msg =>
      RingBroadcastFilter.broadcast msg 0 broadcastRoutes ++
        RingBroadcastFilter.sharded msg broadcastRoutes.length shardedRoutes

/-- Send one group to its shard of every fleet; `base` is the first flat index
of the fleet. -/
def RingGroupBy.fanOut {β : Type} (payload : β) (affinity : ℤ) :
    ℕ → List ℕ → List (Output β)
  | _, [] => []
  | base, fleet :: fleets =>
    ⟨base + (affinity % fleet).toNat, none, payload⟩ ::
      fanOut payload affinity (base + fleet) fleets

/-- Build the groups of each input and send each to every fleet, by affinity.
`fleets` are the numbers of shards. -/
def ringGroupBy {α β : Type} (cfg : NodeConfig) (fleets : List ℕ)
    (groupBy : DataMsg α → List (β × ℤ)) :
    Controller Unit Unit Unit SentCounts α β :=
  statelessRingNode cfg fleets.sum fun msg =>
    (groupBy msg).flatMap fun g => RingGroupBy.fanOut g.1 g.2 0 fleets

/-! ## Stateful nodes -/

/-- The messages of one result for each shard. -/
def countShards {β : Type} (outs : List (Output β)) : ShardCounts :=
  outs.foldl (fun sent o => sent.set o.shard (sent.getD o.shard 0 + 1))
    Dict.empty

/-- The business function of an aggregate. -/
structure AggregateFn (F S α β : Type) where
  provider : Snapshotable F S
  aggregate : DataMsg α → F → F
  getResult : UUID → F → List (β × ℤ) × F
  discard : UUID → F → F

/-- Where an aggregate sends one entry of its result. -/
def RingAggregate.route {β : Type} (nShards : ℕ) (broadcastDownstream : Bool)
    (aggregated : β × ℤ) : List (Output β) :=
  if broadcastDownstream then
    (List.range nShards).map fun shard => ⟨shard, none, aggregated.1⟩
  else [⟨(aggregated.2 % nShards).toNat, none, aggregated.1⟩]

/-- Accumulate the input, and emit the result by affinity or to every shard. -/
def ringAggregate {F S α β : Type} (cfg : NodeConfig) (nShards : ℕ)
    (fn : AggregateFn F S α β) (broadcastDownstream : Bool) :
    Controller Unit F S Unit α β where
  self := cfg.self
  checkpointEvery := cfg.checkpointEvery
  nShards := nShards
  producer := cfg.producer
  fn := fn.provider
  extra₀ := ()
  process _ := fn.aggregate
  outputs _ := []
  countSent _ _ e := e
  getResult clientId f :=
    ((fn.getResult clientId f).1.flatMap
        (RingAggregate.route nShards broadcastDownstream),
      (fn.getResult clientId f).2)
  sentCounts _ outs e := (countShards outs, e)
  noteEof _ _ expected e := (some expected, e)
  discard clientId f e := (fn.discard clientId f, e)
  free clientId f e := (fn.discard clientId f, e)

/-- The business function of a merge. -/
structure MergeFn (F S α β : Type) where
  provider : Snapshotable F S
  left : DataMsg α → F → F
  right : DataMsg α → F → F
  getResult : UUID → F → List β × F
  discard : UUID → F → F

/-- The entries of a merge's result go to the shards in turn. -/
def RingMerge.route {β : Type} (nShards : ℕ) (merged : List β) :
    List (Output β) :=
  merged.zipIdx.map fun e => ⟨e.2 % nShards, none, e.1⟩

/-- Join a broadcast input with a sharded one. -/
def ringMerge {F S α β : Type} (cfg : NodeConfig) (nShards : ℕ)
    (fn : MergeFn F S α β) : Controller Side F S MergeEofCounts α β where
  self := cfg.self
  checkpointEvery := cfg.checkpointEvery
  nShards := nShards
  producer := cfg.producer
  fn := fn.provider
  extra₀ := .empty
  process
    | .left => fn.left
    | .right => fn.right
  outputs _ := []
  countSent _ _ e := e
  getResult clientId f :=
    (RingMerge.route nShards (fn.getResult clientId f).1,
      (fn.getResult clientId f).2)
  sentCounts _ outs e := (countShards outs, e)
  noteEof side clientId expected counts :=
    let counts := counts.note side clientId expected
    (counts.combined clientId, counts)
  discard clientId f counts := (fn.discard clientId f, counts.drop clientId)
  free clientId f counts := (fn.discard clientId f, counts.drop clientId)

/-! ## All classes -/

/-- The classes of nodes. -/
inductive NodeClass {α β : Type} :
    {Q F S E : Type} → Controller Q F S E α β → Prop
  | filter (cfg : NodeConfig) (nShards : ℕ) (f : DataMsg α → β) :
      NodeClass (ringFilter cfg nShards f)
  | broadcastFilter (cfg : NodeConfig)
      (broadcastRoutes : List (DataMsg α → β))
      (shardedRoutes : List (ℕ × (DataMsg α → β))) :
      NodeClass (ringBroadcastFilter cfg broadcastRoutes shardedRoutes)
  | groupBy (cfg : NodeConfig) (fleets : List ℕ)
      (groupBy : DataMsg α → List (β × ℤ)) :
      NodeClass (ringGroupBy cfg fleets groupBy)
  | aggregate {F S : Type} (cfg : NodeConfig) (nShards : ℕ)
      (fn : AggregateFn F S α β) (broadcastDownstream : Bool) :
      NodeClass (ringAggregate cfg nShards fn broadcastDownstream)
  | merge {F S : Type} (cfg : NodeConfig) (nShards : ℕ)
      (fn : MergeFn F S α β) : NodeClass (ringMerge cfg nShards fn)
