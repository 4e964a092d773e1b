import MoneyLaundering.Aggregate.Spilled
import MoneyLaundering.Ring.Dataflow
import MoneyLaundering.Support.Delivers

/-!
# Stages that spill

The instances of a stage spill at points of their own: between its messages an instance
takes snapshots, is restarted with the last of them, and ends other clients.  Each step goes
through sets in its own order.
-/

/-- What is delivered to every shard is delivered together. -/
theorem delivers_shards {α β : Type} {R : β → α → Prop} {outs : List (Output β)} {n : ℕ}
    {received : ℕ → List α} (h : ∀ i < n, Delivers R (sentTo i outs) (received i))
    (hshards : ∀ o ∈ outs, o.shard < n) :
    Delivers R (outs.map Output.payload) ((List.range n).flatMap received) := by
  have hparts : Delivers R ((List.range n).flatMap fun i => sentTo i outs)
      ((List.range n).flatMap received) :=
    .flatMap_receivers _ fun i hi => h i (List.mem_range.mp hi)
  apply hparts.perm_sent
  have hperm := sentTo_shards n outs
  rwa [List.filter_eq_self.mpr fun o ho => decide_eq_true (hshards o ho)] at hperm

/-- The instances of one stage, with what happens to each and the order in which it goes
through sets then, and when it builds the result. -/
structure SpillFleet (O α : Type) where
  size : ℕ
  pos : 0 < size
  config : ℕ → NodeConfig
  steps : ℕ → List (O × SpillFn.Step α)
  last : ℕ → O

namespace SpillFleet

variable {O T M α β : Type} {codec : UUID → LineCodec T} (X : SpillFleet O α)
  (fn : O → SpillFn codec M α β)

/-- What an instance receives of a client. -/
def receivedAt (clientId : UUID) (i : ℕ) : List α :=
  SpillFn.bodies clientId ((X.steps i).map Prod.snd)

/-- What all instances receive of a client. -/
def received (clientId : UUID) : List α :=
  (List.range X.size).flatMap (X.receivedAt clientId)

/-- No step ends the client. -/
def Keeps (clientId : UUID) : Prop := ∀ i < X.size, ∀ s ∈ X.steps i, s.2.Keeps clientId

/-- What an instance has after its steps. -/
def stateAt (i : ℕ) : Spilled M := SpillFn.runAll ((X.steps i).map fun s => (fn s.1, s.2))

/-- What an instance yields of a client. -/
def yieldedAt (clientId : UUID) (i : ℕ) : List (β × ℤ) :=
  ((fn (X.last i)).getResult clientId (X.stateAt fn i)).1

/-- What an instance sends of a client. -/
def sendsOf (nShards : ℕ) (broadcast : Bool) (clientId : UUID) (i : ℕ) : List (Output β) :=
  ((ringAggregate (X.config i) nShards (fn (X.last i)).toAggregateFn broadcast).getResult
    clientId (X.stateAt fn i)).1

/-- What all instances send of a client. -/
def sends (nShards : ℕ) (broadcast : Bool) (clientId : UUID) : List (Output β) :=
  (List.range X.size).flatMap (X.sendsOf fn nShards broadcast clientId)

/-- To every instance is delivered what was sent to its shard; `base` is the shard of the
first. -/
def Receives (clientId : UUID) (R : β → α → Prop) (base : ℕ) (outs : List (Output β)) : Prop :=
  ∀ i < X.size, Delivers R (sentTo (base + i) outs) (X.receivedAt clientId i)

variable {X fn} {nShards shard : ℕ} {clientId : UUID}

/-- Where sets are not gone through, an instance yields what one run does. -/
theorem yieldedAt_run (X : SpillFleet O α) (R : SpillFn codec M α β) (clientId : UUID) (i : ℕ) :
    X.yieldedAt (fun _ => R) clientId i =
      (R.getResult clientId (R.run ((X.steps i).map Prod.snd))).1 := by
  rw [yieldedAt, stateAt, SpillFn.run, List.map_map]
  rfl

/-- The steps of an instance do not end the client. -/
theorem Keeps.steps (h : X.Keeps clientId) {i : ℕ} (hi : i < X.size) :
    ∀ s ∈ (X.steps i).map Prod.snd, s.Keeps clientId := by
  intro s hs
  obtain ⟨s', hs', rfl⟩ := List.mem_map.mp hs
  exact h i hi s' hs'

theorem sentTo_sends_sharded (h : shard < nShards) :
    sentTo shard (X.sends fn nShards false clientId) = (List.range X.size).flatMap fun i =>
      ((X.yieldedAt fn clientId i).filter fun e => e.2 % (nShards : ℤ) = shard).map Prod.fst := by
  rw [sends, sentTo_flatMap]
  exact congrArg (List.range X.size).flatMap (funext fun i => sentTo_sharded h _)

theorem sentTo_sends_broadcast (h : shard < nShards) :
    sentTo shard (X.sends fn nShards true clientId) =
      (List.range X.size).flatMap fun i => (X.yieldedAt fn clientId i).map Prod.fst := by
  rw [sends, sentTo_flatMap]
  exact congrArg (List.range X.size).flatMap (funext fun i => sentTo_broadcast h _)

theorem payloads_sends_sharded : (X.sends fn nShards false clientId).map Output.payload =
    (List.range X.size).flatMap fun i => (X.yieldedAt fn clientId i).map Prod.fst := by
  rw [sends, List.map_flatMap]
  apply List.flatMap_congr
  intro i _
  change ((X.yieldedAt fn clientId i).flatMap (RingAggregate.route nShards false)).map
    Output.payload = _
  rw [List.map_flatMap, List.map_eq_flatMap]
  rfl

theorem shard_lt_sends_sharded (h : 0 < nShards) :
    ∀ o ∈ X.sends fn nShards false clientId, o.shard < nShards := by
  intro o ho
  obtain ⟨i, -, ho⟩ := List.mem_flatMap.mp ho
  obtain ⟨e, -, ho⟩ := List.mem_flatMap.mp ho
  rw [List.mem_singleton.mp ho]
  have hnonneg : 0 ≤ e.2 % (nShards : ℤ) := Int.emod_nonneg _ (by omega)
  have hlt : e.2 % (nShards : ℤ) < nShards := Int.emod_lt_of_pos _ (by omega)
  change (e.2 % (nShards : ℤ)).toNat < nShards
  omega

/-- Together the instances receive all that was sent. -/
theorem Receives.all {R : β → α → Prop} {outs : List (Output β)}
    (h : X.Receives clientId R 0 outs) (hshards : ∀ o ∈ outs, o.shard < X.size) :
    Delivers R (outs.map Output.payload) (X.received clientId) := by
  apply delivers_shards _ hshards
  intro i hi
  have hone := h i hi
  rwa [Nat.zero_add] at hone

end SpillFleet
