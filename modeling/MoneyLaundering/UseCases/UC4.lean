import MoneyLaundering.Aggregate.AggregatePaths
import MoneyLaundering.Aggregate.Degree
import MoneyLaundering.Aggregate.SpillFleet
import MoneyLaundering.Client.Parsers
import MoneyLaundering.Merge.PruneCounts

/-!
# The pairs of accounts with five accounts in between

The transactions of a client are the edges of a graph.  Its nodes are sharded: one fleet
unites what is known of a node, another one finds the nodes of high degree, and the two meet
where the graph is pruned.  What is left is counted pair by pair, and the counts are added up.
Pruning and tiling lose no pair that has enough accounts in between, and count none twice.
-/

open Messages GraphSrc
open UC4ComputeGraph (accountsOf edge edgesOf groupsOf)

/-! ## The use case -/

/-- One use case for one client: the fleets with what arrives at their instances, the orders
in which these go through sets, and the sizes at which they spill. -/
structure UC4 (A : Type) where
  /-- The hash of all processes. -/
  hash : String → ℤ
  clientId : UUID
  computeGraphs : Fleet Unit (List (Transaction A))
  aggregateGraphs : SpillFleet NodeOrder Nodes
  degrees : SpillFleet TextOrder Nodes
  prunes : Fleet Side PruneInput
  pruneOrder : ℕ → NodeOrder
  /-- The sides of a tile. -/
  side : ℕ → ℕ → ℕ
  countPaths : SpillFleet Unit Nodes
  aggregatePaths : SpillFleet Unit PathTable
  graphThreshold : ℕ
  degreeThreshold : ℕ
  countThreshold : ℕ
  pathThreshold : ℕ

namespace UC4

/-- The entry with its sets in the order of a process. -/
def listed (order : NodeOrder) (entry : Entry) : Entry :=
  (entry.1, .ofList Node.key (order.elems entry.2.1), .ofList Node.key (order.elems entry.2.2))

/-- How a process writes an entry and reads it back. -/
def spillCodec (order : NodeOrder) : LineCodec Entry where
  serialize entry := UC4Prune.codec.serialize (listed order entry)
  deserialize := UC4Prune.codec.deserialize

variable {A : Type} (U : UC4 A)

/-- The group-bys send every graph to both fleets. -/
def graphs : List (Output Nodes) :=
  U.computeGraphs.sends (fun cfg =>
    ringGroupBy cfg [U.aggregateGraphs.size, U.degrees.size] (uc4ComputeGraph U.hash))
    U.clientId ()

def graphFn (order : NodeOrder) :
    SpillFn UC4AggregateGraphs.codec Nodes Nodes Nodes :=
  uc4AggregateGraphs U.hash order U.graphThreshold

/-- The united graphs are sharded. -/
def unions : List (Output Nodes) :=
  U.aggregateGraphs.sends U.graphFn U.prunes.size false U.clientId

def degreeFn (order : TextOrder) :
    SpillFn UC4Degree.codec UC4Degree.Degrees Nodes (NodeSet × NodeSet) :=
  uc4Degree U.hash order U.degreeThreshold

/-- The nodes of high degree are broadcast. -/
def highs : List (Output (NodeSet × NodeSet)) :=
  U.degrees.sends U.degreeFn U.prunes.size true U.clientId

def pruneFn (i : ℕ) : MergeFn UC4Prune (Dict UUID NodeSet × Dict UUID NodeSet × Dict UUID ℕ)
    PruneInput Nodes :=
  uc4PruneMergeFn (spillCodec (U.pruneOrder i)) (U.pruneOrder i) U.side

/-- What one prune sends. -/
def prunedAt (i : ℕ) : List (Output Nodes) :=
  U.prunes.sendsOf (fun cfg => ringMerge cfg U.countPaths.size (U.pruneFn i)) U.clientId
    ⟨Dict.empty, Dict.empty, Dict.empty⟩ i

def pruned : List (Output Nodes) := (List.range U.prunes.size).flatMap U.prunedAt

def countFn (_ : Unit) : SpillFn PathTable.codec PathTable Nodes PathTable :=
  uc4CountPaths U.hash U.countThreshold

/-- The counts are sharded. -/
def counted : List (Output PathTable) :=
  U.countPaths.sends U.countFn U.aggregatePaths.size false U.clientId

def pathFn (_ : Unit) : SpillFn PathTable.codec PathTable PathTable PathTable :=
  uc4AggregatePaths U.hash U.pathThreshold

/-- The counts that all instances of the last fleet emit. -/
def emitted : List (GraphSrc.Path × ℕ) :=
  (List.range U.aggregatePaths.size).flatMap fun i =>
    UC4AggregatePaths.emitted (U.aggregatePaths.yieldedAt U.pathFn U.clientId i)

/-- What comes of a graph at a prune. -/
def GraphOf (nodes : Nodes) (input : PruneInput) : Prop :=
  ∃ nodes', input = .graph nodes' ∧ Nodes.Alike nodes nodes'

/-- What comes of the nodes of high degree at a prune. -/
def HighOf (high : NodeSet × NodeSet) (input : PruneInput) : Prop :=
  ∃ hiOut hiIn, input = .highDegree hiOut hiIn ∧ hiOut.Perm high.1.elems ∧
    hiIn.Perm high.2.elems

/-- The transactions come in batches, every fleet receives what the one before it sent, and
no fleet forgets the client before it has all of it. -/
structure Fed (transactions : List (Transaction A)) : Prop where
  transactions : (U.computeGraphs.received U.clientId ()).flatten.Perm transactions
  graphs : U.aggregateGraphs.Receives U.clientId Nodes.Alike 0 U.graphs
  degreeGraphs :
    U.degrees.Receives U.clientId Nodes.Alike U.aggregateGraphs.size U.graphs
  unions : ∀ i < U.prunes.size, Delivers GraphOf (sentTo i U.unions)
    (bodiesIn U.clientId .right (U.prunes.arrivals i))
  highs : ∀ i < U.prunes.size, Delivers HighOf (sentTo i U.highs)
    (bodiesIn U.clientId .left (U.prunes.arrivals i))
  pruned : U.countPaths.Receives U.clientId Nodes.Alike 0 U.pruned
  counted : U.aggregatePaths.Receives U.clientId Eq 0 U.counted
  keepsGraphs : U.aggregateGraphs.Keeps U.clientId
  keepsDegrees : U.degrees.Keeps U.clientId
  keepsCounts : U.countPaths.Keeps U.clientId
  keepsPaths : U.aggregatePaths.Keeps U.clientId

/-- The accounts of a client: their texts have no comma, and no two of them, nor two pairs of
them, have the same key. -/
structure Distinct (accounts : List Node) : Prop where
  readable : ∀ n ∈ accounts, n.CommaFree
  keys : UC4AggregateGraphs.KeysDistinct {n | n ∈ accounts}
  paths : UC4CountPaths.PathKeysDistinct accounts

variable {U} {transactions : List (Transaction A)}

/-- What comes from the parser of the client has no comma, so only the keys have to be told
apart. -/
theorem distinct_of_parsed {float : String → Option A}
    (hparsed : ∀ t ∈ transactions, ∃ line t',
      TransactionParser.parse float line = some t' ∧ edge t = edge t')
    (hkeys : UC4AggregateGraphs.KeysDistinct {n | n ∈ accountsOf transactions})
    (hpaths : UC4CountPaths.PathKeysDistinct (accountsOf transactions)) :
    Distinct (accountsOf transactions) :=
  ⟨TransactionParser.accountsOf_commaFree hparsed, hkeys, hpaths⟩

/-! ## Graphs -/

/-- The batches have the edges of the transactions. -/
theorem edgesOf_received (h : U.Fed transactions) :
    edgesOf (U.computeGraphs.received U.clientId ()).flatten = edgesOf transactions :=
  List.toFinset_eq_of_perm _ _ (h.transactions.map _)

theorem mem_accountsOf_received (h : U.Fed transactions) (n : Node) :
    n ∈ accountsOf (U.computeGraphs.received U.clientId ()).flatten ↔
      n ∈ accountsOf transactions :=
  (h.transactions.flatMap_right _).mem_iff

/-- The accounts of which one instance of a fleet has all edges. -/
def ownedBy (U : UC4 A) (transactions : List (Transaction A)) (size i : ℕ) : Set Node :=
  {n | n ∈ accountsOf transactions ∧
    (UC4ComputeGraph.affinity U.hash n % (size : ℤ)).toNat = i}

/-- What is sent to an instance covers the edges of its accounts, and so does what it
receives of it. -/
theorem covers_received (h : U.Fed transactions) (hd : Distinct (accountsOf transactions))
    (before after : List ℕ) {size i : ℕ} (hpos : ∀ fleet ∈ before, 0 < fleet)
    (hfleets : [U.aggregateGraphs.size, U.degrees.size] = before ++ size :: after)
    (hi : i < size) {received : List Nodes}
    (hreceived : Delivers Nodes.Alike (sentTo (before.sum + i) U.graphs) received) :
    Covers (edgesOf transactions) (ownedBy U transactions size i)
      (received.flatMap KeyedDict.entries) := by
  have hsent : sentTo (before.sum + i) U.graphs =
      ((groupsOf U.hash (U.computeGraphs.received U.clientId ())).filter fun g =>
        (g.2 % (size : ℤ)).toNat = i).map Prod.fst := by
    rw [graphs, hfleets]
    exact sentTo_groupBy_fleet after (fun msg => rfl) hpos hi
  have hkeys : UC4AggregateGraphs.KeysDistinct
      {n | n ∈ accountsOf (U.computeGraphs.received U.clientId ()).flatten} := by
    intro n hn n' hn' hkey
    exact hd.keys n ((mem_accountsOf_received h n).mp hn) n'
      ((mem_accountsOf_received h n').mp hn') hkey
  have hcovers : Covers _ _ (((groupsOf U.hash _).filter _).flatMap _) :=
    UC4ComputeGraph.covers_groupsOf hkeys fun affinity => (affinity % (size : ℤ)).toNat = i
  rw [edgesOf_received h] at hcovers
  have hentries : Delivers Entry.Alike ((sentTo (before.sum + i) U.graphs).flatMap
      KeyedDict.entries) (received.flatMap KeyedDict.entries) :=
    hreceived.flatMap fun _ _ halike => halike
  rw [hsent, List.flatMap_map] at hentries
  have hparts := hcovers.delivered hentries
  have hset : {n | n ∈ accountsOf (U.computeGraphs.received U.clientId ()).flatten ∧
      decide ((UC4ComputeGraph.affinity U.hash n % (size : ℤ)).toNat = i) = true} =
        ownedBy U transactions size i := by
    ext n
    simp [ownedBy, mem_accountsOf_received h]
  rwa [hset] at hparts

/-! ## United graphs -/

theorem ownedBy_subset (size i : ℕ) :
    ownedBy U transactions size i ⊆ {n | n ∈ accountsOf transactions} := fun _ hn => hn.1

/-- What one instance of the first fleet receives. -/
theorem covers_receivedAt (h : U.Fed transactions) (hd : Distinct (accountsOf transactions))
    {i : ℕ} (hi : i < U.aggregateGraphs.size) :
    Covers (edgesOf transactions) (ownedBy U transactions U.aggregateGraphs.size i)
      ((U.aggregateGraphs.receivedAt U.clientId i).flatMap KeyedDict.entries) :=
  covers_received h hd [] [U.degrees.size] (by simp) rfl hi (h.graphs i hi)

/-- What one instance yields. -/
theorem covers_yieldedAt (h : U.Fed transactions) (hd : Distinct (accountsOf transactions))
    {i : ℕ} (hi : i < U.aggregateGraphs.size) :
    Covers (edgesOf transactions) (ownedBy U transactions U.aggregateGraphs.size i)
      (((U.aggregateGraphs.yieldedAt U.graphFn U.clientId i).map Prod.fst).flatMap
        KeyedDict.entries) ∧
    ((((U.aggregateGraphs.yieldedAt U.graphFn U.clientId i).map Prod.fst).flatMap
      KeyedDict.entries).map fun e => e.1.key).Nodup := by
  have hreceived := covers_receivedAt h hd hi
  have hnodes : nodesOf (U.aggregateGraphs.receivedAt U.clientId i) ⊆
      {n | n ∈ accountsOf transactions} :=
    hreceived.nodesOf_subset (ownedBy_subset _ i) UC4ComputeGraph.edgesWithin_accountsOf
  have hunion := UC4AggregateGraphs.isUnion_run U.hash (U.aggregateGraphs.last i)
    U.graphThreshold U.clientId (U.aggregateGraphs.steps i) (h.keepsGraphs i hi)
    (fun n hn => hd.readable n (hnodes hn))
    (UC4AggregateGraphs.keysDistinct_scopeOf fun n hn n' hn' =>
      hd.keys n (hnodes hn) n' (hnodes hn'))
  have hmem (entry : Entry) : entry ∈ ((U.aggregateGraphs.yieldedAt U.graphFn U.clientId i).map
      Prod.fst).flatMap KeyedDict.entries ↔ ∃ e ∈ U.aggregateGraphs.yieldedAt U.graphFn
        U.clientId i, entry ∈ e.1.entries := by
    rw [List.flatMap_map, List.mem_flatMap]
  constructor
  · constructor
    · intro entry hentry
      obtain ⟨e, he, hentry⟩ := (hmem entry).mp hentry
      obtain ⟨body, hbody, entry', hentry', heq⟩ :=
        (hunion.nodes entry.1).mp ⟨e, he, entry, hentry, rfl⟩
      rw [← heq]
      exact hreceived.node entry' (List.mem_flatMap.mpr ⟨body, hbody, hentry'⟩)
    · intro d n a
      rw [← hreceived.edge d n a]
      constructor
      · rintro ⟨entry, hentry, rfl, ha⟩
        obtain ⟨e, he, hentry⟩ := (hmem entry).mp hentry
        obtain ⟨body, hbody, entry', hentry', heq, ha'⟩ :=
          (hunion.sets e he entry hentry d a).mp ha
        exact ⟨entry', List.mem_flatMap.mpr ⟨body, hbody, hentry'⟩, heq, ha'⟩
      · rintro ⟨entry', hentry', rfl, ha'⟩
        obtain ⟨body, hbody, hentry'⟩ := List.mem_flatMap.mp hentry'
        obtain ⟨e, he, entry, hentry, heq⟩ :=
          (hunion.nodes entry'.1).mpr ⟨body, hbody, entry', hentry', rfl⟩
        refine ⟨entry, (hmem entry).mpr ⟨e, he, hentry⟩, heq, ?_⟩
        exact (hunion.sets e he entry hentry d a).mpr
          ⟨body, hbody, entry', hentry', heq.symm, ha'⟩
  · apply KeyedDict.nodup_flatMap_keys
    intro g hg entry hentry
    obtain ⟨e, he, rfl⟩ := List.mem_map.mp hg
    rw [List.countP_map]
    exact hunion.once e he entry hentry

/-- The entries of all united graphs. -/
def unitedEntries (U : UC4 A) : List Entry :=
  (U.unions.map Output.payload).flatMap KeyedDict.entries

theorem unitedEntries_eq : U.unitedEntries = (List.range U.aggregateGraphs.size).flatMap fun i =>
    ((U.aggregateGraphs.yieldedAt U.graphFn U.clientId i).map Prod.fst).flatMap
      KeyedDict.entries := by
  rw [unitedEntries, unions, SpillFleet.payloads_sends_sharded, List.flatMap_assoc]

/-- The instance that has the edges of an account. -/
theorem owner_lt {size : ℕ} (hpos : 0 < size) (affinity : ℤ) :
    (affinity % (size : ℤ)).toNat < size := by
  have hlt : affinity % (size : ℤ) < size := Int.emod_lt_of_pos _ (by omega)
  omega

/-- Together they cover all edges, with one entry for each account. -/
theorem covers_unitedEntries (h : U.Fed transactions)
    (hd : Distinct (accountsOf transactions)) :
    Covers (edgesOf transactions) {n | n ∈ accountsOf transactions} U.unitedEntries ∧
      (U.unitedEntries.map fun e => e.1.key).Nodup := by
  rw [unitedEntries_eq]
  constructor
  · constructor
    · intro entry hentry
      obtain ⟨i, hi, hentry⟩ := List.mem_flatMap.mp hentry
      exact ((covers_yieldedAt h hd (List.mem_range.mp hi)).1.node entry hentry).1
    · intro d n a
      constructor
      · rintro ⟨entry, hentry, rfl, ha⟩
        obtain ⟨i, hi, hentry⟩ := List.mem_flatMap.mp hentry
        obtain ⟨hnode, hedge⟩ := ((covers_yieldedAt h hd (List.mem_range.mp hi)).1.edge d
          entry.1 a).mp ⟨entry, hentry, rfl, ha⟩
        exact ⟨hnode.1, hedge⟩
      · rintro ⟨hnode, hedge⟩
        have hi := owner_lt U.aggregateGraphs.pos (UC4ComputeGraph.affinity U.hash n)
        obtain ⟨entry, hentry, heq, ha⟩ :=
          ((covers_yieldedAt h hd hi).1.edge d n a).mpr ⟨⟨hnode, rfl⟩, hedge⟩
        exact ⟨entry, List.mem_flatMap.mpr ⟨_, List.mem_range.mpr hi, hentry⟩, heq, ha⟩
  · have howner {i : ℕ} (hi : i ∈ List.range U.aggregateGraphs.size) {k : String}
        (hk : k ∈ (((U.aggregateGraphs.yieldedAt U.graphFn U.clientId i).map Prod.fst).flatMap
          KeyedDict.entries).map fun e => e.1.key) :
        ∃ n ∈ ownedBy U transactions U.aggregateGraphs.size i, n.key = k := by
      obtain ⟨entry, hentry, rfl⟩ := List.mem_map.mp hk
      exact ⟨entry.1, (covers_yieldedAt h hd (List.mem_range.mp hi)).1.node entry hentry, rfl⟩
    rw [List.map_flatMap, List.nodup_flatMap]
    refine ⟨fun i hi => (covers_yieldedAt h hd (List.mem_range.mp hi)).2, ?_⟩
    apply List.nodup_range.imp_of_mem
    intro i j hi hj hne k hki hkj
    obtain ⟨n, hn, hkey⟩ := howner hi hki
    obtain ⟨n', hn', rfl⟩ := howner hj hkj
    rw [hd.keys n hn.1 n' hn'.1 hkey] at hn
    exact hne (hn.2.symm.trans hn'.2)

/-! ## Degrees -/

/-- What an instance of the second fleet receives. -/
theorem covers_degrees (h : U.Fed transactions) (hd : Distinct (accountsOf transactions))
    {i : ℕ} (hi : i < U.degrees.size) :
    Covers (edgesOf transactions) (ownedBy U transactions U.degrees.size i)
      ((U.degrees.receivedAt U.clientId i).flatMap KeyedDict.entries) := by
  apply covers_received h hd [U.aggregateGraphs.size] [] _ rfl hi
  · have hreceived := h.degreeGraphs i hi
    rwa [List.sum_singleton]
  · simpa using U.aggregateGraphs.pos

/-- An instance knows the degrees of its accounts, and of no other. -/
theorem degree_receivedAt (h : U.Fed transactions) (hd : Distinct (accountsOf transactions))
    {i : ℕ} (hi : i < U.degrees.size) (d : Direction) (n : Node) :
    (UC4Degree.degree d (U.degrees.receivedAt U.clientId i) n ≠ 0 →
      n ∈ ownedBy U transactions U.degrees.size i) ∧
    (n ∈ ownedBy U transactions U.degrees.size i →
      UC4Degree.degree d (U.degrees.receivedAt U.clientId i) n =
        (neighborsIn (edgesOf transactions) d n).card) := by
  have hmem (a : Node) : a ∈ (UC4Degree.neighborsOf d (U.degrees.receivedAt U.clientId i)
      n).toFinset ↔ n ∈ ownedBy U transactions U.degrees.size i ∧
        a ∈ neighborsIn (edgesOf transactions) d n := by
    rw [List.mem_toFinset, UC4Degree.mem_neighborsOf, (covers_degrees h hd hi).edge d n a,
      mem_neighborsIn]
  constructor
  · intro hne
    obtain ⟨a, ha⟩ := Finset.card_ne_zero.mp hne
    exact ((hmem a).mp ha).1
  · intro hn
    rw [UC4Degree.degree]
    congr 1
    ext a
    rw [hmem, and_iff_right hn]

/-- The nodes of high degree that are sent to a prune. -/
theorem sentTo_highs {m : ℕ} (hm : m < U.prunes.size) : sentTo m U.highs =
    (List.range U.degrees.size).flatMap fun i =>
      (U.degrees.yieldedAt U.degreeFn U.clientId i).map Prod.fst :=
  SpillFleet.sentTo_sends_broadcast hm

/-- The nodes of high degree that an instance yields: those of high in-degree, or those of
high out-degree, are its accounts with at least five neighbors of the kind. -/
theorem high_yieldedAt (h : U.Fed transactions) (hd : Distinct (accountsOf transactions))
    {i : ℕ} (hi : i < U.degrees.size) :
    ∃ high : NodeSet × NodeSet,
      U.degrees.yieldedAt U.degreeFn U.clientId i = [(high, 0)] ∧ ∀ d : Direction,
        (∀ n ∈ (d.of high.swap).elems, n ∈ ownedBy U transactions U.degrees.size i ∧
          UC4Degree.minDegree ≤ (neighborsIn (edgesOf transactions) d n).card) ∧
        ∀ n ∈ ownedBy U transactions U.degrees.size i,
          UC4Degree.minDegree ≤ (neighborsIn (edgesOf transactions) d n).card →
            (d.of high.swap).Mem n := by
  have hreadable : ∀ n ∈ nodesOf (U.degrees.receivedAt U.clientId i), n.CommaFree := by
    intro n hn
    exact hd.readable n ((covers_degrees h hd hi).nodesOf_subset (ownedBy_subset _ i)
      UC4ComputeGraph.edgesWithin_accountsOf hn)
  obtain ⟨high, hyielded, hhigh⟩ :=
    UC4Degree.high_run U.hash (U.degrees.last i) U.degreeThreshold U.clientId
      (U.degrees.steps i) (h.keepsDegrees i hi) hreadable
  have hsound {d : Direction} {n : Node} (henough : UC4Degree.minDegree ≤
      UC4Degree.degree d (U.degrees.receivedAt U.clientId i) n) :
      n ∈ ownedBy U transactions U.degrees.size i ∧
        UC4Degree.minDegree ≤ (neighborsIn (edgesOf transactions) d n).card := by
    obtain ⟨howned, hdegree⟩ := degree_receivedAt h hd hi d n
    have hn := howned (Nat.ne_of_gt (lt_of_lt_of_le Nat.succ_pos' henough))
    exact ⟨hn, hdegree hn ▸ henough⟩
  have hcomplete {d : Direction} {n : Node}
      (hn : n ∈ ownedBy U transactions U.degrees.size i)
      (henough : UC4Degree.minDegree ≤ (neighborsIn (edgesOf transactions) d n).card) :
      UC4Degree.minDegree ≤ UC4Degree.degree d (U.degrees.receivedAt U.clientId i) n := by
    rw [(degree_receivedAt h hd hi d n).2 hn]
    exact henough
  refine ⟨high, hyielded, ?_⟩
  intro d
  constructor
  · exact fun n hn => hsound ((hhigh d).1 n hn)
  · exact fun n hn henough => (hhigh d).2 n (hcomplete hn henough)

/-- An account of high degree is sent to every prune, and no other. -/
theorem mem_sentTo_highs (h : U.Fed transactions) (hd : Distinct (accountsOf transactions))
    {m : ℕ} (hm : m < U.prunes.size) (d : Direction) {n : Node}
    (hn : n ∈ accountsOf transactions) :
    (∃ high ∈ sentTo m U.highs, (d.of high.swap).Mem n) ↔
      UC4Degree.minDegree ≤ (neighborsIn (edgesOf transactions) d n).card := by
  rw [sentTo_highs hm]
  constructor
  · rintro ⟨high, hhigh, hmem⟩
    obtain ⟨i, hi, hhigh⟩ := List.mem_flatMap.mp hhigh
    obtain ⟨high', hyielded, hexact⟩ := high_yieldedAt h hd (List.mem_range.mp hi)
    rw [hyielded, List.map_singleton, List.mem_singleton] at hhigh
    rw [hhigh] at hmem
    obtain ⟨x, hx, hkey⟩ := List.mem_map.mp hmem
    obtain ⟨howned, henough⟩ := (hexact d).1 x hx
    rwa [hd.keys x howned.1 n hn hkey] at henough
  · intro henough
    have hi := owner_lt U.degrees.pos (UC4ComputeGraph.affinity U.hash n)
    obtain ⟨high, hyielded, hexact⟩ := high_yieldedAt h hd hi
    refine ⟨high, List.mem_flatMap.mpr ⟨_, List.mem_range.mpr hi, ?_⟩, ?_⟩
    · rw [hyielded, List.map_singleton]
      exact List.mem_singleton_self high
    · exact (hexact d).2 n ⟨hn, rfl⟩ henough

end UC4
