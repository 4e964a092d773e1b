import MoneyLaundering.Messages.GraphKeys
import MoneyLaundering.UseCases.UC4

/-!
# What the use case emits

The pruned graphs have as many accounts between two as the edges have, if the one has a high
out-degree and the other a high in-degree, and none otherwise.  Five accounts in between are
enough for both degrees, so that no pair is lost which the last fleet would emit.
-/

open Messages GraphSrc
open UC4ComputeGraph (accountsOf edgesOf edgesWithin_accountsOf)
open UC4CountPaths (between)
open UC4Prune (entriesBetween)

namespace UC4

variable {A : Type} {U : UC4 A} {transactions : List (Transaction A)}

/-! ## What a prune has -/

/-- The nodes of an input of a prune that have a high degree. -/
def highNodes (d : Direction) : PruneInput → List Node
  | .highDegree hiOut hiIn => d.of (hiIn, hiOut)
  | .graph _ => []

/-- The entries of an input of a prune. -/
def graphEntries : PruneInput → List Entry
  | .highDegree _ _ => []
  | .graph nodes => nodes.entries

/-- The nodes of high degree that a prune received. -/
def highAt (U : UC4 A) (d : Direction) (m : ℕ) : NodeSet :=
  .ofList Node.key ((bodiesIn U.clientId .left (U.prunes.arrivals m)).flatMap (highNodes d))

/-- The entries that a prune received. -/
def spilledAt (U : UC4 A) (m : ℕ) : List Entry :=
  (bodiesIn U.clientId .right (U.prunes.arrivals m)).flatMap graphEntries

/-- The nodes of high degree of a client. -/
def highOf (clientId : UUID) (d : Direction) (f : UC4Prune) : NodeSet :=
  (d.of (f.hiIn, f.hiOut)).getD clientId .empty

variable {cfg : NodeConfig} {m : ℕ}

/-- The nodes of high degree of the client at a prune after some messages. -/
theorem highOf_consume (d : Direction) (arrivals : List (Side × DataMsg PruneInput))
    (f : UC4Prune) :
    highOf U.clientId d ((ringMerge cfg U.countPaths.size (U.pruneFn m)).consume arrivals f) =
      (bodiesIn U.clientId .left arrivals).foldl (fun s body => s.update (highNodes d body))
        (highOf U.clientId d f) := by
  apply Controller.view_consume (highOf U.clientId d)
  · intro msg f hc
    cases hbody : msg.body <;> cases d <;>
      simp [ringMerge, pruneFn, uc4PruneMergeFn, UC4Prune.left, hbody, hc, highNodes, highOf,
        Direction.of, Dict.getD_set, OrderedSet.update]
  · intro side msg f hne
    cases side with
    | left =>
        have hc : ¬U.clientId = msg.clientId := fun hc => hne.resolve_left (by simp) hc.symm
        cases hbody : msg.body <;> cases d <;>
          simp [ringMerge, pruneFn, uc4PruneMergeFn, UC4Prune.left, hbody, hc, highOf,
            Direction.of, Dict.getD_set]
    | right =>
        cases hbody : msg.body <;>
          simp [ringMerge, pruneFn, uc4PruneMergeFn, UC4Prune.right, hbody, highOf]

/-- What a reader finds in the spill of the client after some messages. -/
theorem content_spill (arrivals : List (Side × DataMsg PruneInput)) (f : UC4Prune) :
    SpillFiles.content ((ringMerge cfg U.countPaths.size (U.pruneFn m)).consume arrivals f).spill
        U.clientId =
      (bodiesIn U.clientId .right arrivals).foldl
        (fun bytes body => bytes ++ (spillCodec (U.pruneOrder m)).text (graphEntries body))
        (SpillFiles.content f.spill U.clientId) := by
  apply Controller.view_consume fun f : UC4Prune => SpillFiles.content f.spill U.clientId
  · intro msg f hc
    cases hbody : msg.body <;>
      simp [ringMerge, pruneFn, uc4PruneMergeFn, UC4Prune.right, hbody, hc, graphEntries,
        LineCodec.text, LineCodec.content_spill]
  · intro side msg f hne
    cases side with
    | left =>
        cases hbody : msg.body <;>
          simp [ringMerge, pruneFn, uc4PruneMergeFn, UC4Prune.left, hbody]
    | right =>
        have hc : ¬U.clientId = msg.clientId := fun hc => hne.resolve_left (by simp) hc.symm
        cases hbody : msg.body <;>
          simp [ringMerge, pruneFn, uc4PruneMergeFn, UC4Prune.right, hbody, hc,
            LineCodec.content_spill]

/-- What a process writes of an entry is alike. -/
theorem alike_listed (order : NodeOrder) (entry : Entry) :
    Entry.Alike entry (listed order entry) := by
  have helems (s : NodeSet) :
      (OrderedSet.ofList Node.key (order.elems s)).elems.Perm s.elems := by
    rw [UC4Prune.elems_ofList_slice (List.Sublist.refl _)]
    exact order.perm s
  refine ⟨rfl, fun d => ?_⟩
  cases d with
  | pred => exact helems _
  | succ => exact helems _

/-- A prune reads back the entries that it received, with the sets in its own order. -/
theorem entries_spill (hreadable : ∀ entry ∈ (U.spilledAt m).map (listed (U.pruneOrder m)),
      UC4AggregateGraphs.Readable (entry.1, entry.2.1.elems, entry.2.2.elems)) :
    (spillCodec (U.pruneOrder m)).entries U.clientId
        ((ringMerge (U.prunes.config m) U.countPaths.size (U.pruneFn m)).consume
          (U.prunes.arrivals m) ⟨Dict.empty, Dict.empty, Dict.empty⟩).spill =
      (U.spilledAt m).map (listed (U.pruneOrder m)) := by
  have hread (files : PersistentSpill) : (spillCodec (U.pruneOrder m)).entries U.clientId files =
      UC4Prune.codec.entries U.clientId files := by
    rw [LineCodec.entries, LineCodec.entries]
    rfl
  rw [hread]
  apply UC4Prune.faithful_codec.entries_eq
  constructor
  · rw [content_spill, LineCodec.foldl_text]
    have htext (entries : List Entry) : (spillCodec (U.pruneOrder m)).text entries =
        UC4Prune.codec.text (entries.map (listed (U.pruneOrder m))) := by
      simp only [LineCodec.text, List.map_map]
      rfl
    rw [htext]
    rfl
  · exact hreadable

/-! ## The entries that are spilled -/

/-- Together the prunes spill the entries of the united graphs. -/
theorem delivers_spilled (h : U.Fed transactions) : Delivers Entry.Alike U.unitedEntries
    ((List.range U.prunes.size).flatMap U.spilledAt) := by
  have hinputs := delivers_shards h.unions (SpillFleet.shard_lt_sends_sharded U.prunes.pos)
  have hentries : Delivers Entry.Alike ((U.unions.map Output.payload).flatMap KeyedDict.entries)
      (((List.range U.prunes.size).flatMap fun i =>
        bodiesIn U.clientId .right (U.prunes.arrivals i)).flatMap graphEntries) := by
    apply hinputs.flatMap
    rintro nodes input ⟨nodes', rfl, halike⟩
    exact halike
  rwa [List.flatMap_assoc] at hentries

/-- Every account is spilled once. -/
theorem nodup_spilled (h : U.Fed transactions) (hd : Distinct (accountsOf transactions)) :
    (((List.range U.prunes.size).flatMap U.spilledAt).map fun e => e.1.key).Nodup := by
  have hperm : (U.unitedEntries.map fun e => e.1.key).Perm
      (((List.range U.prunes.size).flatMap U.spilledAt).map fun e => e.1.key) :=
    (delivers_spilled h).perm_map fun _ _ halike => congrArg Node.key halike.1.symm
  exact hperm.nodup_iff.mp (covers_unitedEntries h hd).2

theorem covers_spilled (h : U.Fed transactions) (hd : Distinct (accountsOf transactions)) :
    Covers (edgesOf transactions) {n | n ∈ accountsOf transactions}
      ((List.range U.prunes.size).flatMap U.spilledAt) :=
  (covers_unitedEntries h hd).1.delivered (delivers_spilled h)

/-! ## The pruned graphs -/

/-- Every prune has the accounts of high degree. -/
theorem mem_highAt (h : U.Fed transactions) (hd : Distinct (accountsOf transactions))
    (hm : m < U.prunes.size) (d : Direction) {n : Node} (hn : n ∈ accountsOf transactions) :
    (U.highAt d m).Mem n ↔
      UC4Degree.minDegree ≤ (neighborsIn (edgesOf transactions) d n).card := by
  rw [← mem_sentTo_highs h hd hm d hn, highAt, OrderedSet.mem_ofList]
  have hof {high : NodeSet × NodeSet} {input : PruneInput} (hinput : HighOf high input) :
      n.key ∈ (highNodes d input).map Node.key ↔ (d.of high.swap).Mem n := by
    obtain ⟨hiOut, hiIn, rfl, hout, hin⟩ := hinput
    cases d with
    | pred => exact (hin.map Node.key).mem_iff
    | succ => exact (hout.map Node.key).mem_iff
  rw [List.map_flatMap, List.mem_flatMap]
  constructor
  · rintro ⟨input, hinput, hmem⟩
    obtain ⟨high, hhigh, hhighOf⟩ := (h.highs m hm).mem_received hinput
    exact ⟨high, hhigh, (hof hhighOf).mp hmem⟩
  · rintro ⟨high, hhigh, hmem⟩
    obtain ⟨input, hinput, hhighOf⟩ := (h.highs m hm).mem_sent hhigh
    exact ⟨input, hinput, (hof hhighOf).mpr hmem⟩

/-- The graphs of a prune. -/
def graphsAt (U : UC4 A) (m : ℕ) : List Nodes :=
  UC4Prune.graphs (U.pruneOrder m) U.side (U.highAt .succ m) (U.highAt .pred m)
    ((U.spilledAt m).map (listed (U.pruneOrder m)))

/-- What a prune received of accounts without commas is read back. -/
theorem readable_listed (h : U.Fed transactions) (hd : Distinct (accountsOf transactions))
    (hm : m < U.prunes.size) : ∀ entry ∈ (U.spilledAt m).map (listed (U.pruneOrder m)),
      UC4AggregateGraphs.Readable (entry.1, entry.2.1.elems, entry.2.2.elems) := by
  intro line hline
  obtain ⟨entry, hentry, rfl⟩ := List.mem_map.mp hline
  have hmem : entry ∈ (List.range U.prunes.size).flatMap U.spilledAt :=
    List.mem_flatMap.mpr ⟨m, List.mem_range.mpr hm, hentry⟩
  have hcovers := covers_spilled h hd
  have hneighbor {d : Direction} {n : Node}
      (hn : n ∈ (d.of (listed (U.pruneOrder m) entry).2).elems) : n.CommaFree :=
    hd.readable n (hcovers.neighborsWithin edgesWithin_accountsOf entry hmem d n
      (((alike_listed (U.pruneOrder m) entry).2 d).subset hn))
  exact ⟨hd.readable _ (hcovers.node entry hmem), fun n hn => hneighbor (d := .pred) hn,
    fun n hn => hneighbor (d := .succ) hn⟩

theorem prunedAt_eq (h : U.Fed transactions) (hd : Distinct (accountsOf transactions))
    (hm : m < U.prunes.size) :
    U.prunedAt m = RingMerge.route U.countPaths.size (U.graphsAt m) := by
  have houtputs (arrivals : List (Side × DataMsg PruneInput)) : arrivals.flatMap (fun a =>
      (ringMerge (U.prunes.config m) U.countPaths.size (U.pruneFn m)).outputs a.2) = [] :=
    List.flatMap_eq_nil_iff.mpr fun _ _ => rfl
  have hhigh (d : Direction) : highOf U.clientId d
      ((ringMerge (U.prunes.config m) U.countPaths.size (U.pruneFn m)).consume
        (U.prunes.arrivals m) ⟨Dict.empty, Dict.empty, Dict.empty⟩) = U.highAt d m := by
    rw [highOf_consume, highAt, OrderedSet.ofList, OrderedSet.update, List.foldl_flatMap]
    cases d <;> rfl
  have hresult (f : UC4Prune) : ((U.pruneFn m).getResult U.clientId f).1 =
      UC4Prune.graphs (U.pruneOrder m) U.side (highOf U.clientId .succ f)
        (highOf U.clientId .pred f)
        ((spillCodec (U.pruneOrder m)).entries U.clientId f.spill) := rfl
  rw [graphsAt, ← entries_spill (readable_listed h hd hm), ← hhigh, ← hhigh, ← hresult]
  rw [prunedAt, Fleet.sendsOf, Controller.sends, houtputs, List.nil_append]
  rfl

/-- The prunes send their graphs. -/
theorem payloads_pruned (h : U.Fed transactions) (hd : Distinct (accountsOf transactions)) :
    U.pruned.map Output.payload = (List.range U.prunes.size).flatMap U.graphsAt := by
  rw [pruned, List.map_flatMap]
  apply List.flatMap_congr
  intro m hm
  rw [prunedAt_eq h hd (List.mem_range.mp hm), payloads_route]

theorem shard_lt_pruned (h : U.Fed transactions) (hd : Distinct (accountsOf transactions)) :
    ∀ o ∈ U.pruned, o.shard < U.countPaths.size := by
  intro o ho
  obtain ⟨m, hm, ho⟩ := List.mem_flatMap.mp ho
  rw [prunedAt_eq h hd (List.mem_range.mp hm)] at ho
  exact shard_lt_route U.countPaths.pos _ o ho

/-- The one account has a high out-degree, and the other a high in-degree. -/
def HighPair (E : Finset (Node × Node)) (a c : Node) : Prop :=
  UC4Degree.minDegree ≤ (neighborsIn E .succ a).card ∧
    UC4Degree.minDegree ≤ (neighborsIn E .pred c).card

instance (E : Finset (Node × Node)) (a c : Node) : Decidable (HighPair E a c) :=
  inferInstanceAs (Decidable (_ ∧ _))

variable {a c : Node}

/-- What a prune sends lies between two accounts as often as what it received, if the two have
high degrees. -/
theorem between_graphsAt (h : U.Fed transactions) (hd : Distinct (accountsOf transactions))
    (hm : m < U.prunes.size) (ha : a ∈ accountsOf transactions)
    (hc : c ∈ accountsOf transactions) :
    between (U.graphsAt m) a c =
      if HighPair (edgesOf transactions) a c then entriesBetween (U.spilledAt m) a c else 0 := by
  have hnodup : (((U.spilledAt m).map (listed (U.pruneOrder m))).map fun e => e.1.key).Nodup := by
    have hall := nodup_spilled h hd
    rw [List.map_flatMap] at hall
    rw [List.map_map]
    exact (List.nodup_flatMap.mp hall).1 m (List.mem_range.mpr hm)
  have hkept (entry : Entry) :
      ((listed (U.pruneOrder m) entry).2.1.inter (U.highAt .succ m)).Mem a ∧
        ((listed (U.pruneOrder m) entry).2.2.inter (U.highAt .pred m)).Mem c ↔
      HighPair (edgesOf transactions) a c ∧ entry.2.1.Mem a ∧ entry.2.2.Mem c := by
    have hpred := (alike_listed (U.pruneOrder m) entry).mem_iff .pred a
    have hsucc := (alike_listed (U.pruneOrder m) entry).mem_iff .succ c
    rw [UC4Prune.mem_inter, UC4Prune.mem_inter, mem_highAt h hd hm .succ ha,
      mem_highAt h hd hm .pred hc, and_and_and_comm, and_comm]
    exact and_congr_right' (and_congr hpred hsucc)
  rw [graphsAt, UC4Prune.between_graphs hnodup, entriesBetween, List.map_map, List.countP_map]
  split
  · rename_i hhigh
    apply List.countP_congr
    intro entry _
    rw [Function.comp_apply, decide_eq_true_eq, decide_eq_true_eq]
    exact (hkept entry).trans (and_iff_right hhigh)
  · rename_i hlow
    rw [List.countP_eq_zero]
    intro entry _ hmem
    exact hlow ((hkept entry).mp (of_decide_eq_true hmem)).1

/-- The pruned graphs have all accounts between two of high degree. -/
theorem between_pruned (h : U.Fed transactions) (hd : Distinct (accountsOf transactions))
    (ha : a ∈ accountsOf transactions) (hc : c ∈ accountsOf transactions) :
    between (U.pruned.map Output.payload) a c =
      if HighPair (edgesOf transactions) a c then (middles (edgesOf transactions) a c).card
      else 0 := by
  have hparts : between (U.pruned.map Output.payload) a c =
      ((List.range U.prunes.size).map fun m => between (U.graphsAt m) a c).sum := by
    rw [payloads_pruned h hd, between, List.flatMap_assoc, List.countP_flatMap]
    rfl
  have hspilled : ((List.range U.prunes.size).map fun m =>
      entriesBetween (U.spilledAt m) a c).sum = (middles (edgesOf transactions) a c).card := by
    rw [← (covers_spilled h hd).countP_between edgesWithin_accountsOf hd.keys
      (nodup_spilled h hd) ha hc, List.countP_flatMap]
    rfl
  have hgraphs : ((List.range U.prunes.size).map fun m => between (U.graphsAt m) a c) =
      (List.range U.prunes.size).map fun m => if HighPair (edgesOf transactions) a c then
        entriesBetween (U.spilledAt m) a c else 0 :=
    List.map_congr_left fun m hm => between_graphsAt h hd (List.mem_range.mp hm) ha hc
  rw [hparts, hgraphs]
  split
  · exact hspilled
  · simp

/-- Pruning adds no neighbors. -/
theorem neighborsWithin_pruned (h : U.Fed transactions)
    (hd : Distinct (accountsOf transactions)) :
    NeighborsWithin {n | n ∈ accountsOf transactions}
      ((U.pruned.map Output.payload).flatMap KeyedDict.entries) := by
  rw [payloads_pruned h hd, List.flatMap_assoc]
  intro entry hentry d n hn
  obtain ⟨m, hm, hentry⟩ := List.mem_flatMap.mp hentry
  obtain ⟨whole, hwhole, hpart⟩ := UC4Prune.partOf_of_mem_graphs hentry
  obtain ⟨spilled, hspilled, rfl⟩ := List.mem_map.mp hwhole
  have hmem : spilled ∈ (List.range U.prunes.size).flatMap U.spilledAt :=
    List.mem_flatMap.mpr ⟨m, hm, hspilled⟩
  exact (covers_spilled h hd).neighborsWithin edgesWithin_accountsOf spilled hmem d n
    (((alike_listed (U.pruneOrder m) spilled).2 d).subset (hpart d hn))

/-! ## Counts -/

theorem delivers_entries (h : U.Fed transactions) (hd : Distinct (accountsOf transactions)) :
    Delivers Entry.Alike ((U.pruned.map Output.payload).flatMap KeyedDict.entries)
      ((U.countPaths.received U.clientId).flatMap KeyedDict.entries) :=
  (h.pruned.all (shard_lt_pruned h hd)).flatMap fun _ _ halike => halike

/-- What is counted lies between two accounts as often as what was pruned. -/
theorem between_received (h : U.Fed transactions) (hd : Distinct (accountsOf transactions)) :
    between (U.countPaths.received U.clientId) a c = between (U.pruned.map Output.payload) a c := by
  symm
  apply (delivers_entries h hd).countP
  intro entry entry' halike
  exact decide_eq_decide.mpr
    (and_congr (halike.mem_iff .pred a) (halike.mem_iff .succ c)).symm

variable {k j : ℕ}

theorem neighbours_receivedAt (h : U.Fed transactions)
    (hd : Distinct (accountsOf transactions)) (hk : k < U.countPaths.size) :
    ∀ n ∈ UC4CountPaths.neighbours (U.countPaths.receivedAt U.clientId k),
      n ∈ accountsOf transactions := by
  intro n hn
  obtain ⟨entry, hentry, hn⟩ := List.mem_flatMap.mp hn
  have hmem : entry ∈ (U.countPaths.received U.clientId).flatMap KeyedDict.entries := by
    rw [SpillFleet.received, List.flatMap_assoc]
    exact List.mem_flatMap.mpr ⟨k, List.mem_range.mpr hk, hentry⟩
  have hwithin := (neighborsWithin_pruned h hd).delivered (delivers_entries h hd) entry hmem
  rcases List.mem_append.mp hn with hpred | hsucc
  · exact hwithin .pred n hpred
  · exact hwithin .succ n hsucc

theorem yieldedAt_counts (U : UC4 A) (k : ℕ) :
    U.countPaths.yieldedAt U.countFn U.clientId k =
      ((uc4CountPaths U.hash U.countThreshold).getResult U.clientId
        ((uc4CountPaths U.hash U.countThreshold).run ((U.countPaths.steps k).map Prod.snd))).1 :=
  SpillFleet.yieldedAt_run _ _ _ k

/-- The counts that one instance yields. -/
theorem yieldedCount_at (h : U.Fed transactions) (hd : Distinct (accountsOf transactions))
    (hk : k < U.countPaths.size) (ha : a ∈ accountsOf transactions)
    (hc : c ∈ accountsOf transactions) (hkey : a.key ≠ c.key) :
    UC4CountPaths.yieldedCount (U.countPaths.yieldedAt U.countFn U.clientId k) ⟨a, c⟩ =
      between (U.countPaths.receivedAt U.clientId k) a c := by
  rw [yieldedAt_counts]
  exact (UC4CountPaths.yieldedCount_eq_between_iff U.hash U.countThreshold
    (h.keepsCounts.steps hk) hkey).mpr fun p hp =>
      hd.paths.pairsApart (neighbours_receivedAt h hd hk) p hp a ha c hc hkey

/-- The instance that adds up the counts of a path. -/
def owner (U : UC4 A) (path : GraphSrc.Path) : ℕ :=
  UC4CountPaths.affinity U.hash path % U.aggregatePaths.size

theorem owner_congr {path path' : GraphSrc.Path} (h : path'.key = path.key) :
    U.owner path' = U.owner path :=
  congrArg (· % U.aggregatePaths.size) (UC4CountPaths.affinity_congr h)

/-- A pair of different accounts. -/
def PairOf (accounts : List Node) (path : GraphSrc.Path) : Prop :=
  path.origin ∈ accounts ∧ path.destination ∈ accounts ∧ path.origin.key ≠ path.destination.key

/-- What one instance yields about a path goes to its owner. -/
theorem entry_at (h : U.Fed transactions) (hd : Distinct (accountsOf transactions))
    (hk : k < U.countPaths.size) {e : PathTable × ℤ}
    (he : e ∈ U.countPaths.yieldedAt U.countFn U.clientId k) {entry : GraphSrc.Path × ℕ}
    (hentry : entry ∈ e.1.entries) :
    0 < entry.2 ∧ PairOf (accountsOf transactions) entry.1 ∧
      (e.2 % (U.aggregatePaths.size : ℤ) = j ↔ U.owner entry.1 = j) := by
  rw [yieldedAt_counts] at he
  obtain ⟨hpos, hpair, haffinity⟩ := UC4CountPaths.entry_run U.hash U.countThreshold _
    (h.keepsCounts.steps hk) e he entry hentry
  obtain ⟨ho, hdest, hne⟩ := UC4CountPaths.mem_pairs hpair
  have hall := neighbours_receivedAt h hd hk
  refine ⟨hpos, ⟨hall _ ho, hall _ hdest, hne⟩, ?_⟩
  rw [haffinity, owner]
  exact_mod_cast Iff.rfl

/-- The counts that are sent to an instance are those of its paths. -/
theorem of_mem_sentTo (h : U.Fed transactions) (hd : Distinct (accountsOf transactions))
    (hj : j < U.aggregatePaths.size) {entry : GraphSrc.Path × ℕ}
    (hentry : entry ∈ UC4AggregatePaths.countsOf (sentTo j U.counted)) :
    0 < entry.2 ∧ PairOf (accountsOf transactions) entry.1 ∧ U.owner entry.1 = j := by
  rw [counted, SpillFleet.sentTo_sends_sharded hj] at hentry
  obtain ⟨table, htable, hentry⟩ := List.mem_flatMap.mp hentry
  obtain ⟨k, hk, htable⟩ := List.mem_flatMap.mp htable
  obtain ⟨e, he, rfl⟩ := List.mem_map.mp htable
  obtain ⟨he, hshard⟩ := List.mem_filter.mp he
  obtain ⟨hpos, hpair, howner⟩ := entry_at (j := j) h hd (List.mem_range.mp hk) he hentry
  exact ⟨hpos, hpair, howner.mp (of_decide_eq_true hshard)⟩

/-- The owner of a pair gets all of its counts. -/
theorem sumAt_sentTo (h : U.Fed transactions) (hd : Distinct (accountsOf transactions))
    (ha : a ∈ accountsOf transactions) (hc : c ∈ accountsOf transactions)
    (hkey : a.key ≠ c.key) :
    KeyedDict.sumAt GraphSrc.Path.key (GraphSrc.Path.mk a c).key
        (UC4AggregatePaths.countsOf (sentTo (U.owner ⟨a, c⟩) U.counted)) =
      between (U.countPaths.received U.clientId) a c := by
  have howner : U.owner ⟨a, c⟩ < U.aggregatePaths.size := Nat.mod_lt _ U.aggregatePaths.pos
  have hone : ∀ k ∈ List.range U.countPaths.size,
      KeyedDict.sumAt GraphSrc.Path.key (GraphSrc.Path.mk a c).key
        (((U.countPaths.yieldedAt U.countFn U.clientId k).filter fun e =>
          e.2 % (U.aggregatePaths.size : ℤ) = U.owner ⟨a, c⟩).flatMap fun e => e.1.entries) =
        between (U.countPaths.receivedAt U.clientId k) a c := by
    intro k hk
    rw [KeyedDict.sumAt_flatMap_filter, ← yieldedCount_at h hd (List.mem_range.mp hk) ha hc hkey,
      UC4CountPaths.yieldedCount]
    · simp only [← KeyedDict.sumAt_entries]
    · intro e he entry hentry hpath
      apply decide_eq_true
      exact (entry_at h hd (List.mem_range.mp hk) he hentry).2.2.mpr (owner_congr hpath)
  rw [counted, SpillFleet.sentTo_sends_sharded howner, UC4AggregatePaths.countsOf,
    List.flatMap_assoc, KeyedDict.sumAt_flatMap]
  simp only [List.flatMap_map]
  rw [List.map_congr_left hone, SpillFleet.received, between, List.flatMap_assoc,
    List.countP_flatMap]
  rfl

/-! ## What is emitted -/

/-- The pairs of different accounts have different keys. -/
theorem PairOf.eq_of_key (hd : Distinct (accountsOf transactions)) {path path' : GraphSrc.Path}
    (h : PairOf (accountsOf transactions) path) (h' : PairOf (accountsOf transactions) path')
    (hkey : path.key = path'.key) : path = path' := by
  obtain ⟨ho, hdest⟩ := hd.paths _ h.1 _ h.2.1 _ h'.1 _ h'.2.1 h.2.2 h'.2.2 hkey
  exact congrArg₂ GraphSrc.Path.mk ho hdest

theorem perm_countsOf (h : U.Fed transactions) (hj : j < U.aggregatePaths.size) :
    (UC4AggregatePaths.countsOf (sentTo j U.counted)).Perm
      (UC4AggregatePaths.countsOf (U.aggregatePaths.receivedAt U.clientId j)) := by
  have hreceived := (h.counted j hj).perm_map (f := id) (g := id) fun _ _ heq => heq
  rw [Nat.zero_add, List.map_id, List.map_id] at hreceived
  exact hreceived.flatMap_right _

/-- The counts that one instance of the last fleet emits. -/
def emittedAt (U : UC4 A) (j : ℕ) : List (GraphSrc.Path × ℕ) :=
  UC4AggregatePaths.emitted (U.aggregatePaths.yieldedAt U.pathFn U.clientId j)

/-- An instance emits the sums of what was sent to it that are large enough, each once. -/
theorem emittedAt_exact (h : U.Fed transactions) (hd : Distinct (accountsOf transactions))
    (hj : j < U.aggregatePaths.size) :
    ((U.emittedAt j).map Prod.fst).Nodup ∧ ∀ e, e ∈ U.emittedAt j ↔
      (∃ e' ∈ UC4AggregatePaths.countsOf (sentTo j U.counted), e'.1 = e.1) ∧
        UC4AggregatePaths.minPathCount ≤ e.2 ∧
        e.2 = KeyedDict.sumAt GraphSrc.Path.key e.1.key
          (UC4AggregatePaths.countsOf (sentTo j U.counted)) := by
  have hperm := perm_countsOf h hj
  have hof {e : GraphSrc.Path × ℕ}
      (he : e ∈ UC4AggregatePaths.countsOf (U.aggregatePaths.receivedAt U.clientId j)) :
      0 < e.2 ∧ PairOf (accountsOf transactions) e.1 ∧ U.owner e.1 = j :=
    of_mem_sentTo h hd hj (hperm.mem_iff.mpr he)
  have hrun := UC4AggregatePaths.emitted_run U.hash U.pathThreshold _ (h.keepsPaths.steps hj)
    (fun table htable e he => (hof (List.mem_flatMap.mpr ⟨table, htable, he⟩)).1)
    (fun e he e' he' hkey => (hof he).2.1.eq_of_key hd (hof he').2.1 hkey)
  have hyielded : U.aggregatePaths.yieldedAt U.pathFn U.clientId j =
      ((uc4AggregatePaths U.hash U.pathThreshold).getResult U.clientId
        ((uc4AggregatePaths U.hash U.pathThreshold).run
          ((U.aggregatePaths.steps j).map Prod.snd))).1 := SpillFleet.yieldedAt_run _ _ _ j
  rw [emittedAt, hyielded]
  refine ⟨hrun.1, fun e => (hrun.2 e).trans ?_⟩
  rw [KeyedDict.sumAt_perm hperm]
  apply and_congr_left'
  constructor
  · rintro ⟨e', he', heq⟩
    exact ⟨e', hperm.mem_iff.mpr he', heq⟩
  · rintro ⟨e', he', heq⟩
    exact ⟨e', hperm.mem_iff.mp he', heq⟩

/-- Every path is emitted by its owner. -/
theorem mem_emitted (h : U.Fed transactions) (hd : Distinct (accountsOf transactions))
    (e : GraphSrc.Path × ℕ) : e ∈ U.emitted ↔ e ∈ U.emittedAt (U.owner e.1) := by
  constructor
  · intro he
    obtain ⟨j, hj, he⟩ := List.mem_flatMap.mp he
    have hlt := List.mem_range.mp hj
    obtain ⟨⟨e', he', heq⟩, -⟩ := ((emittedAt_exact h hd hlt).2 e).mp he
    rw [← heq, (of_mem_sentTo h hd hlt he').2.2]
    exact he
  · intro he
    have hlt : U.owner e.1 < U.aggregatePaths.size := Nat.mod_lt _ U.aggregatePaths.pos
    exact List.mem_flatMap.mpr ⟨_, List.mem_range.mpr hlt, he⟩

theorem nodup_emitted (h : U.Fed transactions) (hd : Distinct (accountsOf transactions)) :
    (U.emitted.map Prod.fst).Nodup := by
  rw [emitted, List.map_flatMap]
  apply List.nodup_flatMap_of_owner U.owner List.nodup_range
  · exact fun j hj => (emittedAt_exact h hd (List.mem_range.mp hj)).1
  · intro j hj path hpath
    obtain ⟨e, he, rfl⟩ := List.mem_map.mp hpath
    have hlt := List.mem_range.mp hj
    obtain ⟨⟨e', he', heq⟩, -⟩ := ((emittedAt_exact h hd hlt).2 e).mp he
    rw [← heq]
    exact (of_mem_sentTo h hd hlt he').2.2

/-- The counts of a pair add up to the accounts between the two, if these have high degrees. -/
theorem sumAt_pair (h : U.Fed transactions) (hd : Distinct (accountsOf transactions))
    (hpair : PairOf (accountsOf transactions) ⟨a, c⟩) :
    KeyedDict.sumAt GraphSrc.Path.key (GraphSrc.Path.mk a c).key
        (UC4AggregatePaths.countsOf (sentTo (U.owner ⟨a, c⟩) U.counted)) =
      if HighPair (edgesOf transactions) a c then (middles (edgesOf transactions) a c).card
      else 0 := by
  rw [sumAt_sentTo h hd hpair.1 hpair.2.1 hpair.2.2, between_received h hd,
    between_pruned h hd hpair.1 hpair.2.1]

/-- Enough accounts between two give both of them a high degree. -/
theorem highPair_of_enough {E : Finset (Node × Node)} (h : 5 ≤ (middles E a c).card) :
    HighPair E a c :=
  ⟨h.trans (Finset.card_le_card Finset.inter_subset_left),
    h.trans (Finset.card_le_card Finset.inter_subset_right)⟩

/-- Two accounts with another in between are accounts of the client. -/
theorem pairOf_of_enough (hd : Distinct (accountsOf transactions)) (hne : a ≠ c)
    (h : 5 ≤ (middles (edgesOf transactions) a c).card) :
    PairOf (accountsOf transactions) ⟨a, c⟩ := by
  obtain ⟨b, hb⟩ : (middles (edgesOf transactions) a c).Nonempty :=
    Finset.card_pos.mp (lt_of_lt_of_le Nat.succ_pos' h)
  obtain ⟨hab, hbc⟩ := mem_middles.mp hb
  have ha := (edgesWithin_accountsOf _ hab).1
  have hc := (edgesWithin_accountsOf _ hbc).2
  exact ⟨ha, hc, fun hkey => hne (hd.keys a ha c hc hkey)⟩

/-- The use case computes the scatter-gather relation.  It emits the pairs of different
accounts with at least five accounts in between, each once, with the number of these. -/
theorem computes_scatterGather (U : UC4 A) (transactions : List (Transaction A))
    (h : U.Fed transactions) (hd : Distinct (accountsOf transactions)) :
    (U.emitted.map Prod.fst).Nodup ∧
    ∀ a c count, (⟨a, c⟩, count) ∈ U.emitted ↔
      a ≠ c ∧ 5 ≤ count ∧ count = (middles (edgesOf transactions) a c).card := by
  refine ⟨nodup_emitted h hd, ?_⟩
  intro a c count
  have howner : U.owner ⟨a, c⟩ < U.aggregatePaths.size := Nat.mod_lt _ U.aggregatePaths.pos
  rw [mem_emitted h hd, (emittedAt_exact h hd howner).2]
  constructor
  · rintro ⟨⟨e', he', heq⟩, henough, hsum⟩
    have hpair := (of_mem_sentTo h hd howner he').2.1
    rw [heq] at hpair
    rw [sumAt_pair h hd hpair] at hsum
    have hne : a ≠ c := fun hsame => hpair.2.2 (congrArg Node.key hsame)
    split at hsum
    · exact ⟨hne, henough, hsum⟩
    · rw [hsum] at henough
      exact absurd henough (by decide)
  · rintro ⟨hne, henough, rfl⟩
    have hpair := pairOf_of_enough hd hne henough
    have hsum := sumAt_pair h hd hpair
    rw [if_pos (highPair_of_enough henough)] at hsum
    refine ⟨?_, henough, hsum.symm⟩
    obtain ⟨e', he', hkey⟩ := KeyedDict.mem_keys_of_sumAt_pos
      (lt_of_lt_of_le Nat.succ_pos' (hsum ▸ henough))
    exact ⟨e', he', (of_mem_sentTo h hd howner he').2.1.eq_of_key hd hpair hkey⟩

/-! ## Messages that arrive as they are sent -/

/-- An instance that gets some messages of a client and nothing else. -/
def inputs {O α : Type} (order : O) (clientId : UUID) (bodies : List α) :
    List (O × SpillFn.Step α) :=
  bodies.map fun body => (order, .input ⟨clientId, 7, 1, body⟩)

theorem bodies_inputs {O α : Type} (order : O) (clientId : UUID) (bodies : List α) :
    SpillFn.bodies clientId ((inputs order clientId bodies).map Prod.snd) = bodies := by
  rw [inputs, List.map_map, SpillFn.bodies, List.filterMap_map]
  simp [Function.comp_def, SpillFn.Step.bodyOf]

theorem keeps_inputs {O α : Type} {order : O} {clientId : UUID} {bodies : List α} :
    ∀ s ∈ inputs order clientId bodies, s.2.Keeps clientId := by
  intro s hs
  obtain ⟨body, -, rfl⟩ := List.mem_map.mp hs
  trivial

/-- What the instances get is given by what is sent to them. -/
def arriving {O α : Type} (X : SpillFleet O α) (clientId : UUID) (bodies : ℕ → List α) :
    SpillFleet O α :=
  { X with steps := fun i => inputs (X.last i) clientId (bodies i) }

/-- Both fleets get the graphs. -/
def relayGraphs (U : UC4 A) : UC4 A :=
  { U with
    aggregateGraphs := arriving U.aggregateGraphs U.clientId fun i => sentTo i U.graphs
    degrees := arriving U.degrees U.clientId fun i =>
      sentTo (U.aggregateGraphs.size + i) U.graphs }

/-- The prunes get the united graphs and the nodes of high degree. -/
def relayUnions (U : UC4 A) : UC4 A :=
  { U with
    prunes := { U.prunes with
      arrivals := fun i =>
        (sentTo i U.unions).map (fun nodes => (.right, ⟨U.clientId, 7, 1, .graph nodes⟩)) ++
          (sentTo i U.highs).map fun high =>
            (.left, ⟨U.clientId, 7, 1, .highDegree high.1.elems high.2.elems⟩) } }

def relayPruned (U : UC4 A) : UC4 A :=
  { U with countPaths := arriving U.countPaths U.clientId fun i => sentTo i U.pruned }

def relayCounted (U : UC4 A) : UC4 A :=
  { U with aggregatePaths := arriving U.aggregatePaths U.clientId fun i => sentTo i U.counted }

/-- Everything arrives as it is sent. -/
def relay (U : UC4 A) : UC4 A := U.relayGraphs.relayUnions.relayPruned.relayCounted

/-- What arrives at a prune as it is sent. -/
theorem bodiesIn_relayUnions (U : UC4 A) (i : ℕ) :
    bodiesIn U.clientId .right (U.relayUnions.prunes.arrivals i) =
        (sentTo i U.unions).map .graph ∧
      bodiesIn U.clientId .left (U.relayUnions.prunes.arrivals i) =
        (sentTo i U.highs).map fun high => .highDegree high.1.elems high.2.elems := by
  constructor
  · simp [bodiesIn, relayUnions, List.filter_map, Function.comp_def]
  · simp [bodiesIn, relayUnions, List.filter_map, Function.comp_def]

theorem receives_arriving {O α : Type} {X : SpillFleet O α} {clientId : UUID} {base : ℕ}
    {outs : List (Output α)} {R : α → α → Prop} {bodies : ℕ → List α} (hR : ∀ x, R x x)
    (h : ∀ i, bodies i = sentTo (base + i) outs) :
    (arriving X clientId bodies).Receives clientId R base outs := by
  intro i _
  rw [SpillFleet.receivedAt, arriving, bodies_inputs, h]
  exact .of_perm (.refl _) hR

/-- A use case whose messages arrive is fed. -/
theorem fed_relay (U : UC4 A) : U.relay.Fed (U.computeGraphs.received U.clientId ()).flatten := by
  have hzero {β : Type} (outs : List (Output β)) (i : ℕ) :
      sentTo i outs = sentTo (0 + i) outs := by rw [Nat.zero_add]
  constructor
  · exact .refl _
  · exact receives_arriving (X := U.aggregateGraphs) Nodes.Alike.refl (hzero U.graphs)
  · exact receives_arriving (X := U.degrees) Nodes.Alike.refl fun _ => rfl
  · intro i _
    change Delivers GraphOf (sentTo i U.relayGraphs.unions)
      (bodiesIn U.relayGraphs.clientId .right (U.relayGraphs.relayUnions.prunes.arrivals i))
    rw [(bodiesIn_relayUnions U.relayGraphs i).1]
    exact .map_received _ fun nodes => ⟨nodes, rfl, .refl nodes⟩
  · intro i _
    change Delivers HighOf (sentTo i U.relayGraphs.highs)
      (bodiesIn U.relayGraphs.clientId .left (U.relayGraphs.relayUnions.prunes.arrivals i))
    rw [(bodiesIn_relayUnions U.relayGraphs i).2]
    exact .map_received _ fun high => ⟨_, _, rfl, .refl _, .refl _⟩
  · exact receives_arriving (X := U.countPaths) Nodes.Alike.refl
      (hzero U.relayGraphs.relayUnions.pruned)
  · exact receives_arriving (X := U.aggregatePaths) (fun _ => rfl)
      (hzero U.relayGraphs.relayUnions.relayPruned.counted)
  · exact fun i _ => keeps_inputs
  · exact fun i _ => keeps_inputs
  · exact fun i _ => keeps_inputs
  · exact fun i _ => keeps_inputs

/-- Accounts whose texts have the same lengths are told apart by all keys. -/
theorem distinct_of_lengths {accounts : List Node} (bank account : ℕ)
    (h : ∀ n ∈ accounts, n.CommaFree ∧ n.bank.length = bank ∧ n.account.length = account) :
    Distinct accounts := by
  have hnode {n n' : Node} (hn : n ∈ accounts) (hn' : n' ∈ accounts) (hkey : n.key = n'.key) :
      n = n' := by
    obtain ⟨hbank, haccount⟩ := append_inj_of_length ((h n hn).2.1.trans (h n' hn').2.1.symm) hkey
    cases n
    cases n'
    exact congrArg₂ Node.mk hbank haccount
  have hlength {n : Node} (hn : n ∈ accounts) : n.key.length = bank + account := by
    rw [Node.key, String.length_append, (h n hn).2.1, (h n hn).2.2]
  refine ⟨fun n hn => (h n hn).1, fun n hn n' hn' => hnode hn hn', ?_⟩
  intro a ha c hc a' ha' c' hc' _ _ hkey
  obtain ⟨horigin, hdestination⟩ :=
    append_inj_of_length ((hlength ha).trans (hlength ha').symm) hkey
  exact ⟨hnode ha ha' horigin, hnode hc hc' hdestination⟩

/-- A transfer between two accounts of a bank. -/
def transfer (origin destination : String) : Transaction ℕ where
  timestamp := .text "2022-09-01 08:30:00"
  fromBank := "1"
  fromAccount := origin
  toBank := "1"
  toAccount := destination
  amountReceived := 5
  receivingCurrency := "US Dollar"
  amountPaid := 5
  paymentCurrency := "US Dollar"
  paymentFormat := "Wire"

/-- A fleet of two instances to which nothing has been sent. -/
def idle {O α : Type} (last : O) : SpillFleet O α :=
  ⟨2, Nat.two_pos, fun _ => ⟨⟨0, 2, 0⟩, 5, fun shard => BitVec.ofNat 128 shard⟩, fun _ => [],
    fun _ => last⟩

/-- Account `a` pays `m`, `n`, `o`, `p` and `q`, and these pay `c`. -/
def fiveBetween : UC4 ℕ where
  hash s := s.length
  clientId := 7
  computeGraphs := ⟨2, Nat.two_pos, fun _ => ⟨⟨0, 2, 0⟩, 5, fun shard => BitVec.ofNat 128 shard⟩,
    fun i => [((), ⟨7, 7, 1, ["m", "n", "o", "p", "q"].map fun account =>
      if i = 0 then transfer "a" account else transfer account "c"⟩)]⟩
  aggregateGraphs := idle (.inserted Node.key)
  degrees := idle (.inserted id)
  prunes := ⟨2, Nat.two_pos, fun _ => ⟨⟨0, 2, 0⟩, 5, fun shard => BitVec.ofNat 128 shard⟩,
    fun _ => []⟩
  pruneOrder _ := .inserted Node.key
  side := UC4Prune.root
  countPaths := idle ()
  aggregatePaths := idle ()
  graphThreshold := 1
  degreeThreshold := 1
  countThreshold := 1
  pathThreshold := 1

/-- The pair is emitted with its count, and the other way round it is not. -/
theorem computes_scatterGather_fiveBetween :
    (⟨⟨"1", "a"⟩, ⟨"1", "c"⟩⟩, 5) ∈ fiveBetween.relay.emitted ∧
      ∀ count, (⟨⟨"1", "c"⟩, ⟨"1", "a"⟩⟩, count) ∉ fiveBetween.relay.emitted := by
  obtain ⟨-, hemitted⟩ := computes_scatterGather fiveBetween.relay _ (fed_relay fiveBetween)
    (distinct_of_lengths 1 1 (by decide +kernel))
  constructor
  · exact (hemitted _ _ _).mpr (by decide +kernel)
  · intro count hmem
    obtain ⟨-, henough, hcount⟩ := (hemitted _ _ _).mp hmem
    rw [hcount] at henough
    exact absurd henough (by decide +kernel)

end UC4
