import MoneyLaundering.Aggregate.AggregateGraphs
import MoneyLaundering.Messages.Classes
import MoneyLaundering.Messages.GraphEdges

/-!
# The graph of a batch of transactions

`UC4ComputeGraph` makes a graph of every batch, and sends its nodes in parts, each with the
affinity of its nodes.  However transactions are split into batches, the parts have all of
their edges.
-/

open Messages

namespace GraphSrc

namespace UC4ComputeGraph

variable {A : Type} (hash : String → ℤ)

/-- `AFFINITY_SHARDS`. -/
def affinityShards : ℤ := 50

/-- `hash(b) % AFFINITY_SHARDS`. -/
def affinity (node : Node) : ℤ := hash node.key % affinityShards

/-- `add_origin`. -/
def addOrigin (nodes : Nodes) (node origin : Node) : Nodes :=
  let old := nodes.getD node (.empty, .empty)
  nodes.assign node (old.1.add origin, old.2)

/-- `add_destination`. -/
def addDestination (nodes : Nodes) (node destination : Node) : Nodes :=
  let old := nodes.getD node (.empty, .empty)
  nodes.assign node (old.1, old.2.add destination)

/-- The accounts of a transaction: where it comes from and where it goes. -/
def edge (t : Transaction A) : Node × Node :=
  (⟨t.fromBank, t.fromAccount⟩, ⟨t.toBank, t.toAccount⟩)

/-- Add one transaction to the graph. -/
def addTransaction (nodes : Nodes) (t : Transaction A) : Nodes :=
  addDestination (addOrigin nodes (edge t).2 (edge t).1) (edge t).1 (edge t).2

/-- The graph of a batch. -/
def graphOf (transactions : List (Transaction A)) : Nodes :=
  transactions.foldl addTransaction .empty

/-- Put a node into the part of its affinity. -/
def put (part : Nodes) (entry : Entry) : Nodes :=
  match part.get? entry.1 with
  | none => part.assign entry.1 entry.2
  | some old =>
    part.assign entry.1 (old.1.update entry.2.1.elems, old.2.update entry.2.2.elems)

/-- The parts of a graph. -/
def affinities (nodes : Nodes) : Dict ℤ Nodes :=
  .gather (fun e => affinity hash e.1) .empty put nodes.entries

/-- What is made of a batch: graphs, each with an affinity. -/
def groups (transactions : List (Transaction A)) : List (Nodes × ℤ) :=
  (affinities hash (graphOf transactions)).entries.map fun group => (group.2, group.1)

end UC4ComputeGraph

/-- `UC4ComputeGraph`. -/
def uc4ComputeGraph {A : Type} (hash : String → ℤ) (msg : DataMsg (List (Transaction A))) :
    List (Nodes × ℤ) :=
  UC4ComputeGraph.groups hash msg.body

namespace UC4ComputeGraph

open UC4AggregateGraphs (Fact Tells Knows lineOf knows_add KeysDistinct Scope
  GraphWithin knows_edge_iff)

variable {A : Type} {hash : String → ℤ} {nodes part : Nodes} {fact : Fact}
  {transactions : List (Transaction A)} {batches : List (List (Transaction A))}

/-! ## The graph -/

/-- What a transaction says. -/
def Says (t : Transaction A) (fact : Fact) : Prop :=
  Tells ((edge t).2, [(edge t).1], []) fact ∨ Tells ((edge t).1, [], [(edge t).2]) fact

theorem addOrigin_eq (node origin : Node) : addOrigin nodes node origin =
    UC4AggregateGraphs.add nodes node ⟨[origin], List.nodup_singleton _⟩ .empty := rfl

theorem addDestination_eq (node destination : Node) : addDestination nodes node destination =
    UC4AggregateGraphs.add nodes node .empty ⟨[destination], List.nodup_singleton _⟩ := rfl

theorem knows_addTransaction (t : Transaction A) :
    Knows (addTransaction nodes t) fact ↔ Knows nodes fact ∨ Says t fact := by
  rw [addTransaction, addDestination_eq, knows_add, addOrigin_eq, knows_add, or_assoc]
  rfl

theorem knows_foldl : Knows (transactions.foldl addTransaction nodes) fact ↔
    Knows nodes fact ∨ ∃ t ∈ transactions, Says t fact := by
  induction transactions generalizing nodes with
  | nil => simp
  | cons t transactions ih =>
      rw [List.foldl_cons, ih, knows_addTransaction, List.exists_mem_cons_iff, or_assoc]

/-- The graph of a batch says what its transactions say. -/
theorem knows_graphOf : Knows (graphOf transactions) fact ↔ ∃ t ∈ transactions, Says t fact := by
  have hempty : ¬Knows .empty fact := by
    intro h
    obtain ⟨entry, hmem, -⟩ := h
    exact List.not_mem_nil hmem
  rw [graphOf, knows_foldl, or_iff_right hempty]

/-- An edge is said of both of its ends. -/
theorem says_edge_iff {d : Direction} {k k' : String} {t : Transaction A} :
    Says t (.edge d k k') ↔ ∃ n a, n.key = k ∧ a.key = k' ∧ d.edge n a = edge t := by
  cases d with
  | pred =>
      simp only [Says, Tells, Direction.of, Direction.edge, List.map_cons, List.map_nil,
        List.mem_singleton, List.not_mem_nil, and_false, or_false]
      constructor
      · intro h
        exact ⟨_, _, h.1, h.2.symm, rfl⟩
      · intro h
        obtain ⟨n, a, rfl, rfl, hedge⟩ := h
        rw [← hedge]
        exact ⟨rfl, rfl⟩
  | succ =>
      simp only [Says, Tells, Direction.of, Direction.edge, List.map_cons, List.map_nil,
        List.mem_singleton, List.not_mem_nil, and_false, false_or]
      constructor
      · intro h
        exact ⟨_, _, h.1, h.2.symm, rfl⟩
      · intro h
        obtain ⟨n, a, rfl, rfl, hedge⟩ := h
        rw [← hedge]
        exact ⟨rfl, rfl⟩

/-! ## Accounts -/

/-- The accounts of some transactions. -/
def accountsOf (transactions : List (Transaction A)) : List Node :=
  transactions.flatMap fun t => [(edge t).1, (edge t).2]

/-- The edges of some transactions. -/
def edgesOf (transactions : List (Transaction A)) : Finset (Node × Node) :=
  (transactions.map edge).toFinset

theorem mem_edgesOf {e : Node × Node} :
    e ∈ edgesOf transactions ↔ ∃ t ∈ transactions, edge t = e := by
  rw [edgesOf, List.mem_toFinset, List.mem_map]

theorem edgesWithin_accountsOf :
    EdgesWithin (edgesOf transactions) {n | n ∈ accountsOf transactions} := by
  intro e he
  obtain ⟨t, ht, rfl⟩ := mem_edgesOf.mp he
  constructor
  · exact List.mem_flatMap.mpr ⟨t, ht, List.mem_cons_self⟩
  · exact List.mem_flatMap.mpr ⟨t, ht, List.mem_cons_of_mem _ List.mem_cons_self⟩

theorem graphWithin_addTransaction {N : Set Node} {t : Transaction A}
    (h : GraphWithin (.all N) nodes) (ht : (edge t).1 ∈ N ∧ (edge t).2 ∈ N) :
    GraphWithin (.all N) (addTransaction nodes t) := by
  have hsingle {n a : Node} (ha : a ∈ N) : n ∈ [a] → n ∈ N := by
    intro hn
    rw [List.mem_singleton.mp hn]
    exact ha
  rw [addTransaction, addDestination_eq, addOrigin_eq]
  apply (h.add _).add
  · refine ⟨ht.1, ?_⟩
    intro d n hn
    cases d with
    | pred => exact absurd hn List.not_mem_nil
    | succ => exact hsingle ht.2 hn
  · refine ⟨ht.2, ?_⟩
    intro d n hn
    cases d with
    | pred => exact hsingle ht.1 hn
    | succ => exact absurd hn List.not_mem_nil

theorem graphWithin_graphOf {N : Set Node}
    (h : ∀ t ∈ transactions, (edge t).1 ∈ N ∧ (edge t).2 ∈ N) :
    GraphWithin (.all N) (graphOf transactions) := by
  rw [graphOf]
  have hempty : GraphWithin (.all N) .empty := fun _ hmem => absurd hmem List.not_mem_nil
  generalize (KeyedDict.empty : Nodes) = nodes at hempty
  induction transactions generalizing nodes with
  | nil => exact hempty
  | cons t transactions ih =>
      apply ih fun t' ht' => h t' (List.mem_cons_of_mem _ ht')
      exact graphWithin_addTransaction hempty (h t List.mem_cons_self)

/-! ## Its parts -/

/-- Nodes that are not there yet are appended. -/
theorem entries_foldl_put {es : List Entry}
    (h : ((part.entries ++ es).map fun e => e.1.key).Nodup) :
    (es.foldl put part).entries = part.entries ++ es := by
  induction es generalizing part with
  | nil => rw [List.foldl_nil, List.append_nil]
  | cons e es ih =>
      have hnot : e.1.key ∉ part.entries.map fun e => e.1.key := by
        intro hmem
        rw [List.map_append, List.map_cons, List.nodup_append] at h
        exact h.2.2 _ hmem _ List.mem_cons_self rfl
      have hnone : part.get? e.1 = none := by
        by_contra hsome
        obtain ⟨v, hv⟩ := Option.ne_none_iff_exists'.mp hsome
        obtain ⟨x, hkey, hmem⟩ := KeyedDict.find?_eq_some_iff.mp hv
        exact hnot (List.mem_map.mpr ⟨(x, v), hmem, hkey⟩)
      have hput : (put part e).entries = part.entries ++ [e] := by
        rw [put, hnone]
        exact KeyedDict.assignEntries_of_notMem hnot
      rw [List.foldl_cons, ih, hput, List.append_assoc]
      · rfl
      · rw [hput, List.append_assoc]
        exact h

theorem get?_affinities (nodes : Nodes) (i : ℤ) :
    ((affinities hash nodes).get? i).map KeyedDict.entries =
      if i ∈ nodes.entries.map fun e => affinity hash e.1 then
        some (nodes.entries.filter fun e => affinity hash e.1 = i)
      else none := by
  rw [affinities, Dict.get?_gather]
  split
  · rw [Option.map_some, entries_foldl_put]
    · rfl
    · exact nodes.nodup.sublist (List.filter_sublist.map _)
  · rfl

/-- The parts have the nodes of the graph, each that of its affinity. -/
theorem mem_groups {entry : Entry} {i : ℤ} :
    (∃ group ∈ groups hash transactions, entry ∈ group.1.entries ∧ group.2 = i) ↔
      entry ∈ (graphOf transactions).entries ∧ affinity hash entry.1 = i := by
  have hget : ((affinities hash (graphOf transactions)).get? i).map KeyedDict.entries =
      if i ∈ (graphOf transactions).entries.map fun e => affinity hash e.1 then
        some ((graphOf transactions).entries.filter fun e => affinity hash e.1 = i)
      else none := get?_affinities (graphOf transactions) i
  constructor
  · intro h
    obtain ⟨group, hgroup, hentry, rfl⟩ := h
    obtain ⟨e, he, rfl⟩ := List.mem_map.mp hgroup
    change entry ∈ e.2.entries at hentry
    change ((affinities hash (graphOf transactions)).get? e.1).map _ = _ at hget
    rw [Dict.get?_eq_some_iff.mpr he, Option.map_some] at hget
    split at hget
    · rw [Option.some.inj hget, List.mem_filter, decide_eq_true_eq] at hentry
      exact hentry
    · cases hget
  · intro h
    rw [if_pos (List.mem_map.mpr ⟨entry, h⟩)] at hget
    obtain ⟨part, hpart, hentries⟩ := Option.map_eq_some_iff.mp hget
    refine ⟨(part, i), List.mem_map.mpr ⟨(i, part), Dict.get?_eq_some_iff.mp hpart, rfl⟩, ?_,
      rfl⟩
    rw [hentries, List.mem_filter, decide_eq_true_eq]
    exact h

/-! ## All batches -/

/-- What is made of some batches. -/
def groupsOf (hash : String → ℤ) (batches : List (List (Transaction A))) : List (Nodes × ℤ) :=
  batches.flatMap (groups hash)

theorem mem_groupsOf {entry : Entry} {i : ℤ} :
    (∃ group ∈ groupsOf hash batches, entry ∈ group.1.entries ∧ group.2 = i) ↔
      (∃ batch ∈ batches, entry ∈ (graphOf batch).entries) ∧ affinity hash entry.1 = i := by
  constructor
  · intro h
    obtain ⟨group, hgroup, hentry⟩ := h
    obtain ⟨batch, hbatch, hgroup⟩ := List.mem_flatMap.mp hgroup
    obtain ⟨hmem, haffinity⟩ := mem_groups.mp ⟨group, hgroup, hentry⟩
    exact ⟨⟨batch, hbatch, hmem⟩, haffinity⟩
  · intro h
    obtain ⟨⟨batch, hbatch, hmem⟩, haffinity⟩ := h
    obtain ⟨group, hgroup, hentry⟩ := mem_groups.mpr ⟨hmem, haffinity⟩
    exact ⟨group, List.mem_flatMap.mpr ⟨batch, hbatch, hgroup⟩, hentry⟩

/-- The parts for one shard have the edges of the nodes that belong there. -/
theorem covers_groupsOf (hkeys : KeysDistinct {n | n ∈ accountsOf batches.flatten})
    (belongs : ℤ → Bool) :
    Covers (edgesOf batches.flatten)
      {n | n ∈ accountsOf batches.flatten ∧ belongs (affinity hash n)}
      (((groupsOf hash batches).filter fun g => belongs g.2).flatMap fun g => g.1.entries) := by
  have hmem (entry : Entry) : entry ∈ ((groupsOf hash batches).filter fun g =>
      belongs g.2).flatMap (fun g => g.1.entries) ↔
        (∃ batch ∈ batches, entry ∈ (graphOf batch).entries) ∧
          belongs (affinity hash entry.1) := by
    rw [List.mem_flatMap]
    constructor
    · intro h
      obtain ⟨group, hgroup, hentry⟩ := h
      obtain ⟨hgroup, hbelongs⟩ := List.mem_filter.mp hgroup
      obtain ⟨hbatch, haffinity⟩ := mem_groupsOf.mp ⟨group, hgroup, hentry, rfl⟩
      rw [haffinity]
      exact ⟨hbatch, hbelongs⟩
    · intro h
      obtain ⟨group, hgroup, hentry, haffinity⟩ := mem_groupsOf.mpr ⟨h.1, rfl⟩
      refine ⟨group, List.mem_filter.mpr ⟨hgroup, ?_⟩, hentry⟩
      rw [haffinity]
      exact h.2
  have hends {batch : List (Transaction A)} (hbatch : batch ∈ batches) : ∀ t ∈ batch,
      (edge t).1 ∈ {n | n ∈ accountsOf batches.flatten} ∧
        (edge t).2 ∈ {n | n ∈ accountsOf batches.flatten} := by
    intro t ht
    apply edgesWithin_accountsOf
    exact mem_edgesOf.mpr ⟨t, List.mem_flatten.mpr ⟨batch, hbatch, ht⟩, rfl⟩
  have hwithin {batch : List (Transaction A)} (hbatch : batch ∈ batches) :
      GraphWithin (.all {n | n ∈ accountsOf batches.flatten}) (graphOf batch) :=
    graphWithin_graphOf (hends hbatch)
  constructor
  · intro entry hentry
    obtain ⟨⟨batch, hbatch, hgraph⟩, hbelongs⟩ := (hmem entry).mp hentry
    exact ⟨(hwithin hbatch entry hgraph).1, hbelongs⟩
  · intro d n a
    constructor
    · intro h
      obtain ⟨entry, hentry, rfl, ha⟩ := h
      obtain ⟨⟨batch, hbatch, hgraph⟩, hbelongs⟩ := (hmem entry).mp hentry
      have hnode := (hwithin hbatch entry hgraph).1
      have hneighbor : a ∈ accountsOf batches.flatten :=
        (hwithin hbatch entry hgraph).2 d a (UC4AggregateGraphs.of_lineOf d entry ▸ ha)
      obtain ⟨t, ht, hsays⟩ := knows_graphOf.mp
        ((knows_edge_iff hkeys.all (hwithin hbatch) hnode hneighbor).mpr ⟨entry, hgraph, rfl, ha⟩)
      obtain ⟨n, a', hn, ha', hedge⟩ := says_edge_iff.mp hsays
      have hedges : d.edge n a' ∈ edgesOf batches.flatten :=
        mem_edgesOf.mpr ⟨t, List.mem_flatten.mpr ⟨batch, hbatch, ht⟩, hedge.symm⟩
      obtain ⟨hnmem, ha'mem⟩ := edgesWithin_accountsOf.of_edge hedges
      rw [hkeys n hnmem _ hnode hn, hkeys a' ha'mem a hneighbor ha'] at hedges
      exact ⟨⟨hnode, hbelongs⟩, hedges⟩
    · intro h
      obtain ⟨⟨hnode, hbelongs⟩, hedge⟩ := h
      have hneighbor := (edgesWithin_accountsOf.of_edge hedge).2
      obtain ⟨t, ht, heq⟩ := mem_edgesOf.mp hedge
      obtain ⟨batch, hbatch, ht⟩ := List.mem_flatten.mp ht
      have hknows : Knows (graphOf batch) (.edge d n.key a.key) :=
        knows_graphOf.mpr ⟨t, ht, says_edge_iff.mpr ⟨n, a, rfl, rfl, heq.symm⟩⟩
      obtain ⟨entry, hgraph, rfl, ha⟩ :=
        (knows_edge_iff hkeys.all (hwithin hbatch) hnode hneighbor).mp hknows
      exact ⟨entry, (hmem entry).mpr ⟨⟨batch, hbatch, hgraph⟩, hbelongs⟩, rfl, ha⟩

end UC4ComputeGraph

end GraphSrc
