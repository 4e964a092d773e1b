import Mathlib.Data.Finset.Card
import MoneyLaundering.Messages.GraphSrc
import MoneyLaundering.Support.Delivers

/-!
# The edges that graphs tell of

An edge is told of twice: its source has a successor, and its target a predecessor.  Some
entries cover a set of edges on a part of the nodes if they have all edges of these nodes,
and nothing of another node.
-/

namespace GraphSrc

/-- The edge of a node and one of its neighbors. -/
def Direction.edge (n a : Node) : Direction → Node × Node
  | .pred => (a, n)
  | .succ => (n, a)

/-- Some entries have the edges of `E` at the nodes of `P`. -/
structure Covers (E : Finset (Node × Node)) (P : Set Node) (entries : List Entry) : Prop where
  node : ∀ entry ∈ entries, entry.1 ∈ P
  edge : ∀ (d : Direction) (n a : Node),
    (∃ entry ∈ entries, entry.1 = n ∧ a ∈ (d.of entry.2).elems) ↔ n ∈ P ∧ d.edge n a ∈ E

/-- What may come of an entry: its sets are filled again, in some order. -/
def Entry.Alike (entry entry' : Entry) : Prop :=
  entry'.1 = entry.1 ∧ ∀ d : Direction, (d.of entry'.2).elems.Perm (d.of entry.2).elems

/-- What may come of a graph. -/
def Nodes.Alike (nodes nodes' : Nodes) : Prop :=
  Delivers Entry.Alike nodes.entries nodes'.entries

variable {E : Finset (Node × Node)} {P P' : Set Node} {entries entries' : List Entry}

theorem Entry.Alike.refl (entry : Entry) : Entry.Alike entry entry := ⟨rfl, fun _ => .refl _⟩

theorem Nodes.Alike.refl (nodes : Nodes) : Nodes.Alike nodes nodes :=
  .of_perm (.refl _) .refl

/-- They are covered after a delivery. -/
theorem Covers.delivered (h : Covers E P entries)
    (hentries : Delivers Entry.Alike entries entries') : Covers E P entries' := by
  constructor
  · intro entry' hentry'
    obtain ⟨entry, hentry, halike⟩ := hentries.mem_received hentry'
    rw [halike.1]
    exact h.node entry hentry
  · intro d n a
    rw [← h.edge d n a]
    constructor
    · rintro ⟨entry', hentry', rfl, ha⟩
      obtain ⟨entry, hentry, halike⟩ := hentries.mem_received hentry'
      exact ⟨entry, hentry, halike.1.symm, (halike.2 d).subset ha⟩
    · rintro ⟨entry, hentry, rfl, ha⟩
      obtain ⟨entry', hentry', halike⟩ := hentries.mem_sent hentry
      exact ⟨entry', hentry', halike.1, (halike.2 d).symm.subset ha⟩

/-- Nodes that are equal have equal neighbors after a delivery. -/
theorem Entry.Alike.mem_iff {entry entry' : Entry} (h : Entry.Alike entry entry')
    (d : Direction) (a : Node) : (d.of entry'.2).Mem a ↔ (d.of entry.2).Mem a :=
  ((h.2 d).map Node.key).mem_iff

/-- Both ends of an edge are in a set of nodes. -/
def EdgesWithin (E : Finset (Node × Node)) (N : Set Node) : Prop := ∀ e ∈ E, e.1 ∈ N ∧ e.2 ∈ N

/-- The neighbors that edges give a node. -/
def neighborsIn (E : Finset (Node × Node)) (d : Direction) (n : Node) : Finset Node :=
  (E.image d.of).filter fun a => d.edge n a ∈ E

theorem mem_neighborsIn {d : Direction} {n a : Node} :
    a ∈ neighborsIn E d n ↔ d.edge n a ∈ E := by
  rw [neighborsIn, Finset.mem_filter, Finset.mem_image, and_iff_right_iff_imp]
  intro hedge
  refine ⟨_, hedge, ?_⟩
  cases d <;> rfl

/-- The nodes with an edge from the one and an edge to the other. -/
def middles (E : Finset (Node × Node)) (a c : Node) : Finset Node :=
  neighborsIn E .succ a ∩ neighborsIn E .pred c

theorem mem_middles {a b c : Node} : b ∈ middles E a c ↔ (a, b) ∈ E ∧ (b, c) ∈ E := by
  rw [middles, Finset.mem_inter, mem_neighborsIn, mem_neighborsIn]
  rfl

theorem EdgesWithin.of_edge {N : Set Node} (h : EdgesWithin E N) {d : Direction} {n a : Node}
    (hedge : d.edge n a ∈ E) : n ∈ N ∧ a ∈ N := by
  cases d with
  | pred => exact (h _ hedge).symm
  | succ => exact h _ hedge

/-- Where keys are distinct and every node has one entry, as many entries lie between two
nodes as there are nodes between them. -/
theorem Covers.countP_between {N : Set Node} (h : Covers E N entries) (hE : EdgesWithin E N)
    (hkeys : ∀ n ∈ N, ∀ n' ∈ N, n.key = n'.key → n = n')
    (hnodup : (entries.map fun e => e.1.key).Nodup) {a c : Node} (ha : a ∈ N) (hc : c ∈ N) :
    (entries.countP fun e => e.2.1.Mem a ∧ e.2.2.Mem c) = (middles E a c).card := by
  have hmem {entry : Entry} (hentry : entry ∈ entries) (d : Direction) {x : Node} (hx : x ∈ N) :
      (d.of entry.2).Mem x ↔ d.edge entry.1 x ∈ E := by
    constructor
    · intro hkey
      obtain ⟨y, hy, hkey⟩ := List.mem_map.mp hkey
      have hedge := ((h.edge d entry.1 y).mp ⟨entry, hentry, rfl, hy⟩).2
      rwa [hkeys y (hE.of_edge hedge).2 x hx hkey] at hedge
    · intro hedge
      obtain ⟨entry', hentry', heq, hx'⟩ := (h.edge d entry.1 x).mpr ⟨h.node entry hentry, hedge⟩
      have hsame : entry' = entry :=
        List.inj_on_of_nodup_map hnodup hentry' hentry (congrArg Node.key heq)
      rw [← hsame]
      exact List.mem_map_of_mem hx'
  have hdistinct : ((entries.filter fun e => e.2.1.Mem a ∧ e.2.2.Mem c).map Prod.fst).Nodup := by
    apply List.Nodup.of_map Node.key
    rw [List.map_map]
    exact hnodup.sublist (List.filter_sublist.map _)
  rw [List.countP_eq_length_filter, ← List.length_map (f := Prod.fst),
    ← List.toFinset_card_of_nodup hdistinct]
  congr 1
  ext b
  rw [List.mem_toFinset, List.mem_map, mem_middles]
  constructor
  · rintro ⟨entry, hentry, rfl⟩
    obtain ⟨hentry, hboth⟩ := List.mem_filter.mp hentry
    obtain ⟨hpred, hsucc⟩ := of_decide_eq_true hboth
    exact ⟨(hmem hentry .pred ha).mp hpred, (hmem hentry .succ hc).mp hsucc⟩
  · intro hedges
    obtain ⟨entry, hentry, rfl, -⟩ :=
      (h.edge .succ b c).mpr ⟨(hE _ hedges.2).1, hedges.2⟩
    refine ⟨entry, List.mem_filter.mpr ⟨hentry, decide_eq_true ?_⟩, rfl⟩
    exact ⟨(hmem hentry .pred ha).mpr hedges.1, (hmem hentry .succ hc).mpr hedges.2⟩

/-- The nodes of entries that cover edges. -/
theorem Covers.nodesOf_subset {N : Set Node} {received : List Nodes}
    (h : Covers E P (received.flatMap KeyedDict.entries)) (hP : P ⊆ N)
    (hE : EdgesWithin E N) : nodesOf received ⊆ N := by
  intro n hn
  obtain ⟨body, hbody, entry, hentry, hn⟩ := hn
  have hmem : entry ∈ received.flatMap KeyedDict.entries :=
    List.mem_flatMap.mpr ⟨body, hbody, hentry⟩
  have hneighbor {d : Direction} (hn : n ∈ (d.of entry.2).elems) : n ∈ N :=
    (hE.of_edge ((h.edge d entry.1 n).mp ⟨entry, hmem, rfl, hn⟩).2).2
  rcases hn with rfl | hpred | hsucc
  · exact hP (h.node entry hmem)
  · exact hneighbor (d := .pred) hpred
  · exact hneighbor (d := .succ) hsucc

/-- All neighbors of some entries are in a set of nodes. -/
def NeighborsWithin (N : Set Node) (entries : List Entry) : Prop :=
  ∀ entry ∈ entries, ∀ d : Direction, ∀ a ∈ (d.of entry.2).elems, a ∈ N

theorem Covers.neighborsWithin {N : Set Node} (h : Covers E P entries) (hE : EdgesWithin E N) :
    NeighborsWithin N entries := by
  intro entry hentry d a ha
  exact (hE.of_edge ((h.edge d entry.1 a).mp ⟨entry, hentry, rfl, ha⟩).2).2

theorem NeighborsWithin.delivered {N : Set Node} (h : NeighborsWithin N entries)
    (hentries : Delivers Entry.Alike entries entries') : NeighborsWithin N entries' := by
  intro entry' hentry' d a ha
  obtain ⟨entry, hentry, halike⟩ := hentries.mem_received hentry'
  exact h entry hentry d a ((halike.2 d).subset ha)

end GraphSrc
