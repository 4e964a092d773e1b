import Mathlib.Data.List.Forall2
import Mathlib.Data.Nat.Sqrt
import MoneyLaundering.Aggregate.AggregateGraphs
import MoneyLaundering.Merge.MergeFns

/-!
# Pruning again after a restart

A process that is restarted goes through a set in another order than the one before it.
What `UC4PruneMergeFn` yields again are the same graphs, in the same order, unless a node is
sent in tiles: these are cut from a list of the elements of a set.
-/

namespace UC4Prune

open GraphSrc

/-! ## Graphs that are equal -/

/-- Two sets with equal elements. -/
def SetEq (s t : NodeSet) : Prop :=
  ∀ k, k ∈ s.elems.map Node.key ↔ k ∈ t.elems.map Node.key

/-- Two graphs with equal nodes, whose predecessors and successors are equal. -/
def GraphEq (g g' : Nodes) : Prop :=
  ∀ k, Option.Rel (fun v v' => SetEq v.1 v'.1 ∧ SetEq v.2 v'.2) (g.find? k) (g'.find? k)

theorem GraphEq.refl (g : Nodes) : GraphEq g g := by
  intro k
  cases g.find? k with
  | none => exact .none
  | some v => exact .some ⟨fun _ => Iff.rfl, fun _ => Iff.rfl⟩

/-- A graph of one node, as a tile has it. -/
def tile (node : Node) (preds succs : List Node) : Nodes :=
  KeyedDict.empty.assign node (.ofList Node.key preds, .ofList Node.key succs)

theorem GraphEq.of_tile {node : Node} {preds succs preds' succs' : List Node}
    (h : GraphEq (tile node preds succs) (tile node preds' succs')) :
    (∀ k, k ∈ preds.map Node.key ↔ k ∈ preds'.map Node.key) ∧
      ∀ k, k ∈ succs.map Node.key ↔ k ∈ succs'.map Node.key := by
  have hnode := h node.key
  rw [tile, tile, KeyedDict.find?_assign, KeyedDict.find?_assign, if_pos rfl, if_pos rfl]
    at hnode
  obtain ⟨hpreds, hsuccs⟩ : SetEq (.ofList Node.key preds) (.ofList Node.key preds') ∧
      SetEq (.ofList Node.key succs) (.ofList Node.key succs') := by
    cases hnode with
    | some h => exact h
  constructor
  · intro k
    have hkey := hpreds k
    rwa [OrderedSet.mem_keys_ofList, OrderedSet.mem_keys_ofList] at hkey
  · intro k
    have hkey := hsuccs k
    rwa [OrderedSet.mem_keys_ofList, OrderedSet.mem_keys_ofList] at hkey

/-! ## Tiles -/

/-- The integer part of the root of `SPLIT_THRESHOLD * p / s`. -/
def root (p s : ℕ) : ℕ := (splitThreshold * p / s).sqrt

/-- Sets as they were filled, and the other way round. -/
def forwards : NodeOrder := .inserted Node.key

def backwards : NodeOrder := ⟨fun s => s.elems.reverse, fun s => s.elems.reverse_perm⟩

variable {order order' : NodeOrder} {side : ℕ → ℕ → ℕ}
  {hiOut hiIn : NodeSet} {node : Node} {preds succs : NodeSet}

/-- A side of a tile is smaller than its set. -/
theorem root_lt {p s : ℕ} (hs : 0 < s) (h : splitThreshold < p * s) (hp : 1 < p) :
    max 1 (root p s) < p := by
  apply max_lt hp
  rw [root, Nat.sqrt_lt, Nat.div_lt_iff_lt_mul hs, Nat.mul_assoc, Nat.mul_comm splitThreshold]
  exact Nat.mul_lt_mul_of_pos_left h (by omega)

/-- One of the two sets is cut. -/
theorem cut_of_lt {p s : ℕ} (hp : 0 < p) (hs : 0 < s) (h : splitThreshold < p * s) :
    max 1 (root p s) < p ∨ max 1 (root s p) < s := by
  by_cases hone : 1 < p
  · exact Or.inl (root_lt hs h hone)
  · apply Or.inr
    have heq : p = 1 := by omega
    rw [heq, Nat.one_mul] at h
    apply root_lt hp
    · rw [heq, Nat.mul_one]
      exact h
    · exact lt_of_le_of_lt (by decide) h

theorem slices_eq_cons {T : Type} {n : ℕ} {xs : List T} (hn : 0 < n) (hxs : xs ≠ []) :
    ∃ rest, slices n xs = xs.take n :: rest := by
  have hlength := List.length_pos_of_ne_nil hxs
  obtain ⟨m, hm⟩ : ∃ m, (xs.length + n - 1) / n = m + 1 := by
    apply Nat.exists_eq_succ_of_ne_zero
    apply Nat.ne_of_gt
    apply Nat.div_pos (by omega) hn
  rw [slices, hm, List.range_succ_eq_map, List.map_cons, Nat.zero_mul, List.drop_zero]
  exact ⟨_, rfl⟩

theorem length_slices {T : Type} {n : ℕ} {xs ys : List T} (h : xs.length = ys.length) :
    (slices n xs).length = (slices n ys).length := by
  rw [slices, slices, List.length_map, List.length_map, List.length_range, List.length_range, h]

/-- The first slice of a set that is cut is not the same the other way round. -/
theorem take_backwards_ne {s : NodeSet} {n : ℕ} (hn : 0 < n) (hcut : n < s.size) :
    ¬∀ k, k ∈ ((forwards.elems s).take n).map Node.key ↔
      k ∈ ((backwards.elems s).take n).map Node.key := by
  intro h
  have hne : s.elems ≠ [] := by
    intro hnil
    rw [OrderedSet.size, hnil] at hcut
    exact Nat.not_lt_zero n hcut
  have hlast : s.elems.getLast hne ∈ (backwards.elems s).take n := by
    have hhead : (backwards.elems s).head? = some (s.elems.getLast hne) := by
      change s.elems.reverse.head? = _
      rw [List.head?_reverse, List.getLast?_eq_some_getLast hne]
    obtain ⟨rest, hrest⟩ := List.head?_eq_some_iff.mp hhead
    obtain ⟨m, rfl⟩ := Nat.exists_eq_succ_of_ne_zero hn.ne'
    rw [hrest, List.take_succ_cons]
    exact List.mem_cons_self
  have hdrop : s.elems.getLast hne ∈ s.elems.drop n := by
    have hdropne : s.elems.drop n ≠ [] := by
      rw [Ne, List.drop_eq_nil_iff, not_le]
      exact hcut
    rw [← List.getLast_drop hdropne]
    exact List.getLast_mem hdropne
  have htake := (h _).mpr (List.mem_map_of_mem hlast)
  have hnodup := s.nodup
  rw [← List.take_append_drop n s.elems, List.map_append, List.nodup_append] at hnodup
  exact hnodup.2.2 _ htake _ (List.mem_map_of_mem hdrop) rfl

theorem saltedTiles_eq_cons (order : NodeOrder) (side : ℕ → ℕ → ℕ) (node : Node)
    (hsides : preds.size ≠ 0 ∧ succs.size ≠ 0) :
    ∃ rest, saltedTiles order side node preds succs hsides =
      tile node ((order.elems preds).take (max 1 (side preds.size succs.size)))
        ((order.elems succs).take (max 1 (side succs.size preds.size))) :: rest := by
  have hne {s : NodeSet} (hs : s.size ≠ 0) : order.elems s ≠ [] := by
    intro hnil
    apply hs
    rw [OrderedSet.size, ← (order.perm s).length_eq, hnil, List.length_nil]
  have hside (p s : ℕ) : 0 < max 1 (side p s) := lt_of_lt_of_le Nat.one_pos (le_max_left _ _)
  obtain ⟨pchunks, hp⟩ := slices_eq_cons (hside preds.size succs.size) (hne hsides.1)
  obtain ⟨schunks, hs⟩ := slices_eq_cons (hside succs.size preds.size) (hne hsides.2)
  rw [saltedTiles, hp, hs, List.flatMap_cons, List.map_cons, List.cons_append]
  exact ⟨_, rfl⟩

theorem length_saltedTiles (hsides : preds.size ≠ 0 ∧ succs.size ≠ 0) :
    (saltedTiles order side node preds succs hsides).length =
      (saltedTiles order' side node preds succs hsides).length := by
  have hlength (s : NodeSet) : (order.elems s).length = (order'.elems s).length :=
    (order.perm s).length_eq.trans (order'.perm s).length_eq.symm
  simp only [saltedTiles, List.length_flatMap, List.length_map, List.map_const',
    List.sum_replicate, length_slices (hlength preds), length_slices (hlength succs)]

/-- Tiles depend on the order of sets. -/
theorem saltedTiles_backwards (hsides : preds.size ≠ 0 ∧ succs.size ≠ 0)
    (h : splitThreshold < preds.size * succs.size) :
    ¬List.Forall₂ GraphEq (saltedTiles forwards root node preds succs hsides)
      (saltedTiles backwards root node preds succs hsides) := by
  intro hall
  obtain ⟨tiles, htiles⟩ := saltedTiles_eq_cons forwards root node hsides
  obtain ⟨tiles', htiles'⟩ := saltedTiles_eq_cons backwards root node hsides
  rw [htiles, htiles', List.forall₂_cons] at hall
  obtain ⟨hp, hs⟩ := hall.1.of_tile
  have hside (p s : ℕ) : 0 < max 1 (root p s) := lt_of_lt_of_le Nat.one_pos (le_max_left _ _)
  rcases cut_of_lt (Nat.pos_of_ne_zero hsides.1) (Nat.pos_of_ne_zero hsides.2) h with hcut | hcut
  · exact take_backwards_ne (hside _ _) hcut hp
  · exact take_backwards_ne (hside _ _) hcut hs

/-! ## The whole result -/

/-- No node that was spilled has more paths than the threshold, so none is sent in tiles. -/
def Untiled (hiOut hiIn : NodeSet) (entries : List Entry) : Prop :=
  ∀ e ∈ entries, (e.2.1.inter hiOut).size * (e.2.2.inter hiIn).size ≤ splitThreshold

variable {entries : List Entry} {batch : Nodes} {n : ℕ}

/-- The end of a loop does not depend on the order of sets, nor does the number of graphs. -/
theorem prune_aligned :
    (prune order side hiOut hiIn batch n entries).2 =
        (prune order' side hiOut hiIn batch n entries).2 ∧
      (prune order side hiOut hiIn batch n entries).1.length =
        (prune order' side hiOut hiIn batch n entries).1.length := by
  induction entries generalizing batch n with
  | nil => exact ⟨rfl, rfl⟩
  | cons e entries ih =>
      simp only [prune]
      split
      · exact ih
      · split
        · constructor
          · exact ih.1
          · rw [List.length_append, List.length_append, ih.2, length_saltedTiles]
        · split
          · constructor
            · exact ih.1
            · rw [List.length_cons, List.length_cons, ih.2]
          · exact ih

theorem prune_eq (h : Untiled hiOut hiIn entries) :
    prune order side hiOut hiIn batch n entries = prune order' side hiOut hiIn batch n entries := by
  induction entries generalizing batch n with
  | nil => rfl
  | cons e entries ih =>
      have hrest : Untiled hiOut hiIn entries := fun e he => h e (List.mem_cons_of_mem _ he)
      have huntiled := h e List.mem_cons_self
      simp only [prune, if_neg (Nat.not_lt.mpr huntiled), ih hrest]

/-- What is yielded of lines without a tile does not depend on the process. -/
theorem graphs_eq (h : Untiled hiOut hiIn entries) (order order' : NodeOrder) :
    graphs order side hiOut hiIn entries = graphs order' side hiOut hiIn entries := by
  have heq : prune order side hiOut hiIn .empty 0 entries =
      prune order' side hiOut hiIn .empty 0 entries := prune_eq h
  rw [graphs, graphs, heq]

theorem forall₂_of_append {α β : Type} {R : α → β → Prop} {xs xs' : List α} {ys ys' : List β}
    (h : List.Forall₂ R (xs ++ xs') (ys ++ ys')) (hlength : xs.length = ys.length) :
    List.Forall₂ R xs ys ∧ List.Forall₂ R xs' ys' := by
  have htake := List.forall₂_take_append _ _ _ h
  have hdrop := List.forall₂_drop_append _ _ _ h
  rw [← hlength, List.take_left] at htake
  rw [← hlength, List.drop_left] at hdrop
  exact ⟨htake, hdrop⟩

/-- Every line whose tiles are cut makes a difference. -/
theorem untiled_of_prune (h : List.Forall₂ GraphEq
      (prune forwards root hiOut hiIn batch n entries).1
      (prune backwards root hiOut hiIn batch n entries).1) : Untiled hiOut hiIn entries := by
  induction entries generalizing batch n with
  | nil => exact fun e he => absurd he List.not_mem_nil
  | cons e entries ih =>
      have hcons (hsmall : (e.2.1.inter hiOut).size * (e.2.2.inter hiIn).size ≤ splitThreshold)
          (hrest : Untiled hiOut hiIn entries) : Untiled hiOut hiIn (e :: entries) := by
        intro e' he'
        rcases List.mem_cons.mp he' with rfl | he'
        · exact hsmall
        · exact hrest e' he'
      simp only [prune] at h
      split at h
      · rename_i hnone
        apply hcons
        · rcases hnone with hnone | hnone <;> simp [hnone]
        · exact ih h
      · rename_i hsome
        rw [not_or] at hsome
        split at h
        · rename_i hlarge
          have htiles := (forall₂_of_append h (length_saltedTiles _)).1
          exact absurd htiles (saltedTiles_backwards hsome hlarge)
        · rename_i hsmall
          apply hcons (Nat.not_lt.mp hsmall)
          split at h
          · exact ih (List.forall₂_cons.mp h).2
          · exact ih h

/-- The graphs of a result are equal for all orders of sets if and only if none is a tile. -/
theorem graphs_alike_iff :
    (∀ order order', List.Forall₂ GraphEq (graphs order root hiOut hiIn entries)
      (graphs order' root hiOut hiIn entries)) ↔ Untiled hiOut hiIn entries := by
  constructor
  · intro h
    have hgraphs := h forwards backwards
    have haligned : (prune forwards root hiOut hiIn .empty 0 entries).2 =
          (prune backwards root hiOut hiIn .empty 0 entries).2 ∧
        (prune forwards root hiOut hiIn .empty 0 entries).1.length =
          (prune backwards root hiOut hiIn .empty 0 entries).1.length := prune_aligned
    obtain ⟨hbatch, hlength⟩ := haligned
    simp only [graphs, ← hbatch] at hgraphs
    split at hgraphs
    · exact untiled_of_prune hgraphs
    · exact untiled_of_prune (forall₂_of_append hgraphs hlength).1
  · intro h order order'
    rw [graphs_eq h order order']
    exact List.forall₂_same.mpr fun g _ => .refl g

/-- What two processes yield that go through sets in orders of their own, from the same
checkpoint and the same files, are equal graphs in the same order if and only if no node has
more paths than the threshold. -/
theorem reemits_alike_iff (codec : LineCodec Entry) (c : UUID)
    (snapshot : Dict UUID NodeSet × Dict UUID NodeSet × Dict UUID ℕ) (files : PersistentSpill) :
    let restored := provider.restoreState snapshot ⟨Dict.empty, Dict.empty, files⟩
    (∀ order order' : NodeOrder, List.Forall₂ GraphEq (getResult codec order root c restored).1
      (getResult codec order' root c restored).1) ↔
    Untiled (snapshot.1.getD c .empty) (snapshot.2.1.getD c .empty)
      (codec.entries c restored.spill) := graphs_alike_iff

/-! ## A node with many neighbors -/

instance : Inhabited Entry := ⟨⟨"", ""⟩, .empty, .empty⟩

/-- `_serialize` and `_deserialize`, in a process that goes through sets as they were
filled. -/
def codec : LineCodec Entry :=
  .json (fun e => UC4AggregateGraphs.serialize (e.1, e.2.1.elems, e.2.2.elems)) fun json =>
    (UC4AggregateGraphs.deserialize json).map fun line =>
      (line.1, .ofList Node.key line.2.1, .ofList Node.key line.2.2)

theorem faithful_codec :
    codec.Faithful fun e => UC4AggregateGraphs.Readable (e.1, e.2.1.elems, e.2.2.elems) := by
  apply LineCodec.json_faithful
  intro e h
  rw [UC4AggregateGraphs.deserialize_serialize h, Option.map_some, OrderedSet.ofList_elems,
    OrderedSet.ofList_elems]

/-- Account number `i` of a bank. -/
def account (i : ℕ) : Node := ⟨"1", String.ofList (List.replicate i 'a')⟩

theorem account_inj {i j : ℕ} (h : (account i).key = (account j).key) : i = j := by
  have hlength := congrArg (fun s => s.toList.length) h
  simpa [account, Node.key] using hlength

theorem account_commaFree (i : ℕ) : (account i).CommaFree := by
  constructor
  · have hbank : ',' ∉ "1".toList := by decide
    exact hbank
  · rw [account, String.toList_ofList]
    intro hmem
    exact absurd (List.eq_of_mem_replicate hmem) (by decide)

/-- The first accounts of the bank. -/
def accounts (n : ℕ) : NodeSet := ⟨(List.range n).map account, by
  rw [List.map_map]
  exact List.nodup_range.map_on fun i _ j _ h => account_inj h⟩

theorem size_inter_accounts (n : ℕ) : ((accounts n).inter (accounts n)).size = n := by
  have hfilter : ((accounts n).elems.filter fun x => OrderedSet.Mem x (accounts n)) =
      (accounts n).elems := by
    rw [List.filter_eq_self]
    intro x hx
    exact decide_eq_true (List.mem_map_of_mem hx)
  have hsize : ((accounts n).inter (accounts n)).size = (accounts n).elems.length :=
    congrArg List.length hfilter
  rw [hsize, accounts, List.length_map, List.length_range]

/-- A hub with some predecessors and successors. -/
def hub (p s : ℕ) : Entry := (⟨"1", "hub"⟩, accounts p, accounts s)

theorem hub_readable (p s : ℕ) : UC4AggregateGraphs.Readable
    ((hub p s).1, (hub p s).2.1.elems, (hub p s).2.2.elems) := by
  have hall (n : ℕ) : ∀ x ∈ (accounts n).elems, x.CommaFree := by
    intro x hx
    obtain ⟨i, -, rfl⟩ := List.mem_map.mp hx
    exact account_commaFree i
  have hnode : (Node.mk "1" "hub").CommaFree := by decide
  exact ⟨hnode, hall p, hall s⟩

/-- The file of a client, and the checkpoint that was taken when it was written. -/
def hubFiles (p s : ℕ) : PersistentSpill :=
  ⟨[(7, ⟨codec.text [hub p s], none⟩)], List.nodup_singleton 7⟩

def hubSnapshot (p s : ℕ) : Dict UUID NodeSet × Dict UUID NodeSet × Dict UUID ℕ :=
  (⟨[(7, accounts p)], List.nodup_singleton 7⟩, ⟨[(7, accounts s)], List.nodup_singleton 7⟩,
    ⟨[(7, (codec.text [hub p s]).length)], List.nodup_singleton 7⟩)

/-- A process that restored the checkpoint. -/
def hubRestored (p s : ℕ) : UC4Prune :=
  provider.restoreState (hubSnapshot p s) ⟨Dict.empty, Dict.empty, hubFiles p s⟩

theorem entries_hub (p s : ℕ) : codec.entries 7 (hubRestored p s).spill = [hub p s] := by
  apply faithful_codec.entries_eq
  constructor
  · have hget := PersistentSpill.get?_restoreState (hubSnapshot p s).2.2 (hubFiles p s) 7
    change _ = some (PersistentSpill.restoredFile _ (some ⟨codec.text [hub p s] ++ [], none⟩))
      at hget
    change SpillFiles.content ((hubFiles p s).restoreState (hubSnapshot p s).2.2) 7 = _
    rw [SpillFiles.content, hget]
    simp [PersistentSpill.restoredFile, SpillFile.content, SpillFile.reopened,
      SpillFile.truncated]
  · intro e he
    rw [List.mem_singleton.mp he]
    exact hub_readable p s

theorem getResult_hub (order : NodeOrder) (p s : ℕ) :
    (getResult codec order root 7 (hubRestored p s)).1 =
      graphs order root (accounts p) (accounts s) [hub p s] := by
  rw [getResult, entries_hub]
  rfl

theorem hub_alike_iff (p s : ℕ) :
    (∀ order order' : NodeOrder, List.Forall₂ GraphEq
      (getResult codec order root 7 (hubRestored p s)).1
      (getResult codec order' root 7 (hubRestored p s)).1) ↔ p * s ≤ splitThreshold := by
  simp only [getResult_hub]
  rw [graphs_alike_iff, Untiled, List.forall_mem_singleton, hub, size_inter_accounts,
    size_inter_accounts]

/-- The tiles of a hub with 501 predecessors and 500 successors. -/
theorem not_reemits_hub : ¬∀ order order' : NodeOrder, List.Forall₂ GraphEq
    (getResult codec order root 7 (hubRestored 501 500)).1
    (getResult codec order' root 7 (hubRestored 501 500)).1 := by
  intro h
  have hsmall := (hub_alike_iff 501 500).mp h
  rw [splitThreshold] at hsmall
  omega

end UC4Prune
