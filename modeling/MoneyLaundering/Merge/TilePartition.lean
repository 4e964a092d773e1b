import MoneyLaundering.Aggregate.CountPaths
import MoneyLaundering.Merge.TileSizes

/-!
# Tiles are a partition

The tiles of a node have every pair of a predecessor and a successor once, whatever the
sides of a tile are and in whatever order the two sets are gone through: there is nothing
between one slice and the next, and the last one of either side may be shorter.  Counting the
tiles therefore counts what the node itself would have counted, which is one for every pair
of different accounts.
-/

namespace UC4Prune

open GraphSrc
open UC4CountPaths (between pairsOf yieldedCount)

variable {order : NodeOrder} {side : ℕ → ℕ → ℕ} {node : Node} {preds succs : NodeSet}
  {hsides : preds.size ≠ 0 ∧ succs.size ≠ 0} {a c : Node}

/-! ## Slices -/

theorem flatten_slices {T : Type} {n : ℕ} (hn : 0 < n) (xs : List T) :
    (slices n xs).flatten = xs := by
  have htake (m : ℕ) : ((List.range m).map fun i => (xs.drop (i * n)).take n).flatten =
      xs.take (m * n) := by
    induction m with
    | zero => simp
    | succ m ih =>
        rw [List.range_succ, List.map_append, List.flatten_append, ih, Nat.add_mul, Nat.one_mul,
          List.take_add]
        simp
  rw [slices, htake, List.take_of_length_le]
  have hle := Nat.lt_mul_div_succ (xs.length + n - 1) hn
  rw [Nat.mul_add, Nat.mul_one, Nat.mul_comm] at hle
  omega

/-- Every slice begins within the list. -/
theorem slice_ne_nil {T : Type} {n : ℕ} {xs chunk : List T} (hn : 0 < n)
    (h : chunk ∈ slices n xs) : chunk ≠ [] := by
  obtain ⟨i, hi, rfl⟩ := List.mem_map.mp h
  have hlt : i * n < xs.length := by
    have hle : (i + 1) * n ≤ xs.length + n - 1 :=
      (Nat.le_div_iff_mul_le hn).mp (List.mem_range.mp hi)
    rw [Nat.add_mul, Nat.one_mul] at hle
    omega
  rw [← List.length_pos_iff, List.length_take, List.length_drop]
  omega

/-! ## Sides -/

theorem side_pos (side : ℕ → ℕ → ℕ) (p s : ℕ) : 0 < max 1 (side p s) :=
  lt_of_lt_of_le Nat.one_pos (le_max_left _ _)

/-- A side of a tile is a part of the set, and not empty. -/
theorem elems_ofList_of_mem_slices {n : ℕ} {s : NodeSet} {chunk : List Node} (hn : 0 < n)
    (h : chunk ∈ slices n (order.elems s)) :
    (OrderedSet.ofList Node.key chunk).elems ≠ [] ∧
      (OrderedSet.ofList Node.key chunk).elems ⊆ s.elems := by
  have hsub := (slice_sublist h).1
  rw [elems_ofList_slice hsub]
  refine ⟨slice_ne_nil hn h, ?_⟩
  intro x hx
  exact (order.perm s).subset (hsub.subset hx)

theorem sides_saltedTiles {g : Nodes} (hg : g ∈ saltedTiles order side node preds succs hsides) :
    ∃ pchunk schunk : NodeSet, g.entries = [(node, pchunk, schunk)] ∧
      pchunk.elems ≠ [] ∧ schunk.elems ≠ [] ∧
      pchunk.elems ⊆ preds.elems ∧ schunk.elems ⊆ succs.elems := by
  obtain ⟨pchunk, hpchunk, htile⟩ := List.mem_flatMap.mp hg
  obtain ⟨schunk, hschunk, rfl⟩ := List.mem_map.mp htile
  obtain ⟨hp, hpsub⟩ := elems_ofList_of_mem_slices (side_pos side _ _) hpchunk
  obtain ⟨hs, hssub⟩ := elems_ofList_of_mem_slices (side_pos side _ _) hschunk
  exact ⟨_, _, rfl, hp, hs, hpsub, hssub⟩

/-! ## Pairs -/

/-- An element of a set is in one slice. -/
theorem countP_slices {n : ℕ} (hn : 0 < n) (s : NodeSet) (a : Node) :
    (slices n (order.elems s)).countP (fun chunk => a.key ∈ chunk.map Node.key) =
      if s.Mem a then 1 else 0 := by
  have hkeys : ((slices n (order.elems s)).map fun chunk => chunk.map Node.key).flatten =
      (order.elems s).map Node.key := by
    rw [← List.map_flatten, flatten_slices hn]
  have hperm := (order.perm s).map Node.key
  have hcount := List.countP_mem_parts (hkeys ▸ hperm.nodup_iff.mpr s.nodup) a.key
  rw [hkeys, List.countP_map] at hcount
  apply hcount.trans
  simp only [hperm.mem_iff]
  rfl

/-- Some entries lie between two accounts. -/
def entriesBetween (entries : List Entry) (a c : Node) : ℕ :=
  entries.countP fun entry => entry.2.1.Mem a ∧ entry.2.2.Mem c

theorem between_eq (graphs : List Nodes) :
    between graphs a c = entriesBetween (graphs.flatMap KeyedDict.entries) a c := rfl

theorem entriesBetween_append (entries entries' : List Entry) :
    entriesBetween (entries ++ entries') a c =
      entriesBetween entries a c + entriesBetween entries' a c :=
  List.countP_append

theorem flatMap_entries_saltedTiles (node : Node) (preds succs : NodeSet)
    (hsides : preds.size ≠ 0 ∧ succs.size ≠ 0) :
    (saltedTiles order side node preds succs hsides).flatMap KeyedDict.entries =
      (slices (max 1 (side preds.size succs.size)) (order.elems preds)).flatMap fun pchunk =>
        (slices (max 1 (side succs.size preds.size)) (order.elems succs)).map fun schunk =>
          ((node, .ofList Node.key pchunk, .ofList Node.key schunk) : Entry) := by
  rw [saltedTiles, List.flatMap_assoc]
  congr 1
  funext pchunk
  rw [List.flatMap_map, List.map_eq_flatMap]
  rfl

/-- A pair is in one tile. -/
theorem between_saltedTiles (node : Node) (preds succs : NodeSet)
    (hsides : preds.size ≠ 0 ∧ succs.size ≠ 0) :
    between (saltedTiles order side node preds succs hsides) a c =
      if preds.Mem a ∧ succs.Mem c then 1 else 0 := by
  rw [between_eq, flatMap_entries_saltedTiles, entriesBetween,
    List.countP_flatMap_map (p := fun pchunk => a.key ∈ pchunk.map Node.key)
      (q := fun schunk => c.key ∈ schunk.map Node.key), countP_slices (side_pos side _ _),
    countP_slices (side_pos side _ _)]
  · by_cases ha : preds.Mem a <;> by_cases hc : succs.Mem c <;> simp [ha, hc]
  · intro pchunk schunk
    simp only [OrderedSet.mem_ofList, Bool.decide_and]

/-- Messages of one node each are as many as their entries. -/
theorem countP_flatMap_entries {graphs : List Nodes} (p : Entry → Prop) [DecidablePred p]
    (h : ∀ g ∈ graphs, ∃ entry, g.entries = [entry]) :
    (graphs.flatMap KeyedDict.entries).countP (fun entry => p entry) =
      graphs.countP fun g => ∃ entry ∈ g.entries, p entry := by
  induction graphs with
  | nil => rfl
  | cons g graphs ih =>
      obtain ⟨entry, hentry⟩ := h g List.mem_cons_self
      rw [List.flatMap_cons, List.countP_append, ih fun g hg => h g (List.mem_cons_of_mem _ hg),
        List.countP_cons, hentry, List.countP_singleton, Nat.add_comm]
      simp

/-- Every pair is in one tile. -/
theorem countP_saltedTiles {p s : Node} (hp : p ∈ preds.elems) (hs : s ∈ succs.elems) :
    ((saltedTiles order side node preds succs hsides).countP fun g =>
      ∃ entry ∈ g.entries, entry.2.1.Mem p ∧ entry.2.2.Mem s) = 1 := by
  rw [← countP_flatMap_entries fun entry : Entry => entry.2.1.Mem p ∧ entry.2.2.Mem s]
  · have hone : between (saltedTiles order side node preds succs hsides) p s = _ :=
      between_saltedTiles node preds succs hsides
    rw [if_pos ⟨List.mem_map_of_mem hp, List.mem_map_of_mem hs⟩] at hone
    exact hone
  · intro g hg
    obtain ⟨pchunk, schunk, hentries, -⟩ := sides_saltedTiles hg
    exact ⟨_, hentries⟩

/-- The tiles have the pairs of the node. -/
theorem pairs_saltedTiles_perm (order : NodeOrder) (side : ℕ → ℕ → ℕ) (node : Node)
    (preds succs : NodeSet) (hsides : preds.size ≠ 0 ∧ succs.size ≠ 0) :
    (((saltedTiles order side node preds succs hsides).flatMap
      KeyedDict.entries).flatMap pairsOf).Perm (pairsOf (node, preds, succs)) := by
  have htiles : ((saltedTiles order side node preds succs hsides).flatMap
      KeyedDict.entries).flatMap pairsOf =
        (slices (max 1 (side preds.size succs.size)) (order.elems preds)).flatMap fun pchunk =>
          (slices (max 1 (side succs.size preds.size)) (order.elems succs)).flatMap fun schunk =>
            pchunk.flatMap fun a => schunk.flatMap fun c =>
              if a.key = c.key then [] else [GraphSrc.Path.mk a c] := by
    rw [flatMap_entries_saltedTiles, List.flatMap_assoc]
    apply List.flatMap_congr
    intro pchunk hpchunk
    rw [List.flatMap_map]
    apply List.flatMap_congr
    intro schunk hschunk
    rw [pairsOf, elems_ofList_slice (slice_sublist hpchunk).1,
      elems_ofList_slice (slice_sublist hschunk).1]
  rw [htiles]
  apply (List.flatMap_parts_perm _ _ _).trans
  rw [flatten_slices (side_pos side _ _), flatten_slices (side_pos side _ _)]
  exact (order.perm preds).flatMap fun a _ => (order.perm succs).flatMap_right _

/-- The pairs of a node are those of its two sets, without an account and itself. -/
theorem countP_pairsOf_product (entry : Entry) (k : String) :
    ((pairsOf entry).countP fun path => path.key = k) =
      (entry.2.1.elems.product entry.2.2.elems).countP fun pair =>
        pair.1.key ≠ pair.2.key ∧ (GraphSrc.Path.mk pair.1 pair.2).key = k := by
  have hrow (a : Node) (ss : List Node) :
      ((ss.flatMap fun c => if a.key = c.key then [] else [GraphSrc.Path.mk a c]).countP
        fun path => path.key = k) =
      (ss.map (Prod.mk a)).countP fun pair =>
        pair.1.key ≠ pair.2.key ∧ (GraphSrc.Path.mk pair.1 pair.2).key = k := by
    induction ss with
    | nil => rfl
    | cons c ss ih =>
        rw [List.flatMap_cons, List.countP_append, ih, List.map_cons, List.countP_cons,
          Nat.add_comm]
        by_cases hkey : a.key = c.key <;> simp [hkey]
  rw [pairsOf, List.product, List.countP_flatMap, List.countP_flatMap]
  congr 1
  apply List.map_congr_left
  intro a _
  exact hrow a entry.2.2.elems

/-! ## Counting -/

variable (hash : String → ℤ) (threshold : ℕ) {c : UUID}

/-- What `UC4CountPaths` yields for a path after some steps. -/
def countAfter (c : UUID) (steps : List (SpillFn.Step Nodes)) (path : GraphSrc.Path) : ℕ :=
  yieldedCount ((uc4CountPaths hash threshold).getResult c
    ((uc4CountPaths hash threshold).run steps)).1 path

/-- The nodes that some steps bring. -/
def entriesOf (c : UUID) (steps : List (SpillFn.Step Nodes)) : List Entry :=
  (SpillFn.bodies c steps).flatMap KeyedDict.entries

theorem countAfter_eq {steps : List (SpillFn.Step Nodes)} (hkeeps : ∀ s ∈ steps, s.Keeps c)
    (path : GraphSrc.Path) :
    countAfter hash threshold c steps path =
      ((entriesOf c steps).flatMap pairsOf).countP fun p => p.key = path.key := by
  rw [countAfter, UC4CountPaths.yieldedCount_run hash threshold steps hkeeps,
    UC4CountPaths.pairs, entriesOf, List.flatMap_assoc]

/-- More nodes add their pairs. -/
theorem countAfter_add {base steps : List (SpillFn.Step Nodes)} {entries : List Entry}
    (hbase : ∀ s ∈ base, s.Keeps c) (hkeeps : ∀ s ∈ steps, s.Keeps c)
    (h : (entriesOf c steps).Perm (entriesOf c base ++ entries)) (path : GraphSrc.Path) :
    countAfter hash threshold c steps path = countAfter hash threshold c base path +
      (entries.flatMap pairsOf).countP fun p => p.key = path.key := by
  rw [countAfter_eq hash threshold hkeeps, countAfter_eq hash threshold hbase,
    (h.flatMap_right pairsOf).countP_eq, List.flatMap_append, List.countP_append]

/-- The tiles of a node that has predecessors and successors are a partition of the pairs of
its two sets.  Every tile is one of
the node, its sides are not empty and have nothing that the sets do not have, and every pair
is in one tile.  Counting the tiles, with whatever else is counted and however it is spilled,
adds one for every pair of different accounts, and so does counting the node. -/
theorem tiles_partition (order : NodeOrder) (side : ℕ → ℕ → ℕ) (node : Node)
    (preds succs : NodeSet) (hsides : preds.size ≠ 0 ∧ succs.size ≠ 0) :
    let tiles := saltedTiles order side node preds succs hsides
    (∀ g ∈ tiles, ∃ pchunk schunk : NodeSet, g.entries = [(node, pchunk, schunk)] ∧
      pchunk.elems ≠ [] ∧ schunk.elems ≠ [] ∧
      pchunk.elems ⊆ preds.elems ∧ schunk.elems ⊆ succs.elems) ∧
    (∀ p ∈ preds.elems, ∀ s ∈ succs.elems, (tiles.countP fun g =>
      ∃ entry ∈ g.entries, entry.2.1.Mem p ∧ entry.2.2.Mem s) = 1) ∧
    ∀ (hash : String → ℤ) (threshold : ℕ) (c : UUID)
      (base tiled untiled : List (SpillFn.Step Nodes)),
      (∀ s ∈ base ++ tiled ++ untiled, s.Keeps c) →
      (entriesOf c tiled).Perm (entriesOf c base ++ tiles.flatMap KeyedDict.entries) →
      (entriesOf c untiled).Perm (entriesOf c base ++ [(node, preds, succs)]) →
      ∀ path,
        countAfter hash threshold c tiled path = countAfter hash threshold c base path +
          ((preds.elems.product succs.elems).countP fun pair =>
            pair.1.key ≠ pair.2.key ∧ (GraphSrc.Path.mk pair.1 pair.2).key = path.key) ∧
        countAfter hash threshold c untiled path = countAfter hash threshold c tiled path := by
  intro tiles
  refine ⟨fun g hg => sides_saltedTiles hg, fun p hp s hs => countP_saltedTiles hp hs, ?_⟩
  intro hash threshold c base tiled untiled hkeeps htiled huntiled path
  simp only [List.forall_mem_append] at hkeeps
  obtain ⟨⟨hbase, hkeeps⟩, hkeeps'⟩ := hkeeps
  have hpairs := countP_pairsOf_product (node, preds, succs) path.key
  have hadded := countAfter_add hash threshold hbase hkeeps htiled path
  have hadded' := countAfter_add hash threshold hbase hkeeps' huntiled path
  rw [(pairs_saltedTiles_perm order side node preds succs hsides).countP_eq] at hadded
  rw [List.flatMap_singleton] at hadded'
  exact ⟨hpairs ▸ hadded, hadded'.trans hadded.symm⟩

theorem entriesOf_inputs (c : UUID) (graphs : List Nodes) :
    entriesOf c (graphs.map fun g => .input ⟨c, 1, 1, g⟩) =
      graphs.flatMap KeyedDict.entries := by
  rw [entriesOf, SpillFn.bodies, List.filterMap_map]
  congr 1
  simp [Function.comp_def, SpillFn.Step.bodyOf]

theorem keeps_inputs (c : UUID) (graphs : List Nodes) :
    ∀ s ∈ graphs.map fun g => SpillFn.Step.input ⟨c, 1, 1, g⟩, s.Keeps c := by
  intro s hs
  obtain ⟨g, -, rfl⟩ := List.mem_map.mp hs
  trivial

/-- The tiles of a hub, each in a message of its own. -/
def hubTiles : List (SpillFn.Step Nodes) :=
  (saltedTiles backwards root ⟨"1", "hub"⟩ (accounts 1) (accounts 2) (by decide)).map fun g =>
    .input ⟨7, 1, 1, g⟩

theorem tiles_partition_hub :
    let path := GraphSrc.Path.mk (account 0) (account 1)
    countAfter (fun s => s.length) 1 7 hubTiles path = 1 ∧
      countAfter (fun s => s.length) 1 7 [.input ⟨7, 1, 1, KeyedDict.empty.assign
        ⟨"1", "hub"⟩ (accounts 1, accounts 2)⟩] path = 1 := by
  intro path
  have hkeeps : ∀ s ∈ [] ++ hubTiles ++ [.input ⟨7, 1, 1, KeyedDict.empty.assign
      ⟨"1", "hub"⟩ (accounts 1, accounts 2)⟩], s.Keeps 7 := by
    rw [List.nil_append, List.forall_mem_append, List.forall_mem_singleton]
    exact ⟨keeps_inputs 7 _, trivial⟩
  obtain ⟨htiled, huntiled⟩ := (tiles_partition backwards root ⟨"1", "hub"⟩ (accounts 1)
    (accounts 2) (by decide)).2.2 (fun s => s.length) 1 7 [] hubTiles _ hkeeps
    (.of_eq (entriesOf_inputs 7 _)) (.refl _) path
  have hnone : countAfter (fun s => s.length) 1 7 [] path = 0 :=
    countAfter_eq _ _ (fun s hs => absurd hs List.not_mem_nil) path
  rw [hnone] at htiled
  exact ⟨htiled.trans (by decide), huntiled.trans (htiled.trans (by decide))⟩

/-- An account that is on both sides of a hub is in one tile with itself, which adds
nothing. -/
theorem not_one_each :
    ¬∀ p ∈ (accounts 1).elems, ∀ s ∈ (accounts 2).elems,
      countAfter (fun s => s.length) 1 7 hubTiles ⟨p, s⟩ = 1 := by
  intro hone
  have hself := hone (account 0) (by decide) (account 0) (by decide)
  rw [hubTiles, countAfter_eq, entriesOf_inputs,
    (pairs_saltedTiles_perm _ _ _ _ _ _).countP_eq] at hself
  · exact absurd hself (by decide)
  · exact keeps_inputs 7 _

end UC4Prune
