import MoneyLaundering.Merge.TilePartition

/-!
# Pruning keeps the pairs of the nodes of high degree

What is pruned has, for every pair of a node of high out-degree and one of high in-degree,
as many nodes between them as what was spilled: a node that is sent in tiles has every pair
in one tile.
-/

namespace UC4Prune

open GraphSrc
open UC4CountPaths (between)

variable {order : NodeOrder} {side : ℕ → ℕ → ℕ} {hiOut hiIn : NodeSet} {a c : Node}

/-! ## The loop -/

/-- What pruning leaves of a node. -/
def kept (hiOut hiIn : NodeSet) (entry : Entry) : Entry :=
  (entry.1, entry.2.1.inter hiOut, entry.2.2.inter hiIn)

theorem mem_inter {s t : NodeSet} : (s.inter t).Mem a ↔ s.Mem a ∧ t.Mem a := by
  constructor
  · intro h
    obtain ⟨x, hx, hkey⟩ := List.mem_map.mp h
    obtain ⟨hs, ht⟩ := List.mem_filter.mp hx
    constructor
    · exact List.mem_map.mpr ⟨x, hs, hkey⟩
    · have hmem : x.key ∈ t.elems.map Node.key := of_decide_eq_true ht
      rwa [OrderedSet.Mem, ← hkey]
  · intro h
    obtain ⟨x, hx, hkey⟩ := List.mem_map.mp h.1
    refine List.mem_map.mpr ⟨x, List.mem_filter.mpr ⟨hx, decide_eq_true ?_⟩, hkey⟩
    rw [OrderedSet.Mem, hkey]
    exact h.2

theorem not_mem_of_size {s : NodeSet} (h : s.size = 0) : ¬s.Mem a := by
  rw [OrderedSet.Mem, List.eq_nil_of_length_eq_zero h]
  exact List.not_mem_nil

/-- One entry more. -/
theorem entriesBetween_kept_cons (entry : Entry) (entries : List Entry) :
    entriesBetween ((entry :: entries).map (kept hiOut hiIn)) a c =
      (if (entry.2.1.inter hiOut).Mem a ∧ (entry.2.2.inter hiIn).Mem c then 1 else 0) +
        entriesBetween (entries.map (kept hiOut hiIn)) a c := by
  rw [List.map_cons, entriesBetween, List.countP_cons, Nat.add_comm]
  simp only [decide_eq_true_eq]
  rfl

/-- What the graphs of a result and the batch have. -/
def prunedEntries (result : List Nodes × Nodes) : List Entry :=
  result.1.flatMap KeyedDict.entries ++ result.2.entries

variable {batch : Nodes} {n : ℕ} {entries : List Entry}

/-- The loop leaves what is kept of every node between as many pairs. -/
theorem entriesBetween_prune (h : ((batch.entries ++ entries).map fun e => e.1.key).Nodup) :
    entriesBetween (prunedEntries (prune order side hiOut hiIn batch n entries)) a c =
      entriesBetween batch.entries a c +
        entriesBetween (entries.map (kept hiOut hiIn)) a c := by
  induction entries generalizing batch n with
  | nil => rfl
  | cons entry entries ih =>
      rw [entriesBetween_kept_cons]
      have hrest : ((batch.entries ++ entries).map fun e => e.1.key).Nodup :=
        h.sublist (((List.sublist_cons_self entry entries).append_left _).map _)
      simp only [prune]
      split
      · rename_i hnone
        have hnot : ¬((entry.2.1.inter hiOut).Mem a ∧ (entry.2.2.inter hiIn).Mem c) :=
          fun hmem => hnone.elim (fun hzero => not_mem_of_size hzero hmem.1)
            fun hzero => not_mem_of_size hzero hmem.2
        rw [if_neg hnot, Nat.zero_add]
        exact ih hrest
      · split
        · have htiles : between (saltedTiles order side entry.1 (entry.2.1.inter hiOut)
              (entry.2.2.inter hiIn) (not_or.mp ‹_›)) a c = _ := between_saltedTiles _ _ _ _
          rw [between_eq] at htiles
          rw [prunedEntries, List.flatMap_append, List.append_assoc, entriesBetween_append,
            htiles, ← prunedEntries, ih hrest]
          omega
        · have hnot : entry.1.key ∉ batch.entries.map fun e => e.1.key := by
            intro hmem
            rw [List.map_append, List.map_cons, List.nodup_append] at h
            exact h.2.2 _ hmem _ List.mem_cons_self rfl
          have hassign : (batch.assign entry.1 (entry.2.1.inter hiOut,
              entry.2.2.inter hiIn)).entries = batch.entries ++ [kept hiOut hiIn entry] :=
            KeyedDict.assignEntries_of_notMem hnot
          have hone : entriesBetween [kept hiOut hiIn entry] a c =
              if (entry.2.1.inter hiOut).Mem a ∧ (entry.2.2.inter hiIn).Mem c then 1
              else 0 := by
            rw [entriesBetween, List.countP_singleton]
            simp only [decide_eq_true_eq]
            rfl
          split
          · have hempty : (((.empty : Nodes).entries ++ entries).map fun e => e.1.key).Nodup := by
              rw [List.map_append, List.nodup_append] at hrest
              exact hrest.2.1
            rw [prunedEntries, List.flatMap_cons, List.append_assoc, entriesBetween_append,
              ← prunedEntries, ih hempty, hassign, entriesBetween_append, hone]
            simp [entriesBetween, KeyedDict.empty, Nat.add_assoc]
          · rw [ih, hassign, entriesBetween_append, hone, Nat.add_assoc]
            rw [hassign, List.append_assoc, List.map_append, List.map_append]
            rwa [List.map_append] at h

/-- The sets of one entry are parts of those of another. -/
def PartOf (entry whole : Entry) : Prop :=
  ∀ d : Direction, (d.of entry.2).elems ⊆ (d.of whole.2).elems

theorem partOf_iff {entry whole : Entry} : PartOf entry whole ↔
    entry.2.1.elems ⊆ whole.2.1.elems ∧ entry.2.2.elems ⊆ whole.2.2.elems := by
  constructor
  · exact fun h => ⟨h .pred, h .succ⟩
  · intro h d
    cases d with
    | pred => exact h.1
    | succ => exact h.2

theorem partOf_kept (entry : Entry) : PartOf (kept hiOut hiIn entry) entry :=
  partOf_iff.mpr ⟨List.filter_subset_self _, List.filter_subset_self _⟩

/-- The loop adds no neighbors. -/
theorem partOf_of_mem_prune {entry : Entry}
    (h : entry ∈ prunedEntries (prune order side hiOut hiIn batch n entries)) :
    entry ∈ batch.entries ∨ ∃ whole ∈ entries, PartOf entry whole := by
  induction entries generalizing batch n with
  | nil => exact Or.inl h
  | cons whole entries ih =>
      have hrest (hor : entry ∈ batch.entries ∨ ∃ whole ∈ entries, PartOf entry whole) :
          entry ∈ batch.entries ∨ ∃ whole' ∈ whole :: entries, PartOf entry whole' :=
        hor.imp_right fun ⟨w, hw, hpart⟩ => ⟨w, List.mem_cons_of_mem _ hw, hpart⟩
      have hassign {nodes : Nodes} (hmem : entry ∈ (nodes.assign whole.1
          (whole.2.1.inter hiOut, whole.2.2.inter hiIn)).entries) :
          entry ∈ nodes.entries ∨ PartOf entry whole := by
        rcases KeyedDict.mem_assign hmem with hold | ⟨hvalue, -⟩
        · exact Or.inl hold
        · rw [PartOf, hvalue]
          exact Or.inr (partOf_kept whole)
      simp only [prune] at h
      split at h
      · exact hrest (ih h)
      · split at h
        · rw [prunedEntries, List.flatMap_append, List.append_assoc] at h
          rcases List.mem_append.mp h with htile | hother
          · obtain ⟨g, hg, hentry⟩ := List.mem_flatMap.mp htile
            obtain ⟨pchunk, schunk, hentries, -, -, hp, hs⟩ := sides_saltedTiles hg
            rw [hentries, List.mem_singleton] at hentry
            have hpart : PartOf entry (kept hiOut hiIn whole) := by
              rw [hentry]
              exact partOf_iff.mpr ⟨hp, hs⟩
            exact Or.inr ⟨whole, List.mem_cons_self, fun d =>
              List.Subset.trans (hpart d) (partOf_kept whole d)⟩
          · exact hrest (ih hother)
        · split at h
          · rw [prunedEntries, List.flatMap_cons, List.append_assoc] at h
            rcases List.mem_append.mp h with hbatch | hother
            · exact (hassign hbatch).imp_right fun hpart =>
                ⟨whole, List.mem_cons_self, hpart⟩
            · rcases ih hother with hnil | hlater
              · exact absurd hnil List.not_mem_nil
              · exact hrest (Or.inr hlater)
          · rcases ih h with hbatch | hlater
            · exact (hassign hbatch).imp_right fun hpart =>
                ⟨whole, List.mem_cons_self, hpart⟩
            · exact hrest (Or.inr hlater)

theorem flatMap_entries_graphs (order : NodeOrder) (side : ℕ → ℕ → ℕ) (hiOut hiIn : NodeSet)
    (entries : List Entry) :
    (graphs order side hiOut hiIn entries).flatMap KeyedDict.entries =
      prunedEntries (prune order side hiOut hiIn .empty 0 entries) := by
  rw [graphs]
  generalize prune order side hiOut hiIn .empty 0 entries = result
  obtain ⟨full, batch⟩ := result
  by_cases hsize : batch.size = 0
  · simp [prunedEntries, hsize, List.eq_nil_of_length_eq_zero hsize]
  · simp [prunedEntries, hsize]

theorem partOf_of_mem_graphs {entry : Entry}
    (h : entry ∈ (graphs order side hiOut hiIn entries).flatMap KeyedDict.entries) :
    ∃ whole ∈ entries, PartOf entry whole := by
  rw [flatMap_entries_graphs] at h
  rcases partOf_of_mem_prune h with hnil | hpart
  · exact absurd hnil List.not_mem_nil
  · exact hpart

/-- What is yielded has as many nodes between a pair as what is kept of what was spilled. -/
theorem between_graphs (h : (entries.map fun e => e.1.key).Nodup) :
    between (graphs order side hiOut hiIn entries) a c =
      entriesBetween (entries.map (kept hiOut hiIn)) a c := by
  have hloop : entriesBetween (prunedEntries (prune order side hiOut hiIn .empty 0 entries)) a c =
      0 + entriesBetween (entries.map (kept hiOut hiIn)) a c := entriesBetween_prune h
  rw [Nat.zero_add] at hloop
  rw [← hloop, between_eq, flatMap_entries_graphs]

end UC4Prune
