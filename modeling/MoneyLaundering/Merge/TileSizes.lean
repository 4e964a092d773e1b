import MoneyLaundering.Merge.PruneReplay

/-!
# The sizes of tiles

The two sides of a tile are rounded down from roots whose product is `SPLIT_THRESHOLD`, but
neither side is less than one.  A tile of one node by many is therefore too large when the
node has far more neighbors on one side than on the other.
-/

namespace UC4Prune

open GraphSrc

/-- The pairs that `UC4CountPaths` makes of a message. -/
def pairs (nodes : Nodes) : List (Node × Node) :=
  nodes.entries.flatMap fun entry =>
    (entry.2.1.elems.product entry.2.2.elems).filter fun pair => pair.1.key ≠ pair.2.key

/-- A message in which every node has at most as many paths as the threshold, and of which no
more pairs are made. -/
def Within (nodes : Nodes) : Prop :=
  (∀ entry ∈ nodes.entries, entry.2.1.size * entry.2.2.size ≤ splitThreshold) ∧
    (pairs nodes).length ≤ splitThreshold

/-- The larger of two sizes is less than about `SPLIT_THRESHOLD` times the smaller one. -/
def Balanced (p s : ℕ) : Prop :=
  splitThreshold * s < (splitThreshold + 1) ^ 2 * p ∧
    splitThreshold * p < (splitThreshold + 1) ^ 2 * s

instance (p s : ℕ) : Decidable (Balanced p s) := inferInstanceAs (Decidable (_ ∧ _))

/-! ## Roots -/

variable {p s : ℕ}

theorem root_le_iff (hs : 0 < s) :
    root p s ≤ splitThreshold ↔ splitThreshold * p < (splitThreshold + 1) ^ 2 * s := by
  rw [← Nat.lt_succ_iff, root, Nat.sqrt_lt, Nat.div_lt_iff_lt_mul hs, ← pow_two]

theorem root_sq_mul_le (p s : ℕ) : root p s ^ 2 * s ≤ splitThreshold * p := by
  have hroot : root p s ^ 2 ≤ splitThreshold * p / s := Nat.sqrt_le' _
  exact (Nat.mul_le_mul_right s hroot).trans (Nat.div_mul_le_self _ _)

/-- Without the lower bound of one a tile has the right size. -/
theorem root_mul_root_le (hp : 0 < p) (hs : 0 < s) : root p s * root s p ≤ splitThreshold := by
  have hmul : (root p s * root s p) ^ 2 * (p * s) ≤ splitThreshold ^ 2 * (p * s) := by
    calc (root p s * root s p) ^ 2 * (p * s)
        = (root p s ^ 2 * s) * (root s p ^ 2 * p) := by ring
      _ ≤ (splitThreshold * p) * (splitThreshold * s) :=
        Nat.mul_le_mul (root_sq_mul_le p s) (root_sq_mul_le s p)
      _ = splitThreshold ^ 2 * (p * s) := by ring
  have hsq := Nat.le_of_mul_le_mul_right hmul (Nat.mul_pos hp hs)
  exact (Nat.pow_le_pow_iff_left (by decide)).mp hsq

/-- A side is rounded up to one if the other set is more than `SPLIT_THRESHOLD` times as
large. -/
theorem root_eq_zero_iff (hs : 0 < s) : root p s = 0 ↔ splitThreshold * p < s := by
  rw [root, Nat.sqrt_eq_zero, Nat.div_eq_zero_iff]
  omega

theorem balanced_comm : Balanced p s ↔ Balanced s p := And.comm

/-- The two sides of a tile if the first one is rounded up to one. -/
theorem sides_le_iff_of_eq_zero (hp : 0 < p) (hroot : root p s = 0) (hs : 0 < s) :
    max 1 (root p s) * max 1 (root s p) ≤ splitThreshold ↔ Balanced p s := by
  have hlopsided := (root_eq_zero_iff hs).mp hroot
  have hother : splitThreshold * p < (splitThreshold + 1) ^ 2 * s := by
    calc splitThreshold * p < s := hlopsided
      _ ≤ (splitThreshold + 1) ^ 2 * s := Nat.le_mul_of_pos_left s (by decide)
  have hone : 1 ≤ splitThreshold := by decide
  rw [hroot, Nat.max_zero, Nat.one_mul, max_le_iff, root_le_iff hp, Balanced]
  tauto

theorem sides_le_iff (hp : 0 < p) (hs : 0 < s) :
    max 1 (root p s) * max 1 (root s p) ≤ splitThreshold ↔ Balanced p s := by
  by_cases hzero : root p s = 0
  · exact sides_le_iff_of_eq_zero hp hzero hs
  · by_cases hzero' : root s p = 0
    · rw [Nat.mul_comm, balanced_comm]
      exact sides_le_iff_of_eq_zero hs hzero' hp
    · rw [max_eq_right (Nat.pos_of_ne_zero hzero), max_eq_right (Nat.pos_of_ne_zero hzero')]
      apply iff_of_true (root_mul_root_le hp hs)
      rw [root_eq_zero_iff hs, not_lt] at hzero
      rw [root_eq_zero_iff hp, not_lt] at hzero'
      have hbound {a b : ℕ} (ha : 0 < a) (h : b ≤ splitThreshold * a) :
          splitThreshold * b < (splitThreshold + 1) ^ 2 * a := by
        calc splitThreshold * b ≤ splitThreshold * (splitThreshold * a) :=
              Nat.mul_le_mul_left _ h
          _ = splitThreshold ^ 2 * a := by ring
          _ < (splitThreshold + 1) ^ 2 * a :=
              Nat.mul_lt_mul_of_pos_right (Nat.pow_lt_pow_left (Nat.lt_succ_self _) (by decide)) ha
      exact ⟨hbound hp hzero, hbound hs hzero'⟩

/-! ## Tiles -/

variable {order : NodeOrder} {node : Node} {preds succs : NodeSet} {g : Nodes}

/-- A slice of a set is a set. -/
theorem elems_ofList_slice {s : NodeSet} {chunk : List Node} (h : chunk.Sublist (order.elems s)) :
    (OrderedSet.ofList Node.key chunk).elems = chunk := by
  have hnodup : (chunk.map Node.key).Nodup :=
    (((order.perm s).map Node.key).nodup_iff.mpr s.nodup).sublist (h.map Node.key)
  exact congrArg OrderedSet.elems (OrderedSet.ofList_elems ⟨chunk, hnodup⟩)

theorem size_ofList_slice {s : NodeSet} {chunk : List Node} (h : chunk.Sublist (order.elems s)) :
    (OrderedSet.ofList Node.key chunk).size = chunk.length :=
  congrArg List.length (elems_ofList_slice h)

theorem slice_sublist {T : Type} {n : ℕ} {xs chunk : List T} (h : chunk ∈ slices n xs) :
    chunk.Sublist xs ∧ chunk.length ≤ n := by
  obtain ⟨i, -, rfl⟩ := List.mem_map.mp h
  constructor
  · exact (List.take_sublist n _).trans (List.drop_sublist _ xs)
  · exact List.length_take_le n _

/-- Every tile is one node, and no side of it is longer than it was cut. -/
theorem entries_saltedTiles {hsides : preds.size ≠ 0 ∧ succs.size ≠ 0}
    (hg : g ∈ saltedTiles order root node preds succs hsides) :
    ∃ entry, g.entries = [entry] ∧ entry.2.1.size ≤ max 1 (root preds.size succs.size) ∧
      entry.2.2.size ≤ max 1 (root succs.size preds.size) := by
  obtain ⟨pchunk, hpchunk, htile⟩ := List.mem_flatMap.mp hg
  obtain ⟨schunk, hschunk, rfl⟩ := List.mem_map.mp htile
  obtain ⟨hpsub, hplength⟩ := slice_sublist hpchunk
  obtain ⟨hssub, hslength⟩ := slice_sublist hschunk
  refine ⟨_, rfl, ?_, ?_⟩
  · exact (size_ofList_slice hpsub).trans_le hplength
  · exact (size_ofList_slice hssub).trans_le hslength

/-- A set is never cut into a side that is longer than itself. -/
theorem side_le (hp : 0 < p) (hs : 0 < s) (h : splitThreshold < p * s) :
    max 1 (root p s) ≤ p := by
  by_cases hone : 1 < p
  · exact (root_lt hs h hone).le
  · have hp' : p = 1 := by omega
    rw [hp', Nat.one_mul] at h
    have hzero : root p s = 0 := by
      rw [root_eq_zero_iff hs, hp', Nat.mul_one]
      exact h
    rw [hzero, hp']
    exact le_refl 1

/-- A node with too many paths has neighbors on both sides. -/
theorem sides_ne (h : splitThreshold < preds.size * succs.size) :
    preds.size ≠ 0 ∧ succs.size ≠ 0 := by
  have hpos := lt_of_le_of_lt (Nat.zero_le _) h
  exact ⟨(Nat.pos_of_mul_pos_right hpos).ne', (Nat.pos_of_mul_pos_left hpos).ne'⟩

/-- The first tile is as large as it was cut. -/
theorem exists_whole_tile (order : NodeOrder) (node : Node)
    (h : splitThreshold < preds.size * succs.size) :
    ∃ g ∈ saltedTiles order root node preds succs (sides_ne h), ∃ entry ∈ g.entries,
      entry.2.1.size * entry.2.2.size =
        max 1 (root preds.size succs.size) * max 1 (root succs.size preds.size) := by
  have hp := Nat.pos_of_ne_zero (sides_ne h).1
  have hs := Nat.pos_of_ne_zero (sides_ne h).2
  obtain ⟨rest, htiles⟩ := saltedTiles_eq_cons order root node (sides_ne h)
  refine ⟨_, htiles ▸ List.mem_cons_self, _, List.mem_cons_self, ?_⟩
  have hside {t : NodeSet} {n : ℕ} (hn : n ≤ t.size) :
      (OrderedSet.ofList Node.key ((order.elems t).take n)).size = n := by
    rw [size_ofList_slice (List.take_sublist n _), List.length_take, (order.perm t).length_eq]
    exact min_eq_left hn
  rw [hside (side_le hp hs h), hside (side_le hs hp (Nat.mul_comm _ _ ▸ h))]

theorem length_pairs_le {entry : Entry} (hg : g.entries = [entry]) :
    (pairs g).length ≤ entry.2.1.size * entry.2.2.size := by
  rw [pairs, hg, List.flatMap_singleton]
  apply (List.length_filter_le _ _).trans
  exact (List.length_product entry.2.1.elems entry.2.2.elems).le

/-- The tiles of a node that has too many paths respect the threshold if and only if the
node does not have far more neighbors on one side than on the other. -/
theorem tiles_within_iff (order : NodeOrder) (node : Node) (preds succs : NodeSet)
    (h : splitThreshold < preds.size * succs.size) :
    (∀ g ∈ saltedTiles order root node preds succs (sides_ne h), Within g) ↔
      Balanced preds.size succs.size := by
  rw [← sides_le_iff (Nat.pos_of_ne_zero (sides_ne h).1) (Nat.pos_of_ne_zero (sides_ne h).2)]
  constructor
  · intro hall
    obtain ⟨g, hg, entry, hentry, hsize⟩ := exists_whole_tile order node h
    rw [← hsize]
    exact (hall g hg).1 entry hentry
  · intro hsides g hg
    obtain ⟨entry, hentries, hp, hs⟩ := entries_saltedTiles hg
    have hle : entry.2.1.size * entry.2.2.size ≤ splitThreshold :=
      (Nat.mul_le_mul hp hs).trans hsides
    constructor
    · rw [hentries, List.forall_mem_singleton]
      exact hle
    · exact (length_pairs_le hentries).trans hle

theorem size_accounts (n : ℕ) : (accounts n).size = n := by
  rw [OrderedSet.size, accounts, List.length_map, List.length_range]

/-- A hub of 501 accounts by 500. -/
theorem tiles_within_hub : Balanced 501 500 ∧
    ∃ h : (accounts 501).size ≠ 0 ∧ (accounts 500).size ≠ 0,
      ∀ g ∈ saltedTiles forwards root ⟨"1", "hub"⟩ (accounts 501) (accounts 500) h, Within g := by
  have hbalanced : Balanced 501 500 := by decide
  have hlarge : splitThreshold < (accounts 501).size * (accounts 500).size := by
    rw [size_accounts, size_accounts]
    decide
  refine ⟨hbalanced, sides_ne hlarge, ?_⟩
  apply (tiles_within_iff forwards ⟨"1", "hub"⟩ (accounts 501) (accounts 500) hlarge).mpr
  rw [size_accounts, size_accounts]
  exact hbalanced

/-- The first tile of a hub with one predecessor and half a million successors is too
large. -/
theorem not_tiles_within : ∃ h : splitThreshold < (accounts 1).size * (accounts 500000).size,
    ¬∀ g ∈ saltedTiles forwards root ⟨"1", "hub"⟩ (accounts 1) (accounts 500000) (sides_ne h),
      Within g := by
  have hlarge : splitThreshold < (accounts 1).size * (accounts 500000).size := by
    rw [size_accounts, size_accounts]
    decide
  refine ⟨hlarge, ?_⟩
  intro hall
  obtain ⟨g, hg, entry, hentry, hsize⟩ :=
    exists_whole_tile forwards ⟨"1", "hub"⟩ hlarge
  have hle := (hall g hg).1 entry hentry
  rw [hsize, size_accounts, size_accounts, sides_le_iff (by decide) (by decide)] at hle
  exact absurd hle.1 (by decide)

end UC4Prune
