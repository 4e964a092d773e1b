import Mathlib.Algebra.BigOperators.Group.Finset.Basic
import Mathlib.Algebra.BigOperators.Group.Finset.Piecewise
import Mathlib.Algebra.Order.BigOperators.Group.List
import Mathlib.Algebra.Order.Ring.Nat
import Mathlib.Data.List.Count
import MoneyLaundering.Support.Dict
import MoneyLaundering.Support.KeyedDict
import MoneyLaundering.Support.Totals

/-!
# Sums over dictionaries

A dictionary that adds what comes under equal keys has for every key the sum of what came.
Splitting its entries into several dictionaries changes no sum.
-/

namespace List

variable {α β : Type}

/-- Only one part of a list has something of a kind. -/
theorem countP_flatMap_of_unique {xs : List α} {g : α → List β} {p : β → Bool} {x : α}
    (hnodup : xs.Nodup) (hx : x ∈ xs) (hother : ∀ y ∈ xs, y ≠ x → ∀ b ∈ g y, ¬p b = true) :
    (xs.flatMap g).countP p = (g x).countP p := by
  obtain ⟨before, after, rfl⟩ := append_of_mem hx
  have hsplit := nodup_middle.mp hnodup
  have hnone (ys : List α) (hys : ∀ y ∈ ys, y ∈ before ++ after) :
      (ys.flatMap g).countP p = 0 := by
    rw [countP_eq_zero]
    intro b hb
    obtain ⟨y, hy, hmem⟩ := mem_flatMap.mp hb
    have hmem' := hys y hy
    apply hother y _ _ b hmem
    · rcases mem_append.mp hmem' with h | h
      · exact mem_append_left _ h
      · exact mem_append_right _ (mem_cons_of_mem _ h)
    · intro heq
      rw [heq] at hmem'
      exact (nodup_cons.mp hsplit).1 hmem'
  rw [flatMap_append, flatMap_cons, countP_append, countP_append,
    hnone before fun y hy => mem_append_left _ hy,
    hnone after fun y hy => mem_append_right _ hy, Nat.zero_add, Nat.add_zero]

/-- Only one element is of a kind. -/
theorem countP_of_unique {xs : List α} {p : α → Bool} {x : α} (hnodup : xs.Nodup)
    (hx : x ∈ xs) (hpx : p x = true) (hother : ∀ y ∈ xs, y ≠ x → ¬p y = true) :
    xs.countP p = 1 := by
  have hcount : (xs.flatMap fun y => [y]).countP p = [x].countP p := by
    apply countP_flatMap_of_unique hnodup hx
    intro y hy hne b hb
    rw [mem_singleton.mp hb]
    exact hother y hy hne
  rw [flatMap_singleton'] at hcount
  rw [hcount, countP_singleton, if_pos hpx]

/-- Elements of a kind that is counted once are equal. -/
theorem eq_of_countP_eq_one {xs : List α} {p : α → Bool} {x y : α} (h : xs.countP p = 1)
    (hx : x ∈ xs) (hpx : p x = true) (hy : y ∈ xs) (hpy : p y = true) : x = y := by
  rw [countP_eq_length_filter] at h
  obtain ⟨z, hz⟩ := length_eq_one_iff.mp h
  have hxz : x ∈ [z] := hz ▸ mem_filter.mpr ⟨hx, hpx⟩
  have hyz : y ∈ [z] := hz ▸ mem_filter.mpr ⟨hy, hpy⟩
  rw [mem_singleton.mp hxz, mem_singleton.mp hyz]

/-- Of parts that have nothing twice, one has what all of them have together. -/
theorem countP_mem_parts [DecidableEq α] {parts : List (List α)} (h : parts.flatten.Nodup)
    (x : α) : parts.countP (fun part => x ∈ part) = if x ∈ parts.flatten then 1 else 0 := by
  induction parts with
  | nil => rfl
  | cons part parts ih =>
      rw [flatten_cons, nodup_append] at h
      rw [countP_cons, ih h.2.1, flatten_cons]
      by_cases hx : x ∈ part
      · have hnot : x ∉ parts.flatten := fun hmem => h.2.2 x hx x hmem rfl
        simp [hx, hnot]
      · simp [hx]

/-- Pairs of which both parts are of a kind. -/
theorem countP_flatMap_map {γ : Type} {xs : List α} {ys : List β} {f : α → β → γ}
    {p : α → Bool} {q : β → Bool} {r : γ → Bool} (h : ∀ x y, r (f x y) = (p x && q y)) :
    (xs.flatMap fun x => ys.map (f x)).countP r = xs.countP p * ys.countP q := by
  induction xs with
  | nil => simp
  | cons x xs ih =>
      have hx : (ys.map (f x)).countP r = if p x then ys.countP q else 0 := by
        rw [countP_map]
        cases hp : p x <;> simp [Function.comp_def, h, hp]
      rw [flatMap_cons, countP_append, hx, ih, countP_cons]
      cases p x <;> simp [Nat.add_mul, Nat.add_comm]

/-- A product may be gone through by rows or by columns. -/
theorem flatMap_comm_perm {γ : Type} (xs : List α) (ys : List β) (f : α → β → List γ) :
    (xs.flatMap fun x => ys.flatMap (f x)).Perm
      (ys.flatMap fun y => xs.flatMap fun x => f x y) := by
  induction xs with
  | nil => simp
  | cons x xs ih =>
      rw [flatMap_cons]
      exact (ih.append_left _).trans (flatMap_append_perm ys (f x) _)

/-- What is made of the pairs of some parts is what is made of the pairs of the whole. -/
theorem flatMap_parts_perm {γ : Type} (xss : List (List α)) (yss : List (List β))
    (f : α → β → List γ) :
    (xss.flatMap fun xs => yss.flatMap fun ys => xs.flatMap fun x => ys.flatMap (f x)).Perm
      (xss.flatten.flatMap fun x => yss.flatten.flatMap (f x)) := by
  simp only [flatten_eq_flatMap, flatMap_assoc, id_eq]
  apply Perm.flatMap_left
  intro xs _
  exact flatMap_comm_perm yss xs fun ys x => ys.flatMap (f x)

/-- Parts that belong to different owners have nothing in common. -/
theorem nodup_flatMap_of_owner {xs : List α} {g : α → List β} (owner : β → α)
    (hnodup : xs.Nodup) (hparts : ∀ x ∈ xs, (g x).Nodup)
    (howner : ∀ x ∈ xs, ∀ b ∈ g x, owner b = x) : (xs.flatMap g).Nodup := by
  rw [nodup_flatMap]
  refine ⟨hparts, hnodup.imp_of_mem ?_⟩
  intro x y hx hy hne b hbx hby
  exact hne ((howner x hx b hbx).symm.trans (howner y hy b hby))

end List

namespace Dict

variable {κ ν α : Type} [DecidableEq κ]

/-- Only the value of one key is of a kind. -/
theorem countP_of_unique {d : Dict κ ν} {p : ν → Bool} {k : κ} {v : ν}
    (hget : d.get? k = some v) (hv : p v = true)
    (hother : ∀ e ∈ d.entries, p e.2 = true → e.1 = k) :
    d.entries.countP (fun e => p e.2) = 1 := by
  apply List.countP_of_unique d.nodup.of_map (get?_eq_some_iff.mp hget) hv
  intro e he hne hp
  have hkey := hother e he hp
  rw [← hkey, get?_eq_some_iff.mpr he] at hget
  exact hne (Prod.ext hkey (Option.some.inj hget))

/-- The sum of a measure of the values. -/
def total (μ : ν → ℕ) (d : Dict κ ν) : ℕ := (d.entries.map fun e => μ e.2).sum

theorem total_set (μ : ν → ℕ) (d : Dict κ ν) (k : κ) (v w : ν) (hw : μ w = 0) :
    total μ (d.set k v) + μ (d.getD k w) = total μ d + μ v := by
  have loop (es : List (κ × ν)) :
      ((setEntries k v es).map fun e => μ e.2).sum + μ ((es.lookup k).getD w) =
        (es.map fun e => μ e.2).sum + μ v := by
    induction es with
    | nil => simp [setEntries, hw]
    | cons e es ih =>
        obtain ⟨x, u⟩ := e
        rw [setEntries, lookup_cons_eq]
        by_cases hx : x = k
        · rw [if_pos hx, if_pos hx.symm]
          simp only [List.map_cons, List.sum_cons, Option.getD_some]
          omega
        · rw [if_neg hx, if_neg (Ne.symm hx)]
          simp only [List.map_cons, List.sum_cons]
          omega
  exact loop d.entries

/-- Gathering changes no sum. -/
theorem total_gather (μ : ν → ℕ) {f : α → κ} {start : ν} {op : ν → α → ν} {m : α → ℕ}
    (hstart : μ start = 0) (hop : ∀ v x, μ (op v x) = μ v + m x) (xs : List α) :
    total μ (gather f start op xs) = (xs.map m).sum := by
  induction xs using List.reverseRecOn with
  | nil => rfl
  | append_singleton xs x ih =>
      have hset := total_set μ (gather f start op xs) (f x)
        (op ((gather f start op xs).getD (f x) start) x) start hstart
      have hgather : gather f start op (xs ++ [x]) = (gather f start op xs).set (f x)
          (op ((gather f start op xs).getD (f x) start) x) := by
        simp [gather]
      rw [hop] at hset
      rw [hgather, List.map_append, List.sum_append, ← ih]
      simp only [List.map_cons, List.map_nil, List.sum_cons, List.sum_nil]
      omega

end Dict

namespace KeyedDict

variable {κ α : Type} {key : α → κ} [DecidableEq κ]

/-- Dictionaries of which each key is in one have no key twice. -/
theorem nodup_flatMap_keys {ν : Type} {ds : List (KeyedDict key ν)}
    (h : ∀ d ∈ ds, ∀ e ∈ d.entries, ds.countP (fun d => d.Has e.1) = 1) :
    ((ds.flatMap entries).map fun e => key e.1).Nodup := by
  have hcount (k : κ) (ds : List (KeyedDict key ν)) :
      ((ds.flatMap entries).map fun e => key e.1).count k =
        ds.countP fun d => k ∈ d.entries.map fun e => key e.1 := by
    induction ds with
    | nil => rfl
    | cons d ds ih =>
        rw [List.flatMap_cons, List.map_append, List.count_append, ih, List.countP_cons,
          Nat.add_comm]
        by_cases hk : k ∈ d.entries.map fun e => key e.1
        · simp only [hk, List.count_eq_one_of_mem d.nodup hk, decide_true, if_true]
        · simp only [hk, List.count_eq_zero_of_not_mem hk, decide_false, Bool.false_eq_true,
            if_false]
  rw [List.nodup_iff_count_le_one]
  intro k
  by_cases hk : k ∈ (ds.flatMap entries).map fun e => key e.1
  · obtain ⟨e, he, rfl⟩ := List.mem_map.mp hk
    obtain ⟨d, hd, he⟩ := List.mem_flatMap.mp he
    rw [hcount]
    exact (h d hd e he).le
  · rw [List.count_eq_zero_of_not_mem hk]
    exact Nat.zero_le 1

/-- Add to the number of a key. -/
def bump (d : KeyedDict key ℕ) (x : α) (n : ℕ) : KeyedDict key ℕ :=
  d.assign x (d.getD x 0 + n)

/-- Add the numbers of some entries. -/
def bumpAll (d : KeyedDict key ℕ) (es : List (α × ℕ)) : KeyedDict key ℕ :=
  es.foldl (fun d e => d.bump e.1 e.2) d

/-- The sum of the numbers of the entries with a key. -/
def sumAt (key : α → κ) (k : κ) (es : List (α × ℕ)) : ℕ :=
  totalAt k (es.map fun e => (key e.1, e.2))

variable {d : KeyedDict key ℕ} {k : κ} {x : α} {n : ℕ} {es es' : List (α × ℕ)}

theorem sumAt_nil : sumAt key k [] = 0 := rfl

theorem sumAt_cons (e : α × ℕ) :
    sumAt key k (e :: es) = (if key e.1 = k then e.2 else 0) + sumAt key k es :=
  totalAt_cons _

theorem sumAt_append : sumAt key k (es ++ es') = sumAt key k es + sumAt key k es' := by
  rw [sumAt, List.map_append, totalAt_append, sumAt, sumAt]

theorem sumAt_perm (h : es.Perm es') : sumAt key k es = sumAt key k es' :=
  totalAt_perm (h.map _)

theorem sumAt_eq_sum_map :
    sumAt key k es = (es.map fun e => if key e.1 = k then e.2 else 0).sum := by
  induction es with
  | nil => rfl
  | cons e es ih => rw [sumAt_cons, ih, List.map_cons, List.sum_cons]

/-- The sum under a key of a dictionary is what is found there. -/
theorem sumAt_entries (d : KeyedDict key ℕ) (x : α) :
    sumAt key (key x) d.entries = d.getD x 0 := by
  have hlookup (es : List (α × ℕ)) : (es.map fun e => (key e.1, e.2)).lookup (key x) =
      (es.find? fun e => key e.1 = key x).map Prod.snd := by
    induction es with
    | nil => rfl
    | cons e es ih =>
        rw [List.map_cons, Dict.lookup_cons_eq, ih]
        by_cases h : key e.1 = key x
        · rw [if_pos h.symm, List.find?_cons_of_pos (by simpa using h)]
          rfl
        · rw [if_neg (Ne.symm h), List.find?_cons_of_neg (by simpa using h)]
  rw [sumAt, totalAt_of_nodup (by
    rw [List.map_map]
    exact d.nodup), hlookup]
  rfl

theorem mem_keys_of_sumAt_pos (h : 0 < sumAt key k es) : ∃ e ∈ es, key e.1 = k := by
  obtain ⟨_, he, hkey⟩ := exists_of_totalAt_ne h.ne'
  obtain ⟨e, hmem, rfl⟩ := List.mem_map.mp he
  exact ⟨e, hmem, hkey⟩

/-- The parts that have a key are enough for its sum. -/
theorem sumAt_flatMap_filter {γ : Type} {xs : List γ} {g : γ → List (α × ℕ)} {p : γ → Bool}
    (h : ∀ x ∈ xs, ∀ e ∈ g x, key e.1 = k → p x = true) :
    sumAt key k ((xs.filter p).flatMap g) = (xs.map fun x => sumAt key k (g x)).sum := by
  induction xs with
  | nil => rfl
  | cons x xs ih =>
      have hrest := ih fun x hx => h x (List.mem_cons_of_mem _ hx)
      rw [List.filter_cons, List.map_cons, List.sum_cons]
      by_cases hx : p x = true
      · rw [if_pos hx, List.flatMap_cons, sumAt_append, hrest]
      · have hzero : sumAt key k (g x) = 0 := by
          by_contra hne
          obtain ⟨e, he, hkey⟩ := mem_keys_of_sumAt_pos (Nat.pos_of_ne_zero hne)
          exact hx (h x List.mem_cons_self e he hkey)
        rw [if_neg hx, hzero, Nat.zero_add, hrest]

theorem sumAt_flatMap {γ : Type} (xs : List γ) (g : γ → List (α × ℕ)) :
    sumAt key k (xs.flatMap g) = (xs.map fun x => sumAt key k (g x)).sum := by
  rw [← sumAt_flatMap_filter (p := fun _ => true) fun _ _ _ _ _ => rfl, List.filter_true]

theorem sumAt_bump :
    sumAt key k (d.bump x n).entries =
      sumAt key k d.entries + if key x = k then n else 0 := by
  have hassign (v : ℕ) (es : List (α × ℕ)) (hnodup : (es.map fun e => key e.1).Nodup) :
      sumAt key k (assignEntries key x v es) + (if key x = k then sumAt key k es else 0) =
        sumAt key k es + if key x = k then v else 0 := by
    induction es with
    | nil => simp [assignEntries, sumAt_cons, sumAt_nil]
    | cons e es ih =>
        rw [List.map_cons, List.nodup_cons] at hnodup
        have hrest := ih hnodup.2
        rw [assignEntries]
        by_cases he : key e.1 = key x
        · rw [if_pos he, sumAt_cons, sumAt_cons, he]
          by_cases hk : key x = k
          · have hnone : sumAt key k es = 0 := by
              by_contra hne
              obtain ⟨e', he', hkey⟩ := mem_keys_of_sumAt_pos (Nat.pos_of_ne_zero hne)
              exact hnodup.1 (List.mem_map.mpr ⟨e', he', by rw [hkey, he, hk]⟩)
            simp only [if_pos hk]
            omega
          · simp only [if_neg hk]
        · rw [if_neg he, sumAt_cons, sumAt_cons]
          by_cases hk : key x = k
          · have hne : key e.1 ≠ k := fun heq => he (heq.trans hk.symm)
            simp only [if_pos hk, if_neg hne] at hrest ⊢
            omega
          · simp only [if_neg hk] at hrest ⊢
            omega
  have hsum := hassign (d.getD x 0 + n) d.entries d.nodup
  change sumAt key k (assignEntries key x (d.getD x 0 + n) d.entries) = _
  by_cases hk : key x = k
  · simp only [if_pos hk] at hsum ⊢
    rw [← hk, sumAt_entries] at hsum ⊢
    omega
  · simp only [if_neg hk] at hsum ⊢
    omega

theorem sumAt_bumpAll :
    sumAt key k (d.bumpAll es).entries = sumAt key k d.entries + sumAt key k es := by
  induction es generalizing d with
  | nil => rfl
  | cons e es ih =>
      have hcons : d.bumpAll (e :: es) = (d.bump e.1 e.2).bumpAll es := rfl
      rw [hcons, ih, sumAt_bump, sumAt_cons, Nat.add_assoc]

theorem mem_bump {e : α × ℕ} (h : e ∈ (d.bump x n).entries) :
    e ∈ d.entries ∨ n ≤ e.2 ∧ (e.1 = x ∨ ∃ e' ∈ d.entries, e'.1 = e.1) := by
  apply (mem_assign h).imp id
  intro hnew
  exact ⟨hnew.1 ▸ Nat.le_add_left _ _, hnew.2.imp_right And.right⟩

/-- The numbers of a sum are positive if those that are added are. -/
theorem mem_bumpAll {e : α × ℕ} (h : e ∈ (d.bumpAll es).entries)
    (hpos : ∀ e ∈ es, 0 < e.2) (hold : ∀ e ∈ d.entries, 0 < e.2) :
    0 < e.2 ∧ ∃ e' ∈ d.entries ++ es, e'.1 = e.1 := by
  induction es generalizing d with
  | nil => exact ⟨hold e h, e, List.mem_append_left _ h, rfl⟩
  | cons b es ih =>
      have hb := hpos b List.mem_cons_self
      have hbump : ∀ e ∈ (d.bump b.1 b.2).entries, 0 < e.2 := by
        intro e he
        rcases mem_bump he with hmem | ⟨hle, -⟩
        · exact hold e hmem
        · exact hb.trans_le hle
      obtain ⟨hpos', e', he', heq⟩ := ih (d := d.bump b.1 b.2) h
        (fun e he => hpos e (List.mem_cons_of_mem _ he)) hbump
      refine ⟨hpos', ?_⟩
      rcases List.mem_append.mp he' with hmem | hmem
      · rcases mem_bump hmem with hd | ⟨-, hx | ⟨e'', he'', heq'⟩⟩
        · exact ⟨e', List.mem_append_left _ hd, heq⟩
        · exact ⟨b, List.mem_append_right _ List.mem_cons_self, hx.symm.trans heq⟩
        · exact ⟨e'', List.mem_append_left _ he'', heq'.trans heq⟩
      · exact ⟨e', List.mem_append_right _ (List.mem_cons_of_mem _ hmem), heq⟩

/-- An entry of a sum has the sum of its key. -/
theorem eq_sumAt_of_mem {e : α × ℕ} (h : e ∈ (empty.bumpAll es : KeyedDict key ℕ).entries) :
    e.2 = sumAt key (key e.1) es := by
  have hsum : sumAt key (key e.1) (empty.bumpAll es : KeyedDict key ℕ).entries = e.2 := by
    rw [sumAt_entries, getD, get?, find?_of_mem h, Option.getD_some]
  rw [sumAt_bumpAll, entries_empty, sumAt_nil, Nat.zero_add] at hsum
  exact hsum.symm

theorem has_bumpAll :
    (d.bumpAll es).Has x ↔ d.Has x ∨ ∃ e ∈ es, key e.1 = key x := by
  induction es generalizing d with
  | nil => simp [bumpAll]
  | cons e es ih =>
      have hcons : d.bumpAll (e :: es) = (d.bump e.1 e.2).bumpAll es := rfl
      rw [hcons, ih, bump, has_assign, List.exists_mem_cons_iff, eq_comm]
      tauto

/-- Entries are split by a function without a change of a sum. -/
theorem sum_sumAt_filter {N : ℕ} {f : α × ℕ → ℕ} (hf : ∀ e ∈ es, f e < N) :
    ∑ i ∈ Finset.range N, sumAt key k (es.filter fun e => f e = i) = sumAt key k es := by
  induction es with
  | nil => simp [sumAt_nil]
  | cons e es ih =>
      have hsplit (i : ℕ) : sumAt key k ((e :: es).filter fun e => f e = i) =
          (if f e = i then if key e.1 = k then e.2 else 0 else 0) +
            sumAt key k (es.filter fun e => f e = i) := by
        by_cases hi : f e = i
        · rw [List.filter_cons_of_pos (by simpa using hi), sumAt_cons, if_pos hi]
        · rw [List.filter_cons_of_neg (by simpa using hi), if_neg hi, Nat.zero_add]
      simp only [hsplit]
      rw [Finset.sum_add_distrib, ih fun e he => hf e (List.mem_cons_of_mem _ he),
        Finset.sum_ite_eq, if_pos (Finset.mem_range.mpr (hf e List.mem_cons_self)), sumAt_cons]

/-- Parts that are not listed are empty. -/
theorem sum_listed {parts : ℕ → List (α × ℕ)} {listed : List ℕ} {N : ℕ}
    (hnodup : listed.Nodup) (hempty : ∀ i ∉ listed, parts i = [])
    (hN : ∀ i, N ≤ i → parts i = []) :
    (listed.map fun i => sumAt key k (parts i)).sum =
      ∑ i ∈ Finset.range N, sumAt key k (parts i) := by
  rw [← List.sum_toFinset _ hnodup]
  have hzero (i : ℕ) (hi : parts i = []) : sumAt key k (parts i) = 0 := by
    rw [hi]
    rfl
  have hlisted : ∑ i ∈ listed.toFinset, sumAt key k (parts i) =
      ∑ i ∈ listed.toFinset ∪ Finset.range N, sumAt key k (parts i) := by
    apply Finset.sum_subset Finset.subset_union_left
    intro i _ hi
    exact hzero i (hempty i (by simpa using hi))
  have hrange : ∑ i ∈ Finset.range N, sumAt key k (parts i) =
      ∑ i ∈ listed.toFinset ∪ Finset.range N, sumAt key k (parts i) := by
    apply Finset.sum_subset Finset.subset_union_right
    intro i _ hi
    exact hzero i (hN i (by simpa using hi))
  rw [hlisted, hrange]

end KeyedDict
