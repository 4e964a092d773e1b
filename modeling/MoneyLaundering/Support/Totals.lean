import Mathlib.Algebra.BigOperators.Group.List.Basic
import MoneyLaundering.Support.Dict

/-!
# Totals of entries

Entries with amounts have a total for every key.  Dictionaries that add what comes under one
key keep these totals, and so do dictionaries of parts that are added again.
-/

/-- The total of a key. -/
def totalAt {κ M : Type} [DecidableEq κ] [AddCommMonoid M] (k : κ) (es : List (κ × M)) : M :=
  ((es.filter fun e => e.1 = k).map Prod.snd).sum

/-- Add to the amount of a key. -/
def Dict.add {κ M : Type} [DecidableEq κ] [AddCommMonoid M] (d : Dict κ M) (e : κ × M) :
    Dict κ M :=
  d.set e.1 (d.getD e.1 0 + e.2)

/-- Entries with the same keys and the same totals. -/
structure SameTotals {κ M : Type} [DecidableEq κ] [AddCommMonoid M] (ts es : List (κ × M)) :
    Prop where
  keys : ∀ k, k ∈ ts.map Prod.fst ↔ k ∈ es.map Prod.fst
  totals : ∀ k, totalAt k ts = totalAt k es

variable {κ M α : Type} [DecidableEq κ] [AddCommMonoid M] {k : κ} {ts ts' es es' fs : List (κ × M)}

theorem totalAt_cons (e : κ × M) :
    totalAt k (e :: es) = (if e.1 = k then e.2 else 0) + totalAt k es := by
  by_cases h : e.1 = k <;> simp [totalAt, h]

theorem totalAt_append : totalAt k (es ++ es') = totalAt k es + totalAt k es' := by
  simp [totalAt]

theorem totalAt_perm (h : es.Perm es') : totalAt k es = totalAt k es' :=
  ((h.filter _).map _).sum_eq

/-- Keys of other kinds do not count. -/
theorem totalAt_filter (p : κ → Bool) :
    totalAt k (es.filter fun e => p e.1) = if p k = true then totalAt k es else 0 := by
  induction es with
  | nil => simp [totalAt]
  | cons e es ih =>
      by_cases hk : e.1 = k
      · by_cases hp : p k = true
        · rw [List.filter_cons_of_pos (by simpa [hk] using hp), totalAt_cons, ih, if_pos hp,
            if_pos hp, totalAt_cons]
        · rw [List.filter_cons_of_neg (by simpa [hk] using hp), ih]
          simp [hp]
      · have hcons : totalAt k (e :: es) = totalAt k es := by
          rw [totalAt_cons, if_neg hk, zero_add]
        rw [hcons, ← ih, List.filter_cons]
        split
        · rw [totalAt_cons, if_neg hk, zero_add]
        · rfl

/-- Where no key comes twice the total of a key is what is found there. -/
theorem totalAt_of_nodup (hnodup : (es.map Prod.fst).Nodup) :
    totalAt k es = (es.lookup k).getD 0 := by
  induction es with
  | nil => rfl
  | cons e es ih =>
      rw [List.map_cons, List.nodup_cons] at hnodup
      rw [totalAt_cons, ih hnodup.2, Dict.lookup_cons_eq]
      by_cases h : e.1 = k
      · rw [if_pos h, if_pos h.symm, Dict.lookup_eq_none_of_notMem (h ▸ hnodup.1)]
        exact add_zero e.2
      · rw [if_neg h, if_neg (Ne.symm h), zero_add]

/-- A dictionary has the totals of its entries. -/
theorem totalAt_entries (d : Dict κ M) : totalAt k d.entries = d.getD k 0 :=
  totalAt_of_nodup d.nodup

/-- A key with a total is listed. -/
theorem exists_of_totalAt_ne (h : totalAt k es ≠ 0) : ∃ e ∈ es, e.1 = k := by
  by_contra hnone
  have hnil : es.filter (fun e => e.1 = k) = [] := by
    rw [List.filter_eq_nil_iff]
    intro e he heq
    exact hnone ⟨e, he, by simpa using heq⟩
  rw [totalAt, hnil] at h
  exact h rfl

namespace SameTotals

theorem refl (ts : List (κ × M)) : SameTotals ts ts := ⟨fun _ => Iff.rfl, fun _ => rfl⟩

theorem trans (h : SameTotals ts es) (h' : SameTotals es fs) : SameTotals ts fs :=
  ⟨fun k => (h.keys k).trans (h'.keys k), fun k => (h.totals k).trans (h'.totals k)⟩

/-- The order of entries does not matter. -/
theorem of_perm (h : ts.Perm es) : SameTotals ts es :=
  ⟨fun _ => (h.map _).mem_iff, fun _ => totalAt_perm h⟩

theorem append (h : SameTotals ts es) (h' : SameTotals ts' es') :
    SameTotals (ts ++ ts') (es ++ es') := by
  constructor
  · intro k
    rw [List.map_append, List.map_append, List.mem_append, List.mem_append, h.keys, h'.keys]
  · intro k
    rw [totalAt_append, totalAt_append, h.totals, h'.totals]

/-- Parts are added one by one. -/
theorem flatMap {xs : List α} {f g : α → List (κ × M)}
    (h : ∀ x ∈ xs, SameTotals (f x) (g x)) : SameTotals (xs.flatMap f) (xs.flatMap g) := by
  induction xs with
  | nil => exact refl []
  | cons x xs ih =>
      rw [List.flatMap_cons, List.flatMap_cons]
      apply (h x List.mem_cons_self).append
      exact ih fun y hy => h y (List.mem_cons_of_mem x hy)

/-- So are the keys of a kind. -/
theorem filter (h : SameTotals ts es) (p : κ → Bool) :
    SameTotals (ts.filter fun e => p e.1) (es.filter fun e => p e.1) := by
  have hkeys (fs : List (κ × M)) (k : κ) : k ∈ (fs.filter fun e => p e.1).map Prod.fst ↔
      k ∈ fs.map Prod.fst ∧ p k = true := by
    have hmap : (fs.filter fun e => p e.1).map Prod.fst = (fs.map Prod.fst).filter p := by
      rw [List.filter_map]
      rfl
    rw [hmap, List.mem_filter]
  constructor
  · intro k
    rw [hkeys, hkeys, h.keys]
  · intro k
    rw [totalAt_filter, totalAt_filter, h.totals]

/-! ## Dictionaries -/

/-- One more entry. -/
theorem add {d : Dict κ M} (h : SameTotals ts d.entries) (e : κ × M) :
    SameTotals (ts ++ [e]) (d.add e).entries := by
  constructor
  · intro k
    rw [List.map_append, List.mem_append, h.keys]
    change _ ↔ k ∈ (d.set e.1 _).keys
    rw [Dict.mem_keys_set, List.map_singleton, List.mem_singleton]
    exact or_comm
  · intro k
    rw [totalAt_append, h.totals, totalAt_entries, totalAt_entries, totalAt_cons, Dict.add,
      Dict.getD_set]
    by_cases hk : k = e.1
    · simp [hk, totalAt]
    · simp [hk, Ne.symm hk, totalAt]

/-- All entries of some parts. -/
theorem foldl_flatMap (f : α → List (κ × M)) (xs : List α) :
    SameTotals (xs.flatMap f)
      (xs.foldl (fun d x => (f x).foldl Dict.add d) Dict.empty).entries := by
  rw [← List.foldl_flatMap]
  induction xs.flatMap f using List.reverseRecOn with
  | nil => exact refl []
  | append_singleton es e ih =>
      rw [List.foldl_append]
      exact ih.add e

/-- What a dictionary has of a key. -/
theorem get? {d : Dict κ M} (h : SameTotals ts d.entries) (k : κ) :
    d.get? k = if k ∈ ts.map Prod.fst then some (totalAt k ts) else none := by
  by_cases hk : k ∈ ts.map Prod.fst
  · obtain ⟨v, hv⟩ := Dict.mem_keys_iff.mp ((h.keys k).mp hk)
    rw [if_pos hk, h.totals, totalAt_entries, Dict.getD, hv]
    rfl
  · rw [if_neg hk, Dict.get?_eq_none_iff]
    exact fun hmem => hk ((h.keys k).mpr hmem)

end SameTotals
