import Mathlib.Data.List.Nodup
import Mathlib.Data.List.Perm.Subperm

/-!
# Insertion-ordered sets

A set of elements that count as equal when their keys are, kept as a list in the order of
insertion.  Of equal elements the first one stays.
-/

/-- A set whose elements keep their insertion order. -/
structure OrderedSet {κ α : Type} (key : α → κ) where
  elems : List α
  nodup : (elems.map key).Nodup

namespace OrderedSet

variable {κ α : Type} {key : α → κ}

/-- The empty set. -/
def empty : OrderedSet key := ⟨[], List.nodup_nil⟩

/-- Whether an element is in the set. -/
def Mem (x : α) (s : OrderedSet key) : Prop := key x ∈ s.elems.map key

@[ext] theorem ext {s t : OrderedSet key} (h : s.elems = t.elems) : s = t := by
  cases s
  cases t
  simpa using h

instance [DecidableEq α] : DecidableEq (OrderedSet key) := fun s t =>
  decidable_of_iff (s.elems = t.elems) ⟨ext, fun h => congrArg elems h⟩

/-- The order in which a set is gone through. -/
structure Order (key : α → κ) where
  elems : OrderedSet key → List α
  perm : ∀ s, (elems s).Perm s.elems

/-- The order in which the elements were added. -/
def Order.inserted (key : α → κ) : Order key := ⟨OrderedSet.elems, fun _ => .refl _⟩

variable [DecidableEq κ]

instance (x : α) (s : OrderedSet key) : Decidable (Mem x s) :=
  inferInstanceAs (Decidable (key x ∈ s.elems.map key))

/-- Add an element. -/
def add (x : α) (s : OrderedSet key) : OrderedSet key :=
  if h : Mem x s then s
  else
    ⟨s.elems ++ [x], by
      rw [List.map_append, List.nodup_append]
      refine ⟨s.nodup, by simp, ?_⟩
      intro a ha b hb hab
      rw [List.map_singleton, List.mem_singleton] at hb
      rw [hab, hb] at ha
      exact h ha⟩

/-- Add the elements of a list. -/
def update (s : OrderedSet key) (xs : List α) : OrderedSet key :=
  xs.foldl (fun s x => s.add x) s

/-- The set of the elements of a list. -/
def ofList (key : α → κ) (xs : List α) : OrderedSet key := update empty xs

/-- The elements of a set that are in another. -/
def inter (s t : OrderedSet key) : OrderedSet key :=
  ⟨s.elems.filter fun x => Mem x t,
    s.nodup.sublist (List.filter_sublist.map key)⟩

/-- The number of elements. -/
def size (s : OrderedSet key) : ℕ := s.elems.length

theorem mem_keys_add {k : κ} {y : α} {s : OrderedSet key} :
    k ∈ (s.add y).elems.map key ↔ k = key y ∨ k ∈ s.elems.map key := by
  unfold add
  split
  · rename_i hy
    constructor
    · exact Or.inr
    · intro h
      rcases h with heq | hk
      · rw [heq]
        exact hy
      · exact hk
  · simp [or_comm]

theorem mem_keys_update {k : κ} {s : OrderedSet key} {xs : List α} :
    k ∈ (s.update xs).elems.map key ↔ k ∈ s.elems.map key ∨ k ∈ xs.map key := by
  induction xs generalizing s with
  | nil => simp [update]
  | cons y ys ih =>
      have hcons : s.update (y :: ys) = (s.add y).update ys := rfl
      rw [hcons, ih, mem_keys_add, List.map_cons, List.mem_cons]
      tauto

theorem mem_keys_ofList {k : κ} {xs : List α} :
    k ∈ (ofList key xs).elems.map key ↔ k ∈ xs.map key := by
  rw [ofList, mem_keys_update]
  simp [empty]

theorem mem_add {x y : α} {s : OrderedSet key} :
    Mem x (s.add y) ↔ key x = key y ∨ Mem x s := mem_keys_add

theorem mem_ofList {x : α} {xs : List α} :
    Mem x (ofList key xs) ↔ key x ∈ xs.map key := mem_keys_ofList

/-- The elements of an updated set were there or were added. -/
theorem mem_elems_update {x : α} {s : OrderedSet key} {xs : List α}
    (h : x ∈ (s.update xs).elems) : x ∈ s.elems ∨ x ∈ xs := by
  induction xs generalizing s with
  | nil => exact Or.inl h
  | cons y ys ih =>
      have hcons : s.update (y :: ys) = (s.add y).update ys := rfl
      rw [hcons] at h
      rcases ih h with hmem | hmem
      · unfold add at hmem
        split at hmem
        · exact Or.inl hmem
        · rcases List.mem_append.mp hmem with hs | hy
          · exact Or.inl hs
          · rw [List.mem_singleton.mp hy]
            exact Or.inr List.mem_cons_self
      · exact Or.inr (List.mem_cons_of_mem _ hmem)

/-- A list without equal elements is the set of its elements. -/
theorem ofList_elems (s : OrderedSet key) : ofList key s.elems = s := by
  have hupdate : ∀ (xs : List α) (t : OrderedSet key),
      ((t.elems ++ xs).map key).Nodup → (t.update xs).elems = t.elems ++ xs := by
    intro xs
    induction xs with
    | nil => simp [update]
    | cons x xs ih =>
        intro t hnodup
        have hx : ¬Mem x t := by
          intro hmem
          rw [List.map_append, List.map_cons, List.nodup_append] at hnodup
          exact hnodup.2.2 _ hmem _ List.mem_cons_self rfl
        have hadd : (t.add x).elems = t.elems ++ [x] := by
          rw [add, dif_neg hx]
        have hcons : t.update (x :: xs) = (t.add x).update xs := rfl
        rw [hcons, ih, hadd]
        · simp
        · rw [hadd]
          simpa using hnodup
  apply ext
  have hs := hupdate s.elems empty (by simpa [empty] using s.nodup)
  simpa [empty, ofList] using hs

/-! ## Sets of bounded size -/

/-- Add the elements of a list until there are `n`. -/
def addUpTo (n : ℕ) (s : OrderedSet key) (xs : List α) : OrderedSet key :=
  xs.foldl (fun s x => if n ≤ s.size then s else s.add x) s

variable {n : ℕ} {s : OrderedSet key} {xs : List α} {x y : α}

theorem addUpTo_cons : addUpTo n s (y :: xs) =
    addUpTo n (if n ≤ s.size then s else s.add y) xs := rfl

theorem addUpTo_of_le (h : n ≤ s.size) : addUpTo n s xs = s := by
  induction xs with
  | nil => rfl
  | cons y ys ih => rw [addUpTo_cons, if_pos h, ih]

theorem mem_elems_add (h : x ∈ s.elems) : x ∈ (s.add y).elems := by
  unfold add
  split
  · exact h
  · exact List.mem_append_left _ h

theorem mem_elems_addUpTo (h : x ∈ s.elems) : x ∈ (addUpTo n s xs).elems := by
  induction xs generalizing s with
  | nil => exact h
  | cons y ys ih =>
      rw [addUpTo_cons]
      apply ih
      split
      · exact h
      · exact mem_elems_add h

theorem of_mem_addUpTo (h : x ∈ (addUpTo n s xs).elems) : x ∈ s.elems ∨ x ∈ xs := by
  induction xs generalizing s with
  | nil => exact Or.inl h
  | cons y ys ih =>
      rw [addUpTo_cons] at h
      rcases ih h with hmem | hmem
      · split at hmem
        · exact Or.inl hmem
        · unfold add at hmem
          split at hmem
          · exact Or.inl hmem
          · rcases List.mem_append.mp hmem with hs | hy
            · exact Or.inl hs
            · rw [List.mem_singleton.mp hy]
              exact Or.inr List.mem_cons_self
      · exact Or.inr (List.mem_cons_of_mem _ hmem)

/-- Either the bound is reached or nothing is left out. -/
theorem full_or_mem_addUpTo :
    n ≤ (addUpTo n s xs).size ∨ ∀ x ∈ xs, Mem x (addUpTo n s xs) := by
  induction xs generalizing s with
  | nil => simp
  | cons y ys ih =>
      rw [addUpTo_cons]
      by_cases hfull : n ≤ s.size
      · rw [if_pos hfull, addUpTo_of_le hfull]
        exact Or.inl hfull
      · rw [if_neg hfull]
        apply ih.imp id
        intro hall x hx
        rcases List.mem_cons.mp hx with rfl | hx
        · obtain ⟨z, hz, hkey⟩ := List.mem_map.mp (mem_add.mpr (Or.inl rfl) : Mem x (s.add x))
          exact List.mem_map.mpr ⟨z, mem_elems_addUpTo hz, hkey⟩
        · exact hall x hx

end OrderedSet
