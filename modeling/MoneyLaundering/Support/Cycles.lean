import Mathlib.GroupTheory.Perm.Cycle.Basic

/-!
# Cycles through a list

A list without duplicates, closed into a cycle, sends each element to the next one and the
last to the first.  The neighbors of an element are found in what comes after it followed by
what comes before it, and whoever follows the cycle from any element comes past every other
one once before coming back.
-/

namespace Cycles

variable {α : Type} {x : α}

/-! ## Visits -/

/-- The elements that are visited from `x` on, in `n` steps. -/
def visits (next : α → α) : ℕ → α → List α
  | 0, _ => []
  | n + 1, x => next x :: visits next n (next x)

variable {σ : Equiv.Perm α} {s : Finset α}

theorem visits_eq_map (σ : Equiv.Perm α) (n : ℕ) (x : α) :
    visits σ n x = (List.range n).map fun k => (σ ^ (k + 1)) x := by
  induction n generalizing x with
  | zero => rfl
  | succ n ih =>
      rw [visits, ih, List.range_succ_eq_map, List.map_cons, List.map_map]
      simp [Function.comp_def, pow_succ]

theorem mem_visits (hσ : σ.IsCycleOn s) (hx : x ∈ s) {n : ℕ} {y : α}
    (h : y ∈ visits σ n x) : y ∈ s := by
  rw [visits_eq_map] at h
  obtain ⟨k, -, rfl⟩ := List.mem_map.mp h
  exact (hσ.1.perm_pow (k + 1)).mapsTo hx

theorem nodup_visits (hσ : σ.IsCycleOn s) (hx : x ∈ s) : (visits σ s.card x).Nodup := by
  rw [visits_eq_map, List.nodup_map_iff_inj_on List.nodup_range]
  intro i hi j hj heq
  rw [hσ.pow_apply_eq_pow_apply hx] at heq
  have hmod : i ≡ j [MOD s.card] := Nat.ModEq.add_right_cancel' 1 heq
  exact hmod.eq_of_lt_of_lt (List.mem_range.mp hi) (List.mem_range.mp hj)

/-- From any element of a cycle every element is visited once, the first one last. -/
theorem visits_of_isCycleOn [DecidableEq α] (hσ : σ.IsCycleOn s) (hx : x ∈ s) :
    (visits σ s.card x).Nodup ∧ (∀ y, y ∈ visits σ s.card x ↔ y ∈ s) ∧
      (visits σ s.card x).getLast? = some x := by
  have hnodup := nodup_visits hσ hx
  refine ⟨hnodup, ?_, ?_⟩
  · have hsub : (visits σ s.card x).toFinset ⊆ s := by
      intro y hy
      exact mem_visits hσ hx (List.mem_toFinset.mp hy)
    have hcard : s.card ≤ (visits σ s.card x).toFinset.card := by
      rw [List.toFinset_card_of_nodup hnodup, visits_eq_map, List.length_map,
        List.length_range]
    intro y
    rw [← List.mem_toFinset, Finset.eq_of_subset_of_card_le hsub hcard]
  · have hpos : s.card ≠ 0 := Finset.card_ne_zero_of_mem hx
    obtain ⟨n, hn⟩ := Nat.exists_eq_succ_of_ne_zero hpos
    have hback := hσ.pow_card_apply hx
    rw [hn] at hback
    rw [visits_eq_map, hn, List.range_succ, List.map_append, List.map_singleton,
      List.getLast?_concat, hback]

/-! ## Neighbors -/

variable [DecidableEq α] {before after : List α}

/-- The cycle may begin at any element. -/
theorem formPerm_rotated (h : (before ++ x :: after).Nodup) :
    (before ++ x :: after).formPerm = (x :: (after ++ before)).formPerm := by
  apply List.formPerm_eq_of_isRotated h
  exact ⟨before.length, by simp [List.rotate_append_length_eq]⟩

theorem formPerm_next (h : (before ++ x :: after).Nodup) :
    (before ++ x :: after).formPerm x = (after ++ before).headD x := by
  have hrotated : (x :: (after ++ before)).Nodup := by
    have hperm : (before ++ x :: after).Perm (x :: (after ++ before)) :=
      List.perm_middle.trans (List.perm_append_comm.cons x)
    exact hperm.nodup_iff.mp h
  rw [formPerm_rotated h]
  cases hrest : after ++ before with
  | nil => simp
  | cons y ys =>
      rw [hrest] at hrotated
      exact List.formPerm_apply_head x y ys hrotated

theorem formPerm_inv (h : (before ++ x :: after).Nodup) :
    (before ++ x :: after).formPerm⁻¹ x = (after ++ before).getLastD x := by
  rw [formPerm_rotated h, Equiv.Perm.inv_eq_iff_eq]
  apply Eq.symm
  rw [List.formPerm_eq_head_iff_eq_getLast, List.getLast_eq_getLastD]

end Cycles
