import Mathlib.Data.List.Basic
import Mathlib.Tactic.Ring

/-!
# Numerals of a fixed width

The lowest digits of a number in some base, the most significant one first.
-/

namespace Digits

/-- The `k` lowest digits of `n` in base `b`. -/
def digits (b : ℕ) : ℕ → ℕ → List ℕ
  | 0, _ => []
  | k + 1, n => digits b k (n / b) ++ [n % b]

/-- The number that digits stand for. -/
def value (b : ℕ) (ds : List ℕ) : ℕ := ds.foldl (fun n d => b * n + d) 0

variable {b : ℕ}

@[simp] theorem length_digits (b k n : ℕ) : (digits b k n).length = k := by
  induction k generalizing n with
  | zero => rfl
  | succ k ih => simp [digits, ih]

theorem lt_of_mem_digits (hb : 0 < b) {k n d : ℕ} (h : d ∈ digits b k n) : d < b := by
  induction k generalizing n with
  | zero => simp [digits] at h
  | succ k ih =>
      rw [digits, List.mem_append, List.mem_singleton] at h
      rcases h with h | rfl
      · exact ih h
      · exact Nat.mod_lt n hb

/-- A number that is small enough is the value of its digits. -/
theorem value_digits {k n : ℕ} (h : n < b ^ k) : value b (digits b k n) = n := by
  induction k generalizing n with
  | zero =>
      obtain rfl : n = 0 := by simpa using h
      rfl
  | succ k ih =>
      have hdiv : n / b < b ^ k := by
        apply Nat.div_lt_of_lt_mul
        rwa [pow_succ, Nat.mul_comm] at h
      have hvalue : value b (digits b (k + 1) n) =
          b * value b (digits b k (n / b)) + n % b := by
        simp [value, digits, List.foldl_append]
      rw [hvalue, ih hdiv]
      exact Nat.div_add_mod n b

end Digits
