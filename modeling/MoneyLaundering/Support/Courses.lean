import Mathlib.Order.Filter.AtTopBot.Basic
import MoneyLaundering.Support.Crash

/-!
# Courses of a system

A course is a run without an end, crashes included: in each turn the system takes a step or
nothing happens.  What a component is promised, such as that a message comes to it at last,
is a property of a course.
-/

namespace Crash

namespace System

variable {ε σ ι κ : Type}

/-- A run without an end. -/
structure Course (S : System ε σ ι κ) (init : σ) where
  state : ℕ → σ
  start : state 0 = init
  step : ∀ n, S.Step (state n) (state (n + 1)) ∨ state (n + 1) = state n

namespace Course

variable {S : System ε σ ι κ} {init : σ} (course : S.Course init)

/-- In this turn the handler of an event runs to its end. -/
def Serves (n : ℕ) (i : ι) : Prop :=
  S.enabled i (course.state n) ∧
    course.state (n + 1) = (S.handler i (course.state n)).final

/-- Every state of a course is reached. -/
theorem reach (n : ℕ) : S.Reach init (course.state n) := by
  induction n with
  | zero =>
      rw [course.start]
      exact Reach.refl
  | succ n ih =>
      rcases course.step n with hstep | heq
      · exact ih.next hstep
      · exact heq ▸ ih

/-- What every step keeps holds for ever. -/
theorem keeps {P : σ → Prop} (hstep : ∀ s t, S.Step s t → P s → P t) {n k : ℕ}
    (hnk : n ≤ k) (h : P (course.state n)) : P (course.state k) := by
  induction k, hnk using Nat.le_induction with
  | base => exact h
  | succ k _ ih =>
      rcases course.step k with hk | heq
      · exact hstep _ _ hk ih
      · exact heq ▸ ih

/-- What does not hold at first comes about in some turn. -/
theorem exists_turn {P : σ → Prop} (hinit : ¬P init) {n : ℕ} (h : P (course.state n)) :
    ∃ k < n, ¬P (course.state k) ∧ P (course.state (k + 1)) := by
  induction n with
  | zero => exact absurd (course.start ▸ h) hinit
  | succ n ih =>
      by_cases hn : P (course.state n)
      · obtain ⟨k, hk, hturn⟩ := ih hn
        exact ⟨k, Nat.lt_succ_of_lt hk, hturn⟩
      · exact ⟨n, Nat.lt_succ_self n, hn, h⟩

/-- The state in which a course stays. -/
theorem eventually {P : σ → Prop} {n : ℕ} (h : ∀ k, n ≤ k → P (course.state k)) :
    ∀ᶠ k in Filter.atTop, P (course.state k) :=
  Filter.eventually_atTop.mpr ⟨n, h⟩

end Course

/-! ## Scripted courses -/

section Scripts

variable (S : System ε σ ι κ) [∀ i, DecidablePred (S.enabled i)]
  [∀ i k, DecidablePred (S.crashable i k)]

/-- The state after `n` turns of a script, which stops at a move that is not allowed. -/
def stateAfter : List (Move ι κ) → σ → ℕ → σ
  | mv :: moves, s, n + 1 =>
    match S.play s mv with
    | none => s
    | some t => stateAfter moves t n
  | _, s, _ => s

variable {S}

theorem stateAfter_zero (moves : List (Move ι κ)) (s : σ) :
    S.stateAfter moves s 0 = s := by
  cases moves <;> rfl

theorem stateAfter_cons_of_some {mv : Move ι κ} {moves : List (Move ι κ)} {s t : σ}
    (h : S.play s mv = some t) (n : ℕ) :
    S.stateAfter (mv :: moves) s (n + 1) = S.stateAfter moves t n := by
  simp only [stateAfter, h]

theorem stateAfter_cons_of_none {mv : Move ι κ} {moves : List (Move ι κ)} {s : σ}
    (h : S.play s mv = none) (n : ℕ) : S.stateAfter (mv :: moves) s (n + 1) = s := by
  simp only [stateAfter, h]

theorem step_stateAfter (moves : List (Move ι κ)) (s : σ) (n : ℕ) :
    S.Step (S.stateAfter moves s n) (S.stateAfter moves s (n + 1)) ∨
      S.stateAfter moves s (n + 1) = S.stateAfter moves s n := by
  induction moves generalizing s n with
  | nil => exact Or.inr rfl
  | cons mv moves ih =>
      cases hplay : S.play s mv with
      | none =>
          rw [stateAfter_cons_of_none hplay]
          cases n with
          | zero => exact Or.inr (stateAfter_zero _ s).symm
          | succ n => exact Or.inr (stateAfter_cons_of_none hplay n).symm
      | some t =>
          rw [stateAfter_cons_of_some hplay]
          cases n with
          | zero =>
              rw [stateAfter_zero, stateAfter_zero]
              exact Or.inl (step_of_play hplay)
          | succ n =>
              rw [stateAfter_cons_of_some hplay]
              exact ih t n

/-- The script, after which nothing happens. -/
def Course.ofMoves (S : System ε σ ι κ) [∀ i, DecidablePred (S.enabled i)]
    [∀ i k, DecidablePred (S.crashable i k)] (moves : List (Move ι κ)) (init : σ) :
    S.Course init :=
  ⟨S.stateAfter moves init, stateAfter_zero moves init, step_stateAfter moves init⟩

/-- Each turn of a script that can be played plays its move. -/
theorem play_stateAfter {moves : List (Move ι κ)} {s t : σ} {n : ℕ} {mv : Move ι κ}
    (h : S.playAll moves s = some t) (hmv : moves[n]? = some mv) :
    S.play (S.stateAfter moves s n) mv = some (S.stateAfter moves s (n + 1)) := by
  induction moves generalizing s n with
  | nil => simp at hmv
  | cons mv' moves ih =>
      rw [playAll, Option.bind_eq_some_iff] at h
      obtain ⟨u, hu, ht⟩ := h
      cases n with
      | zero =>
          obtain rfl : mv' = mv := by simpa using hmv
          rw [stateAfter_zero, stateAfter_cons_of_some hu, stateAfter_zero, hu]
      | succ n =>
          rw [stateAfter_cons_of_some hu, stateAfter_cons_of_some hu]
          exact ih ht (by simpa using hmv)

theorem stateAfter_of_le {moves : List (Move ι κ)} {s t : σ} {n : ℕ}
    (h : S.playAll moves s = some t) (hn : moves.length ≤ n) :
    S.stateAfter moves s n = t := by
  induction moves generalizing s n with
  | nil => exact Option.some.inj h
  | cons mv moves ih =>
      rw [playAll, Option.bind_eq_some_iff] at h
      obtain ⟨u, hu, ht⟩ := h
      obtain ⟨k, rfl⟩ := Nat.exists_eq_succ_of_ne_zero
        (Nat.ne_of_gt (lt_of_lt_of_le (Nat.succ_pos _) hn))
      rw [stateAfter_cons_of_some hu]
      exact ih ht (Nat.le_of_succ_le_succ hn)

/-- A turn that finishes an event serves it. -/
theorem serves_ofMoves {moves : List (Move ι κ)} {s t : σ} {n : ℕ} {i : ι}
    (h : S.playAll moves s = some t) (hmv : moves[n]? = some (.finish i)) :
    (Course.ofMoves S moves s).Serves n i := by
  have hplay := play_stateAfter h hmv
  simp only [play] at hplay
  split at hplay
  · next hen => exact ⟨hen, (Option.some.inj hplay).symm⟩
  · cases hplay

end Scripts

end System

end Crash
