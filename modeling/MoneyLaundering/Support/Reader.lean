import Mathlib.Algebra.Order.Group.Nat
import Mathlib.Order.SuccPred.Basic

/-!
# Reading a queue with redeliveries

A process reads a queue in order, and each message changes its memory in a fixed
way; a message that was read once changes nothing when it is read again.  The
process saves its memory now and then.  A crash takes it back to what it saved,
and then every message that is not acknowledged comes again, in order.

The module compares such a process with one that reads the queue once: between
two messages its memory is the memory of that one after some prefix of the
queue, and so is what it saved.
-/

/-- A memory, and what a message changes in it. -/
structure Reader (σ μ : Type) where
  start : σ
  next : μ → σ → σ
  /-- A message that was read changes nothing when it is read again. -/
  again : ∀ msg s, next msg (next msg s) = next msg s
  /-- Neither does it after other messages. -/
  stays : ∀ msg msg' s, next msg s = s → next msg (next msg' s) = next msg' s

namespace Reader

variable {σ μ : Type} (r : Reader σ μ) (arrivals : ℕ → Option μ)

/-- The memory after the first positions of the queue. -/
def after : ℕ → σ
  | 0 => r.start
  | n + 1 =>
    match arrivals n with
    | none => after n
    | some msg => r.next msg (after n)

/-- Reading the position changes nothing. -/
def Idle (n : ℕ) : Prop := r.after arrivals (n + 1) = r.after arrivals n

variable {r arrivals} {n k j : ℕ} {msg : μ}

theorem after_succ (h : arrivals n = some msg) :
    r.after arrivals (n + 1) = r.next msg (r.after arrivals n) := by
  simp only [after, h]

theorem idle_of_none (h : arrivals n = none) : r.Idle arrivals n := by
  simp only [Idle, after, h]

theorem idle_iff (h : arrivals n = some msg) :
    r.Idle arrivals n ↔ r.next msg (r.after arrivals n) = r.after arrivals n := by
  rw [Idle, after_succ h]

/-- Positions that change nothing can be left out. -/
theorem after_eq_of_idle (hle : n ≤ k)
    (hidle : ∀ i, n ≤ i → i < k → r.Idle arrivals i) :
    r.after arrivals k = r.after arrivals n := by
  induction k, hle using Nat.le_induction with
  | base => rfl
  | succ k hle ih =>
      have hlast : r.after arrivals (k + 1) = r.after arrivals k :=
        hidle k hle (Nat.lt_succ_self k)
      rw [hlast]
      exact ih fun i hi hik => hidle i hi (hik.trans (Nat.lt_succ_self k))

/-- What holds of the memory and survives every message holds further on. -/
theorem after_induction {P : σ → Prop} (hle : n ≤ k) (h : P (r.after arrivals n))
    (hnext : ∀ i msg, n ≤ i → arrivals i = some msg → P (r.after arrivals i) →
      P (r.next msg (r.after arrivals i))) :
    P (r.after arrivals k) := by
  induction k, hle using Nat.le_induction with
  | base => exact h
  | succ k hle ih =>
      by_cases hnone : arrivals k = none
      · have hidle : r.after arrivals (k + 1) = r.after arrivals k :=
          idle_of_none hnone
        rw [hidle]
        exact ih
      · obtain ⟨msg, hmsg⟩ := Option.ne_none_iff_exists'.mp hnone
        rw [after_succ hmsg]
        exact hnext k msg hle hmsg ih

/-- A message that was read is absorbed from then on. -/
theorem absorbed_of_lt (h : arrivals j = some msg) (hlt : j < n) :
    r.next msg (r.after arrivals n) = r.after arrivals n := by
  refine after_induction (P := fun s => r.next msg s = s) hlt ?_ ?_
  · rw [after_succ h]
    exact r.again msg _
  · exact fun i msg' _ _ hi => r.stays msg msg' _ hi

/-! ## Where a process stands -/

/-- The acknowledged positions past the saved one change nothing. -/
def Covered (r : Reader σ μ) (arrivals : ℕ → Option μ) (acked : ℕ → Prop)
    (saved : ℕ) : Prop :=
  ∀ i, saved ≤ i → acked i → r.Idle arrivals i

/-- The process saved the memory after `saved` positions and has now the one
after `pos`. -/
structure Cursor (r : Reader σ μ) (arrivals : ℕ → Option μ)
    (acked taken : ℕ → Prop) (saved pos : ℕ) : Prop where
  covered : r.Covered arrivals acked saved
  le : saved ≤ pos
  ahead : ∀ i, pos ≤ i → taken i → r.Idle arrivals i
  between : ∀ i, saved ≤ i → i < pos → (arrivals i).isSome → acked i ∨ taken i

/-- The positions before this one were handed over or are acknowledged. -/
def Ordered (arrivals : ℕ → Option μ) (acked taken : ℕ → Prop) (j : ℕ) : Prop :=
  ∀ i < j, (arrivals i).isSome → acked i ∨ taken i

variable {acked A taken T : ℕ → Prop} {saved pos : ℕ}

/-- A restarted process goes on from what it saved. -/
theorem Covered.restarted (h : r.Covered arrivals acked saved)
    (htaken : ∀ i, ¬taken i) : Cursor r arrivals acked taken saved saved where
  covered := h
  le := le_rfl
  ahead i _ ht := absurd ht (htaken i)
  between _ hle hlt := absurd hle (not_le.mpr hlt)

namespace Cursor

/-- The memory is saved. -/
theorem checkpointed (h : Cursor r arrivals acked taken saved pos) :
    Cursor r arrivals acked taken pos pos where
  covered i hi ha := h.covered i (h.le.trans hi) ha
  le := le_rfl
  ahead := h.ahead
  between _ hle hlt := absurd hle (not_le.mpr hlt)

/-- More acknowledgements go out for positions that are saved. -/
theorem acknowledge (h : Cursor r arrivals acked taken saved pos)
    (hmore : ∀ i, acked i → A i)
    (hnew : ∀ i, A i → acked i ∨ i < saved ∨ r.Idle arrivals i) :
    Cursor r arrivals A taken saved pos where
  covered i hi ha := by
    rcases hnew i ha with hold | hlt | hidle
    · exact h.covered i hi hold
    · exact absurd hi (not_le.mpr hlt)
    · exact hidle
  le := h.le
  ahead := h.ahead
  between i hle hlt hsome := (h.between i hle hlt hsome).imp_left (hmore i)

/-- A message that comes in order is absorbed, or is the next one to read. -/
theorem arrives (h : Cursor r arrivals acked taken saved pos)
    (hack : ¬acked j) (htaken : ¬taken j) (horder : Ordered arrivals acked taken j)
    (hmsg : arrivals j = some msg) :
    j < saved ∨ pos ≤ j ∧ r.after arrivals j = r.after arrivals pos := by
  by_cases hsaved : j < saved
  · exact Or.inl hsaved
  have hpos : pos ≤ j := by
    by_contra hlt
    have hread := h.between j (not_lt.mp hsaved) (not_le.mp hlt)
      (Option.isSome_of_eq_some hmsg)
    exact hread.elim hack htaken
  refine Or.inr ⟨hpos, after_eq_of_idle hpos fun i hi hij => ?_⟩
  by_cases hsome : (arrivals i).isSome
  · rcases horder i hij hsome with ha | ht
    · exact h.covered i (h.le.trans hi) ha
    · exact h.ahead i hi ht
  · exact idle_of_none (Option.not_isSome_iff_eq_none.mp hsome)

/-- A message that changes nothing was handed over. -/
theorem absorb (h : Cursor r arrivals acked taken saved pos)
    (hack : ¬acked j) (htaken : ¬taken j) (horder : Ordered arrivals acked taken j)
    (hmsg : arrivals j = some msg)
    (hsame : r.next msg (r.after arrivals pos) = r.after arrivals pos)
    (hnew : ∀ i, T i ↔ taken i ∨ i = j) :
    Cursor r arrivals acked T saved pos ∧
      (j < saved ∨ r.Idle arrivals j) := by
  have hidle : j < saved ∨ r.Idle arrivals j := by
    refine (h.arrives hack htaken horder hmsg).imp_right ?_
    rintro ⟨-, heq⟩
    rw [idle_iff hmsg, heq]
    exact hsame
  refine ⟨⟨h.covered, h.le, fun i hi ht => ?_, fun i hle hlt hsome => ?_⟩, hidle⟩
  · rcases (hnew i).mp ht with ht | rfl
    · exact h.ahead i hi ht
    · exact hidle.resolve_left (not_lt.mpr (h.le.trans hi))
  · exact (h.between i hle hlt hsome).imp_right fun ht => (hnew i).mpr (Or.inl ht)

/-- A message that changes the memory was handed over: the process moves past
it. -/
theorem read (h : Cursor r arrivals acked taken saved pos)
    (hack : ¬acked j) (htaken : ¬taken j) (horder : Ordered arrivals acked taken j)
    (hmsg : arrivals j = some msg)
    (hdiff : r.next msg (r.after arrivals pos) ≠ r.after arrivals pos)
    (hnew : ∀ i, T i ↔ taken i ∨ i = j) :
    pos ≤ j ∧ r.after arrivals (j + 1) = r.next msg (r.after arrivals pos) ∧
      Cursor r arrivals acked T saved (j + 1) := by
  obtain ⟨hle, heq⟩ : pos ≤ j ∧ r.after arrivals j = r.after arrivals pos := by
    refine (h.arrives hack htaken horder hmsg).resolve_left fun hlt => hdiff ?_
    exact absorbed_of_lt hmsg (lt_of_lt_of_le hlt h.le)
  refine ⟨hle, by rw [after_succ hmsg, heq], h.covered,
    h.le.trans (hle.trans (Nat.le_succ j)), fun i hi ht => ?_,
    fun i hsaved hlt hsome => ?_⟩
  · rcases (hnew i).mp ht with ht | rfl
    · exact h.ahead i (hle.trans ((Nat.le_succ j).trans hi)) ht
    · exact absurd hi (Nat.not_succ_le_self i)
  · by_cases hij : i = j
    · exact Or.inr ((hnew i).mpr (Or.inr hij))
    · have hij' : i < j := lt_of_le_of_ne (Nat.lt_succ_iff.mp hlt) hij
      exact (horder i hij' hsome).imp_right fun ht => (hnew i).mpr (Or.inl ht)

end Cursor

end Reader
