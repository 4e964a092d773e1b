import MoneyLaundering.Checkpoint.Deduplicator

/-!
# The mark of a deduplicator

The deduplicator keeps a mark and a set of numbers beyond it.  The module shows that this
stands for the plain set of the recorded numbers: all up to the mark, the next one not, and
beyond it those of the set.
-/

namespace Deduplicator

/-- What is done to a deduplicator. -/
inductive Op where
  | record (producerId : ProducerId) (seq : ℕ)
  /-- `restore(snapshot())`. -/
  | reload
deriving DecidableEq

/-- One operation. -/
def step (d : Deduplicator) : Op → Deduplicator
  | .record producerId seq => d.record producerId seq
  | .reload => restore d.snapshot

/-- Some operations, one after the other. -/
def run (ops : List Op) (d : Deduplicator) : Deduplicator := ops.foldl step d

/-- The numbers beyond the mark are beyond the one after it. -/
def Tight (d : Deduplicator) : Prop :=
  ∀ p, ∀ n ∈ d.ahead.getD p ∅, d.hi.getD p 0 + 1 < n

variable {d : Deduplicator}

theorem tight_fresh : Tight fresh := by
  intro p n hn
  simp [fresh] at hn

/-- The loop of `record` leaves no number at or below the mark that it reaches. -/
theorem lt_of_mem_advance {fuel hi : ℕ} {ahead : Finset ℕ} (h : ∀ n ∈ ahead, hi < n) :
    ∀ n ∈ (advance fuel hi ahead).2, (advance fuel hi ahead).1 < n := by
  induction fuel generalizing hi ahead with
  | zero => exact h
  | succ fuel ih =>
      rw [advance]
      split
      · apply ih
        intro n hn
        obtain ⟨hne, hmem⟩ := Finset.mem_erase.mp hn
        have hlt := h n hmem
        omega
      · exact h

theorem Tight.record (h : Tight d) (p : ProducerId) (n : ℕ) : Tight (d.record p n) := by
  by_cases h0 : n = 0
  · rwa [Deduplicator.record, if_pos h0]
  by_cases hle : n ≤ d.hi.getD p 0
  · rwa [Deduplicator.record, if_neg h0, if_pos hle]
  rw [Deduplicator.record, if_neg h0, if_neg hle]
  intro q k hk
  simp only [Dict.getD_set] at hk ⊢
  by_cases hq : q = p
  · rw [if_pos hq] at hk ⊢
    have hahead : ∀ k ∈ insert n (d.ahead.getD p ∅), d.hi.getD p 0 < k := by
      intro k hk
      rcases Finset.mem_insert.mp hk with rfl | hk
      · exact not_le.mp hle
      · have hlt := h p k hk
        omega
    have hlt := lt_of_mem_advance hahead k hk
    have hexit := advance_exit (insert n (d.ahead.getD p ∅)).card (d.hi.getD p 0)
      (insert n (d.ahead.getD p ∅)) le_rfl
    have hne : k ≠ (advance (insert n (d.ahead.getD p ∅)).card (d.hi.getD p 0)
        (insert n (d.ahead.getD p ∅))).1 + 1 := by
      rintro rfl
      exact hexit hk
    omega
  · rw [if_neg hq] at hk ⊢
    exact h q k hk

theorem getD_of_notMem {ν : Type} {d : Dict ProducerId ν} {p : ProducerId} (v : ν)
    (h : p ∉ d.keys) : d.getD p v = v := by
  rw [Dict.getD, Dict.get?_eq_none_iff.mpr h, Option.getD_none]

/-- A restored deduplicator has the tables of the stored one. -/
theorem getD_restore_snapshot (d : Deduplicator) (p : ProducerId) :
    (restore d.snapshot).hi.getD p 0 = d.hi.getD p 0 ∧
      (restore d.snapshot).ahead.getD p ∅ = d.ahead.getD p ∅ := by
  simp only [restore, snapshot, Dict.getD, Dict.get?_mapVal, Dict.get?_ofFn]
  by_cases hp : p ∈ d.producers
  · simp [hp]
  · have hhi : p ∉ d.hi.keys := fun hmem => hp (by simp [producers, hmem])
    have hahead : p ∉ d.ahead.keys := fun hmem => hp (by simp [producers, hmem, hhi])
    have hhi' := getD_of_notMem 0 hhi
    have hahead' := getD_of_notMem ∅ hahead
    rw [Dict.getD] at hhi' hahead'
    simp [hp, hhi', hahead']

theorem Tight.step (h : Tight d) (op : Op) : Tight (d.step op) := by
  cases op with
  | record p n => exact h.record p n
  | reload =>
      intro p n hn
      obtain ⟨hhi, hahead⟩ := getD_restore_snapshot d p
      change n ∈ (restore d.snapshot).ahead.getD p ∅ at hn
      change (restore d.snapshot).hi.getD p 0 + 1 < n
      rw [hahead] at hn
      rw [hhi]
      exact h p n hn

/-- One operation adds the number that it records, unless that is `0`. -/
theorem recorded_step (op : Op) (p : ProducerId) (n : ℕ) :
    (d.step op).Recorded (p, n) ↔ 1 ≤ n ∧ op = .record p n ∨ d.Recorded (p, n) := by
  cases op with
  | reload =>
      change (restore d.snapshot).Recorded (p, n) ↔ _
      simp
  | record q k =>
      change (d.record q k).Recorded (p, n) ↔ _
      by_cases h0 : k = 0
      · rw [Deduplicator.record, if_pos h0]
        constructor
        · exact Or.inr
        · rintro (⟨hn, heq⟩ | hrec)
          · cases heq
            omega
          · exact hrec
      · rw [recorded_record h0]
        constructor
        · rintro (heq | hrec)
          · cases heq
            exact Or.inl ⟨by omega, rfl⟩
          · exact Or.inr hrec
        · rintro (⟨-, heq⟩ | hrec)
          · cases heq
            exact Or.inl rfl
          · exact Or.inr hrec

theorem tight_run (ops : List Op) (h : Tight d) : Tight (run ops d) := by
  induction ops generalizing d with
  | nil => exact h
  | cons op ops ih => exact ih (h.step op)

theorem recorded_run (ops : List Op) (p : ProducerId) (n : ℕ) :
    (run ops d).Recorded (p, n) ↔ 1 ≤ n ∧ .record p n ∈ ops ∨ d.Recorded (p, n) := by
  induction ops generalizing d with
  | nil => simp [run]
  | cons op ops ih =>
      have hcons : run (op :: ops) d = run ops (d.step op) := rfl
      rw [hcons, ih, recorded_step, List.mem_cons, eq_comm (a := Op.record p n)]
      tauto

theorem recorded_run_fresh (ops : List Op) (p : ProducerId) (n : ℕ) :
    (run ops fresh).Recorded (p, n) ↔ 1 ≤ n ∧ .record p n ∈ ops := by
  rw [recorded_run]
  simp

/-- Where the numbers beyond the mark lie, the mark is the end of what was recorded
without a gap. -/
theorem Tight.mark (h : Tight d) (p : ProducerId) :
    (∀ n, 1 ≤ n → n ≤ d.hi.getD p 0 → d.Recorded (p, n)) ∧
      ¬d.Recorded (p, d.hi.getD p 0 + 1) ∧
      ∀ n ∈ d.ahead.getD p ∅, d.Recorded (p, n) ∧ d.hi.getD p 0 + 1 < n := by
  constructor
  · intro n hn hle
    exact recorded_iff.mpr ⟨by omega, Or.inl hle⟩
  constructor
  · intro hrec
    rcases (recorded_iff.mp hrec).2 with hle | hmem
    · omega
    · exact absurd (h p _ hmem) (lt_irrefl _)
  · intro n hn
    have hlt := h p n hn
    exact ⟨recorded_iff.mpr ⟨by omega, Or.inr hn⟩, hlt⟩

/-- A deduplicator calls a number a duplicate exactly when it was recorded before, and
its mark and its set say which numbers were. -/
theorem isDuplicate_exact (ops : List Op) :
    (∀ p n, (run ops fresh).isDuplicate p n = true ↔ 1 ≤ n ∧ .record p n ∈ ops) ∧
      ∀ p, (∀ n, 1 ≤ n → n ≤ (run ops fresh).hi.getD p 0 → .record p n ∈ ops) ∧
        .record p ((run ops fresh).hi.getD p 0 + 1) ∉ ops ∧
        ∀ n ∈ (run ops fresh).ahead.getD p ∅,
          .record p n ∈ ops ∧ (run ops fresh).hi.getD p 0 + 1 < n := by
  have hrec := recorded_run_fresh ops
  constructor
  · exact hrec
  · intro p
    obtain ⟨hbelow, hnext, hahead⟩ := (tight_run ops tight_fresh).mark p
    constructor
    · intro n hn hle
      exact ((hrec p n).mp (hbelow n hn hle)).2
    constructor
    · intro hmem
      exact hnext ((hrec p _).mpr ⟨by omega, hmem⟩)
    · intro n hn
      obtain ⟨hmem, hlt⟩ := hahead n hn
      exact ⟨((hrec p n).mp hmem).2, hlt⟩

example : (run [.record 1 3, .record 1 1, .reload, .record 1 2] fresh).hi.getD 1 0 = 3 := by
  decide

end Deduplicator
