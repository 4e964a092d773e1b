import Mathlib.Data.Finset.Card
import MoneyLaundering.Basic
import MoneyLaundering.Support.Dict

/-!
# The deduplicator

A per-producer exactly-once filter that tolerates reordered redelivery: the
highest contiguous sequence number, and the set of numbers seen ahead of a gap.
Its abstract meaning is the set of pairs `(producer, seq)` recorded so far.
-/

/-- Contiguous high-water mark and ahead-set of every producer. -/
structure Deduplicator where
  hi : Dict ProducerId ℕ
  ahead : Dict ProducerId (Finset ℕ)
deriving DecidableEq

namespace Deduplicator

/-- A deduplicator that has seen nothing. -/
def fresh : Deduplicator := ⟨Dict.empty, Dict.empty⟩

/-- Whether this very number was recorded already; `0` marks an unstamped
message and is never a duplicate. -/
def isDuplicate (d : Deduplicator) (producerId : ProducerId) (seq : ℕ) : Bool :=
  if seq = 0 then false
  else if seq ≤ d.hi.getD producerId 0 then true
  else decide (seq ∈ d.ahead.getD producerId ∅)

/-- The loop of `record`: while the next number is in the ahead-set, take it out
and move the mark. -/
def advance : ℕ → ℕ → Finset ℕ → ℕ × Finset ℕ
  | 0, hi, ahead => (hi, ahead)
  | fuel + 1, hi, ahead =>
    if hi + 1 ∈ ahead then advance fuel (hi + 1) (ahead.erase (hi + 1))
    else (hi, ahead)

/-- Record a number. -/
def record (d : Deduplicator) (producerId : ProducerId) (seq : ℕ) :
    Deduplicator :=
  if seq = 0 then d
  else
    let hi := d.hi.getD producerId 0
    if seq ≤ hi then d
    else
      let ahead := insert seq (d.ahead.getD producerId ∅)
      let (hi', ahead') := advance ahead.card hi ahead
      ⟨d.hi.set producerId hi', d.ahead.set producerId ahead'⟩

/-- The producers with an entry in either table. -/
def producers (d : Deduplicator) : List ProducerId :=
  d.hi.keys ++ d.ahead.keys.filter fun p => p ∉ d.hi.keys

theorem producers_nodup (d : Deduplicator) : d.producers.Nodup := by
  refine List.Nodup.append d.hi.keys_nodup (d.ahead.keys_nodup.filter _) ?_
  intro p hp hp'
  simp [hp] at hp'

/-- What the checkpoint stores: mark and ahead-set of each producer. -/
def snapshot (d : Deduplicator) : Dict ProducerId (ℕ × Finset ℕ) :=
  Dict.ofFn (fun p => (d.hi.getD p 0, d.ahead.getD p ∅)) d.producers
    d.producers_nodup

/-- The deduplicator a checkpoint describes. -/
def restore (snapshot : Dict ProducerId (ℕ × Finset ℕ)) : Deduplicator :=
  ⟨snapshot.mapVal Prod.fst, snapshot.mapVal Prod.snd⟩

/-! ## The recorded set -/

/-- The pairs that the deduplicator will call duplicates. -/
def Recorded (d : Deduplicator) (id : ProducerId × ℕ) : Prop :=
  d.isDuplicate id.1 id.2 = true

instance (d : Deduplicator) : DecidablePred d.Recorded := fun _ =>
  inferInstanceAs (Decidable (_ = _))

theorem recorded_iff {d : Deduplicator} {p : ProducerId} {n : ℕ} :
    d.Recorded (p, n) ↔
      n ≠ 0 ∧ (n ≤ d.hi.getD p 0 ∨ n ∈ d.ahead.getD p ∅) := by
  simp only [Recorded, isDuplicate]
  by_cases h0 : n = 0
  · simp [h0]
  · by_cases hle : n ≤ d.hi.getD p 0 <;> simp [h0, hle]

@[simp] theorem not_recorded_fresh (id : ProducerId × ℕ) :
    ¬fresh.Recorded id := by
  obtain ⟨p, n⟩ := id
  rw [recorded_iff]
  rintro ⟨h0, hle | hmem⟩
  · exact h0 (Nat.le_zero.mp hle)
  · simp [fresh] at hmem

/-- Moving the mark changes the representation, not the recorded numbers. -/
theorem mem_advance (fuel hi : ℕ) (ahead : Finset ℕ) (n : ℕ) :
    (n ≤ (advance fuel hi ahead).1 ∨ n ∈ (advance fuel hi ahead).2) ↔
      (n ≤ hi ∨ n ∈ ahead) := by
  induction fuel generalizing hi ahead with
  | zero => rfl
  | succ fuel ih =>
      rw [advance]
      split
      · rename_i hnext
        rw [ih, Finset.mem_erase]
        constructor
        · rintro (hle | ⟨-, hmem⟩)
          · rcases Nat.le_succ_iff.mp hle with hle | rfl
            · exact Or.inl hle
            · exact Or.inr hnext
          · exact Or.inr hmem
        · rintro (hle | hmem)
          · exact Or.inl (by omega)
          · by_cases hn : n = hi + 1
            · exact Or.inl hn.le
            · exact Or.inr ⟨hn, hmem⟩
      · rfl

/-- The fuel given by `record` runs the loop to its exit condition. -/
theorem advance_exit (fuel hi : ℕ) (ahead : Finset ℕ)
    (h : ahead.card ≤ fuel) :
    (advance fuel hi ahead).1 + 1 ∉ (advance fuel hi ahead).2 := by
  induction fuel generalizing hi ahead with
  | zero =>
      have : ahead = ∅ := Finset.card_eq_zero.mp (Nat.le_zero.mp h)
      simp [advance, this]
  | succ fuel ih =>
      rw [advance]
      split
      · rename_i hnext
        refine ih _ _ ?_
        rw [Finset.card_erase_of_mem hnext]
        omega
      · assumption

/-- Recording adds exactly the given pair. -/
theorem recorded_record {d : Deduplicator} {p : ProducerId} {n : ℕ}
    (hn : n ≠ 0) (id : ProducerId × ℕ) :
    (d.record p n).Recorded id ↔ id = (p, n) ∨ d.Recorded id := by
  obtain ⟨q, k⟩ := id
  rw [Prod.mk.injEq]
  rw [record, if_neg hn]
  by_cases hle : n ≤ d.hi.getD p 0
  · rw [if_pos hle]
    constructor
    · exact Or.inr
    · rintro (⟨rfl, rfl⟩ | h)
      · exact recorded_iff.mpr ⟨hn, Or.inl hle⟩
      · exact h
  · rw [if_neg hle, recorded_iff, recorded_iff]
    simp only [Dict.getD_set]
    by_cases hq : q = p
    · subst hq
      simp only [if_true, mem_advance, Finset.mem_insert]
      constructor
      · rintro ⟨hk, h | rfl | h⟩
        · exact Or.inr ⟨hk, Or.inl h⟩
        · exact Or.inl ⟨trivial, rfl⟩
        · exact Or.inr ⟨hk, Or.inr h⟩
      · rintro (⟨-, rfl⟩ | ⟨hk, h⟩)
        · exact ⟨hn, Or.inr (Or.inl rfl)⟩
        · exact ⟨hk, h.imp_right Or.inr⟩
    · simp [hq]

/-- A restored deduplicator recognizes exactly what the stored one did. -/
@[simp] theorem recorded_restore_snapshot (d : Deduplicator)
    (id : ProducerId × ℕ) :
    (restore d.snapshot).Recorded id ↔ d.Recorded id := by
  obtain ⟨p, n⟩ := id
  have key : ∀ {ν : Type} (d' : Dict ProducerId ν) (v : ν),
      p ∉ d'.keys → d'.getD p v = v := by
    intro ν d' v hp
    rw [Dict.getD, Dict.get?_eq_none_iff.mpr hp, Option.getD_none]
  rw [recorded_iff, recorded_iff]
  simp only [restore, snapshot, Dict.getD, Dict.get?_mapVal, Dict.get?_ofFn]
  by_cases hp : p ∈ d.producers
  · simp [hp]
  · have hhi : p ∉ d.hi.keys := fun h => hp (by simp [producers, h])
    have hahead : p ∉ d.ahead.keys := fun h => hp (by simp [producers, h, hhi])
    have h1 := key d.hi 0 hhi
    have h2 := key d.ahead ∅ hahead
    rw [Dict.getD] at h1 h2
    simp [hp, h1, h2]

end Deduplicator
