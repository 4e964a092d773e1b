import Mathlib.Data.Finset.Sort
import MoneyLaundering.Join.JoinFns

/-!
# What a client writes of its responses

The client appends the bodies of the responses of each use case to a file of its own, until
as many use cases are complete as it waits for.
-/

namespace ClientResponses

/-- The file of each use case, and the use cases whose last response was received. -/
structure Written where
  texts : Dict ℕ String
  completed : Finset ℕ

namespace Written

/-- Nothing was received. -/
def empty : Written := ⟨Dict.empty, ∅⟩

/-- The text of a use case. -/
def text (ucId : ℕ) (w : Written) : String := w.texts.getD ucId ""

/-- Append one response. -/
def write (r : Response) (w : Written) : Written where
  texts := w.texts.set r.ucId (w.text r.ucId ++ r.body)
  completed := if r.last then insert r.ucId w.completed else w.completed

theorem text_write (u : ℕ) (r : Response) (w : Written) :
    (w.write r).text u = if r.ucId = u then w.text u ++ r.body else w.text u := by
  rw [text, write, Dict.getD_set]
  by_cases h : u = r.ucId
  · simp [h]
  · simp [h, Ne.symm h, text]

end Written

/-- `_receive_and_write_responses`, of the responses that arrive until the connection
ends; `nresponses` is the number of use cases that it waits for. -/
def receiveAndWrite (nresponses : ℕ) : List Response → Written → Written
  | [], w => w
  | r :: rs, w =>
    if w.completed.card < nresponses then receiveAndWrite nresponses rs (w.write r) else w

/-- What is read of a text that was written to a file. -/
def readBack (text : String) : String :=
  JoinRouteHandler.decode
    (PersistentSpill.universalNewlines (JoinRouteHandler.encode text))

/-- What it writes to the responses file at the end: what it reads back of the texts, in
the order of the use cases, if all are complete. -/
def responsesFile (nresponses : ℕ) (rs : List Response) : Option String :=
  let w := receiveAndWrite nresponses rs .empty
  if w.completed.card < nresponses then none
  else some (String.join ((w.texts.keys.mergeSort).map fun u => readBack (w.text u)))

/-- The responses of one use case. -/
def ofUc (u : ℕ) (rs : List Response) : List Response := rs.filter fun r => r.ucId = u

/-- The bodies, one after the other. -/
def bodies (text : String) (rs : List Response) : String :=
  rs.foldl (fun text r => text ++ r.body) text

/-- No response follows one that is marked as the last. -/
def LastEnds (rs : List Response) : Prop :=
  ∀ before r after, rs = before ++ r :: after → r.last = true → after = []

theorem LastEnds.tail {r : Response} {rs : List Response} (h : LastEnds (r :: rs)) :
    LastEnds rs := by
  intro before r' after heq
  exact h (r :: before) r' after (by rw [heq, List.cons_append])

theorem LastEnds.cons {r : Response} {rs : List Response} (hr : r.last = false)
    (h : LastEnds rs) : LastEnds (r :: rs) := by
  intro before r' after heq hlast
  cases before with
  | nil =>
      obtain ⟨rfl, -⟩ := List.cons.inj heq
      rw [hr] at hlast
      cases hlast
  | cons x before => exact h before r' after (List.cons.inj heq).2 hlast

theorem lastEnds_nil : LastEnds [] := by
  intro before r after heq _
  simp at heq

theorem lastEnds_singleton (r : Response) : LastEnds [r] := by
  intro before r' after heq _
  cases before with
  | nil => exact (List.cons.inj heq).2.symm
  | cons x before => simp at heq

theorem ofUc_cons (u : ℕ) (r : Response) (rs : List Response) :
    ofUc u (r :: rs) = if r.ucId = u then r :: ofUc u rs else ofUc u rs := by
  simp [ofUc, List.filter_cons]

section Run

variable {ucs : Finset ℕ} {rs : List Response} {w : Written} {u : ℕ}

/-- Only these use cases have a file, and a use case that is complete has one. -/
structure Written.Within (ucs : Finset ℕ) (w : Written) : Prop where
  keys : ∀ u ∈ w.texts.keys, u ∈ ucs
  completed : ∀ u ∈ w.completed, u ∈ w.texts.keys

theorem Written.within_empty : Written.empty.Within ucs where
  keys _ h := absurd h List.not_mem_nil
  completed u h := absurd h (Finset.notMem_empty u)

theorem Written.mem_completed_write {r : Response} :
    u ∈ (w.write r).completed ↔ u ∈ w.completed ∨ r.ucId = u ∧ r.last = true := by
  rw [Written.write]
  split
  · rename_i hlast
    rw [Finset.mem_insert, or_comm]
    simp [hlast, eq_comm]
  · rename_i hlast
    simp [hlast]

theorem Written.Within.write {r : Response} (hw : w.Within ucs) (hr : r.ucId ∈ ucs) :
    (w.write r).Within ucs := by
  have hkeys (x : ℕ) : x ∈ (w.write r).texts.keys ↔ x = r.ucId ∨ x ∈ w.texts.keys :=
    Dict.mem_keys_set
  constructor
  · intro x hx
    rcases (hkeys x).mp hx with heq | hmem
    · exact heq ▸ hr
    · exact hw.keys x hmem
  · intro x hx
    rw [hkeys]
    rcases Written.mem_completed_write.mp hx with hmem | hlast
    · exact Or.inr (hw.completed x hmem)
    · exact Or.inl hlast.1.symm

theorem Written.Within.subset (hw : w.Within ucs) : w.completed ⊆ ucs :=
  fun u hu => hw.keys u (hw.completed u hu)

/-- The loop ends when all use cases are complete. -/
theorem Written.Within.eq_of_not_lt (hw : w.Within ucs)
    (hcard : ¬w.completed.card < ucs.card) : w.completed = ucs :=
  Finset.eq_of_subset_of_card_le hw.subset (not_lt.mp hcard)

theorem within_receiveAndWrite (hids : ∀ r ∈ rs, r.ucId ∈ ucs) (hw : w.Within ucs) :
    (receiveAndWrite ucs.card rs w).Within ucs := by
  induction rs generalizing w with
  | nil => exact hw
  | cons r rs ih =>
      rw [receiveAndWrite]
      split
      · exact ih (fun r' hr' => hids r' (List.mem_cons_of_mem _ hr'))
          (hw.write (hids r List.mem_cons_self))
      · exact hw

/-- A use case is complete once its last response was received. -/
theorem mem_completed_receiveAndWrite (hids : ∀ r ∈ rs, r.ucId ∈ ucs) (hw : w.Within ucs) :
    u ∈ (receiveAndWrite ucs.card rs w).completed ↔
      u ∈ w.completed ∨ ∃ r ∈ rs, r.ucId = u ∧ r.last = true := by
  induction rs generalizing w with
  | nil => simp [receiveAndWrite]
  | cons r rs ih =>
      rw [receiveAndWrite]
      split
      · rw [ih (fun r' hr' => hids r' (List.mem_cons_of_mem _ hr'))
          (hw.write (hids r List.mem_cons_self)), Written.mem_completed_write, or_assoc,
          List.exists_mem_cons_iff]
      · rename_i hcard
        refine ⟨Or.inl, ?_⟩
        intro h
        rw [hw.eq_of_not_lt hcard]
        rcases h with hmem | ⟨r', hr', heq, -⟩
        · exact hw.subset hmem
        · exact heq ▸ hids r' hr'

/-- The text of a use case is made of its own responses only: the loop does not end before
it received them all. -/
theorem text_receiveAndWrite (hids : ∀ r ∈ rs, r.ucId ∈ ucs) (hw : w.Within ucs)
    (hdone : u ∈ w.completed → ofUc u rs = []) (hlast : LastEnds (ofUc u rs)) :
    (receiveAndWrite ucs.card rs w).text u = bodies (w.text u) (ofUc u rs) := by
  induction rs generalizing w with
  | nil => rfl
  | cons r rs ih =>
      have hr := hids r List.mem_cons_self
      rw [receiveAndWrite]
      rw [ofUc_cons] at hdone hlast ⊢
      split
      · rename_i hcard
        rw [ih (fun r' hr' => hids r' (List.mem_cons_of_mem _ hr')) (hw.write hr),
          Written.text_write]
        · split
          · rfl
          · rfl
        · intro hmem
          rcases Written.mem_completed_write.mp hmem with hmem' | ⟨hru, hrlast⟩
          · have hnil := hdone hmem'
            split at hnil
            · cases hnil
            · exact hnil
          · rw [if_pos hru] at hlast
            exact hlast [] r _ rfl hrlast
        · split at hlast
          · exact hlast.tail
          · exact hlast
      · rename_i hcard
        have hnil : (if r.ucId = u then r :: ofUc u rs else ofUc u rs) = [] := by
          by_cases hu : u ∈ ucs
          · exact hdone (hw.eq_of_not_lt hcard ▸ hu)
          · rw [← ofUc_cons, ofUc, List.filter_eq_nil_iff]
            intro r' hr' heq
            exact hu (of_decide_eq_true heq ▸ hids r' hr')
        rw [hnil]
        rfl

end Run

end ClientResponses
