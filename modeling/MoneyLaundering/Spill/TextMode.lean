import MoneyLaundering.Spill.PersistentSpill
import MoneyLaundering.Support.Utf8

/-!
# What a text file reads as

Text is written as it is and read with each kind of line end as one line feed.  So a text
with a carriage return does not read as it was written, and every other text does.
-/

namespace PersistentSpill

/-! ## Bytes -/

theorem universalNewlines_cons {b : UInt8} (bytes : Bytes) (h : b ≠ carriageReturn) :
    universalNewlines (b :: bytes) = b :: universalNewlines bytes :=
  if_pos h

theorem universalNewlines_carriageReturn (bytes : Bytes) :
    universalNewlines (carriageReturn :: bytes) =
      if bytes.head? = some newline then universalNewlines bytes
      else newline :: universalNewlines bytes := by
  rw [universalNewlines, if_neg (not_not.mpr rfl)]

theorem universalNewlines_eq_nil_iff {bytes : Bytes} :
    universalNewlines bytes = [] ↔ bytes = [] := by
  induction bytes with
  | nil => exact iff_of_true rfl rfl
  | cons b bytes ih =>
      by_cases hb : b = carriageReturn
      · subst hb
        rw [universalNewlines_carriageReturn]
        split
        · rename_i hhead
          simp only [reduceCtorEq, iff_false, ih]
          rintro rfl
          cases hhead
        · simp
      · simp [universalNewlines_cons bytes hb]

/-- Bytes that are added to a file change how it reads, but for a line feed that comes
after a carriage return. -/
theorem eq_of_universalNewlines_append {text more : Bytes}
    (h : universalNewlines (text ++ more) = universalNewlines text) :
    more = [] ∨ more = [newline] := by
  induction text with
  | nil => exact Or.inl (universalNewlines_eq_nil_iff.mp h)
  | cons b text ih =>
      rw [List.cons_append] at h
      by_cases hb : b = carriageReturn
      · subst hb
        rw [universalNewlines_carriageReturn, universalNewlines_carriageReturn] at h
        cases text with
        | nil =>
            change (if more.head? = some newline then universalNewlines more
              else newline :: universalNewlines more) = [newline] at h
            cases more with
            | nil => exact Or.inl rfl
            | cons x more =>
                split at h
                · -- a line feed makes one line end with the carriage return
                  rename_i hhead
                  obtain rfl : x = newline := Option.some.inj hhead
                  rw [universalNewlines_cons more (by decide)] at h
                  rw [universalNewlines_eq_nil_iff.mp (List.cons.inj h).2]
                  exact Or.inr rfl
                · exact Or.inl (universalNewlines_eq_nil_iff.mp (List.cons.inj h).2)
        | cons x text =>
            rw [List.cons_append, List.head?_cons, List.head?_cons] at h
            split at h
            · exact ih h
            · exact ih (List.cons.inj h).2
      · rw [universalNewlines_cons _ hb, universalNewlines_cons _ hb] at h
        exact ih (List.cons.inj h).2

/-- A text that does not end with a carriage return reads the same whatever follows. -/
theorem universalNewlines_append {text more : Bytes}
    (h : text.getLast? ≠ some carriageReturn) :
    universalNewlines (text ++ more) = universalNewlines text ++ universalNewlines more := by
  induction text with
  | nil => rfl
  | cons b text ih =>
      rw [List.cons_append]
      by_cases hb : b = carriageReturn
      · subst hb
        cases text with
        | nil => exact absurd rfl h
        | cons x text =>
            have ih' := ih (by simpa using h)
            rw [universalNewlines_carriageReturn, universalNewlines_carriageReturn, ih',
              List.cons_append, List.head?_cons, List.head?_cons]
            split
            · rfl
            · rfl
      · have hlast : text.getLast? ≠ some carriageReturn := by
          cases text with
          | nil => simp
          | cons x text => simpa using h
        rw [universalNewlines_cons _ hb, universalNewlines_cons _ hb, ih hlast,
          List.cons_append]

/-- Two texts of which one goes on read differently, now or after a line feed. -/
theorem eq_nil_of_reads_alike {text more : Bytes}
    (h : ∀ line, universalNewlines ((text ++ more) ++ line) =
      universalNewlines (text ++ line)) : more = [] := by
  have hnow := h []
  rw [List.append_nil, List.append_nil] at hnow
  rcases eq_of_universalNewlines_append hnow with hnil | rfl
  · exact hnil
  · have hlater := h [newline]
    rw [universalNewlines_append (by simp; decide)] at hlater
    have hlength := congrArg List.length hlater
    simp [universalNewlines, newline, carriageReturn] at hlength

theorem universalNewlines_eq_self {bytes : Bytes} (h : ∀ b ∈ bytes, b ≠ carriageReturn) :
    universalNewlines bytes = bytes := by
  induction bytes with
  | nil => rfl
  | cons b bytes ih =>
      rw [universalNewlines_cons bytes (h b List.mem_cons_self),
        ih fun b hb => h b (List.mem_cons_of_mem _ hb)]

/-! ## Text -/

/-- What a text reads as. -/
def newlined : List Char → List Char
  | [] => []
  | c :: text =>
    if c ≠ '\r' then c :: newlined text
    else if text.head? = some '\n' then newlined text
    else '\n' :: newlined text

theorem newlined_eq_self {text : List Char} (h : '\r' ∉ text) : newlined text = text := by
  induction text with
  | nil => rfl
  | cons c text ih =>
      obtain ⟨hc, htext⟩ := not_or.mp (mt List.mem_cons.mpr h)
      rw [newlined, if_pos (Ne.symm hc), ih htext]

/-- What is read has no carriage return. -/
theorem notMem_newlined (text : List Char) : '\r' ∉ newlined text := by
  induction text with
  | nil => exact List.not_mem_nil
  | cons c text ih =>
      rw [newlined]
      split
      · rename_i hc
        rw [List.mem_cons, not_or]
        exact ⟨Ne.symm hc, ih⟩
      · split
        · exact ih
        · rw [List.mem_cons, not_or]
          exact ⟨by decide, ih⟩

/-- What the bytes of a text read as are the bytes of what the text reads as. -/
theorem universalNewlines_bytes (text : List Char) :
    universalNewlines (Utf8.bytes text) = Utf8.bytes (newlined text) := by
  have hnewline : newline = UInt8.ofNat '\n'.toNat := by decide
  have hcarriage : carriageReturn = UInt8.ofNat '\r'.toNat := by decide
  induction text with
  | nil => rfl
  | cons c text ih =>
      rw [Utf8.bytes_cons, newlined]
      by_cases hc : c = '\r'
      · subst hc
        rw [if_neg (not_not.mpr rfl), Utf8.utf8EncodeChar_of_lt (by decide), ← hcarriage,
          List.singleton_append, universalNewlines_carriageReturn, hnewline]
        simp only [Utf8.head?_bytes_iff (d := '\n') (by decide)]
        split
        · exact ih
        · rw [ih, Utf8.bytes_cons, Utf8.utf8EncodeChar_of_lt (by decide),
            List.singleton_append]
      · have hnot : ∀ b ∈ String.utf8EncodeChar c, b ≠ carriageReturn := by
          intro b hb heq
          rw [heq, hcarriage, Utf8.mem_utf8EncodeChar_iff (by decide)] at hb
          exact hc hb
        rw [if_pos hc, universalNewlines_append, universalNewlines_eq_self hnot, ih,
          Utf8.bytes_cons]
        intro hlast
        exact hnot _ (List.mem_of_getLast? hlast) rfl

/-- The lines that a text reads as. -/
theorem lines_universalNewlines_bytes (text : List Char) :
    Lines.lines newline (universalNewlines (Utf8.bytes text)) =
      (Lines.lines '\n' (newlined text)).map Utf8.bytes := by
  rw [universalNewlines_bytes, ← Utf8.lines_bytes (by decide)]
  rfl

/-! ## Chunks -/

theorem flatten_chunksOf (batchLines : ℕ) (batch lines : List Bytes) :
    (chunksOf batchLines batch lines).flatten = batch.flatten ++ lines.flatten := by
  induction lines generalizing batch with
  | nil =>
      rw [chunksOf]
      split
      · rename_i hnil
        rw [hnil]
        rfl
      · simp
  | cons line lines ih =>
      rw [chunksOf]
      split
      · rw [List.flatten_cons, ih]
        simp
      · rw [ih]
        simp

/-- A chunk is made of whole lines, so it is a text of its own. -/
theorem exists_chunk_eq_bytes {batchLines : ℕ} {batch lines : List (List Char)} {chunk : Bytes}
    (h : chunk ∈ chunksOf batchLines (batch.map Utf8.bytes) (lines.map Utf8.bytes)) :
    ∃ text, chunk = Utf8.bytes text := by
  induction lines generalizing batch with
  | nil =>
      rw [List.map_nil, chunksOf] at h
      split at h
      · cases h
      · exact ⟨batch.flatten, (List.mem_singleton.mp h).trans (Utf8.bytes_flatten batch).symm⟩
  | cons line lines ih =>
      have hbatch : batch.map Utf8.bytes ++ [Utf8.bytes line] =
          (batch ++ [line]).map Utf8.bytes := by
        rw [List.map_append, List.map_singleton]
      rw [List.map_cons, chunksOf, hbatch] at h
      split at h
      · rcases List.mem_cons.mp h with hhere | hlater
        · exact ⟨(batch ++ [line]).flatten, hhere.trans (Utf8.bytes_flatten _).symm⟩
        · exact @ih [] hlater
      · exact ih h

end PersistentSpill
