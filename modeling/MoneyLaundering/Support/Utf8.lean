import MoneyLaundering.Support.Lines

/-!
# The bytes of a text

A character below 128 is one byte, and the bytes of the others are all from 128 on.  So a
symbol below 128 is found in the bytes where it is in the text, and the lines of the bytes
are the bytes of the lines.
-/

namespace Utf8

/-- The bytes of a text. -/
def bytes (text : List Char) : List UInt8 := text.flatMap String.utf8EncodeChar

theorem bytes_cons (c : Char) (text : List Char) :
    bytes (c :: text) = String.utf8EncodeChar c ++ bytes text := List.flatMap_cons

theorem bytes_append (text more : List Char) : bytes (text ++ more) = bytes text ++ bytes more :=
  List.flatMap_append

theorem bytes_flatten (texts : List (List Char)) :
    bytes texts.flatten = (texts.map bytes).flatten := by
  induction texts with
  | nil => rfl
  | cons text texts ih =>
      rw [List.flatten_cons, bytes_append, ih, List.map_cons, List.flatten_cons]

/-- A byte below 128 is a character of its own. -/
theorem utf8EncodeChar_of_mem {c : Char} {b : UInt8} (hb : b ∈ String.utf8EncodeChar c)
    (hlow : b.toNat < 128) : String.utf8EncodeChar c = [b] ∧ c.toNat = b.toNat := by
  have hval : c.val.toNat = c.toNat := rfl
  rw [String.utf8EncodeChar] at hb ⊢
  simp only [hval] at hb ⊢
  have htoNat (n : ℕ) : (UInt8.ofNat n).toNat = n % 256 := UInt8.toNat_ofNat'
  split at hb
  · rename_i hone
    rw [if_pos hone, List.mem_singleton.mp hb, htoNat]
    exact ⟨rfl, (Nat.mod_eq_of_lt (by omega)).symm⟩
  · exfalso
    split at hb
    · simp only [List.mem_cons, List.not_mem_nil, or_false] at hb
      rcases hb with rfl | rfl <;> rw [htoNat] at hlow <;> omega
    · split at hb
      · simp only [List.mem_cons, List.not_mem_nil, or_false] at hb
        rcases hb with rfl | rfl | rfl <;> rw [htoNat] at hlow <;> omega
      · simp only [List.mem_cons, List.not_mem_nil, or_false] at hb
        rcases hb with rfl | rfl | rfl | rfl <;> rw [htoNat] at hlow <;> omega

theorem utf8EncodeChar_of_lt {c : Char} (h : c.toNat < 128) :
    String.utf8EncodeChar c = [UInt8.ofNat c.toNat] := by
  have hval : c.val.toNat = c.toNat := rfl
  rw [String.utf8EncodeChar, hval, if_pos (by omega)]

/-- A symbol below 128 is one of the bytes of itself only. -/
theorem mem_utf8EncodeChar_iff {c d : Char} (hd : d.toNat < 128) :
    UInt8.ofNat d.toNat ∈ String.utf8EncodeChar c ↔ c = d := by
  have hlow : (UInt8.ofNat d.toNat).toNat = d.toNat := by
    rw [UInt8.toNat_ofNat', Nat.mod_eq_of_lt (by omega)]
  constructor
  · intro hmem
    have heq := (utf8EncodeChar_of_mem hmem (by omega)).2
    rw [hlow] at heq
    exact Char.toNat_inj.mp heq
  · intro heq
    rw [heq, utf8EncodeChar_of_lt hd]
    exact List.mem_singleton_self _

/-- The first byte of a text is such a symbol if its first character is. -/
theorem head?_bytes_iff {d : Char} (hd : d.toNat < 128) (text : List Char) :
    (bytes text).head? = some (UInt8.ofNat d.toNat) ↔ text.head? = some d := by
  cases text with
  | nil => exact iff_of_false (Option.some_ne_none _).symm (Option.some_ne_none _).symm
  | cons c text =>
      rw [bytes_cons, List.head?_append_of_ne_nil _ String.utf8EncodeChar_ne_nil,
        List.head?_cons, Option.some_inj]
      constructor
      · intro hhead
        exact (mem_utf8EncodeChar_iff hd).mp (List.mem_of_head? hhead)
      · intro heq
        rw [heq, utf8EncodeChar_of_lt hd, List.head?_cons]

/-- The lines of the bytes are the bytes of the lines. -/
theorem lines_bytes {d : Char} (hd : d.toNat < 128) (text : List Char) :
    Lines.lines (UInt8.ofNat d.toNat) (bytes text) = (Lines.lines d text).map bytes := by
  have hput (c : Char) (ls : List (List Char)) :
      Lines.put (String.utf8EncodeChar c) (ls.map bytes) = (Lines.put [c] ls).map bytes := by
    cases ls with
    | nil => simp [Lines.put, bytes]
    | cons line ls => simp [Lines.put, bytes]
  induction text with
  | nil => rfl
  | cons c text ih =>
      rw [bytes_cons]
      by_cases hc : c = d
      · subst hc
        rw [utf8EncodeChar_of_lt hd, List.singleton_append, Lines.lines_cons_self,
          Lines.lines_cons_self, ih, List.map_cons, bytes, List.flatMap_singleton,
          utf8EncodeChar_of_lt hd]
      · have hnot : UInt8.ofNat d.toNat ∉ String.utf8EncodeChar c := by
          rw [mem_utf8EncodeChar_iff hd]
          exact hc
        rw [Lines.lines_append_of_notMem hnot String.utf8EncodeChar_ne_nil,
          Lines.lines_cons_of_ne hc, ih, hput]

end Utf8
