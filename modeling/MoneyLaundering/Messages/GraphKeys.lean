import MoneyLaundering.Messages.GraphSrc

/-!
# The keys of nodes and paths

A key is a concatenation without a separator.  Two different pairs of texts have the same
concatenation when one part can be moved from the end of a first text to the beginning of
a second.
-/

namespace GraphSrc

/-- A part can be moved from the end of `s` to the beginning of `t`, or back, to get the
other pair. -/
def Shifted (s t s' t' : String) : Prop :=
  ∃ part : String, part ≠ "" ∧ (s = s' ++ part ∧ t' = part ++ t ∨
    s' = s ++ part ∧ t = part ++ t')

/-- A text of decimal digits without leading zeros. -/
def IsNumeral (s : String) : Prop :=
  s ≠ "" ∧ (∀ c ∈ s.toList, c.isDigit = true) ∧ (s.toList.head? = some '0' → s = "0")

/-- A bank and an account as the parser reads them. -/
def Node.WellFormed (node : Node) : Prop :=
  IsNumeral node.bank ∧ ',' ∉ node.account.toList

theorem Node.WellFormed.commaFree {node : Node} (h : node.WellFormed) : node.CommaFree := by
  constructor
  · intro hcomma
    exact absurd (h.1.2.1 _ hcomma) (by decide)
  · exact h.2

theorem eq_append_ofList {s s' : String} {part : List Char}
    (h : s'.toList = s.toList ++ part) : s' = s ++ String.ofList part := by
  apply String.toList_inj.mp
  rw [h, String.toList_append, String.toList_ofList]

theorem ofList_ne_empty {s s' : String} {part : List Char}
    (h : s'.toList = s.toList ++ part) (hne : s' ≠ s) : String.ofList part ≠ "" := by
  intro hempty
  rw [String.ofList_eq_empty_iff.mp hempty, List.append_nil] at h
  exact hne (String.toList_inj.mp h)

theorem append_eq_append {s t s' t' : String} :
    s ++ t = s' ++ t' ↔ s = s' ∧ t = t' ∨ Shifted s t s' t' := by
  constructor
  · intro heq
    have hlist : s.toList ++ t.toList = s'.toList ++ t'.toList := by
      rw [← String.toList_append, heq, String.toList_append]
    by_cases hs : s = s'
    · subst hs
      exact Or.inl ⟨rfl, String.toList_inj.mp (List.append_cancel_left hlist)⟩
    · apply Or.inr
      rcases List.append_eq_append_iff.mp hlist with ⟨part, hs', ht⟩ | ⟨part, hs', ht⟩
      · refine ⟨String.ofList part, ofList_ne_empty hs' (Ne.symm hs),
          Or.inr ⟨eq_append_ofList hs', ?_⟩⟩
        apply String.toList_inj.mp
        rw [ht, String.toList_append, String.toList_ofList]
      · refine ⟨String.ofList part, ofList_ne_empty hs' hs,
          Or.inl ⟨eq_append_ofList hs', ?_⟩⟩
        apply String.toList_inj.mp
        rw [ht, String.toList_append, String.toList_ofList]
  · rintro (⟨rfl, rfl⟩ | ⟨part, -, ⟨rfl, rfl⟩ | ⟨rfl, rfl⟩⟩)
    · rfl
    · rw [String.append_assoc]
    · rw [String.append_assoc]

/-- Texts of equal lengths are told apart. -/
theorem append_inj_of_length {s t s' t' : String} (hlength : s.length = s'.length)
    (h : s ++ t = s' ++ t') : s = s' ∧ t = t' := by
  have hlist : s.toList ++ t.toList = s'.toList ++ t'.toList := by
    rw [← String.toList_append, h, String.toList_append]
  obtain ⟨hs, ht⟩ := List.append_inj hlist (by
    rw [String.length_toList, String.length_toList, hlength])
  exact ⟨String.toList_inj.mp hs, String.toList_inj.mp ht⟩

/-- A shift gives another pair. -/
theorem Shifted.ne {s t s' t' : String} (h : Shifted s t s' t') : s ≠ s' := by
  have hempty {s part : String} (heq : s = s ++ part) : part = "" := by
    have hlist : s.toList = s.toList ++ part.toList := by
      rw [← String.toList_append, ← heq]
    exact String.toList_eq_nil_iff.mp (List.self_eq_append_right.mp hlist)
  rintro rfl
  obtain ⟨part, hne, ⟨hs, -⟩ | ⟨hs, -⟩⟩ := h
  · exact hne (hempty hs)
  · exact hne (hempty hs)

/-- The concatenation tells two pairs apart if and only if none is a shift of the other. -/
theorem append_injective_iff {s t s' t' : String} :
    (s ++ t = s' ++ t' ↔ s = s' ∧ t = t') ↔ ¬Shifted s t s' t' := by
  rw [append_eq_append]
  constructor
  · intro hiff hshift
    exact hshift.ne (hiff.mp (Or.inr hshift)).1
  · intro hnone
    rw [or_iff_left hnone]

/-! ## Nodes and paths -/

/-- `Node.__eq__`. -/
def Node.eq (node other : Node) : Bool := other.key = node.key

/-- `Path.__eq__`. -/
def Path.eq (path other : Path) : Bool := other.key = path.key

theorem Node.eq_iff {node other : Node} : node.eq other = true ↔ node.key = other.key := by
  rw [Node.eq, decide_eq_true_eq, eq_comm]

theorem Path.eq_iff {path other : Path} :
    path.eq other = true ↔ path.key = other.key := by
  rw [Path.eq, decide_eq_true_eq, eq_comm]

/-- Two accounts and two pairs of accounts are told apart, and a node is read back from
its text, if and only if the texts are not shifts of each other: no part moves from the end
of a bank to the beginning of an account, and none from the end of an origin to the
beginning of a destination. -/
theorem identities_iff (node other : Node) (path path' : Path) (h : node.WellFormed) :
    ((node.eq other = true ↔ node.bank = other.bank ∧ node.account = other.account) ∧
      (path.eq path' = true ↔ path.origin.eq path'.origin = true ∧
        path.destination.eq path'.destination = true) ∧
      ∃ node', Node.ofStr node.str = some node' ∧ node'.eq node = true) ↔
    ¬Shifted node.bank node.account other.bank other.account ∧
      ¬Shifted path.origin.key path.destination.key path'.origin.key
        path'.destination.key := by
  have hread : ∃ node', Node.ofStr node.str = some node' ∧ node'.eq node = true :=
    ⟨node, Node.ofStr_str h.commaFree, Node.eq_iff.mpr rfl⟩
  rw [Node.eq_iff, Path.eq_iff, Node.eq_iff, Node.eq_iff, Node.key, Node.key, Path.key,
    Path.key, append_injective_iff, append_injective_iff, and_iff_left hread]

theorem identities_twoBanks :
    ∃ node', Node.ofStr (Node.mk "12" "ab").str = some node' ∧
      node'.eq ⟨"12", "ab"⟩ = true := by
  have hwell : (Node.mk "12" "ab").WellFormed := by
    constructor
    · simp [IsNumeral]
    · decide
  have hsame : ∀ s t : String, ¬Shifted s t s t := fun s t hshift => hshift.ne rfl
  exact ((identities_iff ⟨"12", "ab"⟩ ⟨"12", "ab"⟩ ⟨⟨"1", "a"⟩, ⟨"2", "b"⟩⟩
    ⟨⟨"1", "a"⟩, ⟨"2", "b"⟩⟩ hwell).mpr ⟨hsame _ _, hsame _ _⟩).2.2

/-- Account `12` of bank `1` counts as account `2` of bank `11`, and two pairs of accounts
with four different ones count as one. -/
theorem not_identities_shifted :
    (Node.mk "1" "12").WellFormed ∧ (Node.mk "11" "2").WellFormed ∧
    (Node.mk "1" "12").eq ⟨"11", "2"⟩ = true ∧
    (Path.mk ⟨"1", "1"⟩ ⟨"11", "2"⟩).eq ⟨⟨"1", "11"⟩, ⟨"1", "2"⟩⟩ = true ∧
    (Node.mk "1" "1").eq ⟨"1", "11"⟩ = false := by
  constructor
  · simp [Node.WellFormed, IsNumeral]
  constructor
  · simp [Node.WellFormed, IsNumeral]
  · decide

end GraphSrc
