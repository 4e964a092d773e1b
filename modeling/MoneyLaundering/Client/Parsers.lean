import MoneyLaundering.GroupBy.ComputeGraph

/-!
# The parsers of the client

A line of an input file is cut at its commas, and the numerals of its banks are brought into
one form.  So no text of what is parsed has a comma, and the texts of the accounts of a
transaction are told apart.
-/

namespace Messages

open GraphSrc
open UC4ComputeGraph (accountsOf edge)

variable {A : Type}

/-! ## Fields -/

/-- `line.rstrip("\n").split(",")`. -/
def lineFields (line : String) : List String :=
  ((line.toList.rdropWhile (· = '\n')).splitOn ',').map String.ofList

/-- `str(int(bank))`. -/
def bankStr (bank : String) : Option String := (int bank.toList).map toString

/-- No piece of a split text has the separator. -/
theorem notMem_of_mem_splitOn {X : Type} [DecidableEq X] {sep : X} {text piece : List X}
    (h : piece ∈ text.splitOn sep) : sep ∉ piece := by
  induction text generalizing piece with
  | nil =>
      rw [List.splitOn_nil, List.mem_singleton] at h
      simp [h]
  | cons x text ih =>
      obtain ⟨first, rest, hsplit⟩ := List.exists_cons_of_ne_nil (List.splitOn_ne_nil sep text)
      rw [List.splitOn_cons_eq_if_modifyHead, hsplit, List.modifyHead_cons] at h
      split at h
      · rcases List.mem_cons.mp h with rfl | h
        · exact List.not_mem_nil
        · exact ih (hsplit ▸ h)
      · next hne =>
          rcases List.mem_cons.mp h with rfl | h
          · have hfirst : sep ∉ first := ih (hsplit ▸ List.mem_cons_self)
            have hx : sep ≠ x := by
              rintro rfl
              exact hne BEq.rfl
            simp [hx, hfirst]
          · exact ih (hsplit ▸ List.mem_cons_of_mem _ h)

theorem comma_notMem_of_lineFields {line field : String} (h : field ∈ lineFields line) :
    ',' ∉ field.toList := by
  obtain ⟨piece, hpiece, rfl⟩ := List.mem_map.mp h
  rw [String.toList_ofList]
  exact notMem_of_mem_splitOn hpiece

theorem comma_notMem_toString (i : ℤ) : ',' ∉ (toString i).toList := by
  have hrepr : ∀ n : ℕ, ',' ∉ (Nat.repr n).toList := fun n =>
    notMem_of_parseInt (parseInt_repr n) (by decide)
  cases i with
  | ofNat n => exact hrepr n
  | negSucc n =>
      change ',' ∉ ("-" ++ Nat.repr (n + 1)).toList
      simpa using hrepr (n + 1)

theorem comma_notMem_of_bankStr {bank bank' : String} (h : bankStr bank = some bank') :
    ',' ∉ bank'.toList := by
  obtain ⟨i, -, rfl⟩ := Option.map_eq_some_iff.mp h
  exact comma_notMem_toString i

/-- The text of a bank that was brought into form stays. -/
theorem bankStr_of_bankStr {bank bank' : String} (h : bankStr bank = some bank') :
    bankStr bank' = some bank' := by
  obtain ⟨i, -, rfl⟩ := Option.map_eq_some_iff.mp h
  rw [bankStr, int_toString, Option.map_some]

/-! ## Accounts -/

namespace AccountParser

def parse (line : String) : Option Account :=
  match lineFields line with
  | [bankName, bankId, accountNumber, entityId, entityName] => do
    return ⟨bankName, ← bankStr bankId, accountNumber, entityId, entityName⟩
  | _ => none

/-- An account is of a bank in its one form, however the line writes it. -/
theorem bankStr_bankId {line : String} {a : Account} (h : parse line = some a) :
    bankStr a.bankId = some a.bankId := by
  unfold parse at h
  split at h
  · simp only [Option.pure_def, Option.bind_eq_bind, Option.bind_eq_some_iff] at h
    obtain ⟨bank, hbank, heq⟩ := h
    rw [← Option.some.inj heq]
    exact bankStr_of_bankStr hbank
  · cases h

end AccountParser

/-! ## Transactions -/

namespace TransactionParser

/-- `float` reads an amount; the last field is the label. -/
def parse (float : String → Option A) (line : String) : Option (Transaction A) :=
  match lineFields line with
  | [timestamp, fromBank, fromAccount, toBank, toAccount, amountReceived, receivingCurrency,
      amountPaid, paymentCurrency, paymentFormat, _] => do
    return ⟨.datetime (← fastDatetime timestamp), ← bankStr fromBank, fromAccount,
      ← bankStr toBank, toAccount, ← float amountReceived, receivingCurrency,
      ← float amountPaid, paymentCurrency, paymentFormat⟩
  | _ => none

variable {float : String → Option A} {line : String} {t : Transaction A}

/-- The banks of a parsed transaction are in their one form, and its accounts are fields of
the line. -/
theorem ends_of_parse (h : parse float line = some t) :
    (bankStr t.fromBank = some t.fromBank ∧ t.fromAccount ∈ lineFields line) ∧
      bankStr t.toBank = some t.toBank ∧ t.toAccount ∈ lineFields line := by
  unfold parse at h
  split at h
  · next hfields =>
      simp only [Option.pure_def, Option.bind_eq_bind, Option.bind_eq_some_iff] at h
      obtain ⟨_, -, fromBank, hfrom, toBank, hto, _, -, _, -, heq⟩ := h
      rw [← Option.some.inj heq]
      exact ⟨⟨bankStr_of_bankStr hfrom, by simp [hfields]⟩, bankStr_of_bankStr hto,
        by simp [hfields]⟩
  · cases h

/-- The ends of a parsed transaction have no comma. -/
theorem commaFree_of_parse (h : parse float line = some t) :
    (edge t).1.CommaFree ∧ (edge t).2.CommaFree := by
  obtain ⟨⟨hfrom, hfromAccount⟩, hto, htoAccount⟩ := ends_of_parse h
  constructor
  · exact ⟨comma_notMem_of_bankStr hfrom, comma_notMem_of_lineFields hfromAccount⟩
  · exact ⟨comma_notMem_of_bankStr hto, comma_notMem_of_lineFields htoAccount⟩

/-- What the pipeline keeps of parsed transactions has accounts without commas. -/
theorem accountsOf_commaFree {transactions : List (Transaction A)}
    (h : ∀ t ∈ transactions, ∃ line t', parse float line = some t' ∧ edge t = edge t') :
    ∀ n ∈ accountsOf transactions, n.CommaFree := by
  intro n hn
  obtain ⟨t, ht, hn⟩ := List.mem_flatMap.mp hn
  obtain ⟨line, t', hparse, hedge⟩ := h t ht
  obtain ⟨horigin, hdestination⟩ := commaFree_of_parse hparse
  rw [hedge] at hn
  rcases List.mem_cons.mp hn with rfl | hn
  · exact horigin
  · rw [List.mem_singleton.mp hn]
    exact hdestination

end TransactionParser

end Messages
