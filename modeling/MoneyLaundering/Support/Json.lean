import Mathlib.Data.List.TakeWhile
import MoneyLaundering.Support.Digits

/-!
# JSON texts

Values that are texts, numbers or lists of values, written as text and read back.  The
text is one line of printable symbols: all others are escaped, those outside the basic
plane as two units of sixteen bits.  A number is kept as its text.
-/

namespace Json

/-- The symbols of numbers. -/
def isNumeric (c : Char) : Bool := c.isDigit || c ∈ ['-', '+', '.', 'e', 'E']

/-- The text of a number. -/
structure Numeral where
  chars : List Char
  ne_nil : chars ≠ []
  numeric : ∀ c ∈ chars, isNumeric c = true

/-- The text of a natural number. -/
def Numeral.ofNat (n : ℕ) : Numeral where
  chars := Nat.toDigits 10 n
  ne_nil := Nat.toDigits_ne_nil
  numeric c hc := by
    rw [isNumeric, Nat.isDigit_of_mem_toDigits (by omega) (by omega) hc]
    rfl

/-- `int(text)` of a natural number. -/
def Numeral.toNat (n : Numeral) : ℕ := Nat.ofDigitChars 10 n.chars 0

@[simp] theorem Numeral.toNat_ofNat (n : ℕ) : (ofNat n).toNat = n :=
  Nat.ofDigitChars_toDigits (by omega) (by omega)

end Json

/-- A value. -/
inductive Json where
  | str (s : List Char)
  | num (n : Json.Numeral)
  | list (values : List Json)

namespace Json

/-! ## Units of sixteen bits -/

/-- The units of a character. -/
def units (c : Char) : List ℕ :=
  if c.toNat < 0x10000 then [c.toNat]
  else [0xd800 + (c.toNat - 0x10000) / 0x400, 0xdc00 + (c.toNat - 0x10000) % 0x400]

/-- The first and the second unit of a pair. -/
def IsPair (u v : ℕ) : Prop := (0xd800 ≤ u ∧ u < 0xdc00) ∧ 0xdc00 ≤ v ∧ v < 0xe000

instance (u v : ℕ) : Decidable (IsPair u v) := inferInstanceAs (Decidable (_ ∧ _))

/-- The character of one unit.  Half of a pair is none. -/
def charOfUnit (u : ℕ) : Option Char :=
  if u.isValidChar then some (Char.ofNat u) else none

/-- The characters of some units. -/
def ofUnits : List ℕ → Option (List Char)
  | [] => some []
  | [u] => (charOfUnit u).map fun c => [c]
  | u :: v :: rest =>
    if IsPair u v then
      (ofUnits rest).map fun cs =>
        Char.ofNat (0x10000 + (u - 0xd800) * 0x400 + (v - 0xdc00)) :: cs
    else (charOfUnit u).bind fun c => (ofUnits (v :: rest)).map fun cs => c :: cs

theorem isValidChar_toNat (c : Char) : c.toNat.isValidChar := c.valid

theorem charOfUnit_toNat (c : Char) : charOfUnit c.toNat = some c := by
  rw [charOfUnit, if_pos (isValidChar_toNat c), Char.ofNat_toNat]

theorem lt_of_mem_units {c : Char} {u : ℕ} (h : u ∈ units c) : u < 0x10000 := by
  have hmax : c.toNat < 0x110000 := by
    have hvalid := isValidChar_toNat c
    unfold Nat.isValidChar at hvalid
    omega
  unfold units at h
  split at h
  · simp only [List.mem_singleton] at h
    omega
  · simp only [List.mem_cons, List.not_mem_nil, or_false] at h
    omega

/-- The units of a text are those of its characters. -/
theorem ofUnits_units (cs : List Char) : ofUnits (cs.flatMap units) = some cs := by
  induction cs with
  | nil => rfl
  | cons c cs ih =>
      rw [List.flatMap_cons, units]
      by_cases hc : c.toNat < 0x10000
      · rw [if_pos hc, List.singleton_append]
        cases hrest : cs.flatMap units with
        | nil =>
            rw [hrest] at ih
            obtain rfl : [] = cs := Option.some.inj ih
            simp [ofUnits, charOfUnit_toNat]
        | cons v rest =>
            have hpair : ¬IsPair c.toNat v := by
              intro hpair
              have hvalid := isValidChar_toNat c
              unfold Nat.isValidChar at hvalid
              unfold IsPair at hpair
              omega
            rw [hrest] at ih
            simp [ofUnits, hpair, charOfUnit_toNat, ih]
      · have hmax : c.toNat < 0x110000 := by
          have hvalid := isValidChar_toNat c
          unfold Nat.isValidChar at hvalid
          omega
        have hpair : IsPair (0xd800 + (c.toNat - 0x10000) / 0x400)
            (0xdc00 + (c.toNat - 0x10000) % 0x400) := by
          unfold IsPair
          omega
        have hback : 0x10000 + (0xd800 + (c.toNat - 0x10000) / 0x400 - 0xd800) * 0x400 +
            (0xdc00 + (c.toNat - 0x10000) % 0x400 - 0xdc00) = c.toNat := by
          omega
        rw [if_neg hc, List.cons_append, List.cons_append, List.nil_append, ofUnits,
          if_pos hpair, ih, Option.map_some, hback, Char.ofNat_toNat]

/-! ## Escapes -/

/-- The units with an escape of one letter. -/
def shortEscapes : List (ℕ × Char) :=
  [(34, '"'), (92, '\\'), (10, 'n'), (13, 'r'), (9, 't'), (12, 'f'), (8, 'b')]

/-- How a unit is written. -/
def escapeUnit (u : ℕ) : List Char :=
  match shortEscapes.lookup u with
  | some letter => ['\\', letter]
  | none =>
    if 32 ≤ u ∧ u ≤ 126 then [Char.ofNat u]
    else '\\' :: 'u' :: (Digits.digits 16 4 u).map Nat.digitChar

/-- The unit of an escape of one letter. -/
def unitOfLetter (letter : Char) : Option ℕ :=
  ((47, '/') :: shortEscapes).find? (fun e => e.2 = letter) |>.map Prod.fst

/-- The number of a hexadecimal digit. -/
def hexValue (c : Char) : Option ℕ :=
  if '0'.toNat ≤ c.toNat ∧ c.toNat ≤ '9'.toNat then some (c.toNat - '0'.toNat)
  else if 'a'.toNat ≤ c.toNat ∧ c.toNat ≤ 'f'.toNat then some (c.toNat - 'a'.toNat + 10)
  else if 'A'.toNat ≤ c.toNat ∧ c.toNat ≤ 'F'.toNat then some (c.toNat - 'A'.toNat + 10)
  else none

/-- Read what follows a backslash. -/
def readEscape : List Char → Option (List ℕ × List Char)
  | [] => none
  | letter :: s =>
    if letter = 'u' then
      if s.length < 4 then none
      else ((s.take 4).mapM hexValue).map fun ds => ([Digits.value 16 ds], s.drop 4)
    else (unitOfLetter letter).map fun u => ([u], s)

/-- Read the next character of a text. -/
def readUnits : List Char → Option (List ℕ × List Char)
  | [] => none
  | c :: s =>
    if c = '\\' then readEscape s
    else if c.toNat < 32 then none
    else some (units c, s)

/-- Read a text up to the quotation mark that ends it, in at most `fuel` steps. -/
def readText : ℕ → List Char → Option (List ℕ × List Char)
  | 0, _ => none
  | fuel + 1, s =>
    if s.head? = some '"' then some ([], s.tail)
    else (readUnits s).bind fun r =>
      (readText fuel r.2).map fun r' => (r.1 ++ r'.1, r'.2)

theorem hexValue_digitChar {d : ℕ} (h : d < 16) : hexValue d.digitChar = some d := by
  have hall : ∀ d < 16, hexValue (Nat.digitChar d) = some d := by decide
  exact hall d h

theorem mapM_hexValue (u : ℕ) :
    ((Digits.digits 16 4 u).map Nat.digitChar).mapM hexValue =
      some (Digits.digits 16 4 u) := by
  have hdigits : ∀ ds : List ℕ, (∀ d ∈ ds, d < 16) →
      (ds.map Nat.digitChar).mapM hexValue = some ds := by
    intro ds
    induction ds with
    | nil => simp
    | cons d ds ih =>
        intro hlt
        rw [List.map_cons, List.mapM_cons, hexValue_digitChar (hlt d List.mem_cons_self),
          ih fun d' hd' => hlt d' (List.mem_cons_of_mem d hd')]
        rfl
  exact hdigits _ fun d hd => Digits.lt_of_mem_digits (by omega) hd

/-- Every way to write a unit is read back, and does not start as the end of a text. -/
theorem readUnits_escapeUnit {u : ℕ} (h : u < 0x10000) (rest : List Char) :
    (escapeUnit u ++ rest).head? ≠ some '"' ∧
      readUnits (escapeUnit u ++ rest) = some ([u], rest) := by
  unfold escapeUnit
  cases hshort : shortEscapes.lookup u with
  | some letter =>
      have hall : ∀ e ∈ shortEscapes, e.2 ≠ 'u' ∧ unitOfLetter e.2 = some e.1 := by decide
      obtain ⟨e, hmem, hu, hletter⟩ : ∃ e ∈ shortEscapes, e.1 = u ∧ e.2 = letter := by
        obtain ⟨before, after, hsplit, -⟩ := List.lookup_eq_some_iff.mp hshort
        refine ⟨(u, letter), ?_, rfl, rfl⟩
        rw [hsplit]
        simp
      obtain ⟨hne, hunit⟩ := hall e hmem
      rw [hletter] at hne hunit
      constructor
      · simp
      · simp [readUnits, readEscape, hne, hunit, hu]
  | none =>
      by_cases hplain : 32 ≤ u ∧ u ≤ 126
      · have hall : ∀ u < 127, 32 ≤ u → shortEscapes.lookup u = none →
            Char.ofNat u ≠ '"' ∧ Char.ofNat u ≠ '\\' ∧ (Char.ofNat u).toNat = u := by
          decide
        obtain ⟨hquote, hslash, htoNat⟩ := hall u (by omega) hplain.1 hshort
        have hunits : units (Char.ofNat u) = [u] := by
          rw [units, htoNat, if_pos h]
        constructor
        · simp [hplain, hquote]
        · simp [hplain, readUnits, hslash, htoNat, hunits]
      · have hlength : ((Digits.digits 16 4 u).map Nat.digitChar).length = 4 := by simp
        have htake : (((Digits.digits 16 4 u).map Nat.digitChar) ++ rest).take 4 =
            (Digits.digits 16 4 u).map Nat.digitChar := by
          exact List.take_left' hlength
        have hdrop : (((Digits.digits 16 4 u).map Nat.digitChar) ++ rest).drop 4 = rest := by
          exact List.drop_left' hlength
        have hvalue : Digits.value 16 (Digits.digits 16 4 u) = u :=
          Digits.value_digits h
        constructor
        · simp [hplain]
        · simp only [if_neg hplain, List.cons_append, readUnits, if_true, readEscape]
          rw [htake, hdrop, mapM_hexValue, Option.map_some, hvalue, if_neg]
          rw [List.length_append, hlength]
          omega

/-- A text is read back up to its end. -/
theorem readText_escape {us : List ℕ} (h : ∀ u ∈ us, u < 0x10000) {fuel : ℕ}
    (hfuel : us.length < fuel) (rest : List Char) :
    readText fuel (us.flatMap escapeUnit ++ '"' :: rest) = some (us, rest) := by
  induction us generalizing fuel with
  | nil =>
      obtain ⟨fuel, rfl⟩ : ∃ n, fuel = n + 1 := ⟨fuel - 1, by omega⟩
      simp [readText]
  | cons u us ih =>
      obtain ⟨fuel, rfl⟩ : ∃ n, fuel = n + 1 := ⟨fuel - 1, by omega⟩
      obtain ⟨hhead, hread⟩ := readUnits_escapeUnit (h u List.mem_cons_self)
        (us.flatMap escapeUnit ++ '"' :: rest)
      have hlength : us.length < fuel := by
        simp only [List.length_cons] at hfuel
        omega
      rw [List.flatMap_cons, List.append_assoc, readText, if_neg hhead, hread,
        Option.bind_some, ih (fun u hu => h u (List.mem_cons_of_mem _ hu)) hlength]
      rfl

/-! ## Writing and reading -/

mutual

/-- `json.dumps`. -/
def dumps : Json → List Char
  | .str s => '"' :: ((s.flatMap units).flatMap escapeUnit ++ ['"'])
  | .num n => n.chars
  | .list [] => ['[', ']']
  | .list (v :: vs) => '[' :: (dumps v ++ (dumpsMore vs ++ [']']))

/-- The values of a list after the first. -/
def dumpsMore : List Json → List Char
  | [] => []
  | v :: vs => ',' :: ' ' :: (dumps v ++ dumpsMore vs)

end

/-- The symbols that stand between values. -/
def isSpace (c : Char) : Bool := c = ' ' || c = '\n' || c = '\t' || c = '\r'

/-- What is left after them. -/
def skip (s : List Char) : List Char := s.dropWhile isSpace

/-- The text of the number that starts with a symbol. -/
def numeralOf (c : Char) (s : List Char) (hc : isNumeric c = true) : Numeral where
  chars := c :: s.takeWhile isNumeric
  ne_nil := List.cons_ne_nil _ _
  numeric d hd := by
    rcases List.mem_cons.mp hd with rfl | hd
    · exact hc
    · exact List.mem_takeWhile_imp hd

mutual

/-- Read one value, in at most `fuel` steps. -/
def readValue : ℕ → List Char → Option (Json × List Char)
  | 0, _ => none
  | fuel + 1, s =>
    match skip s with
    | [] => none
    | c :: s =>
      if c = '"' then
        (readText fuel s).bind fun r => (ofUnits r.1).map fun cs => (.str cs, r.2)
      else if c = '[' then
        if (skip s).head? = some ']' then some (.list [], (skip s).tail)
        else (readValues fuel s).map fun r => (.list r.1, r.2)
      else if hc : isNumeric c = true then
        some (.num (numeralOf c s hc), s.dropWhile isNumeric)
      else none

/-- Read the values of a list up to its end. -/
def readValues : ℕ → List Char → Option (List Json × List Char)
  | 0, _ => none
  | fuel + 1, s =>
    (readValue fuel s).bind fun r =>
      match skip r.2 with
      | [] => none
      | c :: rest =>
        if c = ']' then some ([r.1], rest)
        else if c = ',' then
          (readValues fuel rest).map fun r' => (r.1 :: r'.1, r'.2)
        else none

end

/-- `json.loads`: one value and nothing after it. -/
def loads (s : List Char) : Option Json :=
  match readValue (2 * s.length + 1) s with
  | none => none
  | some r => if skip r.2 = [] then some r.1 else none

/-! ## What was written is read back -/

/-- The text does not go on with a symbol of a number. -/
def Ends (rest : List Char) : Prop := ∀ c ∈ rest.head?, isNumeric c = false

theorem ends_cons {c : Char} (h : isNumeric c = false) (s : List Char) : Ends (c :: s) := by
  intro d hd
  obtain rfl : c = d := Option.some.inj hd
  exact h

theorem isNumeric_of_isSpace {c : Char} (h : isSpace c = true) : isNumeric c = false := by
  simp only [isSpace, Bool.or_eq_true, decide_eq_true_eq] at h
  rcases h with ((rfl | rfl) | rfl) | rfl <;> decide

theorem readValue_space (fuel : ℕ) (s : List Char) :
    readValue fuel (' ' :: s) = readValue fuel s := by
  cases fuel with
  | zero => simp [readValue]
  | succ fuel =>
      have hskip : skip (' ' :: s) = skip s := by simp [skip, isSpace]
      rw [readValue, readValue, hskip]

theorem escapeUnit_ne_nil (u : ℕ) : escapeUnit u ≠ [] := by
  unfold escapeUnit
  split
  · simp
  · split <;> simp

theorem length_le_flatMap_escape (us : List ℕ) :
    us.length ≤ (us.flatMap escapeUnit).length := by
  induction us with
  | nil => simp
  | cons u us ih =>
      have hpos := List.length_pos_of_ne_nil (escapeUnit_ne_nil u)
      rw [List.flatMap_cons, List.length_append, List.length_cons]
      omega

theorem dumps_ne_nil (v : Json) : dumps v ≠ [] := by
  cases v with
  | str s => simp [dumps]
  | num n => exact n.ne_nil
  | list vs => cases vs <;> simp [dumps]

/-- A value does not begin as a list ends. -/
theorem head_dumps (v : Json) :
    ∃ c s, dumps v = c :: s ∧ isSpace c = false ∧ c ≠ ']' := by
  cases v with
  | str s => exact ⟨_, _, by rw [dumps], by decide, by decide⟩
  | list vs =>
      cases vs with
      | nil => exact ⟨_, _, by rw [dumps], by decide, by decide⟩
      | cons v vs => exact ⟨_, _, by rw [dumps], by decide, by decide⟩
  | num n =>
      obtain ⟨chars, hne, hnumeric⟩ := n
      cases chars with
      | nil => exact absurd rfl hne
      | cons c cs =>
          have hc := hnumeric c List.mem_cons_self
          refine ⟨c, cs, rfl, ?_, ?_⟩
          · by_contra hspace
            rw [isNumeric_of_isSpace (by simpa using hspace)] at hc
            cases hc
          · rintro rfl
            exact absurd hc (by decide)

theorem skip_dumps (v : Json) (rest : List Char) :
    skip (dumps v ++ rest) = dumps v ++ rest := by
  obtain ⟨c, s, heq, hspace, -⟩ := head_dumps v
  rw [heq, List.cons_append, skip, List.dropWhile_cons_of_neg (by simp [hspace])]

/-- A number is read up to its end. -/
theorem readValue_num (n : Numeral) {fuel : ℕ} {rest : List Char} (hrest : Ends rest) :
    readValue (fuel + 1) (n.chars ++ rest) = some (.num n, rest) := by
  have hskip := skip_dumps (.num n) rest
  rw [dumps] at hskip
  rw [readValue, hskip]
  obtain ⟨chars, hne, hnumeric⟩ := n
  cases chars with
  | nil => exact absurd rfl hne
  | cons c cs =>
      have hc := hnumeric c List.mem_cons_self
      have hquote : c ≠ '"' := by
        rintro rfl
        exact absurd hc (by decide)
      have hlist : c ≠ '[' := by
        rintro rfl
        exact absurd hc (by decide)
      have hcs : ∀ d ∈ cs, isNumeric d = true :=
        fun d hd => hnumeric d (List.mem_cons_of_mem _ hd)
      have hends : rest.takeWhile isNumeric = [] ∧ rest.dropWhile isNumeric = rest := by
        cases rest with
        | nil => simp
        | cons d rest =>
            have hd : isNumeric d = false := hrest d rfl
            simp [hd]
      have htake : (cs ++ rest).takeWhile isNumeric = cs := by
        rw [List.takeWhile_append_of_pos hcs, hends.1, List.append_nil]
      have hdrop : (cs ++ rest).dropWhile isNumeric = rest := by
        rw [List.dropWhile_append_of_pos hcs, hends.2]
      simp [hquote, hlist, hc, htake, hdrop, numeralOf]

mutual

/-- A value that was written is read back. -/
theorem readValue_dumps : ∀ (v : Json) (fuel : ℕ) (rest : List Char),
    2 * (dumps v).length ≤ fuel → Ends rest →
      readValue fuel (dumps v ++ rest) = some (v, rest)
  | .str s, fuel, rest, hfuel, hrest => by
      rw [dumps, List.length_cons, List.length_append] at hfuel
      obtain ⟨fuel, rfl⟩ : ∃ n, fuel = n + 1 := ⟨fuel - 1, by omega⟩
      have hskip := skip_dumps (.str s) rest
      have hle := length_le_flatMap_escape (s.flatMap units)
      have hread : readText fuel ((s.flatMap units).flatMap escapeUnit ++ '"' :: rest) =
          some (s.flatMap units, rest) := by
        apply readText_escape
        · intro u hu
          obtain ⟨c, -, hmem⟩ := List.mem_flatMap.mp hu
          exact lt_of_mem_units hmem
        · omega
      rw [readValue, hskip, dumps]
      simp [hread, ofUnits_units]
  | .num n, fuel, rest, hfuel, hrest => by
      have hpos := List.length_pos_of_ne_nil (dumps_ne_nil (.num n))
      obtain ⟨fuel, rfl⟩ : ∃ n, fuel = n + 1 := ⟨fuel - 1, by omega⟩
      rw [dumps]
      exact readValue_num n hrest
  | .list [], fuel, rest, hfuel, hrest => by
      rw [dumps] at hfuel
      obtain ⟨fuel, rfl⟩ : ∃ n, fuel = n + 1 := ⟨fuel - 1, by simp at hfuel; omega⟩
      simp [dumps, readValue, skip, isSpace]
  | .list (v :: vs), fuel, rest, hfuel, hrest => by
      rw [dumps, List.length_cons, List.length_append, List.length_append] at hfuel
      obtain ⟨fuel, rfl⟩ : ∃ n, fuel = n + 1 := ⟨fuel - 1, by omega⟩
      have hskip := skip_dumps (.list (v :: vs)) rest
      have hread := readValues_dumps v vs fuel rest (by simp at hfuel ⊢; omega)
      have hhead : (dumps v ++ (dumpsMore vs ++ ']' :: rest)).head? ≠ some ']' := by
        obtain ⟨c, s, heq, -, hne⟩ := head_dumps v
        rw [heq]
        simpa using hne
      have hcons : dumps (.list (v :: vs)) ++ rest =
          '[' :: (dumps v ++ (dumpsMore vs ++ ']' :: rest)) := by simp [dumps]
      rw [readValue, hskip, hcons]
      dsimp only
      rw [if_neg (by decide), if_pos rfl, skip_dumps, if_neg hhead, hread]
      rfl

/-- The values of a list are read back up to its end. -/
theorem readValues_dumps : ∀ (v : Json) (vs : List Json) (fuel : ℕ) (rest : List Char),
    2 * ((dumps v).length + (dumpsMore vs).length) + 1 ≤ fuel →
      readValues fuel (dumps v ++ (dumpsMore vs ++ ']' :: rest)) = some (v :: vs, rest)
  | v, [], fuel, rest, hfuel => by
      obtain ⟨fuel, rfl⟩ : ∃ n, fuel = n + 1 := ⟨fuel - 1, by omega⟩
      rw [dumpsMore, List.length_nil] at hfuel
      have hread := readValue_dumps v fuel (']' :: rest) (by omega)
        (ends_cons (by decide) _)
      rw [readValues, dumpsMore, List.nil_append, hread]
      simp [skip, isSpace]
  | v, w :: vs, fuel, rest, hfuel => by
      obtain ⟨fuel, rfl⟩ : ∃ n, fuel = n + 1 := ⟨fuel - 1, by omega⟩
      rw [dumpsMore, List.length_cons, List.length_cons, List.length_append] at hfuel
      have hread := readValue_dumps v fuel
        (',' :: ' ' :: (dumps w ++ (dumpsMore vs ++ ']' :: rest))) (by omega)
        (ends_cons (by decide) _)
      have hmore := readValues_dumps w vs fuel rest (by omega)
      have hspace : readValues fuel (' ' :: (dumps w ++ (dumpsMore vs ++ ']' :: rest))) =
          readValues fuel (dumps w ++ (dumpsMore vs ++ ']' :: rest)) := by
        cases fuel with
        | zero => simp [readValues]
        | succ fuel => rw [readValues, readValues, readValue_space]
      rw [readValues, dumpsMore, List.cons_append, List.cons_append, List.append_assoc, hread]
      simp [skip, isSpace, hspace, hmore]

end

/-! ## One line of printable symbols -/

/-- The symbols from the space to the tilde. -/
def IsPrintable (c : Char) : Prop := 32 ≤ c.toNat ∧ c.toNat ≤ 126

instance (c : Char) : Decidable (IsPrintable c) := inferInstanceAs (Decidable (_ ∧ _))

theorem isPrintable_of_isNumeric {c : Char} (h : isNumeric c = true) : IsPrintable c := by
  rw [isNumeric, Bool.or_eq_true, decide_eq_true_eq] at h
  rcases h with hdigit | hmem
  · rw [Char.isDigit_iff_toNat] at hdigit
    obtain ⟨hlow, hhigh⟩ := hdigit
    exact ⟨le_trans (by decide) hlow, le_trans hhigh (by decide)⟩
  · have hall : ∀ c ∈ ['-', '+', '.', 'e', 'E'], IsPrintable c := by simp [IsPrintable]
    exact hall c hmem

theorem isPrintable_of_mem_escapeUnit {u : ℕ} {c : Char} (h : c ∈ escapeUnit u) :
    IsPrintable c := by
  unfold escapeUnit at h
  cases hshort : shortEscapes.lookup u with
  | some letter =>
      have hall : ∀ e ∈ shortEscapes, ∀ c ∈ ['\\', e.2], IsPrintable c := by
        simp [shortEscapes, IsPrintable]
      obtain ⟨before, after, hsplit, -⟩ := List.lookup_eq_some_iff.mp hshort
      rw [hshort] at h
      exact hall (u, letter) (by rw [hsplit]; simp) c h
  | none =>
      rw [hshort] at h
      by_cases hplain : 32 ≤ u ∧ u ≤ 126
      · have hall : ∀ u < 127, 32 ≤ u → IsPrintable (Char.ofNat u) := by decide
        simp only [if_pos hplain, List.mem_singleton] at h
        rw [h]
        exact hall u (by omega) hplain.1
      · simp only [if_neg hplain, List.mem_cons, List.mem_map] at h
        rcases h with rfl | rfl | ⟨d, hd, rfl⟩
        · decide
        · decide
        · have hall : ∀ d < 16, IsPrintable (Nat.digitChar d) := by decide
          exact hall d (Digits.lt_of_mem_digits (by omega) hd)

mutual

theorem isPrintable_of_mem_dumps : ∀ (v : Json), ∀ c ∈ dumps v, IsPrintable c
  | .str s, c, hc => by
      rw [dumps, List.mem_cons, List.mem_append, List.mem_singleton] at hc
      rcases hc with rfl | hc | rfl
      · decide
      · obtain ⟨u, -, hmem⟩ := List.mem_flatMap.mp hc
        exact isPrintable_of_mem_escapeUnit hmem
      · decide
  | .num n, c, hc => isPrintable_of_isNumeric (n.numeric c hc)
  | .list [], c, hc => by
      have hall : ∀ c ∈ ['[', ']'], IsPrintable c := by simp [IsPrintable]
      exact hall c hc
  | .list (v :: vs), c, hc => by
      rw [dumps, List.mem_cons, List.mem_append, List.mem_append, List.mem_singleton] at hc
      rcases hc with rfl | hc | hc | rfl
      · decide
      · exact isPrintable_of_mem_dumps v c hc
      · exact isPrintable_of_mem_dumpsMore vs c hc
      · decide

theorem isPrintable_of_mem_dumpsMore : ∀ (vs : List Json), ∀ c ∈ dumpsMore vs, IsPrintable c
  | [], c, hc => by
      rw [dumpsMore] at hc
      cases hc
  | v :: vs, c, hc => by
      rw [dumpsMore, List.mem_cons, List.mem_cons, List.mem_append] at hc
      rcases hc with rfl | rfl | hc | hc
      · decide
      · decide
      · exact isPrintable_of_mem_dumps v c hc
      · exact isPrintable_of_mem_dumpsMore vs c hc

end

/-- `loads` undoes `dumps`, also with white space after it. -/
theorem loads_dumps (v : Json) {rest : List Char} (h : ∀ c ∈ rest, isSpace c = true) :
    loads (dumps v ++ rest) = some v := by
  have hends : Ends rest := by
    intro c hc
    exact isNumeric_of_isSpace (h c (List.mem_of_mem_head? hc))
  have hskip : skip rest = [] := List.dropWhile_eq_nil_iff.mpr h
  rw [loads, readValue_dumps v _ rest (by simp; omega) hends]
  simp [hskip]

end Json
