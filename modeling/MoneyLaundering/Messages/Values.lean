import MoneyLaundering.Basic
import MoneyLaundering.Support.Dict
import MoneyLaundering.Support.Digits
import Mathlib.Data.List.DropRight

/-!
# Values on the wire

The payload of a message is a list of values that a packing library turns into bytes.  The
module has these values, how the texts of identifiers and of times are written into them,
and how each is read back.
-/

namespace Messages

/-! ## Texts -/

/-- The digits of numerals. -/
def digitChars : List Char :=
  ['0', '1', '2', '3', '4', '5', '6', '7', '8', '9', 'a', 'b', 'c', 'd', 'e', 'f']

/-- The digit of a number below sixteen. -/
def digitChar (d : ℕ) : Char := digitChars.getD d '0'

/-- The number of a digit in base `b`. -/
def digitValue (b : ℕ) (c : Char) : Option ℕ :=
  if digitChars.idxOf c < b then some (digitChars.idxOf c) else none

/-- A numeral of a fixed width, filled up with zeros. -/
def numeral (b k n : ℕ) : List Char := (Digits.digits b k n).map digitChar

/-- `int(s, b)` of a text of digits. -/
def parseInt (b : ℕ) (s : List Char) : Option ℕ :=
  if s = [] then none else (s.mapM (digitValue b)).map (Digits.value b)

theorem digitValue_digitChar {b d : ℕ} (hb : b ≤ 16) (hd : d < b) :
    digitValue b (digitChar d) = some d := by
  have hidx : ∀ d < 16, digitChars.idxOf (digitChar d) = d := by decide
  rw [digitValue, hidx d (by omega), if_pos hd]

/-- A numeral that is wide enough is read back. -/
theorem parseInt_numeral {b k n : ℕ} (hb : 0 < b) (hb' : b ≤ 16) (hk : 0 < k)
    (h : n < b ^ k) : parseInt b (numeral b k n) = some n := by
  have hdigits : ∀ ds : List ℕ, (∀ d ∈ ds, d < b) →
      (ds.map digitChar).mapM (digitValue b) = some ds := by
    intro ds
    induction ds with
    | nil => simp
    | cons d ds ih =>
        intro hlt
        rw [List.map_cons, List.mapM_cons,
          digitValue_digitChar hb' (hlt d List.mem_cons_self),
          ih fun d' hd' => hlt d' (List.mem_cons_of_mem d hd')]
        rfl
  have hne : numeral b k n ≠ [] := by
    apply List.ne_nil_of_length_pos
    simpa [numeral] using hk
  rw [parseInt, if_neg hne, numeral, hdigits _ fun d => Digits.lt_of_mem_digits hb,
    Option.map_some, Digits.value_digits h]

theorem digitValue_natDigitChar {d : ℕ} (hd : d < 10) :
    digitValue 10 (Nat.digitChar d) = some d := by
  have hidx : ∀ d < 10, digitChars.idxOf (Nat.digitChar d) = d := by decide
  rw [digitValue, hidx d hd, if_pos hd]

/-- The decimal text of a number is read back. -/
theorem parseInt_repr (n : ℕ) : parseInt 10 (Nat.repr n).toList = some n := by
  have hdigits : ∃ ds, (Nat.toDigits 10 n).mapM (digitValue 10) = some ds ∧
      Digits.value 10 ds = n := by
    induction n using Nat.base_induction 10 (by omega) with
    | single m hm =>
        refine ⟨[m], ?_, by simp [Digits.value]⟩
        simp [Nat.toDigits_of_lt_base hm, digitValue_natDigitChar hm]
    | digit m k hk hm ih =>
        obtain ⟨ds, hds, hvalue⟩ := ih
        refine ⟨ds ++ [k], ?_, ?_⟩
        · rw [← Nat.toDigits_append_toDigits (by omega) hm hk, List.mapM_append, hds,
            Nat.toDigits_of_lt_base hk]
          simp [digitValue_natDigitChar hk]
        · rw [Digits.value, List.foldl_append, ← Digits.value, hvalue]
          rfl
  obtain ⟨ds, hds, hvalue⟩ := hdigits
  have hne : Nat.toDigits 10 n ≠ [] := Nat.toDigits_ne_nil
  rw [Nat.repr, String.toList_ofList, parseInt, if_neg hne, hds, Option.map_some, hvalue]

/-- A character that is no digit stops the reading. -/
theorem notMem_of_parseInt {b n : ℕ} {s : List Char} {c : Char} (h : parseInt b s = some n)
    (hc : digitValue b c = none) : c ∉ s := by
  have hstop : ∀ s : List Char, c ∈ s → s.mapM (digitValue b) = none := by
    intro s
    induction s with
    | nil => simp
    | cons c' s ih =>
        intro hmem
        rw [List.mapM_cons]
        rcases List.mem_cons.mp hmem with heq | hmem
        · simp [← heq, hc]
        · simp [ih hmem]
  intro hmem
  have hne : s ≠ [] := List.ne_nil_of_mem hmem
  rw [parseInt, if_neg hne, hstop s hmem] at h
  cases h

/-- The white space that `int` strips. -/
def spaces : List Char :=
  [' ', '\t', '\n', '\r', Char.ofNat 11, Char.ofNat 12]

def strip (s : List Char) : List Char :=
  (s.dropWhile (· ∈ spaces)).rdropWhile (· ∈ spaces)

/-- Digits with single underscores between them. -/
def parseDigits (s : List Char) : Option ℕ :=
  let groups := s.splitOn '_'
  if [] ∈ groups then none else parseInt 10 groups.flatten

/-- `int(s)`, which takes white space around the numeral and a sign before it. -/
def int (s : List Char) : Option ℤ :=
  match strip s with
  | '-' :: digits => (parseDigits digits).map fun n : ℕ => -(n : ℤ)
  | '+' :: digits => (parseDigits digits).map fun n : ℕ => (n : ℤ)
  | digits => (parseDigits digits).map fun n : ℕ => (n : ℤ)

theorem strip_eq_self {s : List Char} (h : ∀ c ∈ s, c ∉ spaces) : strip s = s := by
  have hspace : ∀ c ∈ s, ¬(decide (c ∈ spaces) = true) := by
    intro c hc
    simpa using h c hc
  rw [strip, List.dropWhile_eq_self_iff.mpr fun _ => hspace _ (List.getElem_mem _),
    List.rdropWhile_eq_self_iff.mpr fun _ => hspace _ (List.getLast_mem _)]

section Decimal

variable {s : List Char} {n : ℕ} {c : Char}

theorem notMem_of_decimal (h : parseInt 10 s = some n) (hc : c ∈ '-' :: '+' :: '_' :: spaces) :
    c ∉ s := by
  have hnone : ('-' :: '+' :: '_' :: spaces).all (fun c => digitValue 10 c = none) := by
    decide
  exact notMem_of_parseInt h (of_decide_eq_true (List.all_eq_true.mp hnone c hc))

theorem notMem_spaces_of_decimal (h : parseInt 10 s = some n) (hc : c ∈ s) : c ∉ spaces :=
  fun hspace => notMem_of_decimal h (by simp [hspace]) hc

theorem parseDigits_of_decimal (h : parseInt 10 s = some n) : parseDigits s = some n := by
  have hne : s ≠ [] := by
    rintro rfl
    cases h
  rw [parseDigits, List.splitOn_eq_singleton (notMem_of_decimal h (by simp))]
  simpa [hne] using h

/-- A text of digits alone. -/
theorem int_of_decimal (h : parseInt 10 s = some n) : int s = some (n : ℤ) := by
  rw [int, strip_eq_self fun c => notMem_spaces_of_decimal h]
  split
  · exact absurd List.mem_cons_self (notMem_of_decimal (c := '-') h (by simp))
  · exact absurd List.mem_cons_self (notMem_of_decimal (c := '+') h (by simp))
  · rw [parseDigits_of_decimal h, Option.map_some]

theorem int_minus_of_decimal (h : parseInt 10 s = some n) :
    int ('-' :: s) = some (-(n : ℤ)) := by
  have hstrip : strip ('-' :: s) = '-' :: s := by
    apply strip_eq_self
    intro c hc
    rcases List.mem_cons.mp hc with rfl | hc
    · decide
    · exact notMem_spaces_of_decimal h hc
  rw [int, hstrip]
  simp only [parseDigits_of_decimal h, Option.map_some]

end Decimal

/-- `int(str(i))`. -/
theorem int_toString (i : ℤ) : int (toString i).toList = some i := by
  cases i with
  | ofNat n =>
      change int (Nat.repr n).toList = _
      exact int_of_decimal (parseInt_repr n)
  | negSucc n =>
      have htext : (toString (Int.negSucc n)).toList = '-' :: (Nat.repr (n + 1)).toList := by
        change ("-" ++ Nat.repr (n + 1)).toList = _
        simp
      rw [htext, int_minus_of_decimal (parseInt_repr (n + 1)), Int.negSucc_eq]
      rfl

example : int [' ', '+', '1', '_', '0', '\n'] = some 10 := by decide

example : int ['1', '_', '_', '0'] = none := by decide

/-! ## Client identifiers -/

/-- The bytes of a number in big-endian order, `to_bytes`. -/
def toBytes (k n : ℕ) : Bytes := (Digits.digits 256 k n).map UInt8.ofNat

/-- `int.from_bytes`. -/
def fromBytes (bytes : Bytes) : ℕ := Digits.value 256 (bytes.map UInt8.toNat)

@[simp] theorem length_toBytes (k n : ℕ) : (toBytes k n).length = k := by
  simp [toBytes]

theorem fromBytes_toBytes {k n : ℕ} (h : n < 256 ^ k) : fromBytes (toBytes k n) = n := by
  have hbytes : (toBytes k n).map UInt8.toNat = Digits.digits 256 k n := by
    rw [toBytes, List.map_map]
    apply (List.map_congr_left _).trans (List.map_id _)
    intro d hd
    have hlt := Digits.lt_of_mem_digits (by omega) hd
    simp [Nat.mod_eq_of_lt hlt]
  rw [fromBytes, hbytes, Digits.value_digits h]

/-- `client_id.bytes`. -/
def uuidBytes (u : UUID) : Bytes := toBytes 16 u.toNat

/-- `UUID(bytes=...)`, which takes sixteen bytes. -/
def uuidOfBytes (bytes : Bytes) : Option UUID :=
  if bytes.length = 16 then some (BitVec.ofNat 128 (fromBytes bytes)) else none

theorem uuidOfBytes_uuidBytes (u : UUID) : uuidOfBytes (uuidBytes u) = some u := by
  have hlt : u.toNat < 256 ^ 16 := u.isLt
  simp [uuidOfBytes, uuidBytes, fromBytes_toBytes hlt]

/-- `str(client_id)`: five groups of hexadecimal digits. -/
def uuidStr (u : UUID) : String :=
  let hex := numeral 16 32 u.toNat
  String.ofList (hex.take 8 ++ '-' :: (hex.drop 8).take 4 ++ '-' :: (hex.drop 12).take 4 ++
    '-' :: (hex.drop 16).take 4 ++ '-' :: hex.drop 20)

/-- `UUID(s)`: thirty-two hexadecimal digits, hyphens apart. -/
def uuidOfStr (s : String) : Option UUID :=
  let hex := s.toList.filter (· ≠ '-')
  if hex.length = 32 then (parseInt 16 hex).map (BitVec.ofNat 128) else none

theorem hyphen_notMem_numeral {b k n : ℕ} (hb : 0 < b) (hb' : b ≤ 16) :
    '-' ∉ numeral b k n := by
  intro hmem
  obtain ⟨d, hd, heq⟩ := List.mem_map.mp hmem
  have hlt := Digits.lt_of_mem_digits hb hd
  have hne : ∀ d < 16, digitChar d ≠ '-' := by decide
  exact hne d (by omega) heq

theorem take_drop_append {A : Type} (l : List A) (i n : ℕ) :
    (l.drop i).take n ++ l.drop (i + n) = l.drop i := by
  rw [← List.drop_drop, List.take_append_drop]

/-- Without the hyphens the text of an identifier is a numeral. -/
theorem filter_uuidStr (u : UUID) :
    (uuidStr u).toList.filter (· ≠ '-') = numeral 16 32 u.toNat := by
  have hno : '-' ∉ numeral 16 32 u.toNat := hyphen_notMem_numeral (by omega) (by omega)
  rw [uuidStr, String.toList_ofList]
  generalize numeral 16 32 u.toNat = hex at hno ⊢
  have hpart : ∀ part : List Char, part ⊆ hex → part.filter (· ≠ '-') = part := by
    intro part hsub
    apply List.filter_eq_self.mpr
    intro c hc
    apply decide_eq_true
    rintro rfl
    exact hno (hsub hc)
  have hgroup : ∀ i, ((hex.drop i).take 4).filter (· ≠ '-') = (hex.drop i).take 4 :=
    fun i => hpart _ fun c hc => List.mem_of_mem_drop (List.mem_of_mem_take hc)
  simp only [List.filter_append, List.filter_cons, ne_eq, not_true_eq_false, decide_false,
    Bool.false_eq_true, if_false, List.append_assoc] at hgroup hpart ⊢
  rw [hgroup, hgroup, hgroup, hpart _ (List.take_subset 8 hex),
    hpart _ (List.drop_subset 20 hex), take_drop_append hex 16 4, take_drop_append hex 12 4,
    take_drop_append hex 8 4, List.take_append_drop]

/-- A client identifier is read back from its text. -/
theorem uuidOfStr_uuidStr (u : UUID) : uuidOfStr (uuidStr u) = some u := by
  have hlt : u.toNat < 16 ^ 32 := u.isLt
  have hlength : (numeral 16 32 u.toNat).length = 32 := by simp [numeral]
  simp only [uuidOfStr, filter_uuidStr, hlength, if_true]
  rw [parseInt_numeral (by omega) (by omega) (by omega) hlt]
  simp

/-! ## Times -/

/-- The days of a month. -/
def daysInMonth (year month : ℕ) : ℕ :=
  if month = 2 then
    if year % 4 = 0 ∧ (year % 100 ≠ 0 ∨ year % 400 = 0) then 29 else 28
  else if month ∈ [4, 6, 9, 11] then 30 else 31

/-- What `datetime` accepts. -/
def IsDateTime (year month day hour minute second : ℕ) : Prop :=
  (1 ≤ year ∧ year ≤ 9999) ∧ (1 ≤ month ∧ month ≤ 12) ∧
    (1 ≤ day ∧ day ≤ daysInMonth year month) ∧ hour < 24 ∧ minute < 60 ∧ second < 60

instance (year month day hour minute second : ℕ) :
    Decidable (IsDateTime year month day hour minute second) :=
  inferInstanceAs (Decidable (_ ∧ _))

/-- A `datetime` of whole seconds. -/
structure DateTime where
  year : ℕ
  month : ℕ
  day : ℕ
  hour : ℕ
  minute : ℕ
  second : ℕ
  valid : IsDateTime year month day hour minute second
deriving DecidableEq

namespace DateTime

/-- `datetime(...)`, which fails on a time that does not exist. -/
def ofFields (year month day hour minute second : ℕ) : Option DateTime :=
  if h : IsDateTime year month day hour minute second then
    some ⟨year, month, day, hour, minute, second, h⟩
  else none

/-- The characters of `str(d)`. -/
def chars (d : DateTime) : List Char :=
  numeral 10 4 d.year ++ '-' :: numeral 10 2 d.month ++ '-' :: numeral 10 2 d.day ++
    ' ' :: numeral 10 2 d.hour ++ ':' :: numeral 10 2 d.minute ++
    ':' :: numeral 10 2 d.second

/-- `str(d)`. -/
def str (d : DateTime) : String := String.ofList d.chars

end DateTime

/-- `s[i:j]`. -/
def slice {X : Type} (i j : ℕ) (s : List X) : List X := (s.drop i).take (j - i)

/-- `fast_datetime`; no field of a `datetime` is negative. -/
def fastDatetime (text : String) : Option DateTime := do
  let s := text.toList
  let field (i j : ℕ) : Option ℕ := (int (slice i j s)).bind Int.toNat?
  let year ← field 0 4
  let month ← field 5 7
  let day ← field 8 10
  let hour ← field 11 13
  let minute ← field 14 16
  let second ← if 19 ≤ s.length then field 17 19 else some 0
  DateTime.ofFields year month day hour minute second

/-- A time of whole seconds is read back from its text. -/
theorem fastDatetime_str (d : DateTime) : fastDatetime d.str = some d := by
  have hvalid := d.valid
  obtain ⟨⟨-, hyear⟩, ⟨-, hmonth⟩, ⟨-, hday⟩, hhour, hminute, hsecond⟩ := hvalid
  have hdays : daysInMonth d.year d.month ≤ 31 := by
    unfold daysInMonth
    split
    · split <;> omega
    · split <;> omega
  have hfield : ∀ {k n : ℕ}, 0 < k → n < 10 ^ k →
      (int (numeral 10 k n)).bind Int.toNat? = some n := by
    intro k n hk hn
    rw [int_of_decimal (parseInt_numeral (by omega) (by omega) hk hn)]
    rfl
  have htwo : ∀ n < 100, (int (numeral 10 2 n)).bind Int.toNat? = some n :=
    fun n hn => hfield (by omega) hn
  have hfour : (int (numeral 10 4 d.year)).bind Int.toNat? = some d.year :=
    hfield (by omega) (by omega)
  have hslices : slice 0 4 d.chars = numeral 10 4 d.year ∧
      slice 5 7 d.chars = numeral 10 2 d.month ∧ slice 8 10 d.chars = numeral 10 2 d.day ∧
      slice 11 13 d.chars = numeral 10 2 d.hour ∧
      slice 14 16 d.chars = numeral 10 2 d.minute ∧
      slice 17 19 d.chars = numeral 10 2 d.second ∧ d.chars.length = 19 :=
    ⟨rfl, rfl, rfl, rfl, rfl, rfl, rfl⟩
  obtain ⟨h0, h5, h8, h11, h14, h17, hlength⟩ := hslices
  simp only [fastDatetime, DateTime.str, String.toList_ofList, h0, h5, h8, h11, h14, h17,
    hlength, hfour, htwo d.month (by omega), htwo d.day (by omega), htwo d.hour (by omega),
    htwo d.minute (by omega), htwo d.second (by omega)]
  exact dif_pos d.valid

/-! ## Packed values -/

/-- A value as it is packed.  Tuples are packed as lists; `A` are the floats. -/
inductive Value (A : Type) where
  | int (n : ℤ)
  | float (a : A)
  | str (s : String)
  | bool (b : Bool)
  | list (vs : List (Value A))
  | map (entries : List (Value A × Value A))

/-- The packing library. -/
structure MsgPack (A : Type) where
  packb : Value A → Bytes
  unpackb : Bytes → Option (Value A)

namespace Value

variable {A X Y : Type}

/-! A typed message has no place for a value of another type than the declared one, so
reading such a value fails. -/

def int? : Value A → Option ℤ
  | .int n => some n
  | _ => none

def float? : Value A → Option A
  | .float a => some a
  | _ => none

def str? : Value A → Option String
  | .str s => some s
  | _ => none

def bool? : Value A → Option Bool
  | .bool b => some b
  | _ => none

def list? : Value A → Option (List (Value A))
  | .list vs => some vs
  | _ => none

/-- A dictionary with packed keys and values. -/
def ofDict (packKey : X → Value A) (packVal : Y → Value A) (d : Dict X Y) : Value A :=
  .map (d.entries.map fun e => (packKey e.1, packVal e.2))

/-- Read a dictionary. -/
def dict? [DecidableEq X] (key? : Value A → Option X) (val? : Value A → Option Y) :
    Value A → Option (Dict X Y)
  | .map entries =>
    (entries.mapM fun e : Value A × Value A => do
      return (← key? e.1, ← val? e.2)).map Dict.ofList
  | _ => none

end Value

variable {A X Y : Type}

theorem mapM_map_some_of_mem {pack : X → Y} {read : Y → Option X} {xs : List X}
    (h : ∀ x ∈ xs, read (pack x) = some x) : (xs.map pack).mapM read = some xs := by
  rw [Dict.mapM_map_eq h, List.map_id']

theorem mapM_map_some {pack : X → Y} {read : Y → Option X} (h : ∀ x, read (pack x) = some x)
    (xs : List X) : (xs.map pack).mapM read = some xs :=
  mapM_map_some_of_mem fun x _ => h x

theorem Value.dict?_ofDict [DecidableEq X] {packKey : X → Value A} {packVal : Y → Value A}
    {key? : Value A → Option X} {val? : Value A → Option Y}
    (hkey : ∀ x, key? (packKey x) = some x) (hval : ∀ y, val? (packVal y) = some y)
    (d : Dict X Y) : dict? key? val? (ofDict packKey packVal d) = some d := by
  rw [ofDict, dict?, mapM_map_some, Option.map_some, Dict.ofList_entries]
  intro e
  simp [hkey, hval]

end Messages
