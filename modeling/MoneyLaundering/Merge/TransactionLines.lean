import MoneyLaundering.Messages.Classes
import MoneyLaundering.Spill.LineCodec

/-!
# Transactions in a spill

The merge of averages writes a transaction to a line of JSON, its time as a text.  Transactions
that a filter by period keeps are read back as they were.
-/

namespace Messages

variable {A : Type}

/-- The numbers of a JSON text. -/
structure NumberText (A : Type) where
  write : A → Json.Numeral
  read : Json.Numeral → Option A

/-- `d.strftime("%Y-%m-%d %H:%M:%S")`, which does not fill up the year. -/
def DateTime.strftime (d : DateTime) : List Char :=
  Nat.toDigits 10 d.year ++ '-' :: numeral 10 2 d.month ++ '-' :: numeral 10 2 d.day ++
    ' ' :: numeral 10 2 d.hour ++ ':' :: numeral 10 2 d.minute ++
    ':' :: numeral 10 2 d.second

/-- The separators of `strptime` and where they stand when no number is short. -/
def separators : List (ℕ × Char) := [(4, '-'), (7, '-'), (10, ' '), (13, ':'), (16, ':')]

/-- `datetime.strptime(s, "%Y-%m-%d %H:%M:%S")` of a text whose numbers, apart from the year,
are as wide as `strftime` writes them; it takes a year of four digits only. -/
def strptime (s : List Char) : Option DateTime :=
  if s.length = 19 ∧ ∀ e ∈ separators, s[e.1]? = some e.2 then
    fastDatetime (String.ofList s)
  else none

theorem toDigits_year {year : ℕ} (hle : 1000 ≤ year) (hlt : year < 10000) :
    Nat.toDigits 10 year = numeral 10 4 year := by
  have hdigit : ∀ d < 10, Nat.digitChar d = digitChar d := by decide
  rw [Nat.toDigits_of_base_le (by omega) (by omega),
    Nat.toDigits_of_base_le (by omega) (by omega),
    Nat.toDigits_of_base_le (by omega) (by omega), Nat.toDigits_of_lt_base (by omega)]
  simp only [numeral, Digits.digits, List.map_append, List.map_cons, List.map_nil,
    List.nil_append]
  rw [hdigit _ (by omega), hdigit _ (by omega), hdigit _ (by omega), hdigit _ (by omega),
    Nat.mod_eq_of_lt (a := year / 10 / 10 / 10) (by omega)]

/-- A time of a year with four digits is read back. -/
theorem strptime_strftime (d : DateTime) (hyear : 1000 ≤ d.year) :
    strptime d.strftime = some d := by
  have hchars : d.strftime = d.chars := by
    rw [DateTime.strftime, toDigits_year hyear (by have hvalid := d.valid.1.2; omega)]
    rfl
  have hlayout : d.chars.length = 19 ∧ ∀ e ∈ separators, d.chars[e.1]? = some e.2 := by
    constructor
    · rfl
    · simp only [separators, List.forall_mem_cons, List.not_mem_nil, false_imp_iff,
        implies_true, and_true]
      exact ⟨rfl, rfl, rfl, rfl, rfl⟩
  rw [hchars, strptime, if_pos hlayout]
  exact fastDatetime_str d

namespace UC3BankIdMerge

variable (numbers : NumberText A)

/-- What is written of a time; a text, which has no `strftime`, is not received. -/
def writeTime : Timestamp → List Char
  | .datetime d => d.strftime
  | .text s => s.toList

/-- `_serialize`, before it is text. -/
def serialize (t : Transaction A) : Json :=
  .list [.str (writeTime t.timestamp), .str t.fromBank.toList, .str t.fromAccount.toList,
    .str t.toBank.toList, .str t.toAccount.toList, .num (numbers.write t.amountReceived),
    .str t.receivingCurrency.toList, .num (numbers.write t.amountPaid),
    .str t.paymentCurrency.toList, .str t.paymentFormat.toList]

/-- `_deserialize`, after the text was read. -/
def deserialize : Json → Option (Transaction A)
  | .list [.str timestamp, .str fromBank, .str fromAccount, .str toBank, .str toAccount,
      .num amountReceived, .str receivingCurrency, .num amountPaid, .str paymentCurrency,
      .str paymentFormat] => do
    return ⟨.datetime (← strptime timestamp), String.ofList fromBank, String.ofList fromAccount,
      String.ofList toBank, String.ofList toAccount, ← numbers.read amountReceived,
      String.ofList receivingCurrency, ← numbers.read amountPaid,
      String.ofList paymentCurrency, String.ofList paymentFormat⟩
  | _ => none

instance [Inhabited A] : Inhabited (Transaction A) :=
  ⟨⟨.text "", "", "", "", "", default, "", default, "", ""⟩⟩

/-- The lines of the spill. -/
def lines [Inhabited A] : LineCodec (Transaction A) :=
  .json (serialize numbers) (deserialize numbers)

/-- The amounts of a transaction are read back from their texts. -/
def Exact (t : Transaction A) : Prop :=
  numbers.read (numbers.write t.amountReceived) = some t.amountReceived ∧
    numbers.read (numbers.write t.amountPaid) = some t.amountPaid

/-- A transaction that is read back from its line. -/
structure Readable (t : Transaction A) : Prop where
  time : ∃ d, t.timestamp = .datetime d ∧ 1000 ≤ d.year
  amounts : Exact numbers t

theorem deserialize_serialize {t : Transaction A} (h : Readable numbers t) :
    deserialize numbers (serialize numbers t) = some t := by
  obtain ⟨⟨d, hts, hyear⟩, hreceived, hpaid⟩ := h
  simp only [serialize, deserialize, hts, writeTime, strptime_strftime d hyear, hreceived, hpaid,
    String.ofList_toList, Option.pure_def, Option.bind_eq_bind, Option.bind_some]
  rw [← hts]

theorem faithful_lines [Inhabited A] : (lines numbers).Faithful (Readable numbers) :=
  LineCodec.json_faithful fun _ => deserialize_serialize numbers

end UC3BankIdMerge

end Messages
