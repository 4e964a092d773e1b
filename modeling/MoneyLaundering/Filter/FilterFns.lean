import Mathlib.Data.Prod.Lex
import Mathlib.Data.Rat.Defs
import MoneyLaundering.Merge.MergeFns
import MoneyLaundering.Messages.Classes

/-!
# The filter functions

Which transactions of a message a filter keeps.  A filter by period looks at the date of a
transaction, and the filter by average at the average of its payment format.
-/

open Messages

namespace UC3FilterPeriodBase

/-- A `date`, which is compared by year, month and day. -/
abbrev Date : Type := ℕ ×ₗ ℕ ×ₗ ℕ

def date (year month day : ℕ) : Date := toLex (year, toLex (month, day))

/-- A `datetime`, which is compared by its date and then by its time. -/
abbrev Moment : Type := Date ×ₗ ℕ ×ₗ ℕ ×ₗ ℕ

def moment (d : DateTime) : Moment :=
  toLex (date d.year d.month d.day, toLex (d.hour, toLex (d.minute, d.second)))

/-- `datetime(...)` without a time. -/
def midnight (day : Date) : Moment := toLex (day, toLex (0, toLex (0, 0)))

theorem midnight_le_moment {day : Date} {d : DateTime} :
    midnight day ≤ moment d ↔ day ≤ date d.year d.month d.day := by
  have htime : toLex (0, toLex (0, 0)) ≤ toLex (d.hour, toLex (d.minute, d.second)) := by
    simp only [Prod.Lex.le_iff, ofLex_toLex]
    omega
  rw [midnight, moment, Prod.Lex.toLex_le_toLex, le_iff_lt_or_eq (b := date _ _ _),
    and_iff_left htime]

theorem moment_lt_midnight {day : Date} {d : DateTime} :
    moment d < midnight day ↔ date d.year d.month d.day < day := by
  rw [← not_le, midnight_le_moment, not_le]

/-- `TARGET_CURRENCY`. -/
def targetCurrency : String := "US Dollar"

/-- `_keep`.  A text has no date: the transactions that are filtered have a `datetime`. -/
def keep {A : Type} (targetPeriod : Date × Date) (t : Transaction A) : Bool :=
  match t.timestamp with
  | .datetime d =>
    t.paymentCurrency = targetCurrency ∧ targetPeriod.1 ≤ date d.year d.month d.day ∧
      date d.year d.month d.day ≤ targetPeriod.2
  | .text _ => false

end UC3FilterPeriodBase

open UC3FilterPeriodBase in
/-- `_keep` of `UC3FilterPeriodA`. -/
def uc3FilterPeriodA {A : Type} : Transaction A → Bool :=
  keep (date 2022 9 1, date 2022 9 5)

open UC3FilterPeriodBase in
/-- `_keep` of `UC3FilterPeriodB`. -/
def uc3FilterPeriodB {A : Type} : Transaction A → Bool :=
  keep (date 2022 9 6, date 2022 9 15)

/-- What period B keeps has a time in the year 2022. -/
theorem year_of_periodB {A : Type} {t : Transaction A} (h : uc3FilterPeriodB t = true) :
    ∃ d, t.timestamp = .datetime d ∧ d.year = 2022 := by
  unfold uc3FilterPeriodB UC3FilterPeriodBase.keep at h
  cases hts : t.timestamp with
  | text s => simp [hts] at h
  | datetime d =>
      simp only [hts, UC3FilterPeriodBase.date, Prod.Lex.le_iff, ofLex_toLex,
        decide_eq_true_eq] at h
      refine ⟨d, rfl, ?_⟩
      omega

/-- `PERCENTAGE`. -/
def UC3AvgFilter.percentage : ℚ := 1 / 100

/-- Whether a transaction is below its part of the average of its format. -/
def UC3AvgFilter.keep (averages : Dict String ℚ) (t : Transaction ℚ) : Bool :=
  match averages.get? t.paymentFormat with
  | none => false
  | some average => t.amountPaid < percentage * average

/-- `UC3AvgFilter`, with exact numbers. -/
def uc3AvgFilter (el : MergedChunk (Transaction ℚ) ℚ) : List (Transaction ℚ) :=
  el.1.filter (UC3AvgFilter.keep el.2)

/-- `MIN_AMOUNT`. -/
def UC1Filter.minAmount {A : Type} [OfScientific A] : A := 50.0

/-- `_keep` of `UC1Filter`. -/
def UC1Filter.keep {A : Type} [OfScientific A] [LT A] [DecidableLT A] (t : Transaction A) : Bool :=
  t.paymentCurrency = UC3FilterPeriodBase.targetCurrency ∧ t.amountPaid < minAmount

/-- `_keep` of `UC2Filter`. -/
def UC2Filter.keep {A : Type} (t : Transaction A) : Bool :=
  t.paymentCurrency = UC3FilterPeriodBase.targetCurrency

open UC3FilterPeriodBase in
/-- `_keep` of `UC4Filter`, with `_PERIOD_START` and `_PERIOD_END`. -/
def UC4Filter.keep {A : Type} (t : Transaction A) : Bool :=
  match t.timestamp with
  | .datetime d =>
    t.paymentCurrency = targetCurrency ∧ midnight (date 2022 9 1) ≤ moment d ∧
      moment d < midnight (date 2022 9 6)
  | .text _ => false

namespace UC5Filter

open UC3FilterPeriodBase

/-- `_FORMATS`. -/
def formats : List String := ["Wire", "ACH"]

/-- `_PERIOD_A_START`. -/
def periodAStart : Moment := midnight (date 2022 9 1)

/-- `_PERIOD_A_END`, which is excluded. -/
def periodAEnd : Moment := midnight (date 2022 9 6)

/-- `_keep`.  A text cannot be compared with a `datetime`. -/
def keep {A : Type} (t : Transaction A) : Bool :=
  match t.timestamp with
  | .datetime d => t.paymentFormat ∈ formats ∧ periodAStart ≤ moment d ∧ moment d < periodAEnd
  | .text _ => false

end UC5Filter

/-- `UC5Filter`. -/
def uc5Filter {A : Type} (el : List (Transaction A)) : List (Transaction A) :=
  el.filter UC5Filter.keep

/-- `_USD_THRESHOLD`. -/
def UC5AmountFilter.usdThreshold {A : Type} [OfScientific A] : A := 1.0

/-- `UC5AmountFilter`. -/
def uc5AmountFilter {A : Type} [OfScientific A] [LT A] [DecidableLT A]
    (el : List (Transaction A)) : List (Transaction A) :=
  el.filter fun t => t.amountPaid < UC5AmountFilter.usdThreshold
