import MoneyLaundering.Filter.FilterFns

/-!
# The conversion to US dollars

`UC5ConverterGroupByFn` multiplies every amount by the rate of its day.  It asks the
conversion API for the rates of a day when it first needs them, again and again while the API
is unavailable, and keeps them as long as its process lives.
-/

open Messages

/-- `ConversionAPI`: the answer of `get_rates` to each call, `none` for a
`ConversionAPIError`. -/
abbrev ConversionAPI (A : Type) : Type :=
  ℕ → UC3FilterPeriodBase.Date → Option (Dict String A)

/-- The state of a converter: the rates of the days it asked for, and the day of each call of
the API, oldest first. -/
structure UC5Converter (A : Type) where
  cache : Dict UC3FilterPeriodBase.Date (Dict String A)
  asked : List UC3FilterPeriodBase.Date

namespace UC5Converter

open UC3FilterPeriodBase (Date date)

variable {A : Type}

/-- `_USD_CURRENCY`. -/
def usdCurrency : String := "US Dollar"

/-- `_BASE_DELAY_SECS`. -/
def baseDelaySecs : ℕ := 1

/-- `_MAX_DELAY_SECS`. -/
def maxDelaySecs : ℕ := 30

/-- `_BITCOIN_RATES_USD`. -/
def bitcoinRatesUsd [OfScientific A] : Dict Date A :=
  Dict.ofList
    [(date 2022 9 1, 20131.46), (date 2022 9 2, 19951.86), (date 2022 9 3, 19831.90),
      (date 2022 9 4, 20000.30), (date 2022 9 5, 19796.84)]

/-- The converter of a process that starts, after the calls of earlier ones. -/
def fresh (asked : List Date) : UC5Converter A := ⟨Dict.empty, asked⟩

section Rates

variable (api : ConversionAPI A) (tries : ℕ)

/-- `_get_rates_with_retry`, if it returns after at most that many calls: the rates, and how
long it slept before each further call. -/
def getRatesWithRetry (day : Date) (maxDelay : ℕ) :
    ℕ → ℕ → ℕ → Option (Dict String A × List ℕ)
  | 0, _, _ => none
  | tries + 1, calls, delay =>
    match api calls day with
    | some rates => some (rates, [])
    | none => (getRatesWithRetry day maxDelay tries (calls + 1) (min (delay * 2) maxDelay)).map
        fun r => (r.1, delay :: r.2)

variable [OfScientific A]

/-- The rates of a day, with the one of Bitcoin if there is one. -/
def withBitcoin (day : Date) (rates : Dict String A) : Dict String A :=
  match bitcoinRatesUsd.get? day with
  | none => rates
  | some rate => rates.set "Bitcoin" rate

/-- `_rates_for`. -/
def ratesFor (day : Date) (f : UC5Converter A) : Option (Dict String A × UC5Converter A) :=
  match f.cache.get? day with
  | some rates => some (rates, f)
  | none => (getRatesWithRetry api day maxDelaySecs tries f.asked.length baseDelaySecs).map
      fun r => (withBitcoin day r.1,
        ⟨f.cache.set day (withBitcoin day r.1),
          f.asked ++ List.replicate (r.2.length + 1) day⟩)

variable [Mul A]

/-- A payment in US dollars; a currency without a rate counts as dollars. -/
def convert (rates : Dict String A) (t : Transaction A) : Transaction A :=
  { t with
    amountPaid := t.amountPaid * rates.getD t.paymentCurrency 1.0
    paymentCurrency := usdCurrency }

/-- `t.timestamp.date()`; a text has none. -/
def dayOf (t : Transaction A) : Option Date :=
  match t.timestamp with
  | .datetime d => some (date d.year d.month d.day)
  | .text _ => none

/-- The payments of a batch, one after the other. -/
def convertAll : List (Transaction A) → UC5Converter A →
    Option (List (Transaction A) × UC5Converter A)
  | [], f => some ([], f)
  | t :: ts, f => do
    let day ← dayOf t
    let (rates, f) ← ratesFor api tries day f
    let (converted, f) ← convertAll ts f
    return (convert rates t :: converted, f)

/-- `group_by`, if it returns: the whole batch is one group, and its affinity the hash of its
identity. -/
def groupBy (hash : ProducerId × ℕ → ℤ) (msg : DataMsg (List (Transaction A)))
    (f : UC5Converter A) : Option (List (List (Transaction A) × ℤ) × UC5Converter A) :=
  (convertAll api tries msg.body f).map fun r => ([(r.1, hash msg.identity)], r.2)

/-- What happens to a converter: it groups a message, or its process starts again. -/
inductive Event (A : Type) where
  | group (msg : DataMsg (List (Transaction A)))
  | restart

/-- The groups of a run.  No checkpoint has the rates. -/
def run (hash : ProducerId × ℕ → ℤ) : List (Event A) → UC5Converter A →
    Option (List (List (Transaction A) × ℤ) × UC5Converter A)
  | [], f => some ([], f)
  | .restart :: events, f => run hash events (fresh f.asked)
  | .group msg :: events, f => do
    let (groups, f) ← groupBy api tries hash msg f
    let (rest, f) ← run hash events f
    return (groups ++ rest, f)

end Rates

/-! ## The retries -/

section Retries

variable {api : ConversionAPI A} {day : Date} {rates : Dict String A}

/-- The delays double up to the longest one. -/
theorem min_delay (delay maxDelay i : ℕ) :
    min (min (delay * 2) maxDelay * 2 ^ i) maxDelay = min (delay * 2 ^ (i + 1)) maxDelay := by
  have hpos : 1 ≤ 2 ^ i := Nat.one_le_two_pow
  rw [← Nat.mul_min_mul_right, min_assoc, min_eq_right (Nat.le_mul_of_pos_right maxDelay hpos),
    pow_succ', mul_assoc]

/-- The API is called until it answers, after delays that double up to the longest one. -/
theorem getRatesWithRetry_eq {maxDelay tries calls delay k : ℕ}
    (hnone : ∀ i < k, api (calls + i) day = none) (hsome : api (calls + k) day = some rates)
    (hk : k < tries) (hdelay : delay ≤ maxDelay) :
    getRatesWithRetry api day maxDelay tries calls delay =
      some (rates, (List.range k).map fun i => min (delay * 2 ^ i) maxDelay) := by
  induction k generalizing tries calls delay with
  | zero =>
      obtain ⟨tries, rfl⟩ := Nat.exists_eq_succ_of_ne_zero (Nat.ne_zero_of_lt hk)
      rw [getRatesWithRetry, ← Nat.add_zero calls, hsome]
      rfl
  | succ k ih =>
      obtain ⟨tries, rfl⟩ := Nat.exists_eq_succ_of_ne_zero (Nat.ne_zero_of_lt hk)
      have hfirst : api calls day = none := hnone 0 k.succ_pos
      have hnone' : ∀ i < k, api (calls + 1 + i) day = none := by
        intro i hi
        rw [Nat.add_right_comm]
        exact hnone (i + 1) (Nat.succ_lt_succ hi)
      have hsome' : api (calls + 1 + k) day = some rates := by
        rw [Nat.add_right_comm]
        exact hsome
      have hrest := ih hnone' hsome' (Nat.lt_of_succ_lt_succ hk)
        (min_le_right (delay * 2) maxDelay)
      simp only [getRatesWithRetry, hfirst, hrest, Option.map_some, min_delay,
        List.range_succ_eq_map, List.map_cons, List.map_map, Function.comp_def, pow_zero, mul_one,
        min_eq_left hdelay]

end Retries

/-! ## The rates of a day -/

variable [OfScientific A] [Mul A]

/-- A payment in US dollars, if the API has these rates for its day. -/
def inUsd (quotes : Date → Dict String A) (t : Transaction A) : Transaction A :=
  match dayOf t with
  | none => t
  | some day => convert (withBitcoin day (quotes day)) t

/-- The API answers every call about a day, if it answers, with the rates of the day. -/
def Answers (api : ConversionAPI A) (quotes : Date → Dict String A) : Prop :=
  ∀ n day rates, api n day = some rates → rates = quotes day

/-- The API answers one of so many calls in a row. -/
def Available (api : ConversionAPI A) (tries : ℕ) : Prop :=
  ∀ n day, ∃ k < tries, (api (n + k) day).isSome = true

/-- What is cached of a day are its rates. -/
def Cached (quotes : Date → Dict String A) (f : UC5Converter A) : Prop :=
  ∀ day rates, f.cache.get? day = some rates → rates = withBitcoin day (quotes day)

end UC5Converter

/-- `UC5ConverterGroupByFn` over the rates of every day. -/
def uc5Converter {A : Type} [OfScientific A] [Mul A] (hash : ProducerId × ℕ → ℤ)
    (quotes : UC3FilterPeriodBase.Date → Dict String A)
    (msg : DataMsg (List (Transaction A))) : List (List (Transaction A) × ℤ) :=
  [(msg.body.map (UC5Converter.inUsd quotes), hash msg.identity)]

namespace UC5Converter

open UC3FilterPeriodBase (Date)

variable {A : Type} {api : ConversionAPI A} {tries : ℕ} {quotes : Date → Dict String A}
  {f : UC5Converter A}

theorem cached_fresh [OfScientific A] (asked : List Date) :
    Cached quotes (fresh asked : UC5Converter A) := by
  intro day rates hget
  simp [fresh] at hget

/-- The API is asked until it has the rates of the day. -/
theorem exists_getRatesWithRetry (hanswers : Answers api quotes) (havailable : Available api tries)
    (day : Date) (calls : ℕ) :
    ∃ slept, getRatesWithRetry api day maxDelaySecs tries calls baseDelaySecs =
      some (quotes day, slept) := by
  have hexists : ∃ k, (api (calls + k) day).isSome = true := by
    obtain ⟨k, -, hk⟩ := havailable calls day
    exact ⟨k, hk⟩
  -- The first call that the API answers.
  obtain ⟨rates, hrates⟩ := Option.isSome_iff_exists.mp (Nat.find_spec hexists)
  have hnone : ∀ i < Nat.find hexists, api (calls + i) day = none := by
    intro i hi
    exact Option.not_isSome_iff_eq_none.mp (Nat.find_min hexists hi)
  have hlt : Nat.find hexists < tries := by
    obtain ⟨k, hk, hsome⟩ := havailable calls day
    exact lt_of_le_of_lt (Nat.find_min' hexists hsome) hk
  rw [getRatesWithRetry_eq hnone hrates hlt (by decide), hanswers _ _ _ hrates]
  exact ⟨_, rfl⟩

variable [OfScientific A]

/-- The rates come from the cache or from the API, and are the same. -/
theorem spec_ratesFor (hanswers : Answers api quotes) (havailable : Available api tries)
    (hcached : Cached quotes f) (day : Date) :
    ∃ f', ratesFor api tries day f = some (withBitcoin day (quotes day), f') ∧
      Cached quotes f' := by
  unfold ratesFor
  cases hget : f.cache.get? day with
  | some rates =>
      rw [← hcached day rates hget]
      exact ⟨f, rfl, hcached⟩
  | none =>
      obtain ⟨slept, hslept⟩ := exists_getRatesWithRetry hanswers havailable day f.asked.length
      simp only [hslept, Option.map_some]
      refine ⟨_, rfl, ?_⟩
      intro day' rates hget'
      rw [Dict.get?_set] at hget'
      by_cases hday : day' = day
      · rw [if_pos hday] at hget'
        rw [hday, Option.some_inj.mp hget']
      · rw [if_neg hday] at hget'
        exact hcached day' rates hget'

variable [Mul A]

theorem spec_convertAll (hanswers : Answers api quotes) (havailable : Available api tries)
    (hcached : Cached quotes f) {ts : List (Transaction A)}
    (htimes : ∀ t ∈ ts, (dayOf t).isSome = true) :
    ∃ f', convertAll api tries ts f = some (ts.map (inUsd quotes), f') ∧ Cached quotes f' := by
  induction ts generalizing f with
  | nil => exact ⟨f, rfl, hcached⟩
  | cons t ts ih =>
      obtain ⟨day, hday⟩ := Option.isSome_iff_exists.mp (htimes t List.mem_cons_self)
      obtain ⟨f₁, hrates, hcached⟩ := spec_ratesFor hanswers havailable hcached day
      obtain ⟨f₂, hrest, hcached⟩ := ih hcached fun t ht => htimes t (List.mem_cons_of_mem _ ht)
      refine ⟨f₂, ?_, hcached⟩
      simp [convertAll, hday, hrates, hrest, inUsd]

theorem spec_groupBy (hanswers : Answers api quotes) (havailable : Available api tries)
    (hcached : Cached quotes f) (hash : ProducerId × ℕ → ℤ)
    {msg : DataMsg (List (Transaction A))} (htimes : ∀ t ∈ msg.body, (dayOf t).isSome = true) :
    ∃ f', groupBy api tries hash msg f = some (uc5Converter hash quotes msg, f') ∧
      Cached quotes f' := by
  obtain ⟨f', hall, hcached⟩ := spec_convertAll hanswers havailable hcached htimes
  refine ⟨f', ?_, hcached⟩
  rw [groupBy, hall]
  rfl

/-- What an event gives, if the rates of every day are known. -/
def groupsOf (hash : ProducerId × ℕ → ℤ) (quotes : Date → Dict String A) :
    Event A → List (List (Transaction A) × ℤ)
  | .group msg => uc5Converter hash quotes msg
  | .restart => []

theorem spec_run (hanswers : Answers api quotes) (havailable : Available api tries)
    (hcached : Cached quotes f) (hash : ProducerId × ℕ → ℤ) (events : List (Event A))
    (htimes : ∀ msg, Event.group msg ∈ events → ∀ t ∈ msg.body, (dayOf t).isSome = true) :
    ∃ f', run api tries hash events f = some (events.flatMap (groupsOf hash quotes), f') ∧
      Cached quotes f' := by
  induction events generalizing f with
  | nil => exact ⟨f, rfl, hcached⟩
  | cons event events ih =>
      have hlater := fun msg hmem => htimes msg (List.mem_cons_of_mem event hmem)
      cases event with
      | restart => exact ih (cached_fresh f.asked) hlater
      | group msg =>
          obtain ⟨f₁, hgroups, hcached⟩ := spec_groupBy hanswers havailable hcached hash
            (htimes msg List.mem_cons_self)
          obtain ⟨f₂, hrest, hcached⟩ := ih hcached hlater
          refine ⟨f₂, ?_, hcached⟩
          simp [run, hgroups, hrest, groupsOf]

/-! ## The requests -/

section Requests

/-- How many of these calls the API answers, if there were so many before them. -/
def answered (api : ConversionAPI A) (asked : List Date) (before : ℕ) : ℕ :=
  (asked.zipIdx before).countP fun call => (api call.2 call.1).isSome

omit [OfScientific A] [Mul A] in
theorem answered_append (asked later : List Date) (before : ℕ) :
    answered api (asked ++ later) before =
      answered api asked before + answered api later (before + asked.length) := by
  rw [answered, List.zipIdx_append, List.countP_append]
  rfl

/-- A process that got one answer of the API for each of some days. -/
structure Asked (api : ConversionAPI A) (start : List Date) (days : List Date)
    (f : UC5Converter A) : Prop where
  answers : answered api f.asked 0 = answered api start 0 + f.cache.size
  days : ∀ day, day ∈ f.cache.keys ↔ day ∈ days

omit [OfScientific A] [Mul A] in
/-- Only the last of the calls is answered. -/
theorem answered_getRatesWithRetry {day : Date} {maxDelay calls delay : ℕ}
    {r : Dict String A × List ℕ}
    (h : getRatesWithRetry api day maxDelay tries calls delay = some r) :
    answered api (List.replicate (r.2.length + 1) day) calls = 1 := by
  induction tries generalizing calls delay r with
  | zero => simp [getRatesWithRetry] at h
  | succ tries ih =>
      cases hrates : api calls day with
      | some rates =>
          rw [getRatesWithRetry, hrates] at h
          rw [← Option.some_inj.mp h]
          simp [answered, hrates]
      | none =>
          simp only [getRatesWithRetry, hrates, Option.map_eq_some_iff] at h
          obtain ⟨later, hlater, rfl⟩ := h
          have hrest := ih hlater
          rw [List.length_cons, List.replicate_succ, answered, List.zipIdx_cons,
            List.countP_cons_of_neg (by simp [hrates])]
          exact hrest

omit [Mul A] in
theorem Asked.of_ratesFor {start days : List Date} (hasked : Asked api start days f) {day : Date}
    {r : Dict String A × UC5Converter A} (h : ratesFor api tries day f = some r) :
    Asked api start (days ++ [day]) r.2 := by
  unfold ratesFor at h
  cases hget : f.cache.get? day with
  | some rates =>
      have hknown : day ∈ days :=
        (hasked.days day).mp (Dict.mem_keys_iff.mpr ⟨rates, hget⟩)
      rw [hget] at h
      rw [← Option.some_inj.mp h]
      refine ⟨hasked.answers, ?_⟩
      intro day'
      rw [hasked.days, List.mem_append, List.mem_singleton, or_iff_left_of_imp]
      intro hday
      rwa [hday]
  | none =>
      simp only [hget, Option.map_eq_some_iff] at h
      obtain ⟨answer, hanswer, rfl⟩ := h
      have hcount := answered_getRatesWithRetry hanswer
      have hnew : day ∉ f.cache.keys := Dict.get?_eq_none_iff.mp hget
      constructor
      · have hlength : (Dict.setEntries day (withBitcoin day answer.1) f.cache.entries).length =
            f.cache.entries.length + 1 := by
          rw [Dict.setEntries_of_notMem hnew, List.length_append]
          rfl
        have hsize : (f.cache.set day (withBitcoin day answer.1)).size = f.cache.size + 1 :=
          hlength
        rw [answered_append, Nat.zero_add, hcount, hsize, hasked.answers, Nat.add_assoc]
      · intro day'
        rw [Dict.mem_keys_set, hasked.days, List.mem_append, List.mem_singleton]
        exact or_comm

theorem Asked.of_convertAll {start days : List Date} (hasked : Asked api start days f)
    {ts : List (Transaction A)} {r : List (Transaction A) × UC5Converter A}
    (h : convertAll api tries ts f = some r) :
    Asked api start (days ++ ts.filterMap dayOf) r.2 := by
  induction ts generalizing f days r with
  | nil =>
      rw [← Option.some_inj.mp h, List.filterMap_nil, List.append_nil]
      exact hasked
  | cons t ts ih =>
      simp only [convertAll, Option.bind_eq_bind, Option.bind_eq_some_iff,
        Option.pure_def, Option.some_inj] at h
      obtain ⟨day, hday, ⟨rates, f₁⟩, hrates, rest, hrest, rfl⟩ := h
      rw [List.filterMap_cons_some hday, List.append_cons]
      exact ih (r := rest) (hasked.of_ratesFor hrates) hrest

/-- The payments of the messages that a process groups. -/
def paymentsOf (msgs : List (DataMsg (List (Transaction A)))) : List (Transaction A) :=
  msgs.flatMap DataMsg.body

theorem Asked.of_run {start days : List Date} (hasked : Asked api start days f)
    (hash : ProducerId × ℕ → ℤ)
    {msgs : List (DataMsg (List (Transaction A)))}
    {r : List (List (Transaction A) × ℤ) × UC5Converter A}
    (h : run api tries hash (msgs.map Event.group) f = some r) :
    Asked api start (days ++ (paymentsOf msgs).filterMap dayOf) r.2 := by
  induction msgs generalizing f days r with
  | nil =>
      rw [← Option.some_inj.mp h, paymentsOf, List.flatMap_nil, List.filterMap_nil,
        List.append_nil]
      exact hasked
  | cons msg msgs ih =>
      simp only [List.map_cons, run, groupBy, Option.bind_eq_bind, Option.bind_eq_some_iff,
        Option.map_eq_some_iff, Option.pure_def, Option.some_inj] at h
      obtain ⟨_, ⟨⟨converted, f₁⟩, hall, rfl⟩, rest, hrest, rfl⟩ := h
      rw [paymentsOf, List.flatMap_cons, List.filterMap_append, ← List.append_assoc]
      exact ih (r := rest) (hasked.of_convertAll hall) hrest

end Requests

/-! ## The runs -/

/-- Whatever restarts fall in a run and however often the API is unavailable, every message
is converted with the rates of the days. -/
theorem run_converts (hash : ProducerId × ℕ → ℤ) (hanswers : Answers api quotes)
    (havailable : Available api tries) (events : List (Event A)) (asked : List Date)
    (htimes : ∀ msg, Event.group msg ∈ events → ∀ t ∈ msg.body, (dayOf t).isSome = true) :
    ∃ f, run api tries hash events (fresh asked) =
      some (events.flatMap (groupsOf hash quotes), f) := by
  obtain ⟨f, hrun, -⟩ :=
    spec_run hanswers havailable (cached_fresh asked) hash events htimes
  exact ⟨f, hrun⟩

/-- A process gets one answer of the API for each day of its payments, however often it has to
call it. -/
theorem answers_run (hash : ProducerId × ℕ → ℤ) {msgs : List (DataMsg (List (Transaction A)))}
    {asked : List Date} {groups : List (List (Transaction A) × ℤ)}
    (h : run api tries hash (msgs.map Event.group) (fresh asked) = some (groups, f)) :
    answered api f.asked 0 =
      answered api asked 0 + ((paymentsOf msgs).filterMap dayOf).dedup.length := by
  have hfresh : Asked api asked [] (fresh asked : UC5Converter A) := by
    constructor
    · rfl
    · intro day
      rfl
  have hasked := hfresh.of_run hash h
  have hperm : f.cache.keys.Perm ((paymentsOf msgs).filterMap dayOf).dedup := by
    rw [List.perm_ext_iff_of_nodup f.cache.keys_nodup (List.nodup_dedup _)]
    intro day
    rw [hasked.days, List.nil_append, List.mem_dedup]
  rw [hasked.answers, ← hperm.length_eq, Dict.length_keys]

/-! ## A run -/

def rupeeRates : Dict String ℚ := Dict.empty.set "Rupee" (1 / 80)

/-- An API that answers every other call. -/
def everyOther : ConversionAPI ℚ := fun n _ => if n % 2 = 0 then none else some rupeeRates

def rupees (day : ℕ) (h : IsDateTime 2022 9 day 10 15 0) : Transaction ℚ where
  timestamp := .datetime ⟨2022, 9, day, 10, 15, 0, h⟩
  fromBank := "10"
  fromAccount := "a"
  toBank := "11"
  toAccount := "b"
  amountReceived := 40
  receivingCurrency := "Rupee"
  amountPaid := 40
  paymentCurrency := "Rupee"
  paymentFormat := "Wire"

def rupeeBatch (seq : ℕ) : DataMsg (List (Transaction ℚ)) :=
  ⟨1, 7, seq, [rupees 1 (by decide), rupees 2 (by decide), rupees 1 (by decide)]⟩

/-- A batch before the process starts again, and one after that. -/
def rupeeEvents : List (Event ℚ) := [.group (rupeeBatch 1), .restart, .group (rupeeBatch 2)]

theorem run_converts_rupeeEvents :
    ∃ f, run everyOther 2 (fun identity => identity.2) rupeeEvents (fresh []) =
      some (rupeeEvents.flatMap (groupsOf (fun identity => identity.2) fun _ => rupeeRates),
        f) := by
  apply run_converts
  · intro n day rates hrates
    unfold everyOther at hrates
    split at hrates
    · cases hrates
    · exact (Option.some_inj.mp hrates).symm
  · intro n day
    rcases Nat.mod_two_eq_zero_or_one n with heven | hodd
    · refine ⟨1, by decide, ?_⟩
      have hnext : ¬(n + 1) % 2 = 0 := by omega
      rw [everyOther, if_neg hnext]
      rfl
    · refine ⟨0, by decide, ?_⟩
      have hnow : ¬(n + 0) % 2 = 0 := by omega
      rw [everyOther, if_neg hnow]
      rfl
  · intro msg hmsg t ht
    simp only [rupeeEvents, List.mem_cons, Event.group.injEq, reduceCtorEq, List.not_mem_nil,
      or_false, false_or] at hmsg
    rcases hmsg with rfl | rfl <;>
    · simp only [rupeeBatch, List.mem_cons, List.not_mem_nil, or_false] at ht
      rcases ht with rfl | rfl | rfl <;> rfl

/-- Three batches of the same two days. -/
def rupeeBatches : List (DataMsg (List (Transaction ℚ))) :=
  [rupeeBatch 1, rupeeBatch 2, rupeeBatch 3]

theorem answers_run_rupeeBatches :
    ∃ groups f, run everyOther 2 (fun identity => identity.2) (rupeeBatches.map Event.group)
        (fresh []) = some (groups, f) ∧ answered everyOther f.asked 0 = 0 + 2 := by
  obtain ⟨⟨groups, f⟩, hrun⟩ : ∃ r, run everyOther 2 (fun identity => identity.2)
      (rupeeBatches.map Event.group) (fresh []) = some r := ⟨_, rfl⟩
  exact ⟨groups, f, hrun, answers_run _ hrun⟩

end UC5Converter
