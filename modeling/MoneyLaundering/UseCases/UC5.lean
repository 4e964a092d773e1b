import MoneyLaundering.Filter.DefaultFilter
import MoneyLaundering.GroupBy.Converter
import MoneyLaundering.Join.RouteHandler

/-!
# The number of payments below a dollar

The default filters keep the payments of a period in two formats.  These are converted to US
dollars, batch by batch, and those below a dollar are counted.  The counts of the batches add
up to the count of the client.
-/

open Messages

/-- `UC5CountGroupByFn`. -/
def uc5CountGroupBy {A : Type} (hash : UUID → ℤ) (msg : DataMsg (List (Transaction A))) :
    List (ℕ × ℤ) :=
  [(msg.body.length, hash msg.clientId)]

/-! ## The use case -/

/-- One use case for one client: the fleets with what arrives at their nodes, and the counts
that arrive at the join, also those of other clients. -/
structure UC5 (A : Type) where
  /-- The hash of all processes, of a client. -/
  clientHash : UUID → ℤ
  /-- The same of the identity of a message. -/
  identityHash : ProducerId × ℕ → ℤ
  /-- The rates of a day. -/
  quotes : UC3FilterPeriodBase.Date → Dict String A
  clientId : UUID
  /-- The shards behind the default filters, also those of the other use cases. -/
  shards : RouteShards
  defaultFilters : Fleet Unit (List (Transaction A))
  converters : Fleet Unit (List (Transaction A))
  amountFilters : Fleet Unit (List (Transaction A))
  countGroupBys : Fleet Unit (List (Transaction A))
  joined : List (DataMsg ℕ)

namespace UC5

open UC3FilterPeriodBase (Date date)

variable {A : Type} [OfScientific A] [Mul A] [LT A]

/-- What is asked of a payment: its format, its day and its amount in dollars. -/
def Counted (quotes : Date → Dict String A) (t : Transaction A) : Prop :=
  (t.paymentFormat = "Wire" ∨ t.paymentFormat = "ACH") ∧
    ∃ day ∈ UC5Converter.dayOf t, date 2022 9 1 ≤ day ∧ day < date 2022 9 6 ∧
      t.amountPaid * (UC5Converter.withBitcoin day (quotes day)).getD t.paymentCurrency 1.0 < 1.0

/-- A payment is counted if it passes both filters, the second one in dollars. -/
theorem counted_iff (quotes : Date → Dict String A) (t : Transaction A) :
    Counted quotes t ↔ UC5Filter.keep t = true ∧
      (UC5Converter.inUsd quotes t).amountPaid < UC5AmountFilter.usdThreshold := by
  cases hts : t.timestamp with
  | text s => simp [Counted, UC5Filter.keep, UC5Converter.dayOf, hts]
  | datetime d =>
      simp [Counted, UC5Filter.keep, UC5Converter.dayOf, UC5Converter.inUsd,
        UC5Converter.convert, UC5AmountFilter.usdThreshold, UC5Filter.formats,
        UC5Filter.periodAStart, UC5Filter.periodAEnd, UC3FilterPeriodBase.midnight_le_moment,
        UC3FilterPeriodBase.moment_lt_midnight, hts, and_assoc]

variable [DecidableLT A] (U : UC5 A)

instance (quotes : Date → Dict String A) : DecidablePred (Counted quotes) := fun _ =>
  inferInstanceAs (Decidable (_ ∧ ∃ day ∈ _, _ ∧ _))

/-- What the default filters send to this use case. -/
def kept : List (Output (List (Transaction A))) :=
  routeOf (U.shards.base ((U.shards.routeTable (A := A)).take 4)) U.converters.size
    (U.defaultFilters.sends (fun cfg => defaultFilter cfg U.shards) U.clientId ())

def converted : List (Output (List (Transaction A))) :=
  U.converters.sends (fun cfg =>
    ringGroupBy cfg [U.amountFilters.size] (uc5Converter U.identityHash U.quotes)) U.clientId ()

def filtered : List (Output (List (Transaction A))) :=
  U.amountFilters.sends (fun cfg =>
    ringFilter cfg U.countGroupBys.size fun msg => uc5AmountFilter msg.body) U.clientId ()

/-- The join has one queue for all counts. -/
def counted : List (Output ℕ) :=
  U.countGroupBys.sends (fun cfg => ringGroupBy cfg [1] (uc5CountGroupBy U.clientHash))
    U.clientId ()

/-- The counts of the client at the join. -/
def counts : List ℕ := (U.joined.filter fun el => el.clientId = U.clientId).map DataMsg.body

/-- What the join has of all clients. -/
def state : Dict UUID ℕ :=
  U.joined.foldl (fun state el => JoinRouteHandler.uc5Join.join el state) Dict.empty

/-- What the client gets. -/
def response : List (String × Bool) :=
  (JoinRouteHandler.uc5Join.getResponses U.clientId U.state).1

/-- The payments come in batches, the route of the use case has a shard for each converter,
and every fleet receives what the one before it sent. -/
structure Fed (payments : List (Transaction A)) : Prop where
  payments : (U.defaultFilters.received U.clientId ()).flatten.Perm payments
  shards : U.shards.uc5 = U.converters.size
  kept : U.converters.Receives U.clientId () id U.kept
  converted : U.amountFilters.Receives U.clientId () id U.converted
  filtered : U.countGroupBys.Receives U.clientId () id U.filtered
  counted : U.counts.Perm (U.counted.map Output.payload)

/-! ## The count -/

section Count

variable {U} {payments : List (Transaction A)}

/-- The join adds up the counts of a client. -/
theorem getD_foldl_join (clientId : UUID) (els : List (DataMsg ℕ)) (state : Dict UUID ℕ) :
    (els.foldl (fun state el => JoinRouteHandler.uc5Join.join el state) state).getD clientId 0 =
      state.getD clientId 0 +
        ((els.filter fun el => el.clientId = clientId).map DataMsg.body).sum := by
  induction els generalizing state with
  | nil => rfl
  | cons el els ih =>
      rw [List.foldl_cons, ih, List.filter_cons]
      by_cases hclient : el.clientId = clientId
      · simp [JoinRouteHandler.uc5Join, hclient, Dict.getD_set, Nat.add_assoc]
      · simp [JoinRouteHandler.uc5Join, hclient, Ne.symm hclient, Dict.getD_set]

/-- The counts of some batches add up to the count of their payments. -/
theorem sum_counts (quotes : Date → Dict String A) (batches : List (List (Transaction A))) :
    (batches.map fun batch =>
        (uc5AmountFilter (batch.map (UC5Converter.inUsd quotes))).length).sum =
      batches.flatten.countP fun t =>
        (UC5Converter.inUsd quotes t).amountPaid < UC5AmountFilter.usdThreshold := by
  rw [List.countP_flatten]
  congr 1
  apply List.map_congr_left
  intro batch _
  rw [uc5AmountFilter, List.filter_map, List.length_map, List.countP_eq_length_filter]
  rfl

/-- The converters receive what the default filters keep. -/
theorem perm_kept (h : U.Fed payments) :
    (U.converters.received U.clientId ()).flatten.Perm (uc5Filter payments) := by
  have htable : U.shards.routeTable = U.shards.routeTable.take 4 ++
      (U.converters.size, uc5Filter (A := A)) :: U.shards.routeTable.drop 5 := by
    rw [← h.shards]
    rfl
  have hbatches := (RouteShards.received_defaultFilter htable h.kept).flatten
  have hfilter : ((U.defaultFilters.received U.clientId ()).map uc5Filter).flatten =
      uc5Filter (U.defaultFilters.received U.clientId ()).flatten := by
    rw [uc5Filter, List.filter_flatten]
    rfl
  rw [hfilter] at hbatches
  exact hbatches.trans (h.payments.filter _)

/-- The join receives the count of every batch. -/
theorem perm_counts (h : U.Fed payments) :
    U.counts.Perm ((U.converters.received U.clientId ()).map fun batch =>
      (uc5AmountFilter (batch.map (UC5Converter.inUsd U.quotes))).length) := by
  have hconverted : (U.amountFilters.received U.clientId ()).Perm
      ((U.converters.received U.clientId ()).map fun batch =>
        batch.map (UC5Converter.inUsd U.quotes)) := by
    rw [List.map_eq_flatMap]
    exact received_groups (fun _ => rfl) h.converted
  have hfiltered : (U.countGroupBys.received U.clientId ()).Perm
      ((U.amountFilters.received U.clientId ()).map uc5AmountFilter) := by
    have hperm := h.filtered.perm (shard_lt_filter U.countGroupBys.pos _)
    rwa [← payloads_filter]
  have hcounted : U.counted.map Output.payload =
      (U.countGroupBys.received U.clientId ()).map List.length := by
    rw [List.map_eq_flatMap (f := List.length)]
    exact payloads_groupBy fun _ => rfl
  calc
    List.Perm U.counts ((U.countGroupBys.received U.clientId ()).map List.length) :=
      hcounted ▸ h.counted
    List.Perm _ (((U.amountFilters.received U.clientId ()).map uc5AmountFilter).map
        List.length) := hfiltered.map _
    List.Perm _ ((((U.converters.received U.clientId ()).map fun batch =>
        batch.map (UC5Converter.inUsd U.quotes)).map uc5AmountFilter).map List.length) :=
      (hconverted.map _).map _
    _ = _ := by rw [List.map_map, List.map_map]; rfl

/-- The client gets the number of its payments that are asked for. -/
theorem responds_count (U : UC5 A) (payments : List (Transaction A)) (h : U.Fed payments) :
    U.response =
      [("--- UC5 ---\ncount: " ++ toString (payments.countP fun t => Counted U.quotes t) ++ "\n",
        true)] := by
  have hcount : U.state.getD U.clientId 0 = payments.countP fun t => Counted U.quotes t := by
    calc
      U.state.getD U.clientId 0 = U.counts.sum := by
        rw [state, getD_foldl_join, Dict.getD_empty, Nat.zero_add]
        rfl
      _ = (U.converters.received U.clientId ()).flatten.countP fun t =>
          (UC5Converter.inUsd U.quotes t).amountPaid < UC5AmountFilter.usdThreshold := by
        rw [(perm_counts h).sum_eq, sum_counts]
      _ = (uc5Filter payments).countP fun t =>
          (UC5Converter.inUsd U.quotes t).amountPaid < UC5AmountFilter.usdThreshold :=
        (perm_kept h).countP_eq _
      _ = payments.countP fun t => Counted U.quotes t := by
        rw [uc5Filter, List.countP_filter]
        apply List.countP_congr
        intro t _
        simp [counted_iff, and_comm]
  rw [← hcount]
  rfl

end Count

/-! ## A client -/

def yenRates : Dict String ℚ := Dict.empty.set "Yen" (1 / 140)

/-- A payment with its time. -/
def payment (timestamp : DateTime) (amount : ℚ) (currency paymentFormat : String) :
    Transaction ℚ where
  timestamp := .datetime timestamp
  fromBank := "10"
  fromAccount := "a"
  toBank := "11"
  toAccount := "b"
  amountReceived := amount
  receivingCurrency := currency
  amountPaid := amount
  paymentCurrency := currency
  paymentFormat := paymentFormat

def firstDay : DateTime := ⟨2022, 9, 1, 0, 0, 0, by decide⟩

def lastDay : DateTime := ⟨2022, 9, 5, 23, 59, 59, by decide⟩

def dayAfter : DateTime := ⟨2022, 9, 6, 0, 0, 0, by decide⟩

/-- Only the first two are counted: the others are too high, too late, or cash. -/
def smallPayments : List (Transaction ℚ) :=
  [payment lastDay (1 / 2) "US Dollar" "Wire", payment firstDay 100 "Yen" "ACH",
    payment firstDay (1 / 10000) "Bitcoin" "Wire", payment dayAfter (1 / 2) "US Dollar" "Wire",
    payment lastDay (1 / 2) "US Dollar" "Cash"]

/-- The configuration of every node. -/
def config (_ : ℕ) : NodeConfig := ⟨⟨0, 1, 0⟩, 5, fun shard => BitVec.ofNat 128 shard⟩

/-- A message of client `1`. -/
def message {α : Type} (seq : ℕ) (body : α) : Unit × DataMsg α := ((), ⟨1, 7, seq, body⟩)

/-- The payments of the first day, and the one of the last day, in dollars. -/
def firstDollars : List (Transaction ℚ) :=
  [payment firstDay 100 "Yen" "ACH", payment firstDay (1 / 10000) "Bitcoin" "Wire"].map
    (UC5Converter.inUsd fun _ => yenRates)

def lastDollars : List (Transaction ℚ) :=
  [payment lastDay (1 / 2) "US Dollar" "Wire"].map (UC5Converter.inUsd fun _ => yenRates)

/-- Two batches, which go to different filters; the join has counts of another client. -/
def twoBatches : UC5 ℚ where
  clientHash _ := 3
  identityHash identity := identity.2
  quotes _ := yenRates
  clientId := 1
  shards := ⟨0, 3, 2, 2, 1, 2⟩
  defaultFilters := ⟨2, Nat.two_pos, config, fun i =>
    if i = 0 then
      [message 4 [payment firstDay 100 "Yen" "ACH",
        payment firstDay (1 / 10000) "Bitcoin" "Wire",
        payment dayAfter (1 / 2) "US Dollar" "Wire"]]
    else
      [message 5 [payment lastDay (1 / 2) "US Dollar" "Cash",
        payment lastDay (1 / 2) "US Dollar" "Wire"]]⟩
  converters := ⟨1, Nat.one_pos, config, fun _ =>
    [message 4 [payment firstDay 100 "Yen" "ACH",
        payment firstDay (1 / 10000) "Bitcoin" "Wire"],
      message 5 [payment lastDay (1 / 2) "US Dollar" "Wire"]]⟩
  amountFilters := ⟨2, Nat.two_pos, config, fun i =>
    [message 1 (if i = 0 then firstDollars else lastDollars)]⟩
  countGroupBys := ⟨1, Nat.one_pos, config, fun _ =>
    [message 1 lastDollars, message 2 (firstDollars.take 1)]⟩
  joined := [⟨1, 7, 1, 1⟩, ⟨2, 7, 1, 40⟩, ⟨1, 7, 2, 1⟩]

theorem responds_count_twoBatches : twoBatches.response = [("--- UC5 ---\ncount: 2\n", true)] := by
  have hcount : smallPayments.countP (fun t => Counted twoBatches.quotes t) = 2 := by
    decide +kernel
  rw [responds_count twoBatches smallPayments (by constructor <;> decide +kernel), hcount]
  rfl

end UC5
