import Mathlib.Algebra.Group.Prod
import Mathlib.Algebra.Order.Field.Rat
import MoneyLaundering.Aggregate.Tables
import MoneyLaundering.Filter.FilterFns
import MoneyLaundering.GroupBy.GroupByFns
import MoneyLaundering.Merge.TransactionLines
import MoneyLaundering.Support.Totals

/-!
# The payments below a part of the average

The transactions of one period are summed by payment format, and the averages are sent to
every merge.  There they meet the transactions of a later period, which were spilled to disk;
chunk by chunk these go to filters, which keep those below one hundredth of the average of
their format.
-/

open Messages

/-! ## Chunks -/

namespace UC3BankId

variable {T A : Type} (paymentFormat : T → String) (size : ℕ) (averages : Dict String A)

theorem flatMap_batches (batch ts : List T) :
    (batches paymentFormat size averages batch ts).1.flatMap Prod.fst ++
        (batches paymentFormat size averages batch ts).2 =
      batch ++ ts.filter fun t => (averages.get? (paymentFormat t)).isSome := by
  induction ts generalizing batch with
  | nil => simp [batches]
  | cons t ts ih =>
      rw [batches, List.filter_cons]
      cases averages.get? (paymentFormat t) with
      | none => simpa using ih batch
      | some average =>
          simp only [Option.isNone_some, Bool.false_eq_true, if_false, Option.isSome_some,
            if_true]
          by_cases hfull : size ≤ (batch ++ [t]).length
          · simp only [if_pos hfull, List.flatMap_cons, List.append_assoc, ih []]
            rfl
          · rw [if_neg hfull, ih (batch ++ [t]), List.append_assoc]
            rfl

theorem snd_of_mem_batches (batch ts : List T) :
    ∀ chunk ∈ (batches paymentFormat size averages batch ts).1, chunk.2 = averages := by
  induction ts generalizing batch with
  | nil => simp [batches]
  | cons t ts ih =>
      rw [batches]
      split
      · exact ih batch
      · split
        · intro chunk hchunk
          rcases List.mem_cons.mp hchunk with hfirst | hrest
          · rw [hfirst]
          · exact ih [] chunk hrest
        · exact ih (batch ++ [t])

/-- The chunks have the transactions whose format has an average. -/
theorem flatMap_chunks (ts : List T) :
    (chunks paymentFormat size averages ts).flatMap Prod.fst =
      ts.filter fun t => (averages.get? (paymentFormat t)).isSome := by
  have hall := flatMap_batches paymentFormat size averages [] ts
  rw [List.nil_append] at hall
  rw [← hall, chunks]
  generalize batches paymentFormat size averages [] ts = result
  obtain ⟨full, batch⟩ := result
  by_cases hbatch : batch = []
  · by_cases hfull : full = []
    · simp [hbatch, hfull]
    · simp [hbatch, hfull]
  · simp [hbatch]

/-- Every chunk has the averages. -/
theorem snd_of_mem_chunks (ts : List T) :
    ∀ chunk ∈ chunks paymentFormat size averages ts, chunk.2 = averages := by
  have hfull := snd_of_mem_batches paymentFormat size averages [] ts
  unfold chunks
  generalize batches paymentFormat size averages [] ts = result at hfull ⊢
  obtain ⟨full, batch⟩ := result
  intro chunk hchunk
  by_cases hbatch : batch = []
  · by_cases hnone : full = []
    · simp only [hbatch, hnone, if_true, List.mem_singleton] at hchunk
      rw [hchunk]
    · simp only [hbatch, if_true, hnone, if_false] at hchunk
      exact hfull chunk hchunk
  · simp only [hbatch, if_false, List.append_eq_nil_iff, List.cons_ne_nil, and_false,
      List.mem_append, List.mem_singleton] at hchunk
    rcases hchunk with hold | hlast
    · exact hfull chunk hold
    · rw [hlast]

end UC3BankId

/-! ## The use case -/

/-- One use case for one client, over exact amounts: the fleets with what arrives at their
nodes. -/
structure UC3 where
  /-- The hash of all processes. -/
  hash : String → ℤ
  /-- How amounts are written to disk. -/
  numbers : NumberText ℚ
  /-- The most transactions of one chunk. -/
  chunkSize : ℕ
  clientId : UUID
  sumGroupBys : Fleet Unit (List (Transaction ℚ))
  avgAggregates : Fleet Unit (Dict String (ℚ × ℕ))
  merges : Fleet Side (AverageInput (Transaction ℚ) ℚ)
  avgFilters : Fleet Unit (MergedChunk (Transaction ℚ) ℚ)
  /-- The number of outputs of a filter. -/
  nJoins : ℕ

namespace UC3

variable (U : UC3)

def groupedSums : List (Output (Dict String (ℚ × ℕ))) :=
  U.sumGroupBys.sends
    (fun cfg => ringGroupBy cfg [U.avgAggregates.size] (uc3SumGroupBy U.hash)) U.clientId ()

/-- The aggregates broadcast, one format at a time. -/
def averages : List (Output (Dict String ℚ)) :=
  U.avgAggregates.sends
    (fun cfg => ringAggregate cfg U.merges.size (uc3Avg U.hash).toAggregateFn true)
    U.clientId Dict.empty

/-- The merge of averages with chunks of any size. -/
def mergeFn : MergeFn (UC3BankId ℚ) (Dict UUID (Dict String ℚ) × Dict UUID ℕ)
    (AverageInput (Transaction ℚ) ℚ) (MergedChunk (Transaction ℚ) ℚ) :=
  { uc3BankIdMergeFn (UC3BankIdMerge.lines U.numbers) Transaction.paymentFormat with
    getResult := UC3BankId.getResultOf (UC3BankIdMerge.lines U.numbers)
      Transaction.paymentFormat U.chunkSize }

/-- Chunks of `_CHUNK_SIZE` are those of the code. -/
theorem mergeFn_chunkSize (h : U.chunkSize = UC3BankId.chunkSize) :
    U.mergeFn =
      uc3BankIdMergeFn (UC3BankIdMerge.lines U.numbers) Transaction.paymentFormat := by
  rw [mergeFn, h]
  rfl

def merged : List (Output (MergedChunk (Transaction ℚ) ℚ)) :=
  U.merges.sends (fun cfg => ringMerge cfg U.avgFilters.size U.mergeFn) U.clientId
    ⟨Dict.empty, Dict.empty⟩

/-- A chunk after its way to a filter: the times are texts. -/
def received (chunk : MergedChunk (Transaction ℚ) ℚ) : MergedChunk (Transaction ℚ) ℚ :=
  (chunk.1.map fun t => t.withTimestamp (MergedTransactions.textOf t.timestamp), chunk.2)

def filtered : List (Output (List (Transaction ℚ))) :=
  U.avgFilters.sends (fun cfg => ringFilter cfg U.nJoins fun msg => uc3AvgFilter msg.body)
    U.clientId ()

/-- The transaction with its time as a `datetime`. -/
def instant (t : Transaction ℚ) : Transaction ℚ :=
  match t.timestamp with
  | .datetime _ => t
  | .text s => match fastDatetime s with
    | none => t
    | some d => t.withTimestamp (.datetime d)

/-- The transactions that all filters emit, compared by the instant of their time. -/
def rows : List (Transaction ℚ) := (U.filtered.flatMap Output.payload).map instant

/-- The transactions of an input of a merge, if it has some. -/
def transactionsOf : AverageInput (Transaction ℚ) ℚ → List (Transaction ℚ)
  | .avgByFormat _ => []
  | .transactions ts => ts

/-- The transactions of both periods come in batches, and every fleet receives what the one
before it sent. -/
structure Fed (periodA periodB : List (Transaction ℚ)) : Prop where
  periodA : (U.sumGroupBys.received U.clientId ()).flatten.Perm periodA
  periodB : ((U.merges.received U.clientId .right).flatMap transactionsOf).Perm periodB
  groupedSums : U.avgAggregates.Receives U.clientId () id U.groupedSums
  averages : U.merges.Receives U.clientId .left AverageInput.avgByFormat U.averages
  merged : U.avgFilters.Receives U.clientId () received U.merged

/-- The amounts that were paid in a format. -/
def paidBy (periodA : List (Transaction ℚ)) (paymentFormat : String) : List ℚ :=
  (periodA.filter fun t => t.paymentFormat = paymentFormat).map Transaction.amountPaid

/-- The mean of these. -/
def mean (periodA : List (Transaction ℚ)) (paymentFormat : String) : ℚ :=
  (paidBy periodA paymentFormat).sum / (paidBy periodA paymentFormat).length

/-- What is asked of a transaction. -/
def Below (periodA : List (Transaction ℚ)) (t : Transaction ℚ) : Prop :=
  t.paymentFormat ∈ periodA.map Transaction.paymentFormat ∧
    t.amountPaid < 1 / 100 * mean periodA t.paymentFormat

instance (periodA : List (Transaction ℚ)) : DecidablePred (Below periodA) := fun _ =>
  inferInstanceAs (Decidable (_ ∧ _))

/-! ## The sums -/

/-- The entry of a transaction. -/
def sumEntry (t : Transaction ℚ) : String × ℚ × ℕ := (t.paymentFormat, t.amountPaid, 1)

/-- The sums of a batch. -/
def sums (batch : List (Transaction ℚ)) : Dict String (ℚ × ℕ) :=
  batch.foldl UC3SumGroupBy.addTransaction Dict.empty

theorem sameTotals_sums (batch : List (Transaction ℚ)) :
    SameTotals (batch.map sumEntry) (sums batch).entries := by
  have hall := SameTotals.foldl_flatMap (fun t => [sumEntry t]) batch
  rwa [← List.map_eq_flatMap] at hall

/-- The total of a format. -/
theorem totalAt_sumEntry (periodA : List (Transaction ℚ)) (paymentFormat : String) :
    totalAt paymentFormat (periodA.map sumEntry) =
      ((paidBy periodA paymentFormat).sum, (paidBy periodA paymentFormat).length) := by
  induction periodA with
  | nil => rfl
  | cons t periodA ih =>
      rw [List.map_cons, totalAt_cons, ih, paidBy, paidBy, List.filter_cons]
      by_cases ht : t.paymentFormat = paymentFormat
      · simp [sumEntry, ht, Nat.add_comm]
      · simp [sumEntry, ht]

variable {U}

/-- Whether a format is summed by an aggregate. -/
def summedAt (U : UC3) (i : ℕ) (paymentFormat : String) : Bool :=
  (U.hash paymentFormat % (U.avgAggregates.size : ℤ)).toNat = i

/-- What is sent to an aggregate. -/
theorem flatMap_sentTo_groupedSums (i : ℕ) :
    (sentTo i U.groupedSums).flatMap Dict.entries =
      ((U.sumGroupBys.received U.clientId ()).flatMap fun batch =>
        (sums batch).entries).filter fun e => U.summedAt i e.1 := by
  have hsent : sentTo i U.groupedSums =
      (((U.sumGroupBys.received U.clientId ()).flatMap fun batch =>
        (sums batch).entries.map fun e => (Dict.empty.set e.1 e.2, U.hash e.1)).filter fun g =>
          (g.2 % (U.avgAggregates.size : ℤ)).toNat = i).map Prod.fst :=
    sentTo_groupBy i fun _ => rfl
  rw [← List.map_flatMap, List.filter_map, List.map_map] at hsent
  rw [hsent]
  exact Dict.flatMap_entries_singletons _

/-- The sums of an aggregate. -/
def sumsAt (U : UC3) (i : ℕ) : Dict String (ℚ × ℕ) :=
  (uc3Avg U.hash).tableOf (bodiesIn U.clientId () (U.avgAggregates.arrivals i))

theorem sameTotals_sumsAt {periodA periodB : List (Transaction ℚ)}
    (h : U.Fed periodA periodB) {i : ℕ} (hi : i < U.avgAggregates.size) :
    SameTotals ((periodA.map sumEntry).filter fun e => U.summedAt i e.1)
      (U.sumsAt i).entries := by
  have hbatches : SameTotals (periodA.map sumEntry)
      ((U.sumGroupBys.received U.clientId ()).flatMap fun batch => (sums batch).entries) := by
    apply (SameTotals.of_perm (h.periodA.symm.map sumEntry)).trans
    rw [List.map_flatten, ← List.flatMap_def]
    exact SameTotals.flatMap fun batch _ => sameTotals_sums batch
  have harrived : SameTotals ((sentTo i U.groupedSums).flatMap Dict.entries)
      ((bodiesIn U.clientId () (U.avgAggregates.arrivals i)).flatMap Dict.entries) := by
    apply SameTotals.of_perm
    have hperm := h.groupedSums i hi
    rw [List.map_id] at hperm
    exact (hperm.flatMap_right _).symm
  rw [flatMap_sentTo_groupedSums] at harrived
  exact ((hbatches.filter (U.summedAt i)).trans harrived).trans
    (SameTotals.foldl_flatMap Dict.entries _)

/-! ## The averages -/

/-- What an aggregate has of a format. -/
theorem get?_sumsAt {periodA periodB : List (Transaction ℚ)} (h : U.Fed periodA periodB)
    {i : ℕ} (hi : i < U.avgAggregates.size) (paymentFormat : String) :
    (U.sumsAt i).get? paymentFormat =
      if paymentFormat ∈ periodA.map Transaction.paymentFormat ∧
          U.summedAt i paymentFormat = true then
        some ((paidBy periodA paymentFormat).sum, (paidBy periodA paymentFormat).length)
      else none := by
  have hkeys : paymentFormat ∈ ((periodA.map sumEntry).filter fun e =>
      U.summedAt i e.1).map Prod.fst ↔
        paymentFormat ∈ periodA.map Transaction.paymentFormat ∧
          U.summedAt i paymentFormat = true := by
    have hmap : ((periodA.map sumEntry).filter fun e => U.summedAt i e.1).map Prod.fst =
        (periodA.map Transaction.paymentFormat).filter (U.summedAt i) := by
      rw [List.filter_map, List.filter_map, List.map_map]
      rfl
    rw [hmap, List.mem_filter]
  rw [(sameTotals_sumsAt h hi).get?]
  by_cases hmem : paymentFormat ∈ periodA.map Transaction.paymentFormat ∧
      U.summedAt i paymentFormat = true
  · rw [if_pos hmem, if_pos (hkeys.mpr hmem), totalAt_filter, if_pos hmem.2,
      totalAt_sumEntry]
  · rw [if_neg hmem, if_neg fun hkey => hmem (hkeys.mp hkey)]

/-- The averages that are sent to a merge. -/
theorem mem_sentTo_averages {periodA periodB : List (Transaction ℚ)}
    (h : U.Fed periodA periodB) {m : ℕ} (hm : m < U.merges.size) (e : String × ℚ) :
    e ∈ (sentTo m U.averages).flatMap Dict.entries ↔
      e.1 ∈ periodA.map Transaction.paymentFormat ∧ e.2 = mean periodA e.1 := by
  have hsent := TableFn.sentTo_sends_broadcast (T := uc3Avg U.hash) rfl U.avgAggregates
    U.clientId hm
  have hentries (i : ℕ) : (((uc3Avg U.hash).yields (U.sumsAt i)).map Prod.fst).flatMap
      Dict.entries = ((U.sumsAt i).mapVal fun v => v.1 / (v.2 : ℚ)).entries := by
    simp only [uc3Avg, List.map_map, Function.comp_def]
    exact Dict.flatMap_entries_singletons _
  have hvalue {i : ℕ} (hi : i < U.avgAggregates.size) :
      e ∈ ((U.sumsAt i).mapVal fun v => v.1 / (v.2 : ℚ)).entries ↔
        (e.1 ∈ periodA.map Transaction.paymentFormat ∧ U.summedAt i e.1 = true) ∧
          e.2 = mean periodA e.1 := by
    rw [← Dict.get?_eq_some_iff, Dict.get?_mapVal, get?_sumsAt h hi]
    by_cases hmem : e.1 ∈ periodA.map Transaction.paymentFormat ∧ U.summedAt i e.1 = true
    · rw [if_pos hmem, Option.map_some, Option.some_inj, and_iff_right hmem]
      exact eq_comm
    · rw [if_neg hmem, Option.map_none]
      exact iff_of_false (by simp) fun hboth => hmem hboth.1
  rw [averages, hsent, List.flatMap_assoc, List.mem_flatMap]
  constructor
  · intro hmem
    obtain ⟨i, hi, hmem⟩ := hmem
    obtain ⟨⟨hformat, -⟩, hmean⟩ := (hvalue (List.mem_range.mp hi)).mp (hentries i ▸ hmem)
    exact ⟨hformat, hmean⟩
  · intro hmem
    have hpos := U.avgAggregates.pos
    have hlt : (U.hash e.1 % (U.avgAggregates.size : ℤ)).toNat < U.avgAggregates.size := by
      have hmod : U.hash e.1 % (U.avgAggregates.size : ℤ) < U.avgAggregates.size :=
        Int.emod_lt_of_pos _ (by omega)
      omega
    refine ⟨_, List.mem_range.mpr hlt, ?_⟩
    have hsummed : U.summedAt (U.hash e.1 % (U.avgAggregates.size : ℤ)).toNat e.1 = true :=
      decide_eq_true rfl
    exact (hentries _).symm ▸ (hvalue hlt).mpr ⟨⟨hmem.1, hsummed⟩, hmem.2⟩

/-- The entries of an input of a merge, if it is about averages. -/
def averageEntries : AverageInput (Transaction ℚ) ℚ → List (String × ℚ)
  | .avgByFormat averages => averages.entries
  | .transactions _ => []

/-- The averages of a client at a merge after some messages. -/
theorem getD_averages (cfg : NodeConfig)
    (arrivals : List (Side × DataMsg (AverageInput (Transaction ℚ) ℚ))) (f : UC3BankId ℚ) :
    ((ringMerge cfg U.avgFilters.size U.mergeFn).consume arrivals f).averages.getD U.clientId
        Dict.empty =
      (bodiesIn U.clientId .left arrivals).foldl
        (fun averages body => (averageEntries body).foldl (fun d e => d.set e.1 e.2) averages)
        (f.averages.getD U.clientId Dict.empty) := by
  apply Controller.view_consume fun f : UC3BankId ℚ => f.averages.getD U.clientId Dict.empty
  · intro msg f hc
    cases hbody : msg.body with
    | avgByFormat averages =>
        simp [ringMerge, mergeFn, uc3BankIdMergeFn, UC3BankId.left, hbody, hc, averageEntries,
          Dict.getD_set]
    | transactions ts =>
        simp [ringMerge, mergeFn, uc3BankIdMergeFn, UC3BankId.left, hbody, averageEntries]
  · intro side msg f hne
    cases side with
    | left =>
        have hc : ¬U.clientId = msg.clientId := fun hc => hne.resolve_left (by simp) hc.symm
        cases hbody : msg.body <;>
          simp [ringMerge, mergeFn, uc3BankIdMergeFn, UC3BankId.left, hbody, hc, Dict.getD_set]
    | right =>
        cases hbody : msg.body <;>
          simp [ringMerge, mergeFn, uc3BankIdMergeFn, UC3BankId.right, hbody]

/-- What a merge has of the averages. -/
def averagesAt (U : UC3) (m : ℕ) : Dict String ℚ :=
  (bodiesIn U.clientId .left (U.merges.arrivals m)).foldl
    (fun averages body => (averageEntries body).foldl (fun d e => d.set e.1 e.2) averages)
    Dict.empty

/-- Every merge has the averages of all formats. -/
theorem get?_averagesAt {periodA periodB : List (Transaction ℚ)} (h : U.Fed periodA periodB)
    {m : ℕ} (hm : m < U.merges.size) (paymentFormat : String) :
    (U.averagesAt m).get? paymentFormat =
      if paymentFormat ∈ periodA.map Transaction.paymentFormat then
        some (mean periodA paymentFormat) else none := by
  have hcondenses : Condenses Condenses.AnyValue ((sentTo m U.averages).flatMap Dict.entries)
      (U.averagesAt m).entries := by
    apply (Condenses.foldl_flatMap Condenses.set_anyValue averageEntries _).congr _
      fun _ => Iff.rfl
    intro e
    rw [((h.averages m hm).flatMap_right _).mem_iff, List.flatMap_map]
    rfl
  have hsome : ((U.averagesAt m).get? paymentFormat).isSome = true ↔
      paymentFormat ∈ periodA.map Transaction.paymentFormat := by
    rw [hcondenses.get?_isSome]
    constructor
    · intro hgiven
      obtain ⟨e, he, rfl⟩ := hgiven
      exact ((mem_sentTo_averages h hm e).mp he).1
    · intro hformat
      exact ⟨(paymentFormat, mean periodA paymentFormat),
        (mem_sentTo_averages h hm _).mpr ⟨hformat, rfl⟩, rfl⟩
  cases hget : (U.averagesAt m).get? paymentFormat with
  | none =>
      rw [hget] at hsome
      rw [if_neg fun hformat => by simpa using hsome.mpr hformat]
  | some average =>
      rw [hget] at hsome
      rw [if_pos (hsome.mp rfl)]
      exact congrArg some ((mem_sentTo_averages h hm _).mp (hcondenses.get? hget).1).2

/-! ## The transactions -/

/-- What a reader finds in the spill of a client after some messages. -/
theorem content_spill (cfg : NodeConfig)
    (arrivals : List (Side × DataMsg (AverageInput (Transaction ℚ) ℚ))) (f : UC3BankId ℚ) :
    SpillFiles.content
        ((ringMerge cfg U.avgFilters.size U.mergeFn).consume arrivals f).spill U.clientId =
      (bodiesIn U.clientId .right arrivals).foldl
        (fun bytes body => bytes ++ (UC3BankIdMerge.lines U.numbers).text (transactionsOf body))
        (SpillFiles.content f.spill U.clientId) := by
  apply Controller.view_consume fun f : UC3BankId ℚ => SpillFiles.content f.spill U.clientId
  · intro msg f hc
    cases hbody : msg.body with
    | avgByFormat averages =>
        simp [ringMerge, mergeFn, uc3BankIdMergeFn, UC3BankId.right, hbody, transactionsOf,
          LineCodec.text]
    | transactions ts =>
        simp [ringMerge, mergeFn, uc3BankIdMergeFn, UC3BankId.right, hbody, hc, transactionsOf,
          LineCodec.content_spill]
  · intro side msg f hne
    cases side with
    | left =>
        cases hbody : msg.body <;>
          simp [ringMerge, mergeFn, uc3BankIdMergeFn, UC3BankId.left, hbody]
    | right =>
        have hc : ¬U.clientId = msg.clientId := fun hc => hne.resolve_left (by simp) hc.symm
        cases hbody : msg.body <;>
          simp [ringMerge, mergeFn, uc3BankIdMergeFn, UC3BankId.right, hbody, hc,
            LineCodec.content_spill]

/-- The transactions that a merge received. -/
def spilledAt (U : UC3) (m : ℕ) : List (Transaction ℚ) :=
  (bodiesIn U.clientId .right (U.merges.arrivals m)).flatMap transactionsOf

/-- A merge reads back the transactions that it received. -/
theorem entries_spill {m : ℕ}
    (hreadable : ∀ t ∈ U.spilledAt m, UC3BankIdMerge.Readable U.numbers t) :
    (UC3BankIdMerge.lines U.numbers).entries U.clientId
        ((ringMerge (U.merges.config m) U.avgFilters.size U.mergeFn).consume
          (U.merges.arrivals m) ⟨Dict.empty, Dict.empty⟩).spill = U.spilledAt m := by
  apply (UC3BankIdMerge.faithful_lines U.numbers).entries_eq
  constructor
  · rw [content_spill, LineCodec.foldl_text]
    rfl
  · exact hreadable

/-! ## The result -/

/-- The chunks of a merge. -/
def chunksAt (U : UC3) (m : ℕ) : List (MergedChunk (Transaction ℚ) ℚ) :=
  UC3BankId.chunks Transaction.paymentFormat U.chunkSize (U.averagesAt m) (U.spilledAt m)

section Result

variable {periodA periodB : List (Transaction ℚ)}

theorem sendsOf_merges {m : ℕ}
    (hreadable : ∀ t ∈ U.spilledAt m, UC3BankIdMerge.Readable U.numbers t) :
    U.merges.sendsOf (fun cfg => ringMerge cfg U.avgFilters.size U.mergeFn) U.clientId
        ⟨Dict.empty, Dict.empty⟩ m =
      RingMerge.route U.avgFilters.size (U.chunksAt m) := by
  have houtputs : ((U.merges.arrivals m).filter fun a => a.2.clientId = U.clientId).flatMap
      (fun _ => ([] : List (Output (MergedChunk (Transaction ℚ) ℚ)))) = [] := by
    simp
  have haverages := getD_averages (U := U) (U.merges.config m) (U.merges.arrivals m)
    ⟨Dict.empty, Dict.empty⟩
  have hentries := entries_spill hreadable
  rw [chunksAt, averagesAt, ← hentries]
  rw [Dict.getD_empty] at haverages
  rw [← haverages]
  exact congrArg (· ++ _) houtputs

/-- The merges send their chunks. -/
theorem payloads_merged
    (hreadable : ∀ m < U.merges.size, ∀ t ∈ U.spilledAt m,
      UC3BankIdMerge.Readable U.numbers t) :
    U.merged.map Output.payload = (List.range U.merges.size).flatMap U.chunksAt := by
  rw [merged, Fleet.sends, List.map_flatMap]
  apply List.flatMap_congr
  intro m hm
  rw [sendsOf_merges (hreadable m (List.mem_range.mp hm)), payloads_route]

theorem shard_lt_merged
    (hreadable : ∀ m < U.merges.size, ∀ t ∈ U.spilledAt m,
      UC3BankIdMerge.Readable U.numbers t) :
    ∀ o ∈ U.merged, o.shard < U.avgFilters.size := by
  intro o ho
  obtain ⟨m, hm, ho⟩ := List.mem_flatMap.mp ho
  rw [sendsOf_merges (hreadable m (List.mem_range.mp hm))] at ho
  exact shard_lt_route U.avgFilters.pos _ o ho

/-- A transaction passes the filter if it is below its part of the average. -/
theorem keep_averagesAt (h : U.Fed periodA periodB) {m : ℕ} (hm : m < U.merges.size)
    (t : Transaction ℚ) :
    UC3AvgFilter.keep (U.averagesAt m) t = decide (Below periodA t) := by
  rw [UC3AvgFilter.keep, get?_averagesAt h hm]
  by_cases hformat : t.paymentFormat ∈ periodA.map Transaction.paymentFormat
  · simp only [if_pos hformat, Below, and_iff_right hformat]
    rfl
  · simp [hformat, Below]

/-- A time is the same after its way to the filter and back. -/
theorem instant_withTimestamp {t : Transaction ℚ} (h : ∃ d, t.timestamp = .datetime d) :
    instant (t.withTimestamp (MergedTransactions.textOf t.timestamp)) = t := by
  obtain ⟨d, hts⟩ := h
  simp only [hts, MergedTransactions.textOf, instant, Transaction.withTimestamp,
    fastDatetime_str]
  rw [← hts]

/-- What a filter emits of a chunk. -/
theorem filter_chunk (h : U.Fed periodA periodB) {m : ℕ} (hm : m < U.merges.size)
    {chunk : MergedChunk (Transaction ℚ) ℚ} (haverages : chunk.2 = U.averagesAt m)
    (htimes : ∀ t ∈ chunk.1, ∃ d, t.timestamp = .datetime d) :
    (uc3AvgFilter (received chunk)).map instant = chunk.1.filter (Below periodA) := by
  have hkeep (t : Transaction ℚ) : UC3AvgFilter.keep chunk.2
      (t.withTimestamp (MergedTransactions.textOf t.timestamp)) =
        decide (Below periodA t) := by
    rw [haverages, ← keep_averagesAt h hm]
    rfl
  rw [uc3AvgFilter, received, List.filter_map, List.map_map]
  simp only [Function.comp_def, hkeep]
  apply (List.map_congr_left _).trans (List.map_id _)
  intro t ht
  exact instant_withTimestamp (htimes t (List.mem_filter.mp ht).1)

/-- What the filters emit of the chunks of a merge. -/
theorem filter_chunksAt (h : U.Fed periodA periodB) {m : ℕ} (hm : m < U.merges.size)
    (htimes : ∀ t ∈ U.spilledAt m, ∃ d, t.timestamp = .datetime d) :
    (U.chunksAt m).flatMap (fun chunk => (uc3AvgFilter (received chunk)).map instant) =
      (U.spilledAt m).filter (Below periodA) := by
  have hchunks : (U.chunksAt m).flatMap Prod.fst = (U.spilledAt m).filter fun t =>
      ((U.averagesAt m).get? t.paymentFormat).isSome :=
    UC3BankId.flatMap_chunks _ _ _ _
  have hchunk : ∀ chunk ∈ U.chunksAt m, (uc3AvgFilter (received chunk)).map instant =
      chunk.1.filter (Below periodA) := by
    intro chunk hchunk
    apply filter_chunk h hm (UC3BankId.snd_of_mem_chunks _ _ _ _ chunk hchunk)
    intro t ht
    have hmem : t ∈ (U.chunksAt m).flatMap Prod.fst := List.mem_flatMap.mpr ⟨chunk, hchunk, ht⟩
    rw [hchunks] at hmem
    exact htimes t (List.mem_filter.mp hmem).1
  rw [List.flatMap_congr hchunk, ← List.filter_flatMap, hchunks, List.filter_filter]
  apply List.filter_congr
  intro t _
  rw [get?_averagesAt h hm]
  by_cases hformat : t.paymentFormat ∈ periodA.map Transaction.paymentFormat
  · simp [hformat]
  · simp [hformat, Below]

/-- The use case emits the transactions of period B that are below their part of the average
of period A. -/
theorem emits_below (U : UC3) (periodA periodB : List (Transaction ℚ))
    (hperiod : ∀ t ∈ periodB, uc3FilterPeriodB t = true)
    (hexact : ∀ t ∈ periodB, UC3BankIdMerge.Exact U.numbers t)
    (h : U.Fed periodA periodB) : U.rows.Perm (periodB.filter (Below periodA)) := by
  have hspilled : ((List.range U.merges.size).flatMap U.spilledAt).Perm periodB := by
    have hperm := h.periodB
    rwa [Fleet.received, List.flatMap_assoc] at hperm
  have hreadable : ∀ m < U.merges.size, ∀ t ∈ U.spilledAt m,
      UC3BankIdMerge.Readable U.numbers t := by
    intro m hm t ht
    have hmem := hspilled.subset (List.mem_flatMap.mpr ⟨m, List.mem_range.mpr hm, ht⟩)
    obtain ⟨d, hts, hyear⟩ := year_of_periodB (hperiod t hmem)
    exact ⟨⟨d, hts, by omega⟩, hexact t hmem⟩
  have hreceived := h.merged.perm (shard_lt_merged hreadable)
  have hpayloads : U.filtered.map Output.payload =
      (U.avgFilters.received U.clientId ()).map uc3AvgFilter :=
    payloads_filter U.avgFilters U.clientId U.nJoins uc3AvgFilter
  calc
    U.rows = ((U.avgFilters.received U.clientId ()).flatMap uc3AvgFilter).map instant := by
      rw [rows, List.flatMap_def, hpayloads, ← List.flatMap_def]
    List.Perm _ (((U.merged.map Output.payload).flatMap fun chunk =>
        uc3AvgFilter (received chunk)).map instant) := by
      rw [List.flatMap_map]
      have hflat := (hreceived.flatMap_right uc3AvgFilter).map instant
      rwa [List.flatMap_map] at hflat
    _ = ((List.range U.merges.size).flatMap U.spilledAt).filter (Below periodA) := by
      rw [payloads_merged hreadable, List.map_flatMap, List.flatMap_assoc, List.filter_flatMap]
      apply List.flatMap_congr
      intro m hm
      apply filter_chunksAt h (List.mem_range.mp hm)
      intro t ht
      obtain ⟨d, hts, -⟩ := (hreadable m (List.mem_range.mp hm) t ht).time
      exact ⟨d, hts⟩
    List.Perm _ (periodB.filter (Below periodA)) := hspilled.filter _

end Result

/-- The characters of a float without a fraction are those of a number. -/
theorem isNumeric_of_mem_wholeText {n : ℕ} {c : Char}
    (hc : c ∈ Nat.toDigits 10 n ++ ['.', '0']) : Json.isNumeric c = true := by
  rcases List.mem_append.mp hc with hdigit | hrest
  · rw [Json.isNumeric, Nat.isDigit_of_mem_toDigits (by omega) (by omega) hdigit]
    rfl
  · have hfraction : c = '.' ∨ c = '0' := by simpa using hrest
    rcases hfraction with hpoint | hzero
    · rw [hpoint]
      decide
    · rw [hzero]
      decide

/-- The text of a float without a fraction, such as `5.0`. -/
def wholeText (a : ℚ) : Json.Numeral where
  chars := Nat.toDigits 10 a.num.toNat ++ ['.', '0']
  ne_nil := by simp
  numeric _ := isNumeric_of_mem_wholeText

def wholeNumbers : NumberText ℚ where
  write := wholeText
  read n := some (Nat.ofDigitChars 10 (n.chars.take (n.chars.length - 2)) 0 : ℕ)

/-- A payment in dollars. -/
def payment (timestamp : DateTime) (amount : ℚ) (paymentFormat : String) :
    Transaction ℚ where
  timestamp := .datetime timestamp
  fromBank := "10"
  fromAccount := "a"
  toBank := "11"
  toAccount := "b"
  amountReceived := amount
  receivingCurrency := "US Dollar"
  amountPaid := amount
  paymentCurrency := "US Dollar"
  paymentFormat := paymentFormat

/-- The configuration of every node. -/
def config (_ : ℕ) : NodeConfig := ⟨⟨0, 1, 0⟩, 5, fun shard => BitVec.ofNat 128 shard⟩

/-- A message of client `1`. -/
def message {Q α : Type} (q : Q) (seq : ℕ) (body : α) : Q × DataMsg α := (q, ⟨1, 7, seq, body⟩)

def early : DateTime := ⟨2022, 9, 1, 8, 30, 0, by decide⟩

def late : DateTime := ⟨2022, 9, 6, 23, 59, 59, by decide⟩

/-- A payment as a filter receives it. -/
def receivedPayment (amount : ℚ) : Transaction ℚ :=
  (payment late amount "Wire").withTimestamp (.text "2022-09-06 23:59:59")

/-- One payment of each period in a chunk of its own; the mean of the first period is 2000. -/
def wires : UC3 where
  hash _ := 3
  numbers := wholeNumbers
  chunkSize := 1
  clientId := 1
  sumGroupBys := ⟨2, Nat.two_pos, config, fun i =>
    [message () 1 [payment early (if i = 0 then 1000 else 3000) "Wire"]]⟩
  avgAggregates := ⟨1, Nat.one_pos, config, fun _ =>
    [message () 1 (Dict.empty.set "Wire" (3000, 1)),
      message () 2 (Dict.empty.set "Wire" (1000, 1))]⟩
  merges := ⟨1, Nat.one_pos, config, fun _ =>
    [message .right 1 (.transactions [payment late 5 "Wire", payment late 5 "Cash"]),
      message .left 1 (.avgByFormat (Dict.empty.set "Wire" 2000)),
      message .right 2 (.transactions [payment late 30 "Wire"])]⟩
  avgFilters := ⟨2, Nat.two_pos, config, fun i =>
    [message () 1 ([receivedPayment (if i = 0 then 5 else 30)], Dict.empty.set "Wire" 2000)]⟩
  nJoins := 1

def wiresA : List (Transaction ℚ) := [payment early 1000 "Wire", payment early 3000 "Wire"]

def wiresB : List (Transaction ℚ) :=
  [payment late 30 "Wire", payment late 5 "Cash", payment late 5 "Wire"]

/-- The payment below twenty dollars is emitted. -/
theorem emits_below_wires : wires.rows = [payment late 5 "Wire"] ∧
    wires.rows.Perm (wiresB.filter (Below wiresA)) := by
  constructor
  · decide +kernel
  · apply emits_below
    · decide +kernel
    · unfold UC3BankIdMerge.Exact
      decide +kernel
    · constructor <;> decide +kernel

end UC3
