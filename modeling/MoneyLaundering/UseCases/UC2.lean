import Mathlib.Order.Bounds.Basic
import MoneyLaundering.Aggregate.Tables
import MoneyLaundering.GroupBy.GroupByFns

/-!
# The largest payment of each bank

Two group-bys, two aggregates and a merge join the largest amount of every bank with the
name of the bank.  The maxima are taken three times, and every merge has all of them; the
names are sharded, so that every bank has its name at one merge.
-/

open Messages

/-! ## The use case -/

/-- One use case for one client: the stages with what arrives at their instances. -/
structure UC2 (A : Type) where
  /-- The hash of all processes. -/
  hash : String → ℤ
  clientId : UUID
  maxGroupBys : Fleet Unit (List (Transaction A))
  maxAggregates : Fleet Unit (Dict String (String × A))
  nameGroupBys : Fleet Unit (List Account)
  nameAggregates : Fleet Unit (Dict String String)
  merges : Fleet Side (BankInput A)
  /-- The number of outputs of a merge. -/
  nJoins : ℕ

namespace UC2

variable {A : Type} [LinearOrder A] (U : UC2 A)

/-- The comparison of amounts. -/
def gt (a b : A) : Bool := decide (b < a)

def groupedMaxes : List (Output (Dict String (String × A))) :=
  U.maxGroupBys.sends
    (fun cfg => ringGroupBy cfg [U.maxAggregates.size] (uc2MaxAmountGroupBy U.hash gt))
    U.clientId ()

/-- The aggregates of amounts broadcast. -/
def aggregatedMaxes : List (Output (Dict String (String × A))) :=
  U.maxAggregates.sends
    (fun cfg => ringAggregate cfg U.merges.size (uc2MaxAmount U.hash gt).toAggregateFn true)
    U.clientId Dict.empty

def groupedNames : List (Output (Dict String String)) :=
  U.nameGroupBys.sends
    (fun cfg => ringGroupBy cfg [U.nameAggregates.size] (uc2BankNamesGroupBy U.hash))
    U.clientId ()

/-- The aggregates of names shard. -/
def aggregatedNames : List (Output (Dict String String)) :=
  U.nameAggregates.sends
    (fun cfg => ringAggregate cfg U.merges.size (uc2BankNames U.hash).toAggregateFn false)
    U.clientId Dict.empty

def merged : List (Output (List (String × String × A × String))) :=
  U.merges.sends (fun cfg => ringMerge cfg U.nJoins (uc2BankIdMergeFn gt)) U.clientId
    ⟨Dict.empty, Dict.empty⟩

/-- The rows that all merges emit. -/
def rows : List (String × String × A × String) := U.merged.flatMap Output.payload

/-- The transactions and the accounts come in batches, and every stage receives what the
stage before it sent. -/
structure Fed (transactions : List (Transaction A)) (accounts : List Account) : Prop where
  transactions : (U.maxGroupBys.received U.clientId ()).flatten.Perm transactions
  accounts : (U.nameGroupBys.received U.clientId ()).flatten.Perm accounts
  groupedMaxes : U.maxAggregates.Receives U.clientId () id U.groupedMaxes
  groupedNames : U.nameAggregates.Receives U.clientId () id U.groupedNames
  aggregatedMaxes :
    U.merges.Receives U.clientId .left BankInput.maxByBank U.aggregatedMaxes
  aggregatedNames :
    U.merges.Receives U.clientId .right BankInput.bankNames U.aggregatedNames

/-- What the rows should be: one for each bank with a transaction and an account, with the
largest amount of the bank, an account that paid it, and the name of the bank. -/
structure Joins (transactions : List (Transaction A)) (accounts : List Account)
    (rows : List (String × String × A × String)) : Prop where
  once : (rows.map Prod.fst).Nodup
  banks : ∀ bank, bank ∈ rows.map Prod.fst ↔
    (∃ t ∈ transactions, t.fromBank = bank) ∧ ∃ a ∈ accounts, a.bankId = bank
  amount : ∀ row ∈ rows,
    IsGreatest {x | ∃ t ∈ transactions, t.fromBank = row.1 ∧ t.amountPaid = x} row.2.2.1
  account : ∀ row ∈ rows, ∃ t ∈ transactions,
    t.fromBank = row.1 ∧ t.fromAccount = row.2.1 ∧ t.amountPaid = row.2.2.1
  name : ∀ row ∈ rows, ∀ a ∈ accounts, a.bankId = row.1 → a.bankName = row.2.2.2

/-! ## Groups -/

variable {U}

/-- The groups of some data have its entries. -/
theorem mem_bankAffinities {V : Type} (hash : String → ℤ) (data : Dict String V)
    (e : String × V) :
    e ∈ (bankAffinities hash data).flatMap (fun group => group.1.entries) ↔
      e ∈ data.entries := by
  unfold bankAffinities
  rw [List.flatMap_map]
  exact Dict.mem_gather_entries data.nodup e

/-- If the data of each batch condenses the batch, what the next stage receives condenses
all batches. -/
theorem condenses_grouped {T V : Type} {beats : V → V → Prop} {hash : String → ℤ}
    {clientId : UUID} {X : Fleet Unit (List T)} {Y : Fleet Unit (Dict String V)}
    {entry : T → String × V} {data : List T → Dict String V}
    (hdata : ∀ batch, Condenses beats (batch.map entry) (data batch).entries)
    (hY : Y.Receives clientId () id (X.sends (fun cfg =>
      ringGroupBy cfg [Y.size] fun msg => bankAffinities hash (data msg.body)) clientId ()))
    {ts : List T} (hts : (X.received clientId ()).flatten.Perm ts) :
    Condenses beats (ts.map entry) ((Y.received clientId ()).flatMap Dict.entries) := by
  have hreceived : (Y.received clientId ()).Perm (((X.received clientId ()).flatMap fun batch =>
      bankAffinities hash (data batch)).map Prod.fst) := by
    rw [List.map_flatMap]
    exact received_groups (fun _ => rfl) hY
  have hbatches : Condenses beats ((X.received clientId ()).flatMap fun batch =>
      batch.map entry) ((X.received clientId ()).flatMap fun batch =>
        (bankAffinities hash (data batch)).flatMap fun group => group.1.entries) := by
    apply Condenses.flatMap
    intro batch _
    exact (hdata batch).congr (fun _ => Iff.rfl) fun e => mem_bankAffinities hash _ e
  apply hbatches.congr
  · intro e
    rw [← (hts.map _).mem_iff, List.map_flatten, List.flatMap_def]
  · intro e
    rw [(hreceived.flatMap_right _).mem_iff, List.flatMap_map, List.flatMap_assoc]

/-! ## The maxima -/

/-- An entry beats those with amounts that are not larger. -/
def Beats (v w : String × A) : Prop := w.2 ≤ v.2

theorem beats_refl (v : String × A) : Beats v v := le_refl v.2

theorem beats_trans (u v w : String × A) (huv : Beats u v) (hvw : Beats v w) : Beats u w :=
  le_trans hvw huv

theorem condenses_keepMax (ts : List (String × String × A)) (d : Dict String (String × A))
    (e : String × String × A) (h : Condenses Beats ts d.entries) :
    Condenses Beats (ts ++ [e]) (UC2BankId.keepMax gt d e).entries := by
  unfold UC2BankId.keepMax
  cases hget : d.get? e.1 with
  | none =>
      apply h.set beats_refl beats_trans
      intro v hv
      rw [hget] at hv
      cases hv
  | some curr =>
      by_cases hgt : gt e.2.2 curr.2 = true
      · simp only [hgt, if_true]
        apply h.set beats_refl beats_trans
        intro v hv
        rw [hget] at hv
        rw [← Option.some.inj hv]
        exact le_of_lt (of_decide_eq_true hgt)
      · simp only [hgt]
        apply h.skip
        refine ⟨curr, hget, ?_⟩
        exact not_lt.mp (of_decide_eq_false (Bool.eq_false_iff.mpr hgt))

theorem condenses_maxesByBank (batch : List (Transaction A)) :
    Condenses Beats (batch.map UC2MaxAmountGroupBy.entry)
      (UC2MaxAmountGroupBy.maxesByBank gt batch).entries := by
  have hfold := Condenses.empty.foldl condenses_keepMax
    (batch.map UC2MaxAmountGroupBy.entry)
  rwa [List.foldl_map, List.nil_append] at hfold

/-- What the aggregates of amounts send to a merge. -/
theorem condenses_aggregatedMaxes {m : ℕ} (hm : m < U.merges.size) :
    Condenses Beats ((U.maxAggregates.received U.clientId ()).flatMap Dict.entries)
      ((sentTo m U.aggregatedMaxes).flatMap Dict.entries) := by
  have hsent := TableFn.sentTo_sends_broadcast (T := uc2MaxAmount U.hash gt) rfl
    U.maxAggregates U.clientId hm
  have htables : Condenses Beats
      ((List.range U.maxAggregates.size).flatMap fun i =>
        (bodiesIn U.clientId () (U.maxAggregates.arrivals i)).flatMap Dict.entries)
      ((List.range U.maxAggregates.size).flatMap fun i =>
        ((uc2MaxAmount U.hash gt).tableOf
          (bodiesIn U.clientId () (U.maxAggregates.arrivals i))).entries) := by
    apply Condenses.flatMap
    intro i _
    exact Condenses.foldl_flatMap condenses_keepMax Dict.entries _
  apply htables.congr
  · intro e
    rw [Fleet.received, List.flatMap_assoc]
  · intro e
    rw [aggregatedMaxes, hsent, List.flatMap_assoc]
    simp only [uc2MaxAmount, List.map_map, Function.comp_def, Dict.flatMap_entries_singletons]

/-- The entries of an input of a merge, if it is about amounts. -/
def maxEntries : BankInput A → List (String × String × A)
  | .maxByBank data => data.entries
  | .bankNames _ => []

/-- The amounts of a client at a merge after some messages. -/
theorem getD_maxAmounts (cfg : NodeConfig) (arrivals : List (Side × DataMsg (BankInput A)))
    (f : UC2BankId A) :
    ((ringMerge cfg U.nJoins (uc2BankIdMergeFn gt)).consume arrivals f).maxAmounts.getD
        U.clientId Dict.empty =
      (bodiesIn U.clientId .left arrivals).foldl
        (fun maxes body => (maxEntries body).foldl (UC2BankId.keepMax gt) maxes)
        (f.maxAmounts.getD U.clientId Dict.empty) := by
  apply Controller.view_consume fun f : UC2BankId A =>
    f.maxAmounts.getD U.clientId Dict.empty
  · intro msg f hc
    cases hbody : msg.body with
    | maxByBank data =>
        simp [ringMerge, uc2BankIdMergeFn, UC2BankId.left, hbody, hc, maxEntries,
          Dict.getD_set]
    | bankNames data => simp [ringMerge, uc2BankIdMergeFn, UC2BankId.left, hbody, maxEntries]
  · intro side msg f hne
    cases side with
    | left =>
        have hc : ¬U.clientId = msg.clientId := fun hc => hne.resolve_left (by simp) hc.symm
        cases hbody : msg.body <;>
          simp [ringMerge, uc2BankIdMergeFn, UC2BankId.left, hbody, hc, Dict.getD_set]
    | right =>
        cases hbody : msg.body <;>
          simp [ringMerge, uc2BankIdMergeFn, UC2BankId.right, hbody]

/-- What a merge has of the amounts. -/
def maxesAt (U : UC2 A) (m : ℕ) : Dict String (String × A) :=
  (bodiesIn U.clientId .left (U.merges.arrivals m)).foldl
    (fun maxes body => (maxEntries body).foldl (UC2BankId.keepMax gt) maxes) Dict.empty

/-- Every merge has the largest amounts of all banks. -/
theorem condenses_maxesAt {transactions : List (Transaction A)} {accounts : List Account}
    (h : U.Fed transactions accounts) {m : ℕ} (hm : m < U.merges.size) :
    Condenses Beats (transactions.map UC2MaxAmountGroupBy.entry) (U.maxesAt m).entries := by
  have hgrouped : Condenses Beats (transactions.map UC2MaxAmountGroupBy.entry)
      ((U.maxAggregates.received U.clientId ()).flatMap Dict.entries) :=
    condenses_grouped condenses_maxesByBank h.groupedMaxes h.transactions
  have hmerged : Condenses Beats ((sentTo m U.aggregatedMaxes).flatMap Dict.entries)
      (U.maxesAt m).entries := by
    apply (Condenses.foldl_flatMap condenses_keepMax maxEntries _).congr _ fun _ => Iff.rfl
    intro e
    rw [((h.aggregatedMaxes m hm).flatMap_right _).mem_iff, List.flatMap_map]
    rfl
  exact (hgrouped.trans beats_trans (condenses_aggregatedMaxes hm)).trans beats_trans hmerged

/-! ## The names -/

/-- The entry of an account. -/
def nameEntry (a : Account) : String × String := (a.bankId, a.bankName)

theorem condenses_bankNames (batch : List Account) :
    Condenses Condenses.AnyValue (batch.map nameEntry)
      (Dict.ofList (batch.map nameEntry)).entries :=
  Condenses.empty.foldl Condenses.set_anyValue (batch.map nameEntry)

/-- The banks whose names a merge has. -/
def namedAt (U : UC2 A) (m : ℕ) (bank : String) : Bool :=
  decide (U.hash bank % (U.merges.size : ℤ) = m)

omit [LinearOrder A] in
/-- What the aggregates of names send to a merge. -/
theorem condenses_aggregatedNames {m : ℕ} (hm : m < U.merges.size) :
    Condenses Condenses.AnyValue
      (((U.nameAggregates.received U.clientId ()).flatMap Dict.entries).filter
        fun e => U.namedAt m e.1)
      ((sentTo m U.aggregatedNames).flatMap Dict.entries) := by
  have hsent := TableFn.sentTo_sends_sharded (T := uc2BankNames U.hash) rfl
    U.nameAggregates U.clientId hm
  have htables : Condenses Condenses.AnyValue
      ((List.range U.nameAggregates.size).flatMap fun i =>
        (bodiesIn U.clientId () (U.nameAggregates.arrivals i)).flatMap Dict.entries)
      ((List.range U.nameAggregates.size).flatMap fun i =>
        ((uc2BankNames U.hash).tableOf
          (bodiesIn U.clientId () (U.nameAggregates.arrivals i))).entries) := by
    apply Condenses.flatMap
    intro i _
    exact Condenses.foldl_flatMap Condenses.set_anyValue Dict.entries _
  apply (htables.filter (U.namedAt m)).congr
  · intro e
    rw [Fleet.received, List.flatMap_assoc]
  · intro e
    rw [aggregatedNames, hsent, List.flatMap_assoc, List.filter_flatMap]
    simp only [uc2BankNames, List.filter_map, List.map_map, Function.comp_def,
      Dict.flatMap_entries_singletons]
    rfl

/-- The entries of an input of a merge, if it is about names. -/
def nameEntries : BankInput A → List (String × String)
  | .maxByBank _ => []
  | .bankNames data => data.entries

/-- The names of a client at a merge after some messages. -/
theorem getD_bankNames (cfg : NodeConfig) (arrivals : List (Side × DataMsg (BankInput A)))
    (f : UC2BankId A) :
    ((ringMerge cfg U.nJoins (uc2BankIdMergeFn gt)).consume arrivals f).bankNames.getD
        U.clientId Dict.empty =
      (bodiesIn U.clientId .right arrivals).foldl
        (fun names body => (nameEntries body).foldl (fun names e => names.set e.1 e.2) names)
        (f.bankNames.getD U.clientId Dict.empty) := by
  apply Controller.view_consume fun f : UC2BankId A =>
    f.bankNames.getD U.clientId Dict.empty
  · intro msg f hc
    cases hbody : msg.body with
    | maxByBank data =>
        simp [ringMerge, uc2BankIdMergeFn, UC2BankId.right, hbody, nameEntries]
    | bankNames data =>
        simp [ringMerge, uc2BankIdMergeFn, UC2BankId.right, hbody, hc, nameEntries,
          Dict.getD_set]
  · intro side msg f hne
    cases side with
    | left =>
        cases hbody : msg.body <;>
          simp [ringMerge, uc2BankIdMergeFn, UC2BankId.left, hbody]
    | right =>
        have hc : ¬U.clientId = msg.clientId := fun hc => hne.resolve_left (by simp) hc.symm
        cases hbody : msg.body <;>
          simp [ringMerge, uc2BankIdMergeFn, UC2BankId.right, hbody, hc, Dict.getD_set]

/-- What a merge has of the names. -/
def namesAt (U : UC2 A) (m : ℕ) : Dict String String :=
  (bodiesIn U.clientId .right (U.merges.arrivals m)).foldl
    (fun names body => (nameEntries body).foldl (fun names e => names.set e.1 e.2) names)
    Dict.empty

/-- A merge has the names of its banks. -/
theorem condenses_namesAt {transactions : List (Transaction A)} {accounts : List Account}
    (h : U.Fed transactions accounts) {m : ℕ} (hm : m < U.merges.size) :
    Condenses Condenses.AnyValue ((accounts.map nameEntry).filter fun e => U.namedAt m e.1)
      (U.namesAt m).entries := by
  have hgrouped : Condenses Condenses.AnyValue (accounts.map nameEntry)
      ((U.nameAggregates.received U.clientId ()).flatMap Dict.entries) :=
    condenses_grouped condenses_bankNames h.groupedNames h.accounts
  have hmerged : Condenses Condenses.AnyValue ((sentTo m U.aggregatedNames).flatMap Dict.entries)
      (U.namesAt m).entries := by
    apply (Condenses.foldl_flatMap Condenses.set_anyValue nameEntries _).congr _ fun _ => Iff.rfl
    intro e
    rw [((h.aggregatedNames m hm).flatMap_right _).mem_iff, List.flatMap_map]
    rfl
  have hmine := (hgrouped.filter (U.namedAt m)).trans Condenses.trans_anyValue
    (condenses_aggregatedNames hm)
  exact hmine.trans Condenses.trans_anyValue hmerged

/-! ## The rows -/

/-- The rows of one merge. -/
def rowsAt (U : UC2 A) (m : ℕ) : List (String × String × A × String) :=
  UC2BankId.mergeEntries (U.maxesAt m) (U.namesAt m)

theorem rows_eq : U.rows = (List.range U.merges.size).flatMap U.rowsAt := by
  have hone (m : ℕ) : (U.merges.sendsOf (fun cfg =>
      ringMerge cfg U.nJoins (uc2BankIdMergeFn gt)) U.clientId ⟨Dict.empty, Dict.empty⟩
        m).flatMap Output.payload = U.rowsAt m := by
    have hmaxes := getD_maxAmounts (U := U) (U.merges.config m) (U.merges.arrivals m)
      ⟨Dict.empty, Dict.empty⟩
    have hnames := getD_bankNames (U := U) (U.merges.config m) (U.merges.arrivals m)
      ⟨Dict.empty, Dict.empty⟩
    simp only [Dict.getD_empty] at hmaxes hnames
    rw [rowsAt, maxesAt, namesAt, ← hmaxes, ← hnames]
    simp [Fleet.sendsOf, Controller.sends, ringMerge, uc2BankIdMergeFn, UC2BankId.getResult,
      RingMerge.route]
  rw [rows, merged, Fleet.sends, List.flatMap_assoc]
  exact congrArg (List.range U.merges.size).flatMap (funext hone)

/-- A row has a bank of both tables. -/
theorem mem_rowsAt {m : ℕ} {row : String × String × A × String} :
    row ∈ U.rowsAt m ↔ (U.maxesAt m).get? row.1 = some (row.2.1, row.2.2.1) ∧
      (U.namesAt m).get? row.1 = some row.2.2.2 := by
  obtain ⟨bank, account, amount, name⟩ := row
  simp only [rowsAt, UC2BankId.mergeEntries, List.mem_filterMap, Option.map_eq_some_iff,
    Prod.mk.injEq]
  constructor
  · intro hrow
    obtain ⟨e, he, name', hname, rfl, rfl, rfl, rfl⟩ := hrow
    exact ⟨Dict.get?_eq_some_iff.mpr he, hname⟩
  · intro hrow
    exact ⟨_, Dict.get?_eq_some_iff.mp hrow.1, name, hrow.2, rfl, rfl, rfl, rfl⟩

/-- A merge has at most one row for each bank. -/
theorem nodup_rowsAt (m : ℕ) : ((U.rowsAt m).map Prod.fst).Nodup := by
  have hsub : ((U.rowsAt m).map Prod.fst).Sublist (U.maxesAt m).keys := by
    unfold rowsAt UC2BankId.mergeEntries Dict.keys
    induction (U.maxesAt m).entries with
    | nil => exact .slnil
    | cons e entries ih =>
        cases hname : (U.namesAt m).get? e.1 with
        | none => simpa [hname] using ih.cons e.1
        | some name => simpa [hname] using ih.cons_cons e.1
  exact (U.maxesAt m).keys_nodup.sublist hsub

omit [LinearOrder A] in
/-- The merge that has the name of a bank. -/
theorem namedAt_iff {bank : String} {m : ℕ} :
    U.namedAt m bank = true ↔ (U.hash bank % (U.merges.size : ℤ)).toNat = m := by
  have hpos := U.merges.pos
  have hnonneg : 0 ≤ U.hash bank % (U.merges.size : ℤ) := Int.emod_nonneg _ (by omega)
  rw [namedAt, decide_eq_true_eq]
  omega

omit [LinearOrder A] in
theorem namedAt_lt (U : UC2 A) (bank : String) :
    (U.hash bank % (U.merges.size : ℤ)).toNat < U.merges.size := by
  have hpos := U.merges.pos
  have hlt : U.hash bank % (U.merges.size : ℤ) < U.merges.size :=
    Int.emod_lt_of_pos _ (by omega)
  omega

section Result

variable {transactions : List (Transaction A)} {accounts : List Account} {m : ℕ}
  {row : String × String × A × String}

/-- A bank is named at one merge only. -/
theorem namedAt_of_mem (h : U.Fed transactions accounts) (hm : m < U.merges.size)
    (hrow : row ∈ U.rowsAt m) : U.namedAt m row.1 = true := by
  have hname := ((condenses_namesAt h hm).get? (mem_rowsAt.mp hrow).2).1
  exact (List.mem_filter.mp hname).2

theorem nodup_rows (h : U.Fed transactions accounts) : (U.rows.map Prod.fst).Nodup := by
  rw [rows_eq, List.map_flatMap, List.nodup_flatMap]
  constructor
  · exact fun m _ => nodup_rowsAt m
  · apply List.nodup_range.imp_of_mem
    intro m m' hm hm' hne bank hbank hbank'
    obtain ⟨row, hrow, rfl⟩ := List.mem_map.mp hbank
    obtain ⟨row', hrow', hsame⟩ := List.mem_map.mp hbank'
    have hmerge := namedAt_iff.mp (namedAt_of_mem h (List.mem_range.mp hm) hrow)
    have hmerge' := namedAt_iff.mp (namedAt_of_mem h (List.mem_range.mp hm') hrow')
    rw [hsame] at hmerge'
    exact hne (hmerge.symm.trans hmerge')

/-- A merge has a row for each of its banks with a transaction and an account. -/
theorem mem_banksAt (h : U.Fed transactions accounts) (hm : m < U.merges.size)
    {bank : String} : bank ∈ (U.rowsAt m).map Prod.fst ↔
      (∃ t ∈ transactions, t.fromBank = bank) ∧
        (∃ a ∈ accounts, a.bankId = bank) ∧ U.namedAt m bank = true := by
  have hmaxes : ((U.maxesAt m).get? bank).isSome = true ↔
      ∃ t ∈ transactions, t.fromBank = bank := by
    rw [(condenses_maxesAt h hm).get?_isSome]
    simp [UC2MaxAmountGroupBy.entry]
  have hnames : ((U.namesAt m).get? bank).isSome = true ↔
      (∃ a ∈ accounts, a.bankId = bank) ∧ U.namedAt m bank = true := by
    rw [(condenses_namesAt h hm).get?_isSome]
    constructor
    · intro hnamed
      obtain ⟨e, he, rfl⟩ := hnamed
      obtain ⟨hmem, hp⟩ := List.mem_filter.mp he
      obtain ⟨a, ha, rfl⟩ := List.mem_map.mp hmem
      exact ⟨⟨a, ha, rfl⟩, hp⟩
    · intro hnamed
      obtain ⟨⟨a, ha, rfl⟩, hp⟩ := hnamed
      exact ⟨nameEntry a, List.mem_filter.mpr ⟨List.mem_map_of_mem ha, hp⟩, rfl⟩
  rw [← hmaxes, ← hnames]
  constructor
  · intro hbank
    obtain ⟨row, hrow, rfl⟩ := List.mem_map.mp hbank
    obtain ⟨hmax, hname⟩ := mem_rowsAt.mp hrow
    rw [hmax, hname]
    exact ⟨rfl, rfl⟩
  · intro hbank
    obtain ⟨v, hmax⟩ := Option.isSome_iff_exists.mp hbank.1
    obtain ⟨name, hname⟩ := Option.isSome_iff_exists.mp hbank.2
    exact List.mem_map.mpr ⟨(bank, v.1, v.2, name), mem_rowsAt.mpr ⟨hmax, hname⟩, rfl⟩

/-- The amount of a row is the largest of its bank. -/
theorem amount_of_mem (h : U.Fed transactions accounts) (hm : m < U.merges.size)
    (hrow : row ∈ U.rowsAt m) :
    (∃ t ∈ transactions, t.fromBank = row.1 ∧ t.fromAccount = row.2.1 ∧
        t.amountPaid = row.2.2.1) ∧
      ∀ t ∈ transactions, t.fromBank = row.1 → t.amountPaid ≤ row.2.2.1 := by
  obtain ⟨hmem, hbeats⟩ := (condenses_maxesAt h hm).get? (mem_rowsAt.mp hrow).1
  constructor
  · obtain ⟨t, ht, hentry⟩ := List.mem_map.mp hmem
    simp only [UC2MaxAmountGroupBy.entry, Prod.mk.injEq] at hentry
    exact ⟨t, ht, hentry⟩
  · exact fun t ht hbank => hbeats _ (List.mem_map_of_mem ht) hbank

/-- The use case joins the largest amount of every bank with its name. -/
theorem joins_banks (U : UC2 A) (transactions : List (Transaction A)) (accounts : List Account)
    (hnames : ∀ a ∈ accounts, ∀ b ∈ accounts, a.bankId = b.bankId → a.bankName = b.bankName)
    (h : U.Fed transactions accounts) : Joins transactions accounts U.rows := by
  have hmem {row : String × String × A × String} (hrow : row ∈ U.rows) :
      ∃ m < U.merges.size, row ∈ U.rowsAt m := by
    rw [rows_eq] at hrow
    obtain ⟨m, hm, hrow⟩ := List.mem_flatMap.mp hrow
    exact ⟨m, List.mem_range.mp hm, hrow⟩
  constructor
  · exact nodup_rows h
  · intro bank
    rw [rows_eq, List.map_flatMap]
    constructor
    · intro hbank
      obtain ⟨m, hm, hbank⟩ := List.mem_flatMap.mp hbank
      obtain ⟨ht, ha, -⟩ := (mem_banksAt h (List.mem_range.mp hm)).mp hbank
      exact ⟨ht, ha⟩
    · intro hbank
      have hlt := U.namedAt_lt bank
      refine List.mem_flatMap.mpr ⟨_, List.mem_range.mpr hlt, ?_⟩
      exact (mem_banksAt h hlt).mpr ⟨hbank.1, hbank.2, namedAt_iff.mpr rfl⟩
  · intro row hrow
    obtain ⟨m, hm, hrow⟩ := hmem hrow
    obtain ⟨hpaid, hlargest⟩ := amount_of_mem h hm hrow
    constructor
    · obtain ⟨t, ht, hbank, -, hamount⟩ := hpaid
      exact ⟨t, ht, hbank, hamount⟩
    · intro x hx
      obtain ⟨t, ht, hbank, rfl⟩ := hx
      exact hlargest t ht hbank
  · intro row hrow
    obtain ⟨m, hm, hrow⟩ := hmem hrow
    exact (amount_of_mem h hm hrow).1
  · intro row hrow a ha hbank
    obtain ⟨m, hm, hrow⟩ := hmem hrow
    have hname := ((condenses_namesAt h hm).get? (mem_rowsAt.mp hrow).2).1
    obtain ⟨b, hb, hentry⟩ := List.mem_map.mp (List.mem_filter.mp hname).1
    obtain ⟨hid, hnamed⟩ := Prod.mk.inj hentry
    rw [← hnamed]
    exact hnames a ha b hb (hbank.trans hid.symm)

end Result

/-- A payment of a bank. -/
def payment (account : String) (amount : ℕ) : Transaction ℕ where
  timestamp := .text "2022-09-01 00:00:00"
  fromBank := "10"
  fromAccount := account
  toBank := "11"
  toAccount := "z"
  amountReceived := amount
  receivingCurrency := "US Dollar"
  amountPaid := amount
  paymentCurrency := "US Dollar"
  paymentFormat := "Wire"

/-- The configuration of every instance. -/
def config (_ : ℕ) : NodeConfig := ⟨⟨0, 1, 0⟩, 5, fun shard => BitVec.ofNat 128 shard⟩

/-- A message of client `1`. -/
def message {Q α : Type} (q : Q) (seq : ℕ) (body : α) : Q × DataMsg α := (q, ⟨1, 7, seq, body⟩)

/-- Two payments of one bank in two batches, two aggregates of amounts, and two merges. -/
def oneBank : UC2 ℕ where
  hash _ := 3
  clientId := 1
  maxGroupBys := ⟨2, Nat.two_pos, config, fun i =>
    [message () 1 [if i = 0 then payment "a" 5 else payment "b" 7]]⟩
  maxAggregates := ⟨2, Nat.two_pos, config, fun i =>
    if i = 0 then [] else
      [message () 1 (Dict.empty.set "10" ("b", 7)), message () 2 (Dict.empty.set "10" ("a", 5))]⟩
  nameGroupBys := ⟨1, Nat.one_pos, config, fun _ =>
    [message () 1 [⟨"Bank", "10", "a", "e", "E"⟩]]⟩
  nameAggregates := ⟨1, Nat.one_pos, config, fun _ =>
    [message () 1 (Dict.empty.set "10" "Bank")]⟩
  merges := ⟨2, Nat.two_pos, config, fun i =>
    if i = 0 then [message .left 1 (.maxByBank (Dict.empty.set "10" ("b", 7)))] else
      [message .right 1 (.bankNames (Dict.empty.set "10" "Bank")),
        message .left 1 (.maxByBank (Dict.empty.set "10" ("b", 7)))]⟩
  nJoins := 1

/-- The larger payment and the name of the bank are joined by the second merge. -/
theorem joins_banks_oneBank : oneBank.rows = [("10", "b", 7, "Bank")] ∧
    Joins [payment "a" 5, payment "b" 7] [⟨"Bank", "10", "a", "e", "E"⟩] oneBank.rows := by
  constructor
  · decide
  · apply joins_banks
    · decide
    · constructor <;> decide

end UC2
