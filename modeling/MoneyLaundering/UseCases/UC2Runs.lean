import MoneyLaundering.Ring.StageResults
import MoneyLaundering.UseCases.UC2

/-!
# Runs of the second use case

Five rings of processes take turns, crash and read their messages again.  What the merges
publish of a client is nevertheless what they would publish in the use case without crashes,
where every message arrives once: each ring gives the next one the contract of a stage.
-/

open Crash RingNode AffinityRing StatelessReplay
open Messages (Account Transaction)

namespace UC2

variable {A : Type} [LinearOrder A]

/-- The processes of the use case. -/
structure Processes (A : Type) where
  hash : String → ℤ
  /-- The number of outputs of a merge. -/
  nJoins : ℕ
  maxGroupByShape : StageShape
  maxAggregateShape : StageShape
  nameGroupByShape : StageShape
  nameAggregateShape : StageShape
  mergeShape : StageShape
  maxGroupBys :
    AffinityRing Unit Unit Unit SentCounts (List (Transaction A)) (Dict String (String × A))
  maxAggregates : AffinityRing Unit (Dict UUID (Dict String (String × A)))
    (Dict UUID (Dict String (String × A))) Unit (Dict String (String × A))
      (Dict String (String × A))
  nameGroupBys : AffinityRing Unit Unit Unit SentCounts (List Account) (Dict String String)
  nameAggregates : AffinityRing Unit (Dict UUID (Dict String String))
    (Dict UUID (Dict String String)) Unit (Dict String String) (Dict String String)
  merges : AffinityRing Side (UC2BankId A) (UC2BankId A) MergeEofCounts (BankInput A)
    (List (String × String × A × String))

namespace Processes

/-- Every process runs the function of its stage, and stamps with producer ids of its own. -/
structure Deployed (P : Processes A) : Prop where
  maxGroupBys : Deploys P.maxGroupBys P.maxGroupByShape
    (fun cfg => ringGroupBy cfg [P.maxAggregateShape.size] (uc2MaxAmountGroupBy P.hash gt)) ()
  maxAggregates : Deploys P.maxAggregates P.maxAggregateShape
    (fun cfg => ringAggregate cfg P.mergeShape.size (uc2MaxAmount P.hash gt).toAggregateFn true)
    Dict.empty
  nameGroupBys : Deploys P.nameGroupBys P.nameGroupByShape
    (fun cfg => ringGroupBy cfg [P.nameAggregateShape.size] (uc2BankNamesGroupBy P.hash)) ()
  nameAggregates : Deploys P.nameAggregates P.nameAggregateShape
    (fun cfg => ringAggregate cfg P.mergeShape.size (uc2BankNames P.hash).toAggregateFn false)
    Dict.empty
  merges : Deploys P.merges P.mergeShape
    (fun cfg => ringMerge cfg P.nJoins (uc2BankIdMergeFn gt)) ⟨Dict.empty, Dict.empty⟩
  fifo : P.maxAggregates.fifo = true ∧ P.nameAggregates.fifo = true ∧ P.merges.fifo = true
  producers : P.maxAggregates.SeparateProducers ∧ P.nameAggregates.SeparateProducers ∧
    P.merges.SeparateProducers
  sides : ∀ p ∈ P.maxAggregates.ids, ∀ q ∈ P.nameAggregates.ids, ∀ shard shard',
    (P.maxAggregates.node p).producer shard ≠ (P.nameAggregates.node q).producer shard'

/-- A run of each stage. -/
structure Run (P : Processes A) where
  maxGroupBys : P.maxGroupBys.Course
  maxAggregates : P.maxAggregates.Course
  nameGroupBys : P.nameGroupBys.Course
  nameAggregates : P.nameAggregates.Course
  merges : P.merges.Course

/-- The queues of the group-bys are sound, and every other stage reads what the stage before it
publishes. -/
structure Run.Linked {P : Processes A} (run : P.Run) : Prop where
  transactions : StatelessSetup P.maxGroupBys
  accounts : StatelessSetup P.nameGroupBys
  maxAggregates : ReadsFrom P.maxAggregates () run.maxGroupBys id
  nameAggregates : ReadsFrom P.nameAggregates () run.nameGroupBys id
  maxMerges : ReadsFrom P.merges .left run.maxAggregates BankInput.maxByBank
  nameMerges : ReadsFrom P.merges .right run.nameAggregates BankInput.bankNames

/-- What arrives at the instances. -/
structure Arrivals (A : Type) where
  maxGroupBys : ℕ → List (Unit × DataMsg (List (Transaction A)))
  maxAggregates : ℕ → List (Unit × DataMsg (Dict String (String × A)))
  nameGroupBys : ℕ → List (Unit × DataMsg (List Account))
  nameAggregates : ℕ → List (Unit × DataMsg (Dict String String))
  merges : ℕ → List (Side × DataMsg (BankInput A))

/-- The use case of a client, with what arrives at the processes. -/
def useCase (P : Processes A) (c : UUID) (arrivals : Arrivals A) : UC2 A where
  hash := P.hash
  clientId := c
  maxGroupBys := P.maxGroupByShape.fleet arrivals.maxGroupBys
  maxAggregates := P.maxAggregateShape.fleet arrivals.maxAggregates
  nameGroupBys := P.nameGroupByShape.fleet arrivals.nameGroupBys
  nameAggregates := P.nameAggregateShape.fleet arrivals.nameAggregates
  merges := P.mergeShape.fleet arrivals.merges
  nJoins := P.nJoins

/-! ## The stages -/

section Stages

variable {P : Processes A} {run : P.Run}

/-- A stage of aggregates behind a stage. -/
theorem setup_aggregates {D α β γ : Type} {T : TableFn D β γ} {broadcast : Bool} {nShards : ℕ}
    {R : AffinityRing Unit Unit Unit SentCounts α β} {course : R.Course}
    {R' : AffinityRing Unit (Dict UUID D) (Dict UUID D) Unit β γ} {shape : StageShape}
    (hdeploys : Deploys R' shape
      (fun cfg => ringAggregate cfg nShards T.toAggregateFn broadcast) Dict.empty)
    (hfifo : R'.fifo = true) (hproducers : R'.SeparateProducers) (hpromises : Promises course)
    (hreads : ReadsFrom R' () course id) :
    InMemorySetup R' TableFn.ofClient fun _ _ _ => False where
  node p hp := by
    rw [hdeploys.node p hp, hdeploys.fn₀ p hp]
    exact .table _ nShards T broadcast
  fifo := hfifo
  queues _ hp := firstQueues_of_stamped (fun _ _ _ _ _ _ _ => rfl)
    fun _ => hreads.stamped hpromises hp
  producers := hproducers

variable (hdeployed : P.Deployed) (hlinked : run.Linked)
include hdeployed hlinked

theorem contract_maxGroupBys : Contract run.maxGroupBys :=
  contract_of_stateless (.groupBys _ _ fun p hp => ⟨_, hdeployed.maxGroupBys.node p hp⟩)
    hlinked.transactions _

theorem contract_nameGroupBys : Contract run.nameGroupBys :=
  contract_of_stateless (.groupBys _ _ fun p hp => ⟨_, hdeployed.nameGroupBys.node p hp⟩)
    hlinked.accounts _

theorem setup_maxAggregates : InMemorySetup P.maxAggregates TableFn.ofClient fun _ _ _ => False :=
  setup_aggregates hdeployed.maxAggregates hdeployed.fifo.1 hdeployed.producers.1
    (contract_maxGroupBys hdeployed hlinked).toPromises hlinked.maxAggregates

theorem setup_nameAggregates :
    InMemorySetup P.nameAggregates TableFn.ofClient fun _ _ _ => False :=
  setup_aggregates hdeployed.nameAggregates hdeployed.fifo.2.1 hdeployed.producers.2.1
    (contract_nameGroupBys hdeployed hlinked).toPromises hlinked.nameAggregates

/-- The two inputs of a merge have stamps of their own. -/
theorem oneQueue_merges {p : ℕ} (hp : p ∈ P.merges.ids) : OneQueue (P.merges.arrivals p) := by
  have hmax := fun p hp => ((setup_maxAggregates hdeployed hlinked).node p hp).stateful
  have hnames := fun p hp => ((setup_nameAggregates hdeployed hlinked).node p hp).stateful
  have hdiffer : ∀ {j j' d d'}, Carries (P.merges.arrivals p) (.left, j) d →
      Carries (P.merges.arrivals p) (.right, j') d' → d.identity ≠ d'.identity := by
    intro j j' d d' hd hd' hid
    obtain ⟨_, -, hpublished⟩ := hlinked.maxMerges.published hp hd
    obtain ⟨_, -, hpublished'⟩ := hlinked.nameMerges.published hp hd'
    obtain ⟨q, hq, hproducer⟩ := producer_of_publishes hmax hpublished
    obtain ⟨q', hq', hproducer'⟩ := producer_of_publishes hnames hpublished'
    refine hdeployed.sides q hq q' hq' p p ?_
    rw [← hproducer, ← hproducer', hid]
  rintro ⟨side, j⟩ ⟨side', j'⟩ d d' hd hd' hid
  cases side <;> cases side'
  · rfl
  · exact absurd hid (hdiffer hd hd')
  · exact absurd hid.symm (hdiffer hd' hd)
  · rfl

theorem setup_merges : InMemorySetup P.merges UC2BankId.ofClient MergeEofCounts.Announced where
  node p hp := by
    rw [hdeployed.merges.node p hp, hdeployed.merges.fn₀ p hp]
    exact .bankNames _ _ gt
  fifo := hdeployed.fifo.2.2
  queues p hp := by
    refine firstQueues_of_stamped (oneQueue_merges hdeployed hlinked hp) fun side => ?_
    cases side with
    | left =>
        exact hlinked.maxMerges.stamped
          (promises_of_inMemory (setup_maxAggregates hdeployed hlinked) _) hp
    | right =>
        exact hlinked.nameMerges.stamped
          (promises_of_inMemory (setup_nameAggregates hdeployed hlinked) _) hp
  producers := hdeployed.producers.2.2

/-! ## End-of-files -/

omit hlinked in
/-- Some merge reads the shards of the aggregates. -/
theorem exists_merge : ∃ p, p ∈ P.merges.ids :=
  ⟨0, hdeployed.merges.ids ▸ List.mem_range.mpr P.mergeShape.pos⟩

section Ended

variable {c : UUID} {shard k : ℕ} (heof : Publishes run.merges (.eof shard c k))
include heof

/-- Behind every stage there was an end-of-file of the client. -/
theorem everyEof_merges {p : ℕ} (hp : p ∈ P.merges.ids) : EveryEof (P.merges.arrivals p) c :=
  (setup_merges hdeployed hlinked).everyEof heof hp

theorem everyEof_maxAggregates {p : ℕ} (hp : p ∈ P.maxAggregates.ids) :
    EveryEof (P.maxAggregates.arrivals p) c := by
  obtain ⟨p', hp'⟩ := exists_merge hdeployed
  obtain ⟨j, hj⟩ := everyEof_merges hdeployed hlinked heof hp' .left
  obtain ⟨k, hpublished⟩ := hlinked.maxMerges.eof_published hp' hj
  exact (setup_maxAggregates hdeployed hlinked).everyEof hpublished hp

theorem everyEof_nameAggregates {p : ℕ} (hp : p ∈ P.nameAggregates.ids) :
    EveryEof (P.nameAggregates.arrivals p) c := by
  obtain ⟨p', hp'⟩ := exists_merge hdeployed
  obtain ⟨j, hj⟩ := everyEof_merges hdeployed hlinked heof hp' .right
  obtain ⟨k, hpublished⟩ := hlinked.nameMerges.eof_published hp' hj
  exact (setup_nameAggregates hdeployed hlinked).everyEof hpublished hp

end Ended

/-! ## The whole use case -/

/-- Runs of the second use case.  Whatever crashes fall in its five stages: once the merges have
sent an end-of-file of a client, what they have published for it is what they send in the use
case in which every stage gets what the stage before it sends, each message once. -/
theorem fed_of_run {c : UUID} {n p shard k : ℕ} (hp : p ∈ P.merges.ids)
    (heof : .eof shard c k ∈ (run.merges.state n p).log)
    {payments : ℕ → List (DataMsg (List (Transaction A)))}
    (hpayments : ∀ p ∈ P.maxGroupBys.ids, Inputs (P.maxGroupBys.arrivals p) c (payments p))
    {accounts : ℕ → List (DataMsg (List Account))}
    (haccounts : ∀ p ∈ P.nameGroupBys.ids, Inputs (P.nameGroupBys.arrivals p) c (accounts p)) :
    ∃ arrivals, (P.useCase c arrivals).Fed
        (P.maxGroupBys.ids.flatMap fun p => (payments p).flatMap DataMsg.body)
        (P.nameGroupBys.ids.flatMap fun p => (accounts p).flatMap DataMsg.body) ∧
      (∀ q ∈ P.merges.ids, Event.PublishedAs c ((P.mergeShape.fleet arrivals.merges).sendsOf
        (fun cfg => ringMerge cfg P.nJoins (uc2BankIdMergeFn gt)) c ⟨Dict.empty, Dict.empty⟩ q)
          (run.merges.state n q).log) ∧
      k = (sentTo shard (P.useCase c arrivals).merged).length := by
  have hmaxes := setup_maxAggregates hdeployed hlinked
  have hnames := setup_nameAggregates hdeployed hlinked
  have hone := fun p hp => oneQueue_merges hdeployed hlinked (p := p) hp
  have hpublished : Publishes run.merges (.eof shard c k) := ⟨n, p, hp, heof⟩
  have hended := fun p hp => everyEof_merges hdeployed hlinked hpublished (p := p) hp
  obtain ⟨ds₁, hds₁, hreceives₁⟩ := (contract_maxGroupBys hdeployed hlinked).receives
    hdeployed.maxGroupBys hdeployed.maxAggregates.ids hlinked.maxAggregates
    (fun _ _ _ _ _ _ _ _ _ => rfl)
    fun p hp => everyEof_maxAggregates hdeployed hlinked hpublished hp ()
  obtain ⟨ds₂, hds₂, hreceives₂⟩ := (contract_of_inMemory hmaxes run.maxAggregates).receives
    hdeployed.maxAggregates hdeployed.merges.ids hlinked.maxMerges hone
    fun p hp => hended p hp .left
  obtain ⟨ds₃, hds₃, hreceives₃⟩ := (contract_nameGroupBys hdeployed hlinked).receives
    hdeployed.nameGroupBys hdeployed.nameAggregates.ids hlinked.nameAggregates
    (fun _ _ _ _ _ _ _ _ _ => rfl)
    fun p hp => everyEof_nameAggregates hdeployed hlinked hpublished hp ()
  obtain ⟨ds₄, hds₄, hreceives₄⟩ := (contract_of_inMemory hnames run.nameAggregates).receives
    hdeployed.nameAggregates hdeployed.merges.ids hlinked.nameMerges hone
    fun p hp => hended p hp .right
  have hcontract := contract_of_inMemory (setup_merges hdeployed hlinked) run.merges
  obtain ⟨ds₅, hds₅⟩ := hcontract.results hp heof
  have hinputs := fun q hq => (hds₅ q hq).toQueueInputs
  refine ⟨⟨ds₁, ds₂, ds₃, ds₄, ds₅⟩, ⟨?_, ?_, ?_, ?_, ?_, ?_⟩, fun q hq => ?_, ?_⟩
  · exact received_flatten_perm hdeployed.maxGroupBys.ids hds₁ hpayments
  · exact received_flatten_perm hdeployed.nameGroupBys.ids hds₃ haccounts
  · exact hreceives₁ ds₂ hds₂
  · exact hreceives₃ ds₄ hds₄
  · exact hreceives₂ ds₅ hinputs
  · exact hreceives₄ ds₅ hinputs
  · rw [← hdeployed.merges.sends_node ds₅ hq]
    exact (hds₅ q hq).published
  · have hsent : sentTo shard (P.useCase c ⟨ds₁, ds₂, ds₃, ds₄, ds₅⟩).merged = _ :=
      hdeployed.merges.sentTo_sends ds₅ shard
    rw [hsent, List.length_flatMap]
    exact hcontract.count hp heof fun q hq => (hds₅ q hq).published

end Stages

/-! ## A run with a crash -/

/-- One instance of a stage, with a producer id of its own. -/
def soleShape (base : ℕ) : StageShape :=
  ⟨1, Nat.one_pos, fun p => ⟨Peer.ofIds p ([0].erase p), 5, fun _ => BitVec.ofNat 128 base⟩⟩

theorem nodup_sole : [0].Nodup := List.nodup_singleton 0

/-- A message of client `7` and its end-of-file. -/
def single {α : Type} (producerId : ProducerId) (body : α) : List (Message α) :=
  [.data ⟨7, producerId, 1, body⟩, .eof 7 1]

def maxGroupBy : AffinityRing Unit Unit Unit SentCounts (List (Transaction ℕ))
    (Dict String (String × ℕ)) where
  ids := [0]
  nodup := nodup_sole
  node p := ringGroupBy ((soleShape 10).config p) [1] (uc2MaxAmountGroupBy (fun _ => 3) gt)
  self_eq _ _ := rfl
  next := id
  arrivals _ _ j := (single 1 [payment "a" 5, payment "b" 7])[j]?
  fifo := true
  fn₀ _ := ()

def nameGroupBy : AffinityRing Unit Unit Unit SentCounts (List Account) (Dict String String) where
  ids := [0]
  nodup := nodup_sole
  node p := ringGroupBy ((soleShape 20).config p) [1] (uc2BankNamesGroupBy fun _ => 3)
  self_eq _ _ := rfl
  next := id
  arrivals _ _ j := (single 2 [(⟨"Bank", "10", "a", "e", "E"⟩ : Account)])[j]?
  fifo := true
  fn₀ _ := ()

/-- The group of both payments. -/
def groupedMax : List (Message (Dict String (String × ℕ))) :=
  single 10 (Dict.empty.set "10" ("b", 7))

def groupedName : List (Message (Dict String String)) := single 20 (Dict.empty.set "10" "Bank")

def maxAggregate : AffinityRing Unit (Dict UUID (Dict String (String × ℕ)))
    (Dict UUID (Dict String (String × ℕ))) Unit (Dict String (String × ℕ))
      (Dict String (String × ℕ)) where
  ids := [0]
  nodup := nodup_sole
  node p := ringAggregate ((soleShape 30).config p) 1
    (uc2MaxAmount (fun _ => 3) gt).toAggregateFn true
  self_eq _ _ := rfl
  next := id
  arrivals _ _ j := groupedMax[j]?
  fifo := true
  fn₀ _ := Dict.empty

def nameAggregate : AffinityRing Unit (Dict UUID (Dict String String))
    (Dict UUID (Dict String String)) Unit (Dict String String) (Dict String String) where
  ids := [0]
  nodup := nodup_sole
  node p := ringAggregate ((soleShape 40).config p) 1
    (uc2BankNames fun _ => 3).toAggregateFn false
  self_eq _ _ := rfl
  next := id
  arrivals _ _ j := groupedName[j]?
  fifo := true
  fn₀ _ := Dict.empty

/-- The aggregate of amounts sends its table and the end-of-file twice. -/
def aggregatedMax : List (Message (Dict String (String × ℕ))) :=
  single 30 (Dict.empty.set "10" ("b", 7)) ++ single 30 (Dict.empty.set "10" ("b", 7))

def aggregatedName : List (Message (Dict String String)) :=
  single 40 (Dict.empty.set "10" "Bank")

def merge : AffinityRing Side (UC2BankId ℕ) (UC2BankId ℕ) MergeEofCounts (BankInput ℕ)
    (List (String × String × ℕ × String)) where
  ids := [0]
  nodup := nodup_sole
  node p := ringMerge ((soleShape 50).config p) 1 (uc2BankIdMergeFn gt)
  self_eq _ _ := rfl
  next := id
  arrivals
    | _, .left, j => aggregatedMax[j]?.map (Message.map BankInput.maxByBank)
    | _, .right, j => aggregatedName[j]?.map (Message.map BankInput.bankNames)
  fifo := true
  fn₀ _ := ⟨Dict.empty, Dict.empty⟩

def soleProcesses : Processes ℕ where
  hash _ := 3
  nJoins := 1
  maxGroupByShape := soleShape 10
  maxAggregateShape := soleShape 30
  nameGroupByShape := soleShape 20
  nameAggregateShape := soleShape 40
  mergeShape := soleShape 50
  maxGroupBys := maxGroupBy
  maxAggregates := maxAggregate
  nameGroupBys := nameGroupBy
  nameAggregates := nameAggregate
  merges := merge

/-- A node reads both messages of its queue. -/
def readTwo : List (System.Move (ℕ × Call Unit) (UUID → ℕ → ℕ)) :=
  [.finish (0, .start), .finish (0, .deliver ((), 0)), .finish (0, .deliver ((), 1))]

/-- The node crashes after it sent the end-of-file. -/
def crashTwo : List (System.Move (ℕ × Call Unit) (UUID → ℕ → ℕ)) :=
  [.finish (0, .start), .finish (0, .deliver ((), 0)),
    .crash (0, .deliver ((), 1)) (fun _ n => n) 7, .finish (0, .start),
    .finish (0, .deliver ((), 1))]

/-- The merge reads the late copies too. -/
def readSides : List (System.Move (ℕ × Call Side) (UUID → ℕ → ℕ)) :=
  [.finish (0, .start), .finish (0, .deliver (.left, 0)), .finish (0, .deliver (.left, 1)),
    .finish (0, .deliver (.left, 2)), .finish (0, .deliver (.left, 3)),
    .finish (0, .deliver (.right, 0)), .finish (0, .deliver (.right, 1))]

def soleRun : soleProcesses.Run where
  maxGroupBys := .ofMoves maxGroupBy.runs readTwo maxGroupBy.initial
  maxAggregates := .ofMoves maxAggregate.runs crashTwo maxAggregate.initial
  nameGroupBys := .ofMoves nameGroupBy.runs readTwo nameGroupBy.initial
  nameAggregates := .ofMoves nameAggregate.runs readTwo nameAggregate.initial
  merges := .ofMoves merge.runs readSides merge.initial

theorem carries_single {Q α : Type} {producerId : ProducerId} {body : α} {tag : Q × ℕ}
    {d : DataMsg α} :
    Carries (fun _ j => (single producerId body)[j]?) tag d ↔
      tag.2 = 0 ∧ d = ⟨7, producerId, 1, body⟩ := by
  obtain ⟨q, j⟩ := tag
  constructor
  · intro hd
    match j, hd with
    | 0, hd => exact ⟨rfl, (Message.data.inj (Option.some.inj hd)).symm⟩
    | 1, hd => cases hd
    | _ + 2, hd => cases hd
  · rintro ⟨hj, rfl⟩
    obtain rfl : j = 0 := hj
    rfl

theorem countedQueue_single {α : Type} (producerId : ProducerId) (body : α) :
    CountedQueue fun _ : Unit => fun j => (single producerId body)[j]? where
  seq j d hd := by rw [(carries_single.mp hd).2]
  same _ _ d d' hd hd' _ := (carries_single.mp hd).2.trans (carries_single.mp hd').2.symm
  counted i c k heof := by
    have hk : k = 1 ∧ c = 7 := by
      match i, heof with
      | 1, heof =>
          obtain ⟨rfl, rfl⟩ := Message.eof.inj (Option.some.inj heof)
          exact ⟨rfl, rfl⟩
    refine ⟨{(producerId, 1)}, by simp [hk.1], fun id => ?_⟩
    rw [Finset.mem_singleton]
    constructor
    · rintro rfl
      exact ⟨0, ⟨7, producerId, 1, body⟩, rfl, hk.2.symm, rfl⟩
    · rintro ⟨j, d, hd, -, rfl⟩
      rw [(carries_single.mp hd).2]
      rfl

theorem inputs_single {α : Type} (producerId : ProducerId) (body : α) :
    Inputs (fun _ j => (single producerId body)[j]?) 7 [⟨7, producerId, 1, body⟩] where
  nodup := List.nodup_singleton _
  mem_iff d := by
    rw [List.mem_singleton]
    constructor
    · rintro rfl
      exact ⟨rfl, 0, rfl⟩
    · rintro ⟨-, j, hd⟩
      exact (carries_single.mp hd).2

/-- A queue that begins with its only message. -/
theorem firstBeforeEof_cons {α : Type} {d : DataMsg α} {rest : List (Message α)}
    (h : ∀ d', .data d' ∈ rest → d' = d) :
    FirstBeforeEof fun _ : Unit => fun j => (.data d :: rest)[j]? := by
  intro _ i j d' hd' heof
  have heq : d' = d := by
    cases j with
    | zero => exact (Message.data.inj (Option.some.inj hd')).symm
    | succ j => exact h d' (List.mem_of_getElem? hd')
  cases i with
  | zero =>
      obtain ⟨k, hk⟩ := heof
      cases hk
  | succ i => exact ⟨0, Nat.succ_pos i, heq ▸ rfl⟩

theorem firstBeforeEof_single {α : Type} (producerId : ProducerId) (body : α) :
    FirstBeforeEof fun _ : Unit => fun j => (single producerId body)[j]? :=
  firstBeforeEof_cons (by simp)

theorem firstBeforeEof_aggregatedMax : FirstBeforeEof fun _ : Unit => fun j => aggregatedMax[j]? :=
  firstBeforeEof_cons (by simp [single])

/-- What a process has put on its shard is what the queue behind it has. -/
theorem feeds_of_decide {Q F S E α β : Type} [DecidableEq Q] [DecidableEq β]
    {R : AffinityRing Q F S E α β} {moves : List (System.Move (ℕ × Call Q) (UUID → ℕ → ℕ))}
    {queue : List (Message β)}
    (h : (R.runs.playAll moves R.initial).map (fun s => decide
      ((∀ msg ∈ queue, msg ∈ R.sentOn 0 s) ∧ ∀ msg ∈ R.sentOn 0 s, msg ∈ queue)) = some true) :
    Feeds (System.Course.ofMoves R.runs moves R.initial) 0 fun j => queue[j]? := by
  obtain ⟨s, hs, hobs⟩ := Option.map_eq_some_iff.mp h
  obtain ⟨hsub, hsup⟩ := of_decide_eq_true hobs
  exact feeds_ofMoves hs fun msg => ⟨hsub msg, hsup msg⟩

theorem feeds_groupedMax : Feeds soleRun.maxGroupBys 0 fun j => groupedMax[j]? :=
  feeds_of_decide (by decide)

theorem feeds_groupedName : Feeds soleRun.nameGroupBys 0 fun j => groupedName[j]? :=
  feeds_of_decide (by decide)

theorem feeds_aggregatedMax : Feeds soleRun.maxAggregates 0 fun j => aggregatedMax[j]? :=
  feeds_of_decide (by decide)

theorem feeds_aggregatedName : Feeds soleRun.nameAggregates 0 fun j => aggregatedName[j]? :=
  feeds_of_decide (by decide)

theorem deploys_sole {Q F S E α β : Type} {R : AffinityRing Q F S E α β} {base : ℕ}
    {node : NodeConfig → Controller Q F S E α β} {f₀ : F} (hids : R.ids = [0])
    (hnode : ∀ p, R.node p = node ((soleShape base).config p)) (hfn : ∀ p, R.fn₀ p = f₀) :
    Deploys R (soleShape base) node f₀ :=
  ⟨hids, fun p _ => hnode p, fun p _ => hfn p⟩

theorem separateProducers_sole {Q F S E α β : Type} {R : AffinityRing Q F S E α β}
    (hids : R.ids = [0]) : R.SeparateProducers := by
  intro p hp q hq hne
  rw [hids, List.mem_singleton] at hp hq
  exact absurd (hp.trans hq.symm) hne

theorem deployed_soleProcesses : soleProcesses.Deployed where
  maxGroupBys := deploys_sole rfl (fun _ => rfl) fun _ => rfl
  maxAggregates := deploys_sole rfl (fun _ => rfl) fun _ => rfl
  nameGroupBys := deploys_sole rfl (fun _ => rfl) fun _ => rfl
  nameAggregates := deploys_sole rfl (fun _ => rfl) fun _ => rfl
  merges := deploys_sole rfl (fun _ => rfl) fun _ => rfl
  fifo := ⟨rfl, rfl, rfl⟩
  producers := ⟨separateProducers_sole rfl, separateProducers_sole rfl, separateProducers_sole rfl⟩
  sides _ _ _ _ _ _ := by
    change BitVec.ofNat 128 30 ≠ BitVec.ofNat 128 40
    decide

theorem statelessSetup_sole {α β : Type} {R : AffinityRing Unit Unit Unit SentCounts α β}
    (hids : R.ids = [0]) (hfifo : R.fifo = true) (hqueues : ∀ p, CountedQueue (R.arrivals p)) :
    StatelessSetup R where
  fifo := hfifo
  queues p _ := hqueues p
  producers := separateProducers_sole hids
  sources p hp q hq hne := by
    rw [hids, List.mem_singleton] at hp hq
    exact absurd (hp.trans hq.symm) hne

theorem readsFrom_sole {Q F S E α β Q' F' S' E' α' β' : Type} [DecidableEq Q]
    {R : AffinityRing Q F S E α β} {R' : AffinityRing Q' F' S' E' α' β'} {course : R.Course}
    {q : Q'} {wrap : β → α'} {queue : ℕ → Option (Message β)} (hids : R'.ids = [0])
    (hfeeds : Feeds course 0 queue) (hfirst : FirstBeforeEof fun _ : Unit => queue)
    (hqueue : ∀ p j, R'.arrivals p q j = (queue j).map (Message.map wrap)) :
    ReadsFrom R' q course wrap := by
  intro p hp
  rw [hids, List.mem_singleton] at hp
  subst hp
  exact ⟨queue, ⟨hfeeds, hfeeds.keepsOrder hfirst⟩, hqueue 0⟩

theorem linked_soleRun : soleRun.Linked where
  transactions := statelessSetup_sole rfl rfl fun _ => countedQueue_single _ _
  accounts := statelessSetup_sole rfl rfl fun _ => countedQueue_single _ _
  maxAggregates := readsFrom_sole rfl feeds_groupedMax (firstBeforeEof_single _ _)
    fun _ _ => (map_wrap_id _).symm
  nameAggregates := readsFrom_sole rfl feeds_groupedName (firstBeforeEof_single _ _)
    fun _ _ => (map_wrap_id _).symm
  maxMerges := readsFrom_sole rfl feeds_aggregatedMax firstBeforeEof_aggregatedMax
    fun _ _ => rfl
  nameMerges := readsFrom_sole rfl feeds_aggregatedName (firstBeforeEof_single _ _)
    fun _ _ => rfl

theorem eof_soleRun : .eof 0 7 1 ∈ (soleRun.merges.state readSides.length 0).log := by
  have hplays : (merge.runs.playAll readSides merge.initial).map
      (fun s => decide (.eof 0 7 1 ∈ (s 0).log)) = some true := by decide
  obtain ⟨s, hs, hobs⟩ := Option.map_eq_some_iff.mp hplays
  have hstate : soleRun.merges.state readSides.length = s := System.stateAfter_of_le hs le_rfl
  rw [hstate]
  exact of_decide_eq_true hobs

/-- The aggregate of amounts crashes behind its end-of-file, and the merge reads its table twice:
one row is published. -/
theorem fed_of_run_soleRun :
    ∃ arrivals, (soleProcesses.useCase 7 arrivals).Fed [payment "a" 5, payment "b" 7]
        [⟨"Bank", "10", "a", "e", "E"⟩] ∧
      (∀ q ∈ [0], Event.PublishedAs 7 (((soleShape 50).fleet arrivals.merges).sendsOf
        (fun cfg => ringMerge cfg 1 (uc2BankIdMergeFn gt)) 7 ⟨Dict.empty, Dict.empty⟩ q)
          (soleRun.merges.state readSides.length q).log) ∧
      1 = (sentTo 0 (soleProcesses.useCase 7 arrivals).merged).length :=
  fed_of_run deployed_soleProcesses linked_soleRun (List.mem_singleton_self 0) eof_soleRun
    (fun _ _ => inputs_single 1 [payment "a" 5, payment "b" 7])
    fun _ _ => inputs_single 2 [(⟨"Bank", "10", "a", "e", "E"⟩ : Account)]

end Processes

end UC2
