import MoneyLaundering.Aggregate.Tables
import MoneyLaundering.Merge.Isolation
import MoneyLaundering.Ring.StatefulHistory

/-!
# The results of the nodes that keep their state in memory

The aggregates with a table for each client and the merge of the banks' maxima and names keep
every client's part of the business state apart.  Whatever crashes such a node goes through,
what it publishes of a reported client is what it would send for the client's messages, each
read once.
-/

open Crash

/-! ## The parts that the functions keep -/

namespace TableFn

variable {D α β : Type} {T : TableFn D α β} {cfg : NodeConfig} {nShards : ℕ} {broadcast : Bool}

/-- The table of a client is the client's part. -/
def ofClient (x : UUID) (tables : Dict UUID D) : Option D := tables.get? x

theorem ofClient_aggregate (x : UUID) (msg : DataMsg α) (tables : Dict UUID D) :
    ofClient x (T.aggregate msg tables) =
      if x = msg.clientId then some (T.add msg.body ((ofClient x tables).getD T.blank))
      else ofClient x tables := by
  unfold ofClient aggregate
  rw [Dict.get?_set]
  split
  · next h => rw [h, Dict.getD]
  · rfl

theorem ofClient_erase {x y : UUID} (h : x ≠ y) (tables : Dict UUID D) :
    ofClient x (tables.erase y) = ofClient x tables := by
  rw [ofClient, Dict.get?_erase, if_neg h, ofClient]

theorem ofClient_getResult {x y : UUID} (h : x ≠ y) (tables : Dict UUID D) :
    ofClient x (T.getResult y tables).2 = ofClient x tables := by
  unfold getResult
  split
  · rfl
  · exact ofClient_erase h tables

theorem getResult_congr {x : UUID} {tables tables' : Dict UUID D}
    (h : ofClient x tables = ofClient x tables') :
    (T.getResult x tables).1 = (T.getResult x tables').1 := by
  unfold ofClient at h
  unfold getResult
  rw [h]
  cases tables'.get? x with
  | none => rfl
  | some table => rfl

theorem apportioned : (ringAggregate cfg nShards T.toAggregateFn broadcast).Apportioned
    ofClient where
  processed _ msg f f' h := by
    have heq := ofClient_aggregate (T := T) msg.clientId msg
    change ofClient _ (T.aggregate msg f) = ofClient _ (T.aggregate msg f')
    rw [heq, heq, h]
  unprocessed _ msg f x hne := by
    change ofClient x (T.aggregate msg f) = _
    rw [ofClient_aggregate, if_neg hne]
  result x f f' h := by
    change (T.getResult x f).1.flatMap _ = (T.getResult x f').1.flatMap _
    rw [getResult_congr h]
  untaken _ _ f hne := ofClient_getResult hne f
  undiscarded _ _ f _ hne := ofClient_erase hne f
  unfreed _ _ f _ hne := ofClient_erase hne f
  snapshot _ _ := rfl

theorem startsFrom : (ringAggregate cfg nShards T.toAggregateFn broadcast).StartsFrom
    ofClient Dict.empty where
  first _ := rfl
  again _ _ _ := rfl

end TableFn

namespace MergeFn

variable {F S α β V : Type} {fn : MergeFn F S α β} {view : UUID → F → V} {cfg : NodeConfig}
  {nShards : ℕ}

theorem Separate.apportioned (h : fn.Separate view) :
    (ringMerge cfg nShards fn).Apportioned view where
  processed q msg f f' heq := by
    cases q with
    | left => exact ((h.left msg.clientId msg).agree rfl f f' heq).2
    | right => exact ((h.right msg.clientId msg).agree rfl f f' heq).2
  unprocessed q msg f x hne := by
    cases q with
    | left => exact (h.left x msg).invisible hne.symm f
    | right => exact (h.right x msg).invisible hne.symm f
  result x f f' heq := by
    change RingMerge.route nShards _ = RingMerge.route nShards _
    rw [((h.getResult x x).agree rfl f f' heq).1]
  untaken x y f hne := (h.getResult x y).invisible hne.symm f
  undiscarded x y f _ hne := (h.discard x y).invisible hne.symm f
  unfreed x y f _ hne := (h.discard x y).invisible hne.symm f
  snapshot x f := h.snapshot x f

end MergeFn

/-! ## What is published of a reported client -/

/-- The nodes whose business state is in memory: the part of each client, the state of an
empty node, and the announced counts. -/
inductive InMemoryClass : {Q F S E α β V : Type} → Controller Q F S E α β →
    (UUID → F → V) → F → (E → Q → UUID → Prop) → Prop
  | table {D α β : Type} (cfg : NodeConfig) (nShards : ℕ) (T : TableFn D α β)
      (broadcast : Bool) :
      InMemoryClass (ringAggregate cfg nShards T.toAggregateFn broadcast) TableFn.ofClient
        Dict.empty fun _ _ _ => False
  | bankNames {A : Type} (cfg : NodeConfig) (nShards : ℕ) (gt : A → A → Bool) :
      InMemoryClass (ringMerge cfg nShards (uc2BankIdMergeFn gt)) UC2BankId.ofClient
        ⟨Dict.empty, Dict.empty⟩ RingNode.MergeEofCounts.Announced

namespace InMemoryClass

variable {Q F S E α β V : Type} {C : Controller Q F S E α β} {view : UUID → F → V}
  {f₀ : F} {tracks : E → Q → UUID → Prop}

theorem stateful (h : InMemoryClass C view f₀ tracks) : Stateful C := by
  cases h with
  | table => exact RingNode.stateful_ringAggregate fun _ _ => rfl
  | bankNames => exact RingNode.stateful_ringMerge fun _ _ => rfl

theorem apportioned (h : InMemoryClass C view f₀ tracks) : C.Apportioned view := by
  cases h with
  | table => exact TableFn.apportioned
  | bankNames cfg nShards gt => exact (UC2BankId.separate gt).apportioned

theorem startsFrom (h : InMemoryClass C view f₀ tracks) : C.StartsFrom view f₀ := by
  cases h with
  | table => exact TableFn.startsFrom
  | bankNames => exact ⟨fun _ => rfl, fun _ _ _ => rfl⟩

theorem tracksEofs (h : InMemoryClass C view f₀ tracks) : TracksEofs C tracks := by
  cases h with
  | table => exact RingNode.tracksEofs_ringAggregate
  | bankNames => exact RingNode.tracksEofs_ringMerge

end InMemoryClass

namespace RingNode

variable {Q F S E α β V : Type} {C : Controller Q F S E α β} {view : UUID → F → V}
  {f₀ : F} {arrivals : Q → ℕ → Option (Message α)} {tracks : E → Q → UUID → Prop}
  {m : Node Q F S E β} {x : UUID} {log : List (Event β)}

/-- The messages of a client are what a node sends that reads the client's messages once, in
the order of `ds`. -/
structure PublishesResult (C : Controller Q F S E α β) (f₀ : F)
    (arrivals : Q → ℕ → Option (Message α)) (x : UUID) (ds : List (Q × DataMsg α))
    (log : List (Event β)) : Prop extends QueueInputs arrivals x ds where
  published : Event.PublishedAs x (C.sends x f₀ ds) log

theorem sends_of_silent (hC : Stateful C) (ds : List (Q × DataMsg α)) :
    C.sends x f₀ ds = (C.getResult x (C.consume ds f₀)).1 := by
  have hnone : (ds.filter fun a => a.2.clientId = x).flatMap (fun a => C.outputs a.2) = [] := by
    simp [hC.silent]
  rw [Controller.sends, hnone, List.nil_append]

theorem ResultSent.publishesResult (hC : Stateful C) (h : ResultSent C f₀ arrivals x log) :
    ∃ ds, PublishesResult C f₀ arrivals x ds log := by
  obtain ⟨ds, hds, seqs, hlog⟩ := h
  refine ⟨ds, hds, ?_⟩
  rw [sends_of_silent hC]
  exact Controller.publishedAs_stampAll (hC.restamped x (C.consume ds f₀)) hlog

/-- What a node with its state in memory publishes.  Whatever crashes fall, and however many
copies of its messages the queues hold before the client's end-of-files: when a client is
reported, the client's messages in the history are what the node would send for the client's
inputs, each read once, and the reported counts are their numbers. -/
theorem inMemory_publishes [DecidableEq Q] (hclass : InMemoryClass C view f₀ tracks)
    (hqueues : OrderedQueues arrivals) {crashable : Node Q F S E β → Prop}
    (h : (system C arrivals true crashable).Visits (Machine.initial (C.fresh f₀)) m)
    {sent : ShardCounts} (he : .reported x sent ∈ m.log) :
    ∃ ds, PublishesResult C f₀ arrivals x ds m.log ∧
      ∀ shard, sent.getD shard 0 = (sentTo shard (C.sends x f₀ ds)).length := by
  have hC := hclass.stateful
  obtain ⟨ds, hds⟩ := ((exact_visits hC hclass.apportioned hclass.startsFrom hclass.tracksEofs
    hqueues h).sent x sent he).publishesResult hC
  refine ⟨ds, hds, fun shard => ?_⟩
  rw [← hds.published.card_distinctOn]
  exact (replaySafe_visits hC hclass.tracksEofs hqueues h).counts x sent he shard

/-- The names of two banks for client `7`, in two messages, and a copy of the first. -/
def twoNames : ℕ → Option (Message (Dict String String))
  | 0 => some (.data ⟨7, 1, 1, Dict.empty.set "1" "North"⟩)
  | 1 => some (.data ⟨7, 1, 2, Dict.empty.set "2" "South"⟩)
  | 2 => some (.data ⟨7, 1, 1, Dict.empty.set "1" "North"⟩)
  | 3 => some (.eof 7 2)
  | _ => none

/-- An aggregate of bank names, in front of two merges. -/
def namesNode : Controller Unit (Dict UUID (Dict String String)) (Dict UUID (Dict String String))
    Unit (Dict String String) (Dict String String) :=
  ringAggregate onlyNode 2 (uc2BankNames fun s => s.length).toAggregateFn false

theorem carries_twoNames {tag : Unit × ℕ} {d : DataMsg (Dict String String)}
    (h : Carries (fun _ => twoNames) tag d) :
    tag.2 < 3 ∧ (d = ⟨7, 1, 1, Dict.empty.set "1" "North"⟩ ∨
      d = ⟨7, 1, 2, Dict.empty.set "2" "South"⟩) := by
  obtain ⟨q, j⟩ := tag
  match j, h with
  | 0, h => exact ⟨by simp, .inl (Message.data.inj (Option.some.inj h)).symm⟩
  | 1, h => exact ⟨by simp, .inr (Message.data.inj (Option.some.inj h)).symm⟩
  | 2, h => exact ⟨by simp, .inl (Message.data.inj (Option.some.inj h)).symm⟩
  | 3, h => cases h
  | _ + 4, h => cases h

theorem orderedQueues_twoNames : OrderedQueues fun _ : Unit => twoNames where
  seq tag d hd := by
    obtain ⟨-, rfl | rfl⟩ := carries_twoNames hd <;> decide
  same tag tag' d d' hd hd' hid := by
    obtain ⟨-, rfl | rfl⟩ := carries_twoNames hd <;>
      obtain ⟨-, rfl | rfl⟩ := carries_twoNames hd' <;>
        first | rfl | exact absurd hid (by decide)
  eofLast _ i j _ _ _ he hd _ := by
    have hj := (carries_twoNames hd).1
    match i, he with
    | 3, _ => exact hj

/-- The node crashes after the first message of its emission and emits again. -/
theorem inMemory_publishes_crashed :
    ∃ m, (system namesNode (fun _ => twoNames) true fun _ => True).playAll
        [.finish .start, .finish (.deliver ((), 0)), .finish (.deliver ((), 1)),
          .finish (.deliver ((), 2)), .crash (.deliver ((), 3)) (fun _ n => n) 3, .finish .start]
        (Machine.initial (namesNode.fresh Dict.empty)) = some m ∧
      ∃ ds, PublishesResult namesNode Dict.empty (fun _ => twoNames) 7 ds m.log ∧
        ∀ shard, (Dict.empty.set 1 2 : ShardCounts).getD shard 0 =
          (sentTo shard (namesNode.sends 7 Dict.empty ds)).length := by
  have hplays : ((system namesNode (fun _ => twoNames) true fun _ => True).playAll
        [.finish .start, .finish (.deliver ((), 0)), .finish (.deliver ((), 1)),
          .finish (.deliver ((), 2)), .crash (.deliver ((), 3)) (fun _ n => n) 3, .finish .start]
        (Machine.initial (namesNode.fresh Dict.empty))).map
      (fun m => decide (.reported 7 (Dict.empty.set 1 2) ∈ m.log)) = some true := by
    decide
  obtain ⟨m, hm, hobs⟩ := Option.map_eq_some_iff.mp hplays
  refine ⟨m, hm, inMemory_publishes (.table onlyNode 2 (uc2BankNames fun s => s.length) false)
    orderedQueues_twoNames (.idle m (System.reach_of_playAll hm)) (of_decide_eq_true hobs)⟩

end RingNode
