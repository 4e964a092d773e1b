import MoneyLaundering.Aggregate.AggregateGraphs
import MoneyLaundering.Aggregate.AggregatePaths
import MoneyLaundering.Aggregate.Degree
import MoneyLaundering.Aggregate.Tables
import MoneyLaundering.Merge.Isolation
import MoneyLaundering.Ring.Release

/-!
# What aggregates and merges release

The tables of an aggregate, and those of the merge of banks, are gone with the result.  The
other functions keep the spill of a client until the client is freed, and a client that is
emitted by its last message is not freed.
-/

open Crash

/-! ## Functions -/

namespace TableFn

variable {D α β : Type} {T : TableFn D α β}

/-- There is no table of client `c`. -/
def Bare (c : UUID) (tables : Dict UUID D) : Prop := tables.get? c = none

theorem releases (T : TableFn D α β) (cfg : NodeConfig) (nShards : ℕ) (broadcast : Bool) :
    (ringAggregate cfg nShards T.toAggregateFn broadcast).Releases True Bare where
  snapshot _ _ h := h
  process _ msg c f hc h := (Dict.get?_set_of_ne _ _ hc).trans h
  getResult x c f hc h := by
    change (T.getResult x f).2.get? c = none
    unfold getResult
    split
    · exact h
    · exact (Dict.get?_erase _ _ _).trans (by rw [if_neg hc, h])
  popped _ x f := by
    change (T.getResult x f).2.get? x = none
    unfold getResult
    split
    · assumption
    · exact Dict.get?_erase_self _ _
  free x c f _ h := by
    change (Dict.erase f x).get? c = none
    rw [Dict.get?_erase]
    split
    · rfl
    · exact h.resolve_left ‹_›
  discard x c f _ hc h := (Dict.get?_erase _ _ _).trans (by rw [if_neg hc, h])

end TableFn

namespace SpillFn

variable {M T α β : Type} {codec : UUID → LineCodec T} {R : SpillFn codec M α β}

/-- A function that spills keeps to the client of a message. -/
theorem releases (hother : ∀ msg c f, c ≠ msg.clientId → Spilled.Same c f (R.aggregate msg f))
    (cfg : NodeConfig) (nShards : ℕ) (broadcast : Bool) :
    (ringAggregate cfg nShards R.toAggregateFn broadcast).Releases False Spilled.Bare where
  snapshot _ _ h := h.snapshotState
  process _ msg c f hc h := h.of_same (hother msg c f hc)
  getResult _ _ _ hc h := h.of_same (Spilled.same_collect hc)
  popped h := h.elim
  free x c f _ h := by
    by_cases hc : c = x
    · subst hc
      exact Spilled.bare_discard f
    · exact (h.resolve_left hc).of_same (Spilled.same_discard hc)
  discard _ _ _ _ hc h := h.of_same (Spilled.same_discard hc)

end SpillFn

/-- A merge whose clients have their own parts, where the part of a bare client is `bare`. -/
theorem MergeFn.Separate.releases {F S α β V : Type} {fn : MergeFn F S α β}
    {view : UUID → F → V} (h : fn.Separate view) {Bare : UUID → F → Prop} (bare : V)
    (hbare : ∀ c f, Bare c f ↔ view c f = bare) (pops : Prop)
    (hpops : pops → ∀ x f, Bare x (fn.getResult x f).2)
    (hdiscard : ∀ x f, Bare x (fn.discard x f)) (cfg : NodeConfig) (nShards : ℕ) :
    (ringMerge cfg nShards fn).Releases pops Bare := by
  have hkeeps {c : UUID} {f f' : F} (hsame : view c f' = view c f) (hf : Bare c f) :
      Bare c f' :=
    (hbare c f').mpr (hsame.trans ((hbare c f).mp hf))
  have hother {x c : UUID} (hc : c ≠ x) {f : F} (hf : Bare c f) : Bare c (fn.discard x f) :=
    hkeeps ((h.discard c x).invisible (Ne.symm hc) f) hf
  constructor
  · exact fun c f => hkeeps (h.snapshot c f)
  · intro side msg c f hc
    cases side with
    | left => exact hkeeps ((h.left c msg).invisible (Ne.symm hc) f)
    | right => exact hkeeps ((h.right c msg).invisible (Ne.symm hc) f)
  · exact fun x c f hc => hkeeps ((h.getResult c x).invisible (Ne.symm hc) f)
  · exact hpops
  · intro x c f _ hf
    by_cases hc : c = x
    · subst hc
      exact hdiscard c f
    · exact hother hc (hf.resolve_left hc)
  · exact fun x c f _ hc => hother hc

/-- Nothing is known of the banks of client `c`. -/
def UC2BankId.Bare {A : Type} (c : UUID) (f : UC2BankId A) : Prop :=
  f.maxAmounts.get? c = none ∧ f.bankNames.get? c = none

/-- Client `c` has no averages, and no file. -/
def UC3BankId.Bare {A : Type} (c : UUID) (f : UC3BankId A) : Prop :=
  f.averages.get? c = none ∧ f.spill.get? c = none

/-- Client `c` has no nodes of high degree, and no file. -/
def UC4Prune.Bare (c : UUID) (f : UC4Prune) : Prop :=
  f.hiOut.get? c = none ∧ f.hiIn.get? c = none ∧ f.spill.get? c = none

/-- The nodes that keep something of a client: whether it is gone with the result, and what
it is to keep nothing. -/
inductive StatefulClass : {Q F S E α β : Type} → Controller Q F S E α β → Prop →
    (UUID → F → Prop) → Prop
  | table {D α β : Type} (cfg : NodeConfig) (nShards : ℕ) (broadcast : Bool)
      (T : TableFn D α β) :
      StatefulClass (ringAggregate cfg nShards T.toAggregateFn broadcast) True TableFn.Bare
  | aggregateGraphs (cfg : NodeConfig) (nShards : ℕ) (broadcast : Bool)
      (hash : String → ℤ) (order : GraphSrc.NodeOrder) (threshold : ℕ) :
      StatefulClass (ringAggregate cfg nShards
        (GraphSrc.uc4AggregateGraphs hash order threshold).toAggregateFn broadcast)
        False Spilled.Bare
  | degree (cfg : NodeConfig) (nShards : ℕ) (broadcast : Bool)
      (hash : String → ℤ) (order : GraphSrc.TextOrder) (threshold : ℕ) :
      StatefulClass (ringAggregate cfg nShards
        (GraphSrc.uc4Degree hash order threshold).toAggregateFn broadcast)
        False Spilled.Bare
  | countPaths (cfg : NodeConfig) (nShards : ℕ) (broadcast : Bool)
      (hash : String → ℤ) (threshold : ℕ) :
      StatefulClass (ringAggregate cfg nShards
        (GraphSrc.uc4CountPaths hash threshold).toAggregateFn broadcast) False Spilled.Bare
  | aggregatePaths (cfg : NodeConfig) (nShards : ℕ) (broadcast : Bool)
      (hash : String → ℤ) (threshold : ℕ) :
      StatefulClass (ringAggregate cfg nShards
        (GraphSrc.uc4AggregatePaths hash threshold).toAggregateFn broadcast)
        False Spilled.Bare
  | mergeBanks {A : Type} (cfg : NodeConfig) (nShards : ℕ) (gt : A → A → Bool) :
      StatefulClass (ringMerge cfg nShards (uc2BankIdMergeFn gt)) True UC2BankId.Bare
  | mergeAverages {T A : Type} (cfg : NodeConfig) (nShards : ℕ) (codec : LineCodec T)
      (paymentFormat : T → String) :
      StatefulClass (ringMerge cfg nShards
        (uc3BankIdMergeFn (A := A) codec paymentFormat)) False UC3BankId.Bare
  | prune (cfg : NodeConfig) (nShards : ℕ) (codec : LineCodec GraphSrc.Entry)
      (order : GraphSrc.NodeOrder) (side : ℕ → ℕ → ℕ) :
      StatefulClass (ringMerge cfg nShards (uc4PruneMergeFn codec order side))
        False UC4Prune.Bare

variable {Q F S E α β : Type} {pops : Prop} {Bare : UUID → F → Prop}

theorem StatefulClass.releases {C : Controller Q F S E α β} (h : StatefulClass C pops Bare) :
    C.Releases pops Bare := by
  cases h with
  | table cfg nShards broadcast T => exact T.releases cfg nShards broadcast
  | aggregateGraphs cfg nShards broadcast hash order threshold =>
      apply SpillFn.releases
      intro msg c f hc
      change Spilled.Same c f (GraphSrc.UC4AggregateGraphs.aggregate hash order threshold msg f)
      exact Spilled.same_absorb hc
  | degree cfg nShards broadcast hash order threshold =>
      apply SpillFn.releases
      intro msg c f hc
      change Spilled.Same c f (GraphSrc.UC4Degree.aggregate hash order threshold msg f)
      exact Spilled.same_absorb hc
  | countPaths cfg nShards broadcast hash threshold =>
      apply SpillFn.releases
      exact fun msg c f hc => GraphSrc.UC4CountPaths.laws.other msg f (Ne.symm hc)
  | aggregatePaths cfg nShards broadcast hash threshold =>
      apply SpillFn.releases
      intro msg c f hc
      change Spilled.Same c f (GraphSrc.UC4AggregatePaths.aggregate hash threshold msg f)
      exact Spilled.same_absorb hc
  | mergeBanks cfg nShards gt =>
      apply (UC2BankId.separate gt).releases (none, none)
      · exact fun c f => Prod.mk_inj.symm
      · exact fun _ x f => ⟨Dict.get?_erase_self _ _, Dict.get?_erase_self _ _⟩
      · exact fun x f => ⟨Dict.get?_erase_self _ _, Dict.get?_erase_self _ _⟩
  | mergeAverages cfg nShards codec paymentFormat =>
      apply (UC3BankId.separate codec paymentFormat).releases (none, none)
      · intro c f
        simp [UC3BankId.Bare, UC3BankId.ofClient, PersistentSpill.holding]
      · exact False.elim
      · exact fun x f => ⟨Dict.get?_erase_self _ _, Dict.get?_erase_self _ _⟩
  | prune cfg nShards codec order side =>
      apply (UC4Prune.separate codec order side).releases (none, none, none)
      · intro c f
        simp [UC4Prune.Bare, UC4Prune.ofClient, PersistentSpill.holding]
      · exact False.elim
      · exact fun x f => ⟨Dict.get?_erase_self _ _, Dict.get?_erase_self _ _,
          Dict.get?_erase_self _ _⟩

/-! ## Runs -/

namespace AffinityRing

variable [DecidableEq Q] {R : AffinityRing Q F S E α β} {s : ℕ → Node Q F S E β}

/-- The ring without crashes. -/
abbrev crashlessRuns (R : AffinityRing Q F S E α β) :
    System Effect (ℕ → Node Q F S E β) (ℕ × RingNode.Call Q) (UUID → ℕ → ℕ) :=
  R.system fun _ _ => False

/-- The ring without crashes whose nodes apply timely messages only. -/
def timelyRuns (R : AffinityRing Q F S E α β) (pops : Prop) :
    System Effect (ℕ → Node Q F S E β) (ℕ × RingNode.Call Q) (UUID → ℕ → ℕ) :=
  System.par (fun p => RingNode.timely (R.node p) pops (R.arrivals p) R.fifo) R.gate

/-- Such a run is a run in which the leader never crashes too soon. -/
theorem covered_of_timely (h : (R.timelyRuns pops).Reach R.initial s) (c : UUID) :
    (R.coveredRuns c).Reach R.initial s := by
  refine System.Reach.mono ?_ ?_ ?_ ?_ h
  · rfl
  · rfl
  · exact fun e s he => ⟨he.1.1, he.2⟩
  · exact fun _ _ _ hcrash => hcrash.elim

/-- No barrier is closed before its client is emitted. -/
theorem not_closedEarly (h : (R.timelyRuns pops).Reach R.initial s) {p : ℕ} (hp : p ∈ R.ids)
    (c : UUID) : ¬RingNode.ClosedEarly c (s p).log := by
  intro hearly
  obtain ⟨per, hmem⟩ := hearly
  have hvisits := System.Visits.idle s (covered_of_timely h c)
  have hemitted := (closed_visits hvisits p hp _ per hmem).2
  cases hemitted

/-- In every run without crashes whose data messages settle, a node keeps nothing of a
client past processing. -/
theorem resolved_bare (R : AffinityRing Q F S E α β) (pops : Prop)
    (Bare : UUID → F → Prop) (hclass : ∀ p ∈ R.ids, StatefulClass (R.node p) pops Bare)
    (s : ℕ → Node Q F S E β) (h : (R.timelyRuns pops).Reach R.initial s) (p : ℕ)
    (hp : p ∈ R.ids) (c : UUID) (hresolved : ((s p).rc.client c).phase ≠ .processing) :
    Bare c (s p).state.fn := by
  have hheld : RingNode.Held Bare (s p) :=
    RingNode.held_reach (hclass p hp).releases (R.fn₀ p) (h.component p)
  cases hup : (s p).up with
  | true =>
      have hbare := (hheld.live hup).bare c List.not_mem_nil hresolved
      exact hbare.resolve_right (not_closedEarly h hp c)
  | false =>
      rw [(hheld.stored hup).2] at hresolved
      exact absurd rfl hresolved

instance [DecidableEq β] [Decidable pops] (R : AffinityRing Q F S E α β)
    (e : ℕ × RingNode.Call Q) : DecidablePred ((R.timelyRuns pops).enabled e) := fun s =>
  inferInstanceAs (Decidable ((RingNode.Enabled (R.arrivals e.1) R.fifo e.2 (s e.1) ∧
    RingNode.Timely pops (R.arrivals e.1) e.2 (s e.1)) ∧ R.gate e.1 e.2 s))

instance (R : AffinityRing Q F S E α β) (e : ℕ × RingNode.Call Q) (k : UUID → ℕ → ℕ) :
    DecidablePred ((R.timelyRuns pops).crashable e k) := fun _ => .isFalse id

/-- Transactions of which nothing matters but the payment format, one line each. -/
def formatCodec : LineCodec String where
  serialize format := LineCodec.ascii format.toList
  deserialize line := String.ofList (LineCodec.unascii line)

/-- A ring of one merge of averages.  The right queue brings two messages and the
end-of-file in the given order. -/
def averagesMerge (right : ℕ → Option (Message (AverageInput String ℕ))) :
    AffinityRing Side (UC3BankId ℕ) (Dict UUID (Dict String ℕ) × Dict UUID ℕ)
      MergeEofCounts (AverageInput String ℕ) (MergedChunk String ℕ) where
  ids := [0]
  nodup := by decide
  node _ := ringMerge RingMerge.soleNode 1 (uc3BankIdMergeFn formatCodec id)
  self_eq p hp := by
    rw [List.mem_singleton.mp hp]
    rfl
  next p := p
  arrivals _
    | .left, 0 => some (.data ⟨1, 7, 1, .avgByFormat (Dict.empty.set "Wire" 10)⟩)
    | .left, 1 => some (.eof 1 1)
    | .left, _ => none
    | .right, i => right i
  fifo := true
  fn₀ _ := ⟨Dict.empty, Dict.empty⟩

/-- A message with one transaction. -/
def wireMessage (seq : ℕ) : Message (AverageInput String ℕ) :=
  .data ⟨1, 8, seq, .transactions ["Wire"]⟩

/-- The end-of-file arrives last. -/
def lateEof : ℕ → Option (Message (AverageInput String ℕ))
  | 0 => some (wireMessage 1)
  | 1 => some (wireMessage 2)
  | 2 => some (.eof 1 2)
  | _ => none

/-- The end-of-file arrives before the last message. -/
def earlyEof : ℕ → Option (Message (AverageInput String ℕ))
  | 0 => some (wireMessage 1)
  | 1 => some (.eof 1 2)
  | 2 => some (wireMessage 2)
  | _ => none

/-- Everything is delivered, the left queue first. -/
def deliverAll : List (System.Move (ℕ × RingNode.Call Side) (UUID → ℕ → ℕ)) :=
  [.finish (0, .start), .finish (0, .deliver (.left, 0)), .finish (0, .deliver (.left, 1)),
    .finish (0, .deliver (.right, 0)), .finish (0, .deliver (.right, 1)),
    .finish (0, .deliver (.right, 2))]

/-- The phase of the client, and whether it has a file. -/
def phaseAndFile {S' : Type}
    (s : ℕ → Node Side (UC3BankId ℕ) S' MergeEofCounts (MergedChunk String ℕ)) :
    Phase × Bool :=
  (((s 0).rc.client 1).phase, ((s 0).state.fn.spill.get? 1).isSome)

/-- With the end-of-file at the end, the node keeps nothing of the client. -/
theorem resolved_bare_lateEof : ∃ s,
    ((averagesMerge lateEof).timelyRuns False).playAll deliverAll
      (averagesMerge lateEof).initial = some s ∧
    ((s 0).rc.client 1).phase = .done ∧ UC3BankId.Bare 1 (s 0).state.fn := by
  have hplays : (((averagesMerge lateEof).timelyRuns False).playAll deliverAll
      (averagesMerge lateEof).initial).map phaseAndFile = some (.done, false) := by
    decide
  obtain ⟨s, hs, hobs⟩ := Option.map_eq_some_iff.mp hplays
  have hphase : ((s 0).rc.client 1).phase = .done := congrArg Prod.fst hobs
  refine ⟨s, hs, hphase, ?_⟩
  apply resolved_bare (averagesMerge lateEof) False UC3BankId.Bare
    (fun _ _ => .mergeAverages _ _ _ _) s (System.reach_of_playAll hs) 0 (by decide) 1
  rw [hphase]
  decide

/-- The last message completes the client: the client is done and its file is still
there. -/
theorem not_bare_earlyEof : ∃ s,
    (averagesMerge earlyEof).crashlessRuns.Reach (averagesMerge earlyEof).initial s ∧
    ((s 0).rc.client 1).phase = .done ∧ ¬UC3BankId.Bare 1 (s 0).state.fn := by
  have hplays : ((averagesMerge earlyEof).crashlessRuns.playAll deliverAll
      (averagesMerge earlyEof).initial).map phaseAndFile = some (.done, true) := by
    decide
  obtain ⟨s, hs, hobs⟩ := Option.map_eq_some_iff.mp hplays
  refine ⟨s, System.reach_of_playAll hs, congrArg Prod.fst hobs, ?_⟩
  intro hbare
  have hfile : ((s 0).state.fn.spill.get? 1).isSome = true := congrArg Prod.snd hobs
  rw [hbare.2] at hfile
  cases hfile

end AffinityRing
