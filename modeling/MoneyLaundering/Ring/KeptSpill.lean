import MoneyLaundering.Aggregate.KeptSpill
import MoneyLaundering.Merge.KeptSpill
import MoneyLaundering.Ring.SpillSafety

/-!
# What a checkpoint finds on disk

The functions of six nodes spill to disk.  A checkpoint that has a client in processing finds
all that it recorded of the client, and the client is emitted again as it was emitted first,
unless a crash falls between the moment in which `start` deletes the spill of a client that it
emitted again and the checkpoint that follows.
-/

open Crash GraphSrc RingNode

/-! ## Nodes that spill -/

/-- A node whose function spills: the files of a state, the client of a file, and the states
of which every process makes the same of a client. -/
structure SpillNode where
  {Q F S E α β κ : Type}
  [decQ : DecidableEq Q]
  [decκ : DecidableEq κ]
  controller : Controller Q F S E α β
  files : F → SpillFiles κ
  owner : κ → UUID
  alike : UUID → F → Prop

attribute [instance] SpillNode.decQ SpillNode.decκ

namespace SpillNode

/-- An aggregate that spills. -/
def aggregate {M T α β : Type} {codec : UUID → LineCodec T} (cfg : NodeConfig)
    (nShards : ℕ) (broadcast : Bool) (R : SpillFn codec M α β) : SpillNode where
  controller := ringAggregate cfg nShards R.toAggregateFn broadcast
  files := Spilled.spill
  owner := Prod.fst
  alike _ _ := True

variable (X : SpillNode) (c : UUID) (arrivals : X.Q → ℕ → Option (Message X.α)) (fifo : Bool)

/-- The runs of the node with no abort of client `c`, in which no crash falls between the
deletion of the client by a process that emitted it again and the next checkpoint. -/
def runs : System Effect (Node X.Q X.F X.S X.E X.β) (Call X.Q) (UUID → ℕ → ℕ) :=
  unaborted X.controller arrivals fifo c fun m => ¬FreedEarly c m

/-- The same, with the states that the checkpoints were taken of. -/
def recordedRuns :
    System Effect (Node X.Q X.F (X.S × X.F) X.E X.β) (Call X.Q) (UUID → ℕ → ℕ) :=
  unaborted X.controller.recording arrivals fifo c fun m => ¬FreedEarly c m

variable (f₀ : X.F)

/-- A node that was never started. -/
def initial : Node X.Q X.F X.S X.E X.β := .initial (X.controller.fresh f₀)

/-- The same, with the states that the checkpoints were taken of. -/
def recordedInitial : Node X.Q X.F (X.S × X.F) X.E X.β :=
  .initial (X.controller.recording.fresh f₀)

/-- If the last checkpoint has the client in processing, then every file of the client that
was there when it was taken is there, with all the bytes that it had, and maybe more. -/
def Kept (m : Node X.Q X.F (X.S × X.F) X.E X.β) : Prop :=
  ∀ b, m.store = some b → (b.state.rc.client c).phase = .processing →
    ∀ key, X.owner key = c → SpillFiles.Grows key (X.files b.state.state.2) (X.files m.state.fn)

/-- If the last checkpoint has the client complete, so that `recheck` emits it, then what a
process sends of the client is what comes of the state that the checkpoint was taken of, and all
of it once it is reported. -/
def EmitsAlike (m : Node X.Q X.F (X.S × X.F) X.E X.β) : Prop :=
  ∀ b, m.store = some b → (b.state.rc.client c).ready = true → X.alike c b.state.state.2 →
    Event.sentOf c m.log <+: plannedOf X.controller.recording c b.state.state.2 b ∧
      ∀ counts, .reported c counts ∈ Event.lastLife m.log →
        Event.sentOf c m.log = plannedOf X.controller.recording c b.state.state.2 b

end SpillNode

/-- The nodes whose function spills, with what they are built with. -/
inductive SpillClass
  | aggregateGraphs (cfg : NodeConfig) (nShards : ℕ) (broadcast : Bool)
      (hash : String → ℤ) (order : NodeOrder) (threshold : ℕ)
  | aggregatePaths (cfg : NodeConfig) (nShards : ℕ) (broadcast : Bool)
      (hash : String → ℤ) (threshold : ℕ)
  | countPaths (cfg : NodeConfig) (nShards : ℕ) (broadcast : Bool)
      (hash : String → ℤ) (threshold : ℕ)
  | degree (cfg : NodeConfig) (nShards : ℕ) (broadcast : Bool)
      (hash : String → ℤ) (order : TextOrder) (threshold : ℕ)
  | mergeAverages {T A : Type} (cfg : NodeConfig) (nShards : ℕ) (codec : LineCodec T)
      (paymentFormat : T → String)
  /-- Its processes go through sets in orders of their own. -/
  | prune (cfg : NodeConfig) (nShards : ℕ) (serialize : ℕ → Entry → Bytes)
      (deserialize : Bytes → Entry) (order : ℕ → NodeOrder) (side : ℕ → ℕ → ℕ)

namespace SpillClass

/-- The node of each class. -/
def node : SpillClass → SpillNode
  | .aggregateGraphs cfg nShards broadcast hash order threshold =>
    .aggregate cfg nShards broadcast (uc4AggregateGraphs hash order threshold)
  | .aggregatePaths cfg nShards broadcast hash threshold =>
    .aggregate cfg nShards broadcast (uc4AggregatePaths hash threshold)
  | .countPaths cfg nShards broadcast hash threshold =>
    .aggregate cfg nShards broadcast (uc4CountPaths hash threshold)
  | .degree cfg nShards broadcast hash order threshold =>
    .aggregate cfg nShards broadcast (uc4Degree hash order threshold)
  | .mergeAverages (A := A) cfg nShards codec paymentFormat =>
    { controller := ringMerge cfg nShards (uc3BankIdMergeFn (A := A) codec paymentFormat)
      files := UC3BankId.spill
      owner := id
      alike := fun _ _ => True }
  | .prune cfg nShards serialize deserialize order side =>
    { controller := ringMerge cfg nShards
        (UC4Prune.processes serialize deserialize order side)
      files := fun f => f.2.spill
      owner := id
      alike := UC4Prune.UntiledOf deserialize }

end SpillClass

namespace SpillNode

variable {X : SpillNode} {c : UUID} {arrivals : X.Q → ℕ → Option (Message X.α)} {fifo : Bool}
  {f₀ : X.F}

/-- What operations leave of the spill is what the files of the client have. -/
structure Describes (X : SpillNode) (c : UUID) (L : Spilling X.controller.recording c) :
    Prop where
  old : L.old = Prod.snd
  alike : L.alike = X.alike c
  keeps : ∀ f f', L.Keeps f f' →
    ∀ key, X.owner key = c → SpillFiles.Grows key (X.files f) (X.files f')

theorem Describes.kept {L : Spilling X.controller.recording c} (h : X.Describes c L)
    {m : Node X.Q X.F (X.S × X.F) X.E X.β} (hdisk : OnDisk L m) : X.Kept c m := by
  intro b hb hphase
  have hkept := hdisk.kept b hb hphase
  rw [h.old] at hkept
  exact h.keeps _ _ hkept

theorem Describes.emitsAlike {L : Spilling X.controller.recording c} (h : X.Describes c L)
    {m : Node X.Q X.F (X.S × X.F) X.E X.β} (hsafe : SpillSafe L m) : X.EmitsAlike c m := by
  intro b hb hready halike
  have hsent := hsafe.sent b hb hready
  rw [h.old, h.alike] at hsent
  exact hsent halike

theorem follows_recordedRuns :
    (X.recordedRuns c arrivals fifo).Follows Node.forget (X.runs c arrivals fifo) := by
  constructor
  · intro call m
    cases call <;> exact Iff.rfl
  · exact fun call => follows_handler X.controller arrivals call
  · intro call k m
    change ¬FreedEarly c m.forget ↔ ¬FreedEarly c m
    rw [FreedEarly, Node.storedRc_forget]
    exact Iff.rfl
  · exact fun call k m => Machine.mapStore_reboot X.controller.follows_recording k m

theorem exists_describes_aggregate {M T α β : Type} {codec : UUID → LineCodec T}
    {cfg : NodeConfig} {nShards : ℕ} {broadcast : Bool} {R : SpillFn codec M α β}
    (hR : R.Appends) (c : UUID) : ∃ L, (aggregate cfg nShards broadcast R).Describes c L := by
  refine ⟨SpillFn.spilling cfg nShards broadcast hR c, rfl, rfl, ?_⟩
  rintro f f' h ⟨x, shard⟩ rfl
  exact h shard

end SpillNode

namespace SpillClass

theorem exists_describes (s : SpillClass) (c : UUID) : ∃ L, s.node.Describes c L := by
  cases s with
  | aggregateGraphs cfg nShards broadcast hash order threshold =>
      exact SpillNode.exists_describes_aggregate (appends_uc4AggregateGraphs hash threshold order) c
  | aggregatePaths cfg nShards broadcast hash threshold =>
      exact SpillNode.exists_describes_aggregate (appends_uc4AggregatePaths hash threshold) c
  | countPaths cfg nShards broadcast hash threshold =>
      exact SpillNode.exists_describes_aggregate (appends_uc4CountPaths hash threshold) c
  | degree cfg nShards broadcast hash order threshold =>
      exact SpillNode.exists_describes_aggregate (appends_uc4Degree hash threshold order) c
  | mergeAverages cfg nShards codec paymentFormat =>
      refine ⟨MergeFn.spilling UC3BankId.spillsTo (UC3BankId.restores c) cfg nShards, rfl, rfl, ?_⟩
      rintro f f' h key rfl
      exact h
  | prune cfg nShards serialize deserialize order side =>
      refine ⟨MergeFn.spilling UC4Prune.spillsTo (UC4Prune.restores c) cfg nShards, rfl, rfl, ?_⟩
      rintro f f' h key rfl
      exact h

/-- In every run in which no crash falls between the deletion of a client that `start` emitted
again and the next checkpoint, a checkpoint that has a client in processing finds all that it
recorded of the client, between two calls, after every crash and, outside of this moment, at
every point inside a call.  What a process sends of a client that its checkpoint has complete
comes of the state that the checkpoint was taken of.  The states are those of a node that
records what its checkpoints are taken of, and every run of the node is one of these. -/
theorem spill_kept (s : SpillClass) (c : UUID) (arrivals : s.node.Q → ℕ → Option (Message s.node.α))
    (fifo : Bool) (f₀ : s.node.F) :
    (∀ m, (s.node.recordedRuns c arrivals fifo).Reach (s.node.recordedInitial f₀) m →
      s.node.Kept c m) ∧
    (∀ m, (s.node.recordedRuns c arrivals fifo).Visits (s.node.recordedInitial f₀) m →
      (¬FreedEarly c m → s.node.Kept c m) ∧ s.node.EmitsAlike c m) ∧
    ∀ m, (s.node.runs c arrivals fifo).Visits (s.node.initial f₀) m →
      ∃ m', (s.node.recordedRuns c arrivals fifo).Visits (s.node.recordedInitial f₀) m' ∧
        m'.forget = m := by
  obtain ⟨L, hL⟩ := s.exists_describes c
  refine ⟨fun m hm => ?_, fun m hm => ?_, fun m hm => ?_⟩
  · exact hL.kept (onDisk_reach hm)
  · have hsafe : SpillSafe L m := spillSafe_visits hm
    exact ⟨fun hnot => hL.kept (hsafe.onDisk hnot), hL.emitsAlike hsafe⟩
  · exact SpillNode.follows_recordedRuns.exists_visits hm

/-! ## A merge of averages -/

/-- Transactions of which nothing is written but the end of a line. -/
def lineless : LineCodec Unit := ⟨fun _ => [], fun _ => ()⟩

/-- The only node of its ring. -/
def averages : SpillClass :=
  .mergeAverages (A := ℕ) ⟨Peer.ofIds 0 [], 1, fun _ => 9⟩ 1 lineless fun _ => ""

/-- Its controller. -/
abbrev averagesMerge : Controller Side (UC3BankId ℕ) (Dict UUID (Dict String ℕ) × Dict UUID ℕ)
    MergeEofCounts (AverageInput Unit ℕ) (MergedChunk Unit ℕ) :=
  ringMerge ⟨Peer.ofIds 0 [], 1, fun _ => 9⟩ 1 (uc3BankIdMergeFn lineless fun _ => "")

/-- The average and the transaction of client `7`, and the end of each input. -/
def averagesArrivals : Side → ℕ → Option (Message (AverageInput Unit ℕ))
  | .left, 0 => some (.data ⟨7, 1, 1, .avgByFormat (Dict.empty.set "" 5)⟩)
  | .left, 1 => some (.eof 7 1)
  | .right, 0 => some (.data ⟨7, 2, 1, .transactions [()]⟩)
  | .right, 1 => some (.eof 7 1)
  | _, _ => none

/-- Both inputs, and a crash when the result was sent and is about to be checkpointed. -/
def sentRun : List (System.Move (Call Side) (UUID → ℕ → ℕ)) :=
  [.finish .start, .finish (.deliver (.left, 0)), .finish (.deliver (.left, 1)),
    .finish (.deliver (.right, 0)), .crash (.deliver (.right, 1)) (fun _ n => n) 4]

/-- The transactions in each message that was sent, newest first. -/
def transactionsOf (log : List (Event (MergedChunk Unit ℕ))) : List (List Unit) :=
  log.filterMap fun
    | .data _ _ _ chunk => some chunk.1
    | _ => none

/-- Nothing was received. -/
abbrev nothingReceived : UC3BankId ℕ := ⟨Dict.empty, Dict.empty⟩

/-- The process that restarts sends the transaction again. -/
theorem spill_kept_sentRun : ∃ m,
    (unaborted averagesMerge.recording averagesArrivals true 7 fun m => ¬FreedEarly 7 m).playAll
      (sentRun ++ [.finish .start])
      (Machine.initial (averagesMerge.recording.fresh nothingReceived)) = some m ∧
    transactionsOf m.log = [[()], [()]] ∧ averages.node.Kept 7 m := by
  have hplays : ((unaborted averagesMerge.recording averagesArrivals true 7
      fun m => ¬FreedEarly 7 m).playAll (sentRun ++ [.finish .start])
        (Machine.initial (averagesMerge.recording.fresh nothingReceived))).map
          (fun m => transactionsOf m.log) = some [[()], [()]] := by decide +kernel
  obtain ⟨m, hm, hobs⟩ := Option.map_eq_some_iff.mp hplays
  have hreach := System.reach_of_playAll hm
  exact ⟨m, hm, hobs, (spill_kept averages 7 averagesArrivals true nothingReceived).1 m hreach⟩

/-- A process that restarts sends the transaction again, deletes the spill, and crashes before
the next checkpoint.  The last one has the client in processing and its file is gone, so the
process after it sends no transaction. -/
theorem not_spill_kept : ∃ m m' : Node Side (UC3BankId ℕ) _ MergeEofCounts _,
    (unaborted averagesMerge.recording averagesArrivals true 7 fun _ => True).Reach
      (Machine.initial (averagesMerge.recording.fresh nothingReceived)) m ∧
    ¬averages.node.Kept 7 m ∧
    (unaborted averagesMerge.recording averagesArrivals true 7 fun _ => True).Reach m m' ∧
    transactionsOf m'.log = [[], [()], [()]] := by
  have hplays : ((unaborted averagesMerge.recording averagesArrivals true 7
      fun _ => True).playAll (sentRun ++ [.crash .start (fun _ n => n) 4])
        (Machine.initial (averagesMerge.recording.fresh nothingReceived))).any (fun m =>
          (m.store.any fun b => (b.state.rc.client 7).phase = .processing &&
            (b.state.state.2.spill.get? 7).isSome) && (m.state.fn.spill.get? 7).isNone &&
          ((unaborted averagesMerge.recording averagesArrivals true 7
            fun _ => True).playAll [.finish .start] m).any fun m' =>
              transactionsOf m'.log = [[], [()], [()]]) = true := by decide +kernel
  obtain ⟨m, hm, hobs⟩ := (Option.any_eq_true _ _).mp hplays
  obtain ⟨hlost, hagain⟩ := (Bool.and_eq_true _ _).mp hobs
  obtain ⟨m', hm', hsent⟩ := (Option.any_eq_true _ _).mp hagain
  refine ⟨m, m', System.reach_of_playAll hm, fun hkept => ?_, System.reach_of_playAll hm',
    of_decide_eq_true hsent⟩
  obtain ⟨hstored, hgone⟩ := (Bool.and_eq_true _ _).mp hlost
  obtain ⟨b, hb, hbefore⟩ := (Option.any_eq_true _ _).mp hstored
  obtain ⟨hphase, hfile⟩ := (Bool.and_eq_true _ _).mp hbefore
  have hthere := (hkept b hb (of_decide_eq_true hphase) (7 : UUID) rfl).exists_of hfile
  rw [Option.isNone_iff_eq_none] at hgone
  change (m.state.fn.spill.get? 7).isSome at hthere
  rw [hgone] at hthere
  cases hthere

end SpillClass
