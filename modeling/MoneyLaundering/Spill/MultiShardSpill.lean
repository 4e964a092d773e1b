import Mathlib.Data.List.Sort
import Mathlib.Data.Set.Insert
import MoneyLaundering.Spill.PersistentSpill

/-!
# The spill of several files for each client

`MultiShardSpill`: a client's lines are in one file for each shard.  Reading a shard closes
its file, and a restart opens none, so the next snapshot does not know such a file until
something is appended to it.
-/

/-- The files of a spill, by client and shard: every path is made of one pair. -/
abbrev MultiShardSpill : Type := SpillFiles (UUID × ℕ)

namespace MultiShardSpill

/-- `append`. -/
def append (clientId : UUID) (shard : ℕ) (line : Bytes) (spill : MultiShardSpill) :
    MultiShardSpill :=
  SpillFiles.append (clientId, shard) line spill

/-- `shards_of`: the shards of open handles and of files on disk. -/
def shardsOf (clientId : UUID) (spill : MultiShardSpill) : List ℕ :=
  ((spill.keys.filter fun key => key.1 = clientId).map Prod.snd).mergeSort

/-- `read_shard`: the handle is closed, and the file is read, if there is one. -/
def readShard (clientId : UUID) (shard : ℕ) (spill : MultiShardSpill) :
    List Bytes × MultiShardSpill :=
  let closed := SpillFiles.change SpillFile.closed (clientId, shard) spill
  (Lines.lines PersistentSpill.newline
    (PersistentSpill.universalNewlines (closed.content (clientId, shard))), closed)

/-- The handles of a client are closed. -/
def closeAll (clientId : UUID) (spill : MultiShardSpill) : MultiShardSpill :=
  (shardsOf clientId spill).foldl
    (fun spill shard => SpillFiles.change SpillFile.closed (clientId, shard) spill) spill

/-- `clear`, when it has removed the files of the first `n` shards; all of them if there
are no more. -/
def clear (n : ℕ) (clientId : UUID) (spill : MultiShardSpill) : MultiShardSpill :=
  ((shardsOf clientId spill).take n).foldl
    (fun spill shard => spill.erase (clientId, shard)) (closeAll clientId spill)

/-- `clear_all`. -/
def clearAll (_ : MultiShardSpill) : MultiShardSpill := Dict.empty

/-- `snapshot_state`. -/
def snapshotState (spill : MultiShardSpill) : Dict (UUID × ℕ) ℕ × MultiShardSpill :=
  (SpillFiles.sizes spill, SpillFiles.flushAll spill)

/-- `restore_state`, in a process that has no file open, when it has handled the first `n`
entries; all of them if there are no more.  No file is opened. -/
def restoreState (n : ℕ) (snapshot : Dict (UUID × ℕ) ℕ) (spill : MultiShardSpill) :
    MultiShardSpill :=
  SpillFiles.truncateAll (snapshot.entries.take n) spill

/-- What a new process finds. -/
def restarted (drained : UUID → ℕ → ℕ) (spill : MultiShardSpill) : MultiShardSpill :=
  SpillFiles.crashed (fun key => drained key.1 key.2) spill

/-! ## Calls -/

/-- A call of a spill.  The number of `clear` says how many shards it has removed when the
next thing happens. -/
inductive Call where
  | append (clientId : UUID) (shard : ℕ) (line : Bytes)
  | shardsOf (clientId : UUID)
  | readShard (clientId : UUID) (shard : ℕ)
  | clear (n : ℕ) (clientId : UUID)
  | snapshotState

namespace Call

/-- What a call does to the files. -/
def run : Call → MultiShardSpill → MultiShardSpill
  | .append clientId shard line, spill => MultiShardSpill.append clientId shard line spill
  | .shardsOf _, spill => spill
  | .readShard clientId shard, spill => (MultiShardSpill.readShard clientId shard spill).2
  | .clear n clientId, spill => MultiShardSpill.clear n clientId spill
  | .snapshotState, spill => (MultiShardSpill.snapshotState spill).2

/-- The call clears the client. -/
def Clears (c : UUID) : Call → Prop
  | .clear _ clientId => clientId = c
  | _ => False

end Call

/-- Some calls, one after the other. -/
def runAll (calls : List Call) (spill : MultiShardSpill) : MultiShardSpill :=
  calls.foldl (fun spill call => call.run spill) spill

variable {spill spill' : MultiShardSpill} {key : UUID × ℕ} {x : UUID} {call : Call}

theorem get?_closeAll (h : key.1 ≠ x) : (closeAll x spill).get? key = spill.get? key := by
  rw [closeAll]
  generalize shardsOf x spill = shards
  induction shards generalizing spill with
  | nil => rfl
  | cons shard shards ih =>
      rw [List.foldl_cons, ih, SpillFiles.get?_change, if_neg]
      rintro rfl
      exact h rfl

theorem get?_clear (n : ℕ) (h : key.1 ≠ x) : (clear n x spill).get? key = spill.get? key := by
  have herase (shards : List ℕ) (closed : MultiShardSpill) :
      (shards.foldl (fun spill shard => spill.erase (x, shard)) closed).get? key =
        closed.get? key := by
    induction shards generalizing closed with
    | nil => rfl
    | cons shard shards ih =>
        rw [List.foldl_cons, ih, Dict.get?_erase, if_neg]
        rintro rfl
        exact h rfl
  rw [clear, herase, get?_closeAll h]

/-! ## The shards of a client -/

theorem nodup_shardsOf (c : UUID) (spill : MultiShardSpill) : (shardsOf c spill).Nodup := by
  rw [shardsOf, List.nodup_mergeSort]
  apply (spill.keys_nodup.filter _).map_on
  intro key hkey key' hkey' heq
  have hc : key.1 = c := by simpa using (List.mem_filter.mp hkey).2
  have hc' : key'.1 = c := by simpa using (List.mem_filter.mp hkey').2
  exact Prod.ext (hc.trans hc'.symm) heq

/-- Shards that are there in order are listed as they are. -/
theorem shardsOf_eq {c : UUID} {shards : List ℕ}
    (h : (spill.keys.filter fun key => key.1 = c).map Prod.snd = shards)
    (hsorted : shards.Pairwise (· ≤ ·)) : shardsOf c spill = shards := by
  rw [shardsOf, h]
  exact List.mergeSort_of_pairwise (hsorted.imp fun hle => by simpa using hle)

/-- A shard that is not listed has no file. -/
theorem get?_of_notMem {c : UUID} {shard : ℕ} (h : shard ∉ shardsOf c spill) :
    spill.get? (c, shard) = none := by
  rw [Dict.get?_eq_none_iff]
  intro hmem
  apply h
  rw [shardsOf, List.mem_mergeSort]
  exact List.mem_map.mpr ⟨(c, shard), List.mem_filter.mpr ⟨hmem, by simp⟩, rfl⟩

/-- A shard that is not listed has no text. -/
theorem content_of_notMem {c : UUID} {shard : ℕ} (h : shard ∉ shardsOf c spill) :
    SpillFiles.content spill (c, shard) = [] := by
  rw [SpillFiles.content, get?_of_notMem h]
  rfl

/-- When all shards of a client are cleared, it has no file. -/
theorem get?_clear_self {c : UUID} (shard : ℕ) :
    (clear (shardsOf c spill).length c spill).get? (c, shard) = none := by
  have hclosed (shards : List ℕ) (spill : MultiShardSpill)
      (hnone : spill.get? (c, shard) = none) :
      (shards.foldl (fun spill k => SpillFiles.change SpillFile.closed (c, k) spill)
        spill).get? (c, shard) = none := by
    induction shards generalizing spill with
    | nil => exact hnone
    | cons k shards ih =>
        apply ih
        rw [SpillFiles.get?_change]
        split
        · rename_i heq
          rw [← heq, hnone, Option.map_none]
        · exact hnone
  have herased (shards : List ℕ) (spill : MultiShardSpill)
      (h : shard ∈ shards ∨ spill.get? (c, shard) = none) :
      (shards.foldl (fun spill k => spill.erase (c, k)) spill).get? (c, shard) = none := by
    induction shards generalizing spill with
    | nil => exact h.resolve_left List.not_mem_nil
    | cons k shards ih =>
        apply ih
        rw [Dict.get?_erase]
        split
        · exact Or.inr rfl
        · rename_i hne
          have hk : shard ≠ k := fun heq => hne (by rw [heq])
          exact h.imp (fun hmem => (List.mem_cons.mp hmem).resolve_left hk) id
  rw [clear, List.take_length]
  apply herased
  by_cases hmem : shard ∈ shardsOf c spill
  · exact Or.inl hmem
  · exact Or.inr (hclosed _ _ (get?_of_notMem hmem))

/-- A restart with the snapshot that was just taken changes no file. -/
theorem content_restored (drained : UUID → ℕ → ℕ) (spill : MultiShardSpill)
    (key : UUID × ℕ) :
    SpillFiles.content (restoreState (snapshotState spill).1.size (snapshotState spill).1
        (restarted drained (snapshotState spill).2)) key = SpillFiles.content spill key := by
  have hcrashed : (restarted drained (snapshotState spill).2).get? key =
      (spill.get? key).map SpillFile.closed := by
    rw [restarted, SpillFiles.get?_crashed, snapshotState, SpillFiles.get?_flushAll,
      Option.map_map]
    apply Option.map_congr
    intro file _
    cases hbuffer : file.buffer <;>
      simp [SpillFile.flushed, SpillFile.crashed, SpillFile.closed, hbuffer]
  have hclosed : SpillFiles.content (restarted drained (snapshotState spill).2) key =
      SpillFiles.content spill key := by
    rw [SpillFiles.content, hcrashed, Option.map_map, SpillFiles.content]
    simp [Function.comp_def]
  rcases SpillFiles.get?_truncateAll_take (snapshotState spill).1
    (snapshotState spill).1.size key (restarted drained (snapshotState spill).2) with
    ⟨length, hlength, hget⟩ | ⟨hget, -⟩
  · obtain ⟨file, hfile, rfl⟩ := Option.map_eq_some_iff.mp
      ((SpillFiles.get?_sizes key spill).symm.trans hlength)
    have hspill := (Option.filter_eq_some_iff.mp hfile).1
    rw [hcrashed, hspill] at hget
    rw [restoreState, SpillFiles.content, hget, SpillFiles.content, hspill]
    simp [SpillFile.truncated, SpillFile.closed, SpillFile.content]
  · rw [restoreState, SpillFiles.content_congr hget, hclosed]

/-- A restart makes no file. -/
theorem absent_restored (drained : UUID → ℕ → ℕ) (hnone : spill.get? key = none) :
    (restoreState (snapshotState spill).1.size (snapshotState spill).1
      (restarted drained (snapshotState spill).2)).get? key = none := by
  have hcrashed : (restarted drained (snapshotState spill).2).get? key = none := by
    rw [restarted, SpillFiles.get?_crashed, snapshotState, SpillFiles.get?_flushAll, hnone]
    rfl
  rcases SpillFiles.get?_truncateAll_take (snapshotState spill).1
    (snapshotState spill).1.size key (restarted drained (snapshotState spill).2) with
    ⟨length, -, hget⟩ | ⟨hget, -⟩
  · exact hget.trans (by rw [hcrashed, Option.map_none])
  · exact hget.trans hcrashed

/-- Every call that does not clear the client leaves what is on disk. -/
theorem grows_run (h : ¬call.Clears key.1) : SpillFiles.Grows key spill (call.run spill) := by
  cases call with
  | append c shard line => exact SpillFiles.grows_append line
  | shardsOf c => exact .refl key spill
  | readShard c shard => exact SpillFiles.grows_change fun _ => List.prefix_append _ _
  | clear n c => exact .of_get?_eq (get?_clear n (Ne.symm h))
  | snapshotState => exact SpillFiles.grows_flushAll

/-- What such a call makes of a file depends on this file only. -/
theorem content_run_congr (h : ¬call.Clears key.1)
    (heq : SpillFiles.content spill key = SpillFiles.content spill' key) :
    SpillFiles.content (call.run spill) key = SpillFiles.content (call.run spill') key := by
  cases call with
  | append c shard line =>
      change SpillFiles.content (SpillFiles.append (c, shard) line spill) key =
        SpillFiles.content (SpillFiles.append (c, shard) line spill') key
      rw [SpillFiles.content_append, SpillFiles.content_append, heq]
  | shardsOf c => exact heq
  | readShard c shard =>
      change SpillFiles.content (SpillFiles.change SpillFile.closed (c, shard) spill) key =
        SpillFiles.content (SpillFiles.change SpillFile.closed (c, shard) spill') key
      rw [SpillFiles.content_change SpillFile.content_closed,
        SpillFiles.content_change SpillFile.content_closed, heq]
  | clear n c =>
      change SpillFiles.content (clear n c spill) key =
        SpillFiles.content (clear n c spill') key
      rw [SpillFiles.content, SpillFiles.content, get?_clear n (Ne.symm h),
        get?_clear n (Ne.symm h)]
      exact heq
  | snapshotState =>
      change SpillFiles.content (SpillFiles.flushAll spill) key =
        SpillFiles.content (SpillFiles.flushAll spill') key
      rw [SpillFiles.content_flushAll, SpillFiles.content_flushAll, heq]

theorem content_runAll_congr {calls : List Call} (h : ∀ call ∈ calls, ¬call.Clears key.1)
    (heq : SpillFiles.content spill key = SpillFiles.content spill' key) :
    SpillFiles.content (runAll calls spill) key =
      SpillFiles.content (runAll calls spill') key := by
  induction calls generalizing spill spill' with
  | nil => exact heq
  | cons call calls ih =>
      exact ih (fun call' hmem => h call' (List.mem_cons_of_mem _ hmem))
        (content_run_congr (h call List.mem_cons_self) heq)

/-! ## Runs -/

/-- A spill and the last durable snapshot of it. -/
structure Node where
  files : MultiShardSpill
  durable : Option (Dict (UUID × ℕ) ℕ)
  /-- The files when the snapshot was taken. -/
  old : MultiShardSpill
  /-- The clients that were cleared since. -/
  cleared : Set UUID

/-- What can happen to a spill. -/
inductive Move where
  /-- A call; a snapshot does not become durable. -/
  | call (call : Call)
  /-- A snapshot that becomes durable. -/
  | checkpoint
  /-- A crash and a restart with the last durable snapshot. -/
  | restart (drained : UUID → ℕ → ℕ)
  /-- A crash, and another one when the restart has handled `n` entries. -/
  | restartCut (drained : UUID → ℕ → ℕ) (n : ℕ)

namespace Node

/-- A spill that was never used. -/
def initial : Node := ⟨Dict.empty, none, Dict.empty, ∅⟩

/-- What a restart leaves that handles some entries of the snapshot.  Without a snapshot
the checkpointer clears all. -/
def recovered (n : Option ℕ) (drained : UUID → ℕ → ℕ) (s : Node) : MultiShardSpill :=
  match s.durable with
  | none => clearAll (restarted drained s.files)
  | some snapshot =>
    restoreState (n.getD snapshot.size) snapshot (restarted drained s.files)

/-- One move. -/
def step (s : Node) : Move → Node
  | .call call =>
    { s with files := call.run s.files, cleared := s.cleared ∪ {c | call.Clears c} }
  | .checkpoint =>
    ⟨(snapshotState s.files).2, some (snapshotState s.files).1,
      (snapshotState s.files).2, ∅⟩
  | .restart drained => { s with files := recovered none drained s }
  | .restartCut drained n => { s with files := recovered (some n) drained s }

/-- Some moves, one after the other. -/
def run (moves : List Move) (s : Node) : Node := moves.foldl step s

/-- What holds between two moves. -/
structure Kept (s : Node) : Prop where
  blank : s.durable = none → s.old = Dict.empty
  flushed : ∀ key, SpillFiles.content s.old key = SpillFiles.disk s.old key
  sizes : ∀ snapshot key n, s.durable = some snapshot → snapshot.get? key = some n →
    (s.old.get? key).isSome ∧ n = (SpillFiles.disk s.old key).length
  grows : ∀ key, key.1 ∉ s.cleared → SpillFiles.Grows key s.old s.files

variable {s : Node}

theorem kept_initial : Kept initial := by
  constructor
  · exact fun _ => rfl
  · exact fun _ => rfl
  · intro snapshot key n hnone
    cases hnone
  · exact fun key _ => .refl key _

/-- Restoring keeps what the files had when the snapshot was taken. -/
theorem Kept.grows_recovered (h : Kept s) (n : Option ℕ) (drained : UUID → ℕ → ℕ)
    (hkey : key.1 ∉ s.cleared) : SpillFiles.Grows key s.old (recovered n drained s) := by
  have hcrashed : SpillFiles.Grows key s.old (restarted drained s.files) :=
    (h.grows key hkey).trans (SpillFiles.grows_crashed _)
  rw [recovered]
  cases hdurable : s.durable with
  | none =>
      rw [h.blank hdurable]
      exact .refl key _
  | some snapshot =>
      rcases SpillFiles.get?_truncateAll_take snapshot (n.getD snapshot.size) key
        (restarted drained s.files) with ⟨length, hlength, hget⟩ | ⟨hget, -⟩
      · obtain ⟨hexists, hsize⟩ := h.sizes snapshot key length hdurable hlength
        obtain ⟨file, hfile⟩ := Option.isSome_iff_exists.mp (hcrashed.exists_of hexists)
        have hcut := SpillFiles.truncated_of_grows hcrashed hfile hsize
        rw [hfile] at hget
        exact SpillFiles.grows_of_bytes hget hcut
      · exact hcrashed.trans (.of_get?_eq hget)

theorem Kept.step (h : Kept s) (move : Move) : Kept (s.step move) := by
  cases move with
  | call call =>
      refine ⟨h.blank, h.flushed, h.sizes, ?_⟩
      intro key hkey
      obtain ⟨hold, hnew⟩ := not_or.mp hkey
      exact (h.grows key hold).trans (grows_run hnew)
  | checkpoint =>
      constructor
      · intro hnone
        cases hnone
      · intro key
        exact (SpillFiles.content_flushAll key s.files).trans
          (SpillFiles.disk_flushAll s.files key).symm
      · intro snapshot key n hsnapshot hn
        obtain rfl := Option.some.inj hsnapshot
        exact SpillFiles.exists_of_sizes hn
      · exact fun key _ => .refl key _
  | restart drained =>
      exact ⟨h.blank, h.flushed, h.sizes, fun key hkey => h.grows_recovered none drained hkey⟩
  | restartCut drained n =>
      exact ⟨h.blank, h.flushed, h.sizes,
        fun key hkey => h.grows_recovered (some n) drained hkey⟩

theorem kept_run (moves : List Move) (h : Kept s) : Kept (run moves s) := by
  induction moves generalizing s with
  | nil => exact h
  | cons move moves ih => exact ih (h.step move)

/-- The last durable snapshot has a length of the file. -/
def Knows (s : Node) (key : UUID × ℕ) : Prop :=
  ∃ snapshot n, s.durable = some snapshot ∧ snapshot.get? key = some n

/-- What reached a file since the last durable snapshot, when the process crashes. -/
def reachedSince (s : Node) (drained : UUID → ℕ → ℕ) (key : UUID × ℕ) : Bytes :=
  SpillFiles.reached s.old (restarted drained s.files) key

/-- What a restart finds in a file. -/
theorem Kept.content_recovered (h : Kept s) (drained : UUID → ℕ → ℕ)
    (hkey : key.1 ∉ s.cleared) :
    SpillFiles.content (recovered none drained s) key = SpillFiles.content s.old key ↔
      s.durable = none ∨ s.Knows key ∨ reachedSince s drained key = [] := by
  have hcrashed : SpillFiles.Grows key s.old (restarted drained s.files) :=
    (h.grows key hkey).trans (SpillFiles.grows_crashed _)
  rw [h.flushed key, recovered]
  cases hdurable : s.durable with
  | none =>
      apply iff_of_true _ (Or.inl rfl)
      rw [h.blank hdurable]
      rfl
  | some snapshot =>
      rcases SpillFiles.get?_truncateAll_take snapshot snapshot.size key
        (restarted drained s.files) with ⟨length, hlength, hget⟩ | ⟨hget, hnone⟩
      · apply iff_of_true _ (Or.inr (Or.inl ⟨snapshot, length, hdurable, hlength⟩))
        obtain ⟨hexists, hsize⟩ := h.sizes snapshot key length hdurable hlength
        obtain ⟨file, hfile⟩ := Option.isSome_iff_exists.mp (hcrashed.exists_of hexists)
        have hcut := SpillFiles.truncated_of_grows hcrashed hfile hsize
        have hclosed : file.buffer = none :=
          SpillFiles.buffer_crashed (fun k : UUID × ℕ => drained k.1 k.2) hfile
        rw [hfile] at hget
        exact (SpillFiles.content_of_closed hget hclosed).trans hcut
      · have hunknown : ¬s.Knows key := by
          intro hknows
          obtain ⟨snapshot', n, hsome, hn⟩ := hknows
          cases hdurable.symm.trans hsome
          rw [hnone (le_refl _)] at hn
          cases hn
        have hcontent : SpillFiles.content (restoreState snapshot.size snapshot
            (restarted drained s.files)) key =
              SpillFiles.disk s.old key ++ reachedSince s drained key := by
          rw [reachedSince, SpillFiles.disk_append_reached hcrashed, restarted,
            ← SpillFiles.content_crashed]
          exact SpillFiles.content_congr hget
        constructor
        · intro heq
          apply Or.inr
          apply Or.inr
          exact List.append_right_eq_self.mp (hcontent.symm.trans heq)
        · intro hor
          rcases hor with habsurd | hknows | hnil
          · cases habsurd
          · exact absurd hknows hunknown
          · rw [hnil, List.append_nil] at hcontent
            exact hcontent

/-- In every run, a shard file of a client that was not cleared is after a restart what it
was when the last durable snapshot was taken, and goes on as from there, if and only if
this snapshot has its length or nothing reached the file since. -/
theorem restores_shard_iff (moves : List Move) (drained : UUID → ℕ → ℕ) (key : UUID × ℕ)
    (hkey : key.1 ∉ (run moves initial).cleared) :
    (∀ again, (∀ call ∈ again, ¬call.Clears key.1) →
        SpillFiles.content
            (runAll again ((run moves initial).step (.restart drained)).files) key =
          SpillFiles.content (runAll again (run moves initial).old) key) ↔
      (run moves initial).durable = none ∨ (run moves initial).Knows key ∨
        reachedSince (run moves initial) drained key = [] := by
  have hkept := kept_run moves kept_initial
  rw [← hkept.content_recovered drained hkey]
  constructor
  · intro heq
    exact heq [] (fun call hmem => absurd hmem List.not_mem_nil)
  · intro heq again hagain
    exact content_runAll_congr hagain heq

/-- Shard `2` of client `7` is open at the checkpoint, and goes on. -/
def openShard : List Move :=
  [.call (.append 7 2 [97, 10]), .checkpoint, .call (.append 7 2 [98, 10])]

theorem restores_shard_openShard :
    SpillFiles.content ((run openShard initial).step (.restart fun _ _ => 2)).files (7, 2) =
      [97, 10] := by
  have hkey : ((7, 2) : UUID × ℕ).1 ∉ (run openShard initial).cleared := by
    simp [openShard, run, step, initial, Call.Clears]
  have heq := (restores_shard_iff openShard (fun _ _ => 2) (7, 2) hkey).mpr
    (Or.inr (Or.inl ⟨_, 2, rfl, by decide⟩)) []
    (fun call hmem => absurd hmem List.not_mem_nil)
  exact heq.trans (by decide)

/-- Shard `2` of client `7` comes into being after the checkpoint; its line reaches the
file with a snapshot that does not become durable. -/
def newShard : List Move :=
  [.checkpoint, .call (.append 7 2 [97, 10]), .call .snapshotState]

/-- The restart leaves the line, and has it twice when the message comes again. -/
theorem not_restores_newShard :
    SpillFiles.content (run newShard initial).old (7, 2) = [] ∧
    7 ∉ (run newShard initial).cleared ∧
    SpillFiles.content ((run newShard initial).step (.restart fun _ _ => 0)).files (7, 2) =
      [97, 10] ∧
    SpillFiles.content
        ((run (newShard ++ [.restart fun _ _ => 0, .call (.append 7 2 [97, 10])])
          initial).files) (7, 2) =
      [97, 10, 97, 10] := by
  constructor
  · decide
  · constructor
    · simp [newShard, run, step, initial, Call.Clears]
    · decide

end Node

end MultiShardSpill
