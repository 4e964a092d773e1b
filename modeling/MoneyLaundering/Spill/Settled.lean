import MoneyLaundering.Spill.LineCodec

/-!
# Files as a snapshot left them

After a snapshot all that was written is on disk.  What lies on disk under a key stays as it
was through reads, further snapshots, crashes and restores, as long as nothing is written
under the key and nothing is deleted.
-/

namespace SpillFiles

variable {κ : Type} [DecidableEq κ]

/-- Under the key `files` has on disk what `old` has, and nothing waits in a buffer. -/
structure Settled (key : κ) (old files : SpillFiles κ) : Prop where
  bytes : (files.get? key).map SpillFile.bytes = (old.get? key).map SpillFile.bytes
  flushed : ∀ file, files.get? key = some file → file.content = file.bytes

variable {old files files' : SpillFiles κ} {key : κ} {length : ℕ}

theorem Settled.disk_eq (h : Settled key old files) : files.disk key = old.disk key := by
  rw [disk, disk, h.bytes]

theorem Settled.content_eq (h : Settled key old files) : files.content key = old.disk key := by
  rw [← h.disk_eq, content, disk]
  cases hfile : files.get? key with
  | none => rfl
  | some file => exact h.flushed file hfile

/-- A change of the file that neither a reader nor the disk shows. -/
theorem Settled.of_map {f : SpillFile → SpillFile} (h : Settled key old files)
    (hf : ∀ file, files.get? key = some file → file.content = file.bytes →
      (f file).bytes = file.bytes ∧ (f file).content = file.bytes)
    (hget : files'.get? key = (files.get? key).map f) : Settled key old files' := by
  constructor
  · rw [hget, ← h.bytes, Option.map_map]
    cases hfile : files.get? key with
    | none => rfl
    | some file => exact congrArg some (hf file hfile (h.flushed file hfile)).1
  · intro file' hfile'
    rw [hget] at hfile'
    obtain ⟨file, hfile, rfl⟩ := Option.map_eq_some_iff.mp hfile'
    obtain ⟨hbytes, hcontent⟩ := hf file hfile (h.flushed file hfile)
    rw [hcontent, hbytes]

theorem Settled.of_get?_eq (h : Settled key old files)
    (hget : files'.get? key = files.get? key) : Settled key old files' :=
  h.of_map (f := id) (fun _ _ hfile => ⟨rfl, hfile⟩) (by rw [hget, Option.map_id_fun, id])

theorem Settled.flushAll (h : Settled key old files) : Settled key old files.flushAll :=
  h.of_map (fun file _ hfile => ⟨hfile, (SpillFile.content_flushed file).trans hfile⟩)
    (get?_flushAll key files)

/-- A change of one file that neither a reader nor the disk shows. -/
theorem Settled.change {f : SpillFile → SpillFile} (h : Settled key old files)
    (hf : ∀ file : SpillFile, file.content = file.bytes →
      (f file).bytes = file.bytes ∧ (f file).content = file.bytes) (k : κ) :
    Settled key old (files.change f k) := by
  by_cases hk : key = k
  · subst hk
    exact h.of_map (fun file _ hfile => hf file hfile)
      ((get?_change f key key files).trans (if_pos rfl))
  · exact h.of_get?_eq ((get?_change f k key files).trans (if_neg hk))

theorem Settled.crashed (h : Settled key old files) (drained : κ → ℕ) :
    Settled key old (files.crashed drained) := by
  refine h.of_map (fun file _ hfile => ?_) (get?_crashed drained key files)
  have hnil : file.buffer.getD [] = [] := List.append_right_eq_self.mp hfile
  have hbytes : (file.crashed (drained key)).bytes = file.bytes := by
    rw [SpillFile.crashed, hnil, List.take_nil, List.append_nil]
  exact ⟨hbytes, (List.append_nil _).trans hbytes⟩

/-- A snapshot leaves nothing in a buffer. -/
theorem settled_flushAll (files : SpillFiles κ) (key : κ) :
    Settled key files.flushAll files.flushAll := by
  refine ⟨rfl, fun file hfile => ?_⟩
  rw [get?_flushAll] at hfile
  obtain ⟨old, -, rfl⟩ := Option.map_eq_some_iff.mp hfile
  exact SpillFile.content_flushed old

/-- Cutting a file to the length that it has changes nothing. -/
theorem Settled.truncated (h : Settled key old files) (hlength : length = (old.disk key).length)
    {file : SpillFile} (hfile : files.get? key = some file) : file.truncated length = file := by
  have hdisk : file.bytes = old.disk key := by
    rw [← h.disk_eq, disk, hfile]
    rfl
  rw [SpillFile.truncated, hlength, ← hdisk, List.take_length, Nat.sub_self,
    List.replicate_zero, List.append_nil]

end SpillFiles

namespace MultiShardSpill

variable {spill files : MultiShardSpill} {key : UUID × ℕ}

theorem grows_restart (drained : UUID → ℕ → ℕ) (spill : MultiShardSpill) :
    SpillFiles.Grows key spill (restarted drained spill) :=
  SpillFiles.grows_crashed _

theorem settled_restart (h : SpillFiles.Settled key spill files) (drained : UUID → ℕ → ℕ) :
    SpillFiles.Settled key spill (restarted drained files) :=
  h.crashed _

/-- Restoring a snapshot cuts no file shorter than it was. -/
theorem grows_restored (h : SpillFiles.Grows key (snapshotState spill).2 files) (n : ℕ) :
    SpillFiles.Grows key (snapshotState spill).2
      (restoreState n (snapshotState spill).1 files) := by
  rcases SpillFiles.get?_truncateAll_take (snapshotState spill).1 n key files with
    ⟨length, hlength, hget⟩ | ⟨hget, -⟩
  · obtain ⟨hexists, hsize⟩ := SpillFiles.exists_of_sizes hlength
    obtain ⟨file, hfile⟩ := Option.isSome_iff_exists.mp (h.exists_of hexists)
    have hcut := SpillFiles.truncated_of_grows h hfile hsize
    rw [hfile] at hget
    exact SpillFiles.grows_of_bytes hget hcut
  · exact h.trans (.of_get?_eq hget)

theorem settled_restored (h : SpillFiles.Settled key (snapshotState spill).2 files) (n : ℕ) :
    SpillFiles.Settled key (snapshotState spill).2
      (restoreState n (snapshotState spill).1 files) := by
  rcases SpillFiles.get?_truncateAll_take (snapshotState spill).1 n key files with
    ⟨length, hlength, hget⟩ | ⟨hget, -⟩
  · obtain ⟨-, hsize⟩ := SpillFiles.exists_of_sizes hlength
    refine h.of_map (fun file hfile hflushed => ?_) hget
    rw [h.truncated hsize hfile]
    exact ⟨rfl, hflushed⟩
  · exact h.of_get?_eq hget

/-- The shards of a client are those of its files. -/
theorem mem_shardsOf {c : UUID} {shard : ℕ} :
    shard ∈ shardsOf c spill ↔ (spill.get? (c, shard)).isSome := by
  constructor
  · intro hmem
    rw [shardsOf, List.mem_mergeSort] at hmem
    obtain ⟨key, hkey, rfl⟩ := List.mem_map.mp hmem
    obtain ⟨hkeys, hc⟩ := List.mem_filter.mp hkey
    obtain ⟨file, hfile⟩ := Dict.mem_keys_iff.mp hkeys
    obtain rfl : key.1 = c := by simpa using hc
    exact Option.isSome_iff_exists.mpr ⟨file, hfile⟩
  · intro hsome
    by_contra hmem
    rw [get?_of_notMem hmem] at hsome
    cases hsome

theorem shardsOf_congr {c : UUID}
    (h : ∀ shard, (spill.get? (c, shard)).isSome = (files.get? (c, shard)).isSome) :
    shardsOf c spill = shardsOf c files := by
  have hperm : (shardsOf c spill).Perm (shardsOf c files) := by
    rw [List.perm_ext_iff_of_nodup (nodup_shardsOf c spill) (nodup_shardsOf c files)]
    intro shard
    rw [mem_shardsOf, mem_shardsOf, h]
  exact hperm.eq_of_pairwise' (r := (· ≤ ·)) (List.pairwise_mergeSort' _ _)
    (List.pairwise_mergeSort' _ _)

end MultiShardSpill

namespace PersistentSpill

variable {T : Type} {codec : LineCodec T} {old spill files files' : PersistentSpill} {c x : UUID}


theorem grows_spilled (entries : List T) (files : PersistentSpill) :
    SpillFiles.Grows c files (entries.foldl (codec.spill x) files) := by
  induction entries generalizing files with
  | nil => exact .refl c files
  | cons e entries ih => exact (SpillFiles.grows_append _).trans (ih _)

theorem grows_iterLines : SpillFiles.Grows c files (iterLines x files).2 :=
  SpillFiles.grows_change fun _ => List.prefix_append _ _

theorem settled_iterLines (h : SpillFiles.Settled c old files) :
    SpillFiles.Settled c old (iterLines x files).2 :=
  h.change (fun file hfile => ⟨hfile, (SpillFile.content_flushed file).trans hfile⟩) x

theorem get?_clear_of_ne (h : c ≠ x) : (clear x files).get? c = files.get? c :=
  (Dict.get?_erase _ _ _).trans (if_neg h)

theorem grows_restart (drained : UUID → ℕ → ℕ) (files : PersistentSpill) :
    SpillFiles.Grows c files (restarted drained files) :=
  SpillFiles.grows_crashed _

theorem settled_restart (h : SpillFiles.Settled c old files) (drained : UUID → ℕ → ℕ) :
    SpillFiles.Settled c old (restarted drained files) :=
  h.crashed _

/-- The entries of a client are on disk. -/
theorem entries_congr (h : SpillFiles.Settled c old files)
    (h' : SpillFiles.Settled c old files') : codec.entries c files = codec.entries c files' := by
  have hlines : (iterLines c files).1 = (iterLines c files').1 := by
    rw [iterLines_fst, iterLines_fst, ← content_eq_holding, ← content_eq_holding,
      h.content_eq, h'.content_eq]
  rw [LineCodec.entries, hlines]
  rfl

/-- Restoring a snapshot cuts no file shorter than it was. -/
theorem grows_restored (h : SpillFiles.Grows c (snapshotState spill).2 files) :
    SpillFiles.Grows c (snapshotState spill).2
      (restoreState (snapshotState spill).1 files) := by
  have hclosed : SpillFiles.Grows c (snapshotState spill).2 (files.mapVal SpillFile.closed) :=
    h.trans (.of_map (fun _ => List.prefix_append _ _) (Dict.get?_mapVal _ _ _))
  have hget := get?_restoreState (snapshotState spill).1 files c
  rw [← Dict.get?_mapVal] at hget
  cases hlength : (snapshotState spill).1.get? c with
  | none =>
      rw [hlength] at hget
      exact hclosed.trans (.of_get?_eq hget)
  | some length =>
      obtain ⟨hexists, hsize⟩ := SpillFiles.exists_of_sizes hlength
      obtain ⟨file, hfile⟩ := Option.isSome_iff_exists.mp (hclosed.exists_of hexists)
      rw [hlength, hfile] at hget
      exact SpillFiles.grows_of_bytes hget (SpillFiles.truncated_of_grows hclosed hfile hsize)

theorem settled_restored (h : SpillFiles.Settled c (snapshotState spill).2 files) :
    SpillFiles.Settled c (snapshotState spill).2
      (restoreState (snapshotState spill).1 files) := by
  have hclosed : SpillFiles.Settled c (snapshotState spill).2
      (files.mapVal SpillFile.closed) :=
    h.of_map (fun file _ hflushed => ⟨hflushed, (SpillFile.content_closed file).trans hflushed⟩)
      (Dict.get?_mapVal _ _ _)
  have hget := get?_restoreState (snapshotState spill).1 files c
  rw [← Dict.get?_mapVal] at hget
  cases hlength : (snapshotState spill).1.get? c with
  | none =>
      rw [hlength] at hget
      exact hclosed.of_get?_eq hget
  | some length =>
      obtain ⟨hexists, hsize⟩ := SpillFiles.exists_of_sizes hlength
      have hsome : ((files.mapVal SpillFile.closed).get? c).isSome := by
        have hbytes := congrArg Option.isSome hclosed.bytes
        rw [Option.isSome_map, Option.isSome_map] at hbytes
        rw [hbytes]
        exact hexists
      obtain ⟨file, hfile⟩ := Option.isSome_iff_exists.mp hsome
      rw [hlength, hfile] at hget
      refine hclosed.of_map (f := SpillFile.reopened) (fun file' _ hflushed => ?_) ?_
      · refine ⟨rfl, ?_⟩
        rw [SpillFile.content, SpillFile.reopened]
        exact hflushed
      · rw [hget, hfile]
        change some (file.truncated length).reopened = _
        rw [hclosed.truncated hsize hfile]
        rfl

end PersistentSpill
