import MoneyLaundering.Basic
import MoneyLaundering.Support.Dict

/-!
# Append-only files

What the spills of a node keep on disk: one file for each key, which is opened to append
when something is written to it.  Text that was written stays in a buffer of the process
until the file is flushed; a crash keeps what reached the file by then.
-/

/-- A file of a spill, and the text that its open handle has not written yet. -/
structure SpillFile where
  bytes : Bytes
  buffer : Option Bytes
deriving DecidableEq

namespace SpillFile

/-- What a reader of the process finds. -/
def content (f : SpillFile) : Bytes := f.bytes ++ f.buffer.getD []

/-- Whether the process has the file open. -/
def isOpen (f : SpillFile) : Bool := f.buffer.isSome

/-- `open(path, "a")` on an existing file. -/
def reopened (f : SpillFile) : SpillFile := { f with buffer := some (f.buffer.getD []) }

/-- `handle.write(line)`. -/
def written (line : Bytes) (f : SpillFile) : SpillFile :=
  { f with buffer := some (f.buffer.getD [] ++ line) }

/-- `handle.flush()`, if there is a handle. -/
def flushed (f : SpillFile) : SpillFile := ⟨f.content, f.buffer.map fun _ => []⟩

/-- `handle.close()`, if there is a handle. -/
def closed (f : SpillFile) : SpillFile := ⟨f.content, none⟩

/-- The process is gone; `n` bytes of the buffer had reached the file. -/
def crashed (n : ℕ) (f : SpillFile) : SpillFile :=
  ⟨f.bytes ++ (f.buffer.getD []).take n, none⟩

/-- `f.truncate(length)`, which fills a shorter file up with zeros. -/
def truncated (length : ℕ) (f : SpillFile) : SpillFile :=
  { f with bytes := f.bytes.take length ++ List.replicate (length - f.bytes.length) 0 }

/-- A file that was just created. -/
def created : SpillFile := ⟨[], some []⟩

@[simp] theorem content_flushed (f : SpillFile) : f.flushed.content = f.content := by
  cases h : f.buffer <;> simp [flushed, content, h]

@[simp] theorem isOpen_flushed (f : SpillFile) : f.flushed.isOpen = f.isOpen := by
  simp [flushed, isOpen]

@[simp] theorem content_written (line : Bytes) (f : SpillFile) :
    (f.written line).content = f.content ++ line := by
  simp [written, content]

theorem bytes_truncated {length : ℕ} {f : SpillFile} (h : length ≤ f.bytes.length) :
    (f.truncated length).bytes = f.bytes.take length := by
  rw [truncated, Nat.sub_eq_zero_of_le h, List.replicate_zero, List.append_nil]

@[simp] theorem content_closed (f : SpillFile) : f.closed.content = f.content := by
  simp [closed, content]

end SpillFile

/-- The files of a spill, by key: every path is made of one key. -/
abbrev SpillFiles (κ : Type) : Type := Dict κ SpillFile

namespace SpillFiles

variable {κ : Type} [DecidableEq κ]

/-- Write a line, opening the file if it is not open. -/
def append (key : κ) (line : Bytes) (files : SpillFiles κ) : SpillFiles κ :=
  files.set key (((files.get? key).getD .created).written line)

/-- Change a file, if it exists. -/
def change (f : SpillFile → SpillFile) (key : κ) (files : SpillFiles κ) :
    SpillFiles κ :=
  match files.get? key with
  | none => files
  | some file => files.set key (f file)

/-- What a reader finds under a key. -/
def content (files : SpillFiles κ) (key : κ) : Bytes :=
  ((files.get? key).map SpillFile.content).getD []

/-- The flushed files of the open handles and their sizes. -/
def sizes (files : SpillFiles κ) : Dict κ ℕ :=
  ⟨(files.entries.filter fun e => e.2.isOpen).map fun e => (e.1, e.2.content.length), by
    rw [List.map_map]
    exact files.nodup.sublist (List.filter_sublist.map Prod.fst)⟩

/-- Flush every open handle. -/
def flushAll (files : SpillFiles κ) : SpillFiles κ := files.mapVal SpillFile.flushed

/-- What a crash leaves of the files. -/
def crashed (drained : κ → ℕ) (files : SpillFiles κ) : SpillFiles κ :=
  ⟨files.entries.map fun e => (e.1, e.2.crashed (drained e.1)), by
    rw [List.map_map]
    exact files.nodup⟩

theorem get?_append (key k : κ) (line : Bytes) (files : SpillFiles κ) :
    (files.append key line).get? k =
      if k = key then some (((files.get? key).getD .created).written line)
      else files.get? k :=
  Dict.get?_set _ _ _ _

theorem get?_change (f : SpillFile → SpillFile) (key k : κ) (files : SpillFiles κ) :
    (files.change f key).get? k =
      if k = key then (files.get? key).map f else files.get? k := by
  unfold change
  cases h : files.get? key with
  | none =>
      by_cases hk : k = key
      · simp [hk, h]
      · simp [hk]
  | some file => simp [Dict.get?_set]

theorem get?_flushAll (k : κ) (files : SpillFiles κ) :
    files.flushAll.get? k = (files.get? k).map SpillFile.flushed :=
  Dict.get?_mapVal _ _ _

theorem get?_crashed (drained : κ → ℕ) (k : κ) (files : SpillFiles κ) :
    (files.crashed drained).get? k = (files.get? k).map (SpillFile.crashed (drained k)) := by
  ext file
  rw [Dict.get?_eq_some_iff, Option.map_eq_some_iff]
  constructor
  · intro hmem
    obtain ⟨e, he, heq⟩ := List.mem_map.mp hmem
    cases heq
    exact ⟨e.2, Dict.get?_eq_some_iff.mpr he, rfl⟩
  · rintro ⟨file, hfile, rfl⟩
    exact List.mem_map.mpr ⟨(k, file), Dict.get?_eq_some_iff.mp hfile, rfl⟩

theorem get?_sizes (k : κ) (files : SpillFiles κ) :
    files.sizes.get? k = ((files.get? k).filter SpillFile.isOpen).map fun file =>
      file.content.length := by
  ext length
  rw [Dict.get?_eq_some_iff, Option.map_eq_some_iff]
  constructor
  · intro hmem
    obtain ⟨e, he, heq⟩ := List.mem_map.mp hmem
    obtain ⟨hentry, hopen⟩ := List.mem_filter.mp he
    cases heq
    exact ⟨e.2, Option.filter_eq_some_iff.mpr
      ⟨Dict.get?_eq_some_iff.mpr hentry, hopen⟩, rfl⟩
  · rintro ⟨file, hfile, rfl⟩
    obtain ⟨hget, hopen⟩ := Option.filter_eq_some_iff.mp hfile
    exact List.mem_map.mpr ⟨(k, file),
      List.mem_filter.mpr ⟨Dict.get?_eq_some_iff.mp hget, hopen⟩, rfl⟩

/-- Cut the files of some lengths. -/
def truncateAll (lengths : List (κ × ℕ)) (files : SpillFiles κ) : SpillFiles κ :=
  lengths.foldl (fun files e => files.change (SpillFile.truncated e.2) e.1) files

theorem get?_truncateAll {lengths : List (κ × ℕ)} (h : (lengths.map Prod.fst).Nodup)
    (key : κ) (files : SpillFiles κ) :
    (truncateAll lengths files).get? key =
      match lengths.lookup key with
      | none => files.get? key
      | some length => (files.get? key).map (SpillFile.truncated length) := by
  induction lengths generalizing files with
  | nil => rfl
  | cons e lengths ih =>
      obtain ⟨k, length⟩ := e
      rw [List.map_cons, List.nodup_cons] at h
      rw [truncateAll, List.foldl_cons]
      change (truncateAll lengths _).get? key = _
      rw [ih h.2, get?_change, Dict.lookup_cons_eq]
      by_cases hk : key = k
      · subst hk
        have hnone : lengths.lookup key = none := Dict.lookup_eq_none_of_notMem h.1
        simp [hnone]
      · simp [hk]

/-- A file after the first entries of some lengths: cut, or left. -/
theorem get?_truncateAll_take (lengths : Dict κ ℕ) (n : ℕ) (key : κ)
    (files : SpillFiles κ) :
    (∃ length, lengths.get? key = some length ∧
        (truncateAll (lengths.entries.take n) files).get? key =
          (files.get? key).map (SpillFile.truncated length)) ∨
      (truncateAll (lengths.entries.take n) files).get? key = files.get? key ∧
        (lengths.size ≤ n → lengths.get? key = none) := by
  have hnodup : ((lengths.entries.take n).map Prod.fst).Nodup :=
    lengths.nodup.sublist ((List.take_sublist n _).map Prod.fst)
  have hget := get?_truncateAll hnodup key files
  cases hlookup : (lengths.entries.take n).lookup key with
  | none =>
      rw [hlookup] at hget
      refine Or.inr ⟨hget, fun hle => ?_⟩
      rwa [List.take_of_length_le hle] at hlookup
  | some length =>
      rw [hlookup] at hget
      have hmem := (Dict.lookup_eq_some_iff hnodup).mp hlookup
      exact Or.inl ⟨length, Dict.get?_eq_some_iff.mpr (List.mem_of_mem_take hmem), hget⟩

theorem content_append (key k : κ) (line : Bytes) (files : SpillFiles κ) :
    (files.append k line).content key =
      if key = k then files.content key ++ line else files.content key := by
  rw [content, get?_append]
  by_cases h : key = k
  · subst h
    rw [if_pos rfl, if_pos rfl, Option.map_some, Option.getD_some,
      SpillFile.content_written, content]
    cases files.get? key <;> rfl
  · rw [if_neg h, if_neg h, content]

/-- A change that a reader does not see. -/
theorem content_change {f : SpillFile → SpillFile}
    (hf : ∀ file, (f file).content = file.content) (key k : κ) (files : SpillFiles κ) :
    (files.change f k).content key = files.content key := by
  rw [content, get?_change, content]
  by_cases h : key = k
  · subst h
    rw [if_pos rfl, Option.map_map]
    simp [Function.comp_def, hf]
  · rw [if_neg h]

theorem content_flushAll (key : κ) (files : SpillFiles κ) :
    files.flushAll.content key = files.content key := by
  rw [content, get?_flushAll, Option.map_map, content]
  simp [Function.comp_def]

/-! ## What reached the disk -/

/-- The bytes of a file that reached the disk. -/
def disk (files : SpillFiles κ) (key : κ) : Bytes :=
  ((files.get? key).map SpillFile.bytes).getD []

/-- The file is there and has the bytes it had, and maybe more. -/
structure Grows (key : κ) (files files' : SpillFiles κ) : Prop where
  bytes : files.disk key <+: files'.disk key
  exists_of : (files.get? key).isSome → (files'.get? key).isSome

variable {files files' files'' : SpillFiles κ} {key k : κ}

theorem Grows.refl (key : κ) (files : SpillFiles κ) : files.Grows key files :=
  ⟨List.prefix_refl _, id⟩

theorem Grows.trans (h : Grows key files files') (h' : Grows key files' files'') :
    Grows key files files'' :=
  ⟨h.bytes.trans h'.bytes, fun hk => h'.exists_of (h.exists_of hk)⟩

theorem Grows.of_get?_eq (h : files'.get? key = files.get? key) :
    Grows key files files' := by
  constructor
  · rw [disk, disk, h]
  · rw [h]
    exact id

/-- A change of every file that keeps the bytes on disk. -/
theorem Grows.of_map {f : SpillFile → SpillFile} (hf : ∀ file, file.bytes <+: (f file).bytes)
    (h : files'.get? key = (files.get? key).map f) : Grows key files files' := by
  constructor
  · rw [disk, disk, h]
    cases files.get? key with
    | none => exact List.prefix_refl _
    | some file => exact hf file
  · rw [h]
    simp

theorem grows_append (line : Bytes) : Grows key files (files.append k line) := by
  by_cases hk : key = k
  · subst hk
    have hget := get?_append key key line files
    rw [if_pos rfl] at hget
    constructor
    · rw [disk, disk, hget]
      cases files.get? key with
      | none => exact List.nil_prefix
      | some file => exact List.prefix_refl _
    · simp [hget]
  · exact .of_get?_eq ((get?_append k key line files).trans (if_neg hk))

theorem grows_change {f : SpillFile → SpillFile}
    (hf : ∀ file, file.bytes <+: (f file).bytes) : Grows key files (files.change f k) := by
  by_cases hk : key = k
  · subst hk
    apply Grows.of_map hf
    exact (get?_change f key key files).trans (if_pos rfl)
  · exact .of_get?_eq ((get?_change f k key files).trans (if_neg hk))

theorem grows_flushAll : Grows key files files.flushAll :=
  .of_map (fun _ => List.prefix_append _ _) (get?_flushAll key files)

theorem grows_crashed (drained : κ → ℕ) : Grows key files (files.crashed drained) :=
  .of_map (fun _ => List.prefix_append _ _) (get?_crashed drained key files)

/-- All that was written is on disk after a flush. -/
theorem disk_flushAll (files : SpillFiles κ) (key : κ) :
    files.flushAll.disk key = files.content key := by
  rw [disk, content, get?_flushAll, Option.map_map]
  rfl

/-- A length of the snapshot is that of a file that was there. -/
theorem exists_of_sizes {length : ℕ} (h : files.sizes.get? key = some length) :
    (files.flushAll.get? key).isSome ∧ length = (files.flushAll.disk key).length := by
  rw [get?_sizes, Option.map_eq_some_iff] at h
  obtain ⟨file, hfile, rfl⟩ := h
  have hget := (Option.filter_eq_some_iff.mp hfile).1
  constructor
  · rw [get?_flushAll, hget]
    rfl
  · rw [disk_flushAll, content, hget]
    rfl

/-- After a crash nothing is in a buffer. -/
theorem content_crashed (drained : κ → ℕ) (files : SpillFiles κ) (key : κ) :
    (files.crashed drained).content key = (files.crashed drained).disk key := by
  rw [disk, content, get?_crashed, Option.map_map, Option.map_map]
  cases files.get? key with
  | none => rfl
  | some file => simp [SpillFile.content, SpillFile.crashed]

/-- A reader sees no more than the file itself. -/
theorem content_congr (h : files'.get? key = files.get? key) :
    files'.content key = files.content key := by
  rw [content, content, h]

/-- No file is open after a crash. -/
theorem buffer_crashed (drained : κ → ℕ) {file : SpillFile}
    (hfile : (files.crashed drained).get? key = some file) : file.buffer = none := by
  rw [get?_crashed] at hfile
  obtain ⟨old, -, rfl⟩ := Option.map_eq_some_iff.mp hfile
  rfl

/-- A reader of a closed file that was cut finds what is left on disk. -/
theorem content_of_closed {file : SpillFile} {length : ℕ}
    (hget : files.get? key = some (file.truncated length)) (hclosed : file.buffer = none) :
    files.content key = (file.truncated length).bytes := by
  rw [content, hget, Option.map_some, Option.getD_some, SpillFile.content]
  change _ ++ file.buffer.getD [] = _
  rw [hclosed]
  exact List.append_nil _

/-- A file with the bytes it had. -/
theorem grows_of_bytes {file : SpillFile} (hget : files'.get? key = some file)
    (hbytes : file.bytes = files.disk key) : Grows key files files' := by
  have hdisk : files'.disk key = file.bytes := by
    rw [disk, hget]
    rfl
  constructor
  · rw [hdisk, hbytes]
  · rw [hget]
    exact fun _ => rfl

/-- The bytes that reached the disk beyond those of another state. -/
def reached (before after : SpillFiles κ) (key : κ) : Bytes :=
  (after.disk key).drop (before.disk key).length

theorem disk_append_reached (h : Grows key files files') :
    files.disk key ++ reached files files' key = files'.disk key :=
  List.prefix_iff_eq_append.mp h.bytes

/-- Cutting a file to the length that it had gives what it had. -/
theorem truncated_of_grows {file : SpillFile} {length : ℕ} (h : Grows key files files')
    (hfile : files'.get? key = some file) (hlength : length = (files.disk key).length) :
    (file.truncated length).bytes = files.disk key := by
  have hdisk : files'.disk key = file.bytes := by
    rw [disk, hfile]
    rfl
  have hprefix := h.bytes
  rw [hdisk] at hprefix
  rw [SpillFile.bytes_truncated, hlength]
  · exact (List.prefix_iff_eq_take.mp hprefix).symm
  · rw [hlength]
    exact hprefix.length_le

end SpillFiles
