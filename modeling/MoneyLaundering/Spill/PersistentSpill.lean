import MoneyLaundering.Spill.Files
import MoneyLaundering.Support.Lines

/-!
# The spill of one file for each client

`PersistentSpill`: a line buffer on disk.  The path of a file is made of the client, so
two clients never share one.  The directory is left out: it is made when a file is opened
and removed only when it is empty.
-/

/-- The files of a spill, by client. -/
abbrev PersistentSpill : Type := SpillFiles UUID

namespace PersistentSpill

/-- The symbol that ends a line. -/
def newline : UInt8 := 10

/-- The symbol that other systems put in front of it. -/
def carriageReturn : UInt8 := 13

/-- What a file reads as in text mode: each kind of line end is one `newline`. -/
def universalNewlines : Bytes → Bytes
  | [] => []
  | b :: bytes =>
    if b ≠ carriageReturn then b :: universalNewlines bytes
    else if bytes.head? = some newline then universalNewlines bytes
    else newline :: universalNewlines bytes

/-- `append`. -/
def append (clientId : UUID) (line : Bytes) (spill : PersistentSpill) :
    PersistentSpill :=
  SpillFiles.append clientId line spill

/-- `iter_lines`: the handle is flushed, and the file is read, if there is one. -/
def iterLines (clientId : UUID) (spill : PersistentSpill) :
    List Bytes × PersistentSpill :=
  let flushed := SpillFiles.change SpillFile.flushed clientId spill
  (Lines.lines newline (universalNewlines (flushed.content clientId)), flushed)

/-- The loop of `iter_chunks`, which joins the lines in batches; `batch` is what it
holds. -/
def chunksOf (batchLines : ℕ) : List Bytes → List Bytes → List Bytes
  | batch, [] => if batch = [] then [] else [batch.flatten]
  | batch, line :: lines =>
    if batchLines ≤ (batch ++ [line]).length then
      (batch ++ [line]).flatten :: chunksOf batchLines [] lines
    else chunksOf batchLines (batch ++ [line]) lines

/-- `iter_chunks`. -/
def iterChunks (batchLines : ℕ) (clientId : UUID) (spill : PersistentSpill) :
    List Bytes × PersistentSpill :=
  (chunksOf batchLines [] (iterLines clientId spill).1, (iterLines clientId spill).2)

/-- `clear`. -/
def clear (clientId : UUID) (spill : PersistentSpill) : PersistentSpill :=
  spill.erase clientId

/-- `clear_all`. -/
def clearAll (_ : PersistentSpill) : PersistentSpill := Dict.empty

/-- `snapshot_state`: every open handle is flushed, and the sizes of their files are
committed. -/
def snapshotState (spill : PersistentSpill) : Dict UUID ℕ × PersistentSpill :=
  (SpillFiles.sizes spill, SpillFiles.flushAll spill)

/-- What `restore_state` does with one committed length. -/
def restoreFile (clientId : UUID) (length : ℕ) (spill : PersistentSpill) :
    PersistentSpill :=
  spill.set clientId (match spill.get? clientId with
    | none => .created
    | some file => (file.truncated length).reopened)

/-- `restore_state`, in a process that has no file open. -/
def restoreState (snapshot : Dict UUID ℕ) (spill : PersistentSpill) : PersistentSpill :=
  snapshot.entries.foldl (fun spill e => restoreFile e.1 e.2 spill)
    (spill.mapVal SpillFile.closed)

/-- What a new process finds. -/
def restarted (drained : UUID → ℕ → ℕ) (spill : PersistentSpill) : PersistentSpill :=
  SpillFiles.crashed (fun clientId => drained clientId 0) spill

/-- What the spill holds for a client: whether a handle is open, and the text. -/
def holding (spill : PersistentSpill) (clientId : UUID) : Option (Bool × Bytes) :=
  (spill.get? clientId).map fun file => (file.isOpen, file.content)

variable {spill spill' : PersistentSpill} {c x : UUID}

theorem content_eq_holding (spill : PersistentSpill) (c : UUID) :
    SpillFiles.content spill c = ((holding spill c).map Prod.snd).getD [] := by
  simp [SpillFiles.content, holding, Function.comp_def]

/-! ## What each operation does to a client -/

theorem holding_append_of_ne (line : Bytes) (h : c ≠ x) :
    holding (append x line spill) c = holding spill c := by
  simp [holding, append, SpillFiles.get?_append, h]

theorem holding_append (line : Bytes) :
    holding (append x line spill) x =
      some (true, ((holding spill x).map Prod.snd).getD [] ++ line) := by
  rw [holding, append, SpillFiles.get?_append, if_pos rfl]
  cases h : spill.get? x with
  | none => simp [holding, h, SpillFile.isOpen, SpillFile.written, SpillFile.content,
      SpillFile.created]
  | some file => simp [holding, h, SpillFile.isOpen, SpillFile.written,
      SpillFile.content]

theorem holding_iterLines : holding (iterLines x spill).2 c = holding spill c := by
  rw [holding, iterLines, SpillFiles.get?_change]
  by_cases h : c = x
  · subst h
    simp [holding, Function.comp_def]
  · simp [holding, h]

/-- The lines of a client are a function of what the spill holds for it. -/
theorem iterLines_fst (spill : PersistentSpill) (x : UUID) :
    (iterLines x spill).1 =
      Lines.lines newline
        (universalNewlines (((holding spill x).map Prod.snd).getD [])) := by
  change Lines.lines newline (universalNewlines
    (SpillFiles.content (iterLines x spill).2 x)) = _
  rw [content_eq_holding, holding_iterLines]

theorem holding_clear_of_ne (h : c ≠ x) : holding (clear x spill) c = holding spill c := by
  simp [holding, clear, Dict.get?_erase, h]

@[simp] theorem holding_clear_self : holding (clear x spill) x = none := by
  simp [holding, clear]

@[simp] theorem holding_snapshotState :
    holding (snapshotState spill).2 c = holding spill c := by
  simp [holding, snapshotState, SpillFiles.get?_flushAll, Function.comp_def]

/-! ## Restoring -/

/-- What `restore_state` makes of the file of a committed length, if it is there. -/
def restoredFile (length : ℕ) : Option SpillFile → SpillFile
  | none => .created
  | some file => (file.truncated length).reopened

theorem get?_restoreFile (length : ℕ) :
    (restoreFile x length spill).get? c =
      if c = x then some (restoredFile length (spill.get? x)) else spill.get? c := by
  rw [restoreFile, Dict.get?_set]
  by_cases h : c = x
  · rw [if_pos h, if_pos h]
    cases spill.get? x <;> rfl
  · rw [if_neg h, if_neg h]

theorem get?_foldl_restoreFile {es : List (UUID × ℕ)} (hes : (es.map Prod.fst).Nodup) :
    (es.foldl (fun spill e => restoreFile e.1 e.2 spill) spill).get? c =
      match es.lookup c with
      | none => spill.get? c
      | some length => some (restoredFile length (spill.get? c)) := by
  induction es generalizing spill with
  | nil => rfl
  | cons e es ih =>
      obtain ⟨x, length⟩ := e
      rw [List.map_cons, List.nodup_cons] at hes
      rw [List.foldl_cons, ih hes.2, get?_restoreFile, Dict.lookup_cons_eq]
      by_cases h : c = x
      · subst h
        have hnone : es.lookup c = none := Dict.lookup_eq_none_of_notMem hes.1
        simp [hnone]
      · simp [h]

/-- Every file with a committed length is cut to it and opened, and the others are
left. -/
theorem get?_restoreState (snapshot : Dict UUID ℕ) (spill : PersistentSpill) (c : UUID) :
    (restoreState snapshot spill).get? c =
      match snapshot.get? c with
      | none => (spill.get? c).map SpillFile.closed
      | some length => some (restoredFile length ((spill.get? c).map SpillFile.closed)) := by
  rw [restoreState, get?_foldl_restoreFile snapshot.nodup, Dict.get?_mapVal]
  rfl

end PersistentSpill
