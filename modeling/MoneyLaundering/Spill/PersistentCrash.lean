import MoneyLaundering.Spill.TextMode

/-!
# Crashes of the spill of one file for each client

A restart cuts the files that the snapshot knows to the length that they had.  A file that
no handle was open for when the snapshot was taken keeps what was written since.
-/

namespace PersistentSpill

/-! ## Calls -/

/-- A call of a spill. -/
inductive Op where
  | append (clientId : UUID) (line : Bytes)
  | iterLines (clientId : UUID)
  | iterChunks (batchLines : ℕ) (clientId : UUID)
  | clear (clientId : UUID)
  | snapshotState
deriving DecidableEq

/-- What a call does to the files. -/
def Op.run : Op → PersistentSpill → PersistentSpill
  | .append clientId line, spill => spill.append clientId line
  | .iterLines clientId, spill => (spill.iterLines clientId).2
  | .iterChunks batchLines clientId, spill => (spill.iterChunks batchLines clientId).2
  | .clear clientId, spill => spill.clear clientId
  | .snapshotState, spill => spill.snapshotState.2

/-- Some calls, one after the other. -/
def runAll (ops : List Op) (spill : PersistentSpill) : PersistentSpill :=
  ops.foldl (fun spill op => op.run spill) spill

variable {spill spill' : PersistentSpill} {c x : UUID} {op : Op} {ops : List Op}

theorem content_append (line : Bytes) :
    SpillFiles.content (append x line spill) c =
      if c = x then SpillFiles.content spill c ++ line else SpillFiles.content spill c := by
  by_cases h : c = x
  · subst h
    rw [if_pos rfl, content_eq_holding, holding_append, content_eq_holding]
    rfl
  · rw [if_neg h, content_eq_holding, holding_append_of_ne _ h, content_eq_holding]

/-- What a call makes of the text of a client depends on this text only. -/
theorem content_run_congr (op : Op)
    (h : SpillFiles.content spill c = SpillFiles.content spill' c) :
    SpillFiles.content (op.run spill) c = SpillFiles.content (op.run spill') c := by
  have hlines (x : UUID) (spill : PersistentSpill) :
      SpillFiles.content (iterLines x spill).2 c = SpillFiles.content spill c := by
    rw [content_eq_holding, holding_iterLines, content_eq_holding]
  cases op with
  | append x line =>
      change SpillFiles.content (append x line spill) c =
        SpillFiles.content (append x line spill') c
      rw [content_append, content_append, h]
  | iterLines x => exact (hlines x spill).trans (h.trans (hlines x spill').symm)
  | iterChunks batchLines x => exact (hlines x spill).trans (h.trans (hlines x spill').symm)
  | clear x =>
      change SpillFiles.content (clear x spill) c = SpillFiles.content (clear x spill') c
      rw [content_eq_holding, content_eq_holding]
      by_cases hx : c = x
      · subst hx
        rw [holding_clear_self, holding_clear_self]
      · rw [holding_clear_of_ne hx, holding_clear_of_ne hx, ← content_eq_holding,
          ← content_eq_holding, h]
  | snapshotState =>
      change SpillFiles.content (snapshotState spill).2 c =
        SpillFiles.content (snapshotState spill').2 c
      rw [content_eq_holding, content_eq_holding, holding_snapshotState,
        holding_snapshotState, ← content_eq_holding, ← content_eq_holding, h]

theorem content_runAll_congr (ops : List Op)
    (h : SpillFiles.content spill c = SpillFiles.content spill' c) :
    SpillFiles.content (runAll ops spill) c = SpillFiles.content (runAll ops spill') c := by
  induction ops generalizing spill spill' with
  | nil => exact h
  | cons op ops ih => exact ih (content_run_congr op h)

/-- The lines of a client, after some calls. -/
theorem iterLines_eq_content (spill : PersistentSpill) (c : UUID) :
    (iterLines c spill).1 =
      Lines.lines newline (universalNewlines (SpillFiles.content spill c)) := by
  rw [iterLines_fst, content_eq_holding]

/-- Every call but `clear` leaves what is on disk. -/
theorem grows_run (h : op ≠ .clear c) : SpillFiles.Grows c spill (op.run spill) := by
  cases op with
  | append x line => exact SpillFiles.grows_append line
  | iterLines x => exact SpillFiles.grows_change fun _ => List.prefix_append _ _
  | iterChunks batchLines x => exact SpillFiles.grows_change fun _ => List.prefix_append _ _
  | clear x =>
      have hx : c ≠ x := by
        rintro rfl
        exact h rfl
      exact .of_get?_eq ((Dict.get?_erase _ _ _).trans (if_neg hx))
  | snapshotState => exact SpillFiles.grows_flushAll

theorem grows_runAll (h : Op.clear c ∉ ops) :
    SpillFiles.Grows c spill (runAll ops spill) := by
  induction ops generalizing spill with
  | nil => exact .refl c spill
  | cons op ops ih =>
      rw [List.mem_cons, not_or] at h
      exact (grows_run (Ne.symm h.1)).trans (ih h.2)

/-! ## The restart -/

/-- What a process finds that restarts with the snapshot of `spill`, after the process
that took it made some calls and crashed. -/
def recovered (spill : PersistentSpill) (ops : List Op) (drained : UUID → ℕ → ℕ) :
    PersistentSpill :=
  restoreState (snapshotState spill).1
    (restarted drained (runAll ops (snapshotState spill).2))

/-- What reached the file of a client after the snapshot. -/
def reachedSince (spill : PersistentSpill) (ops : List Op) (drained : UUID → ℕ → ℕ)
    (c : UUID) : Bytes :=
  SpillFiles.reached (snapshotState spill).2
    (restarted drained (runAll ops (snapshotState spill).2)) c

theorem grows_restarted (h : Op.clear c ∉ ops) (drained : UUID → ℕ → ℕ) :
    SpillFiles.Grows c (snapshotState spill).2
      (restarted drained (runAll ops (snapshotState spill).2)) :=
  (grows_runAll h).trans (SpillFiles.grows_crashed _)

theorem disk_snapshotState (spill : PersistentSpill) (c : UUID) :
    SpillFiles.disk (snapshotState spill).2 c = SpillFiles.content spill c :=
  SpillFiles.disk_flushAll spill c

theorem content_snapshotState (spill : PersistentSpill) (c : UUID) :
    SpillFiles.content (snapshotState spill).2 c = SpillFiles.content spill c := by
  rw [content_eq_holding, holding_snapshotState, content_eq_holding]

/-- A file of the snapshot is cut to what it had. -/
theorem content_recovered_of_open (h : Op.clear c ∉ ops) (drained : UUID → ℕ → ℕ)
    (hopen : (snapshotState spill).1.get? c ≠ none) :
    SpillFiles.content (recovered spill ops drained) c = SpillFiles.content spill c := by
  have hgrows : SpillFiles.Grows c (snapshotState spill).2
      (restarted drained (runAll ops (snapshotState spill).2)) := grows_restarted h drained
  obtain ⟨n, hn⟩ := Option.ne_none_iff_exists'.mp hopen
  obtain ⟨hexists, hdisk⟩ := SpillFiles.exists_of_sizes hn
  obtain ⟨left, hleft⟩ := Option.isSome_iff_exists.mp (hgrows.exists_of hexists)
  have hclosed : left.closed.bytes = left.bytes := by
    have hbuffer : left.buffer = none :=
      SpillFiles.buffer_crashed (fun c => drained c 0) hleft
    change left.bytes ++ left.buffer.getD [] = left.bytes
    rw [hbuffer]
    exact List.append_nil _
  have hcut := SpillFiles.truncated_of_grows hgrows hleft hdisk
  have hget := get?_restoreState (snapshotState spill).1
    (restarted drained (runAll ops (snapshotState spill).2)) c
  rw [hn, hleft] at hget
  have hbytes : (left.closed.truncated n).bytes = SpillFiles.content spill c := by
    rw [SpillFile.truncated, hclosed]
    exact hcut.trans (disk_snapshotState spill c)
  rw [recovered, SpillFiles.content, hget]
  change (left.closed.truncated n).bytes ++ [] = _
  rw [List.append_nil, hbytes]

/-- A file that the snapshot does not know keeps what reached it. -/
theorem content_recovered_of_closed (h : Op.clear c ∉ ops) (drained : UUID → ℕ → ℕ)
    (hclosed : (snapshotState spill).1.get? c = none) :
    SpillFiles.content (recovered spill ops drained) c =
      SpillFiles.content spill c ++ reachedSince spill ops drained c := by
  have hget := get?_restoreState (snapshotState spill).1
    (restarted drained (runAll ops (snapshotState spill).2)) c
  rw [hclosed] at hget
  have hcontent : SpillFiles.content (recovered spill ops drained) c =
      SpillFiles.content (restarted drained (runAll ops (snapshotState spill).2)) c := by
    rw [recovered, SpillFiles.content, SpillFiles.content, hget, Option.map_map]
    simp [Function.comp_def]
  rw [hcontent, reachedSince, ← disk_snapshotState spill c,
    SpillFiles.disk_append_reached (grows_restarted h drained)]
  exact SpillFiles.content_crashed _ _ _

/-- A client that was not cleared finds the lines that it had when the snapshot was taken,
and goes on as from there, if and only if its file was open then or nothing reached the
file since. -/
theorem restores_lines_iff (spill : PersistentSpill) (ops : List Op)
    (drained : UUID → ℕ → ℕ) (c : UUID) (h : Op.clear c ∉ ops) :
    (∀ again, (iterLines c (runAll again (recovered spill ops drained))).1 =
        (iterLines c (runAll again (snapshotState spill).2)).1) ↔
      (snapshotState spill).1.get? c ≠ none ∨ reachedSince spill ops drained c = [] := by
  have hsnap := content_snapshotState spill c
  constructor
  · intro heq
    by_contra hne
    obtain ⟨hclosed, hreached⟩ := not_or.mp hne
    have hrecovered := content_recovered_of_closed h drained (not_not.mp hclosed)
    apply hreached
    have halike : ∀ line, universalNewlines
        ((SpillFiles.content spill c ++ reachedSince spill ops drained c) ++ line) =
          universalNewlines (SpillFiles.content spill c ++ line) := by
      intro line
      have hline := congrArg List.flatten (heq [.append c line])
      rw [iterLines_eq_content, iterLines_eq_content, Lines.flatten_lines,
        Lines.flatten_lines] at hline
      change universalNewlines (SpillFiles.content (append c line _) c) =
        universalNewlines (SpillFiles.content (append c line _) c) at hline
      rwa [content_append, content_append, if_pos rfl, if_pos rfl, hrecovered, hsnap] at hline
    exact eq_nil_of_reads_alike halike
  · intro hcond again
    have hcontent : SpillFiles.content (recovered spill ops drained) c =
        SpillFiles.content (snapshotState spill).2 c := by
      rw [hsnap]
      by_cases hopen : (snapshotState spill).1.get? c = none
      · rw [content_recovered_of_closed h drained hopen,
          hcond.resolve_left (not_not.mpr hopen), List.append_nil]
      · exact content_recovered_of_open h drained hopen
    rw [iterLines_eq_content, iterLines_eq_content, content_runAll_congr again hcontent]

/-- Client `7` has a line when the snapshot is taken, and goes on. -/
def openSpill : PersistentSpill := append 7 [97, 10] Dict.empty

theorem restores_lines_openSpill :
    (iterLines 7 (recovered openSpill [.append 7 [98, 10]] fun _ _ => 2)).1 =
      [[97, 10]] := by
  have heq := (restores_lines_iff openSpill [.append 7 [98, 10]] (fun _ _ => 2) 7
    (by decide)).mpr (Or.inl (by decide)) []
  exact heq.trans (by decide)

/-- The first line of client `7` comes after the snapshot and reaches the file: the
process that restarts finds it, and has it twice when the message comes again. -/
theorem not_restores_newClient :
    ((snapshotState Dict.empty).2.iterLines 7).1 = [] ∧
    (iterLines 7 (recovered Dict.empty [.append 7 [97, 10]] fun _ _ => 2)).1 =
      [[97, 10]] ∧
    (iterLines 7 (runAll [.append 7 [97, 10]]
      (recovered Dict.empty [.append 7 [97, 10]] fun _ _ => 2))).1 =
        [[97, 10], [97, 10]] := by
  decide

end PersistentSpill
