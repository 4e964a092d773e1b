import MoneyLaundering.Join.JoinFns

/-!
# What a join accumulates for a client

A business function of the join holds some content for each client, and its result is a
function of the content.  A snapshot covers a client when a process that restores it finds
the content that the client had when it was taken.
-/

open GraphSrc

namespace JoinRouteHandler

/-- The content that a business function accumulates for each client, and the snapshots
that cover it.  `Sound` contents come about by adding to the blank one, and `unsaved` are
the clients whose files a crash leaves behind without the snapshot's knowing. -/
structure Recoverable {F S α : Type} (fn : JoinFn F S α)
    (unsaved : (UUID → ℕ → ℕ) → S → F → UUID → Prop) (K : Type) where
  content : F → UUID → K
  blank : K
  add : α → K → K
  Sound : K → Prop
  result : K → List (String × Bool)
  Covers : S → F → UUID → K → Prop
  sound_blank : Sound blank
  sound_add : ∀ body k, Sound k → Sound (add body k)
  getResponses_fst : ∀ c f, (fn.getResponses c f).1 = result (content f c)
  oneLast : ∀ k, OneLast (result k)
  content_join : ∀ d f c, content (fn.join d f) c =
    if c = d.clientId then add d.body (content f c) else content f c
  content_getResponses : ∀ x f c, c ≠ x →
    content (fn.getResponses x f).2 c = content f c
  content_discard : ∀ x f c, c ≠ x → content (fn.discard x f) c = content f c
  content_snapshot : ∀ f c, content (fn.provider.snapshotState f).2 c = content f c
  content_clear : ∀ drained f c,
    content (fn.provider.clearStaleSpill (fn.provider.fresh drained f)) c = blank
  covers_saved : ∀ f c, Sound (content f c) → Covers (fn.provider.snapshotState f).1
    (fn.provider.snapshotState f).2 c (content f c)
  covers_snapshot : ∀ b f c k, Covers b f c k →
    Covers b (fn.provider.snapshotState f).2 c k
  covers_join : ∀ d b f c k, Covers b f c k → Covers b (fn.join d f) c k
  covers_getResponses : ∀ x b f c k, Covers b f c k →
    Covers b (fn.getResponses x f).2 c k
  covers_discard : ∀ x b f c k, c ≠ x → Covers b f c k →
    Covers b (fn.discard x f) c k
  covers_fresh : ∀ drained b f c k, Covers b f c k → ¬unsaved drained b f c →
    Covers b (fn.provider.fresh drained f) c k
  covers_restore : ∀ drained b f c k, Covers b (fn.provider.fresh drained f) c k →
    Covers b (fn.provider.restoreState b (fn.provider.fresh drained f)) c k ∧
      content (fn.provider.restoreState b (fn.provider.fresh drained f)) c = k

/-! ## In memory -/

/-- A snapshot of a function without files has all it needs. -/
def noUnsaved {S F : Type} (_ : UUID → ℕ → ℕ) (_ : S) (_ : F) (_ : UUID) : Prop := False

/-- What is in memory is as the snapshot has it. -/
def memoryRecoverable {V T : Type} (empty : V) (add : T → V → V) (body : V → String) :
    Recoverable (memoryJoin empty add body) noUnsaved V where
  content state c := state.getD c empty
  blank := empty
  add := add
  Sound _ := True
  result v := [(body v, true)]
  Covers snapshot _ c v := snapshot.getD c empty = v
  sound_blank := trivial
  sound_add _ _ _ := trivial
  getResponses_fst _ _ := rfl
  oneLast v := ⟨[], body v, rfl⟩
  content_join d f c := by
    by_cases h : c = d.clientId
    · subst h
      simp [memoryJoin, Dict.getD_set]
    · simp [memoryJoin, Dict.getD_set, h]
  content_getResponses x f c h := by simp [memoryJoin, Dict.getD_erase, h]
  content_discard x f c h := by simp [memoryJoin, Dict.getD_erase, h]
  content_snapshot _ _ := rfl
  content_clear _ _ c := Dict.getD_empty c empty
  covers_saved _ _ _ := rfl
  covers_snapshot _ _ _ _ h := h
  covers_join _ _ _ _ _ h := h
  covers_getResponses _ _ _ _ _ h := h
  covers_discard _ _ _ _ _ _ h := h
  covers_fresh _ _ _ _ _ h _ := h
  covers_restore _ _ _ _ _ h := ⟨h, h⟩

end JoinRouteHandler

/-! ## In a spill -/

namespace PersistentSpill

variable {snapshot : Dict UUID ℕ} {spill : PersistentSpill} {c x : UUID} {k : Bool × Bytes}

/-- Whether a handle is open for the client, and its text. -/
def held (spill : PersistentSpill) (c : UUID) : Bool × Bytes :=
  (holding spill c).getD (false, [])

/-- A file is open for the client, a crash leaves something of it on disk, and the snapshot
has no length of it. -/
def Unsaved (drained : UUID → ℕ → ℕ) (snapshot : Dict UUID ℕ) (spill : PersistentSpill)
    (c : UUID) : Prop :=
  snapshot.get? c = none ∧ (held spill c).1 = true ∧
    SpillFiles.content (restarted drained spill) c ≠ []

/-- What the snapshot leads back to for the client: the first bytes of its file, or no
text if the snapshot does not know the file.  Such a file is open or has no text. -/
def Covers (snapshot : Dict UUID ℕ) (spill : PersistentSpill) (c : UUID)
    (k : Bool × Bytes) : Prop :=
  match snapshot.get? c with
  | some length => length ≤ (SpillFiles.disk spill c).length ∧
      (true, (SpillFiles.disk spill c).take length) = k
  | none => (false, []) = k ∧ ((held spill c).1 = true ∨ (held spill c).2 = [])

theorem content_eq_held (spill : PersistentSpill) (c : UUID) :
    SpillFiles.content spill c = (held spill c).2 := by
  rw [content_eq_holding, held]
  cases holding spill c <;> rfl

theorem held_append (line : Bytes) :
    held (append x line spill) c =
      if c = x then (true, (held spill c).2 ++ line) else held spill c := by
  by_cases hc : c = x
  · subst hc
    rw [if_pos rfl, ← content_eq_held, content_eq_holding, held, holding_append]
    rfl
  · rw [if_neg hc, held, holding_append_of_ne line hc, held]

theorem held_eq {spill' : PersistentSpill} (h : holding spill' c = holding spill c) :
    held spill' c = held spill c := by
  rw [held, h, held]

/-- An operation keeps what a snapshot covers if it only adds to the bytes of the file,
and leaves a file without text alone unless it opens it. -/
theorem Covers.of_grows {spill' : PersistentSpill} (h : Covers snapshot spill c k)
    (hgrows : SpillFiles.Grows c spill spill')
    (hheld : (held spill c).1 = true ∨ (held spill c).2 = [] → snapshot.get? c = none →
      (held spill' c).1 = true ∨ (held spill' c).2 = []) :
    Covers snapshot spill' c k := by
  unfold Covers at h ⊢
  cases hlength : snapshot.get? c with
  | some length =>
      rw [hlength] at h
      obtain ⟨hle, htake⟩ := h
      obtain ⟨more, hmore⟩ := hgrows.bytes
      refine ⟨hle.trans hgrows.bytes.length_le, ?_⟩
      rw [← hmore, List.take_append_of_le_length hle, htake]
  | none =>
      rw [hlength] at h
      exact ⟨h.1, hheld h.2 hlength⟩

theorem Covers.of_holding {spill' : PersistentSpill} (h : Covers snapshot spill c k)
    (hgrows : SpillFiles.Grows c spill spill') (heq : holding spill' c = holding spill c) :
    Covers snapshot spill' c k := by
  apply h.of_grows hgrows
  rw [held_eq heq]
  exact fun hheld _ => hheld

theorem Covers.append (h : Covers snapshot spill c k) (line : Bytes) :
    Covers snapshot (append x line spill) c k := by
  have hgrows : SpillFiles.Grows c spill (PersistentSpill.append x line spill) :=
    SpillFiles.grows_append line
  apply h.of_grows hgrows
  intro hheld _
  rw [held_append]
  split
  · exact Or.inl rfl
  · exact hheld

theorem Covers.iterLines (h : Covers snapshot spill c k) :
    Covers snapshot (iterLines x spill).2 c k :=
  h.of_holding (SpillFiles.grows_change fun _ => List.prefix_append _ _) holding_iterLines

theorem Covers.snapshotState (h : Covers snapshot spill c k) :
    Covers snapshot (snapshotState spill).2 c k :=
  h.of_holding SpillFiles.grows_flushAll holding_snapshotState

theorem Covers.clear (h : Covers snapshot spill c k) (hc : c ≠ x) :
    Covers snapshot (clear x spill) c k := by
  apply h.of_holding _ (holding_clear_of_ne hc)
  exact .of_get?_eq ((Dict.get?_erase _ _ _).trans (if_neg hc))

/-- A snapshot covers what it was taken of, if only open files have a text. -/
theorem covers_snapshotState (spill : PersistentSpill) (c : UUID)
    (hsound : (held spill c).1 = false → (held spill c).2 = []) :
    Covers (snapshotState spill).1 (snapshotState spill).2 c (held spill c) := by
  have hsize : (snapshotState spill).1.get? c = _ := SpillFiles.get?_sizes c spill
  have hdisk : SpillFiles.disk (snapshotState spill).2 c = (held spill c).2 :=
    (SpillFiles.disk_flushAll spill c).trans (content_eq_held spill c)
  have hheld : held (snapshotState spill).2 c = held spill c := held_eq holding_snapshotState
  unfold Covers
  cases hopen : (held spill c).1 with
  | true =>
      have hlength : (snapshotState spill).1.get? c = some (held spill c).2.length := by
        rw [hsize]
        rw [held, holding] at hopen ⊢
        cases hfile : spill.get? c with
        | none => simp [hfile] at hopen
        | some file =>
            rw [hfile] at hopen
            have hfileOpen : file.isOpen = true := hopen
            simp [Option.filter, hfileOpen]
      rw [hlength, hdisk]
      refine ⟨le_rfl, Prod.ext hopen.symm ?_⟩
      exact List.take_length
  | false =>
      have hlength : (snapshotState spill).1.get? c = none := by
        rw [hsize]
        rw [held, holding] at hopen
        cases hfile : spill.get? c with
        | none => rfl
        | some file =>
            rw [hfile] at hopen
            have hfileOpen : file.isOpen = false := hopen
            simp [Option.filter, hfileOpen]
      rw [hlength, hheld]
      exact ⟨Prod.ext hopen.symm (hsound hopen).symm, Or.inr (hsound hopen)⟩

/-- No file is open in a new process. -/
theorem held_restarted (drained : UUID → ℕ → ℕ) (spill : PersistentSpill) (c : UUID) :
    held (restarted drained spill) c =
      (false, SpillFiles.disk (restarted drained spill) c) := by
  apply Prod.ext
  · rw [held, holding]
    cases hfile : (restarted drained spill).get? c with
    | none => rfl
    | some file =>
        have hbuffer := SpillFiles.buffer_crashed (fun c => drained c 0) hfile
        simp [SpillFile.isOpen, hbuffer]
  · rw [← content_eq_held]
    exact SpillFiles.content_crashed _ _ _

/-- A file without text has nothing to leave behind. -/
theorem content_restarted (drained : UUID → ℕ → ℕ) (h : SpillFiles.content spill c = []) :
    SpillFiles.content (restarted drained spill) c = [] := by
  rw [SpillFiles.content] at h
  rw [SpillFiles.content, restarted, SpillFiles.get?_crashed]
  cases hfile : spill.get? c with
  | none => rfl
  | some file =>
      rw [hfile] at h
      have hcontent : file.bytes ++ file.buffer.getD [] = [] := h
      obtain ⟨hbytes, hbuffer⟩ := List.append_eq_nil_iff.mp hcontent
      simp [SpillFile.content, SpillFile.crashed, hbytes, hbuffer]

theorem Covers.restarted {drained : UUID → ℕ → ℕ} (h : Covers snapshot spill c k)
    (hsaved : ¬Unsaved drained snapshot spill c) :
    Covers snapshot (restarted drained spill) c k := by
  apply h.of_grows (SpillFiles.grows_crashed _)
  intro hheld hnone
  right
  rw [← content_eq_held]
  by_contra htext
  rcases hheld with hopen | hempty
  · exact hsaved ⟨hnone, hopen, htext⟩
  · exact htext (content_restarted drained ((content_eq_held spill c).trans hempty))

/-- A file that a new process opens again has its first bytes. -/
theorem restoredFile_restarted (drained : UUID → ℕ → ℕ) (spill : PersistentSpill) (c : UUID)
    {length : ℕ} (hle : length ≤ (SpillFiles.disk (restarted drained spill) c).length) :
    restoredFile length (((restarted drained spill).get? c).map SpillFile.closed) =
      ⟨(SpillFiles.disk (restarted drained spill) c).take length, some []⟩ := by
  unfold SpillFiles.disk at hle ⊢
  cases hfile : (restarted drained spill).get? c with
  | none => simp [restoredFile, SpillFile.created]
  | some file =>
      have hbuffer := SpillFiles.buffer_crashed (fun c => drained c 0) hfile
      have hclosed : file.closed.bytes = file.bytes := by
        simp [SpillFile.closed, SpillFile.content, hbuffer]
      rw [hfile] at hle
      have hbytes : (file.closed.truncated length).bytes = file.bytes.take length := by
        rw [SpillFile.bytes_truncated (by rwa [hclosed]), hclosed]
      change (⟨(file.closed.truncated length).bytes, some []⟩ : SpillFile) = _
      rw [hbytes]
      rfl

/-- A new process that restores a snapshot finds what it covers. -/
theorem Covers.restoreState {drained : UUID → ℕ → ℕ}
    (h : Covers snapshot (PersistentSpill.restarted drained spill) c k) :
    Covers snapshot (restoreState snapshot (PersistentSpill.restarted drained spill)) c k ∧
      held (PersistentSpill.restoreState snapshot (PersistentSpill.restarted drained spill)) c =
        k := by
  have hget := get?_restoreState snapshot (PersistentSpill.restarted drained spill) c
  unfold Covers at h ⊢
  cases hlength : snapshot.get? c with
  | some length =>
      rw [hlength] at h hget
      obtain ⟨hle, htake⟩ := h
      simp only [restoredFile_restarted drained spill c hle] at hget
      rw [held, holding, SpillFiles.disk, hget]
      refine ⟨⟨?_, ?_⟩, ?_⟩
      · simpa using hle
      · simpa [List.take_take] using htake
      · simpa [SpillFile.isOpen, SpillFile.content] using htake
  | none =>
      rw [hlength] at h hget
      have hempty := h.2
      rw [held_restarted] at hempty
      have hdisk := hempty.resolve_left fun hopen => by cases hopen
      have hheld : held (PersistentSpill.restoreState snapshot
          (PersistentSpill.restarted drained spill)) c = (false, []) := by
        apply Prod.ext
        · rw [held, holding, hget]
          cases (PersistentSpill.restarted drained spill).get? c <;> rfl
        · rw [← content_eq_held, SpillFiles.content, hget, Option.map_map]
          have hleft := content_eq_held (PersistentSpill.restarted drained spill) c
          rw [held_restarted, hdisk, SpillFiles.content] at hleft
          simpa [Function.comp_def] using hleft
      rw [hheld]
      exact ⟨⟨h.1, Or.inr rfl⟩, h.1⟩

end PersistentSpill

namespace JoinRouteHandler

open PersistentSpill

/-- The lines of a message go to the file of its client, which they open. -/
def spillAll {T : Type} (line : T → String) (ts : List T) (k : Bool × Bytes) :
    Bool × Bytes :=
  ts.foldl (fun k t => (true, k.2 ++ encode (line t))) k

theorem spillAll_sound {T : Type} (line : T → String) (ts : List T) {k : Bool × Bytes}
    (h : k.1 = false → k.2 = []) :
    (spillAll line ts k).1 = false → (spillAll line ts k).2 = [] := by
  induction ts generalizing k with
  | nil => exact h
  | cons t ts ih => exact ih fun hopen => by cases hopen

theorem held_foldl_append {T : Type} (line : T → String) (x c : UUID) (ts : List T)
    (spill : PersistentSpill) :
    held (ts.foldl (fun spill t => append x (encode (line t)) spill) spill) c =
      if c = x then spillAll line ts (held spill c) else held spill c := by
  induction ts generalizing spill with
  | nil => simp [spillAll]
  | cons t ts ih =>
      rw [List.foldl_cons, ih, held_append]
      by_cases h : c = x
      · simp [h, spillAll]
      · simp [h]

theorem covers_foldl_append {T : Type} (line : T → String) (x c : UUID) (ts : List T)
    {b : Dict UUID ℕ} {spill : PersistentSpill} {k : Bool × Bytes}
    (h : Covers b spill c k) :
    Covers b (ts.foldl (fun spill t => append x (encode (line t)) spill) spill) c k := by
  induction ts generalizing spill with
  | nil => exact h
  | cons t ts ih => exact ih (h.append _)

/-- A spill is covered but for the files that the snapshot does not know. -/
def spillRecoverable {T : Type} (header : String) (line : T → String) :
    Recoverable (spillJoin header line) Unsaved (Bool × Bytes) where
  content := held
  blank := (false, [])
  add := spillAll line
  Sound k := k.1 = false → k.2 = []
  result k := spillResult header
    (chunksOf batchLines [] (Lines.lines newline (universalNewlines k.2)))
  Covers := Covers
  sound_blank _ := rfl
  sound_add ts _ h := spillAll_sound line ts h
  getResponses_fst x f := by
    change spillResult header (chunksOf batchLines [] (iterLines x f).1) = _
    rw [iterLines_fst, ← content_eq_holding, content_eq_held]
  oneLast _ := oneLast_streamResponses _ _
  content_join d f c := held_foldl_append line d.clientId c d.body f
  content_getResponses _ _ _ _ := held_eq holding_iterLines
  content_discard _ _ _ h := held_eq (holding_clear_of_ne h)
  content_snapshot _ _ := held_eq holding_snapshotState
  content_clear _ _ _ := rfl
  covers_saved := covers_snapshotState
  covers_snapshot _ _ _ _ h := h.snapshotState
  covers_join d _ _ c _ h := covers_foldl_append line d.clientId c d.body h
  covers_getResponses _ _ _ _ _ h := h.iterLines
  covers_discard _ _ _ _ _ hc h := h.clear hc
  covers_fresh _ _ _ _ _ h hsaved := h.restarted hsaved
  covers_restore _ _ _ _ _ h := h.restoreState

/-! ## The use cases -/

/-- The business functions of the five use cases, with the clients of whose files a
snapshot does not know. -/
inductive UseCase : {F S α : Type} → JoinFn F S α →
    ((UUID → ℕ → ℕ) → S → F → UUID → Prop) → Prop where
  | uc1 {A : Type} (str : A → String) : UseCase (uc1Join str) Unsaved
  | uc2 {A : Type} (str : A → String) : UseCase (uc2Join str) noUnsaved
  | uc3 {A : Type} (str : A → String) : UseCase (uc3Join str) Unsaved
  | uc4 (order : SetOrder (String × String)) : UseCase (uc4Join order) noUnsaved
  | uc5 : UseCase uc5Join noUnsaved

theorem UseCase.recoverable {F S α : Type} {fn : JoinFn F S α}
    {unsaved : (UUID → ℕ → ℕ) → S → F → UUID → Prop} (h : UseCase fn unsaved) :
    ∃ K : Type, Nonempty (Recoverable fn unsaved K) := by
  cases h with
  | uc1 str => exact ⟨_, ⟨spillRecoverable "--- UC1 ---" (uc1Line str)⟩⟩
  | uc2 str => exact ⟨_, ⟨memoryRecoverable [] _ (uc2Body str)⟩⟩
  | uc3 str => exact ⟨_, ⟨spillRecoverable "--- UC3 ---" (uc3Line str)⟩⟩
  | uc4 order => exact ⟨_, ⟨memoryRecoverable _ _ (uc4Body order)⟩⟩
  | uc5 =>
      rw [uc5Join_eq]
      exact ⟨_, ⟨memoryRecoverable 0 _ _⟩⟩

end JoinRouteHandler
