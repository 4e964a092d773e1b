import MoneyLaundering.Ring.Lives

/-!
# Checkpoints and deleted spill

A stateful node deletes the spill of a client once its result is sent.  The module says what
its function has to keep of the spill, what a checkpoint that has the client in processing
finds on disk, and that an emission keeps this.
-/

open Crash

/-! ## Functions that spill -/

/-- What operations leave of the spill of client `c` at a node.  `old` is the state that a
snapshot was taken of.  `Keeps f f'` says that what `f` has on disk of the client is still
there in `f'`, and `Settled g f` that `f` has on disk what `g` has, and nothing else.  Where a
state is `alike`, what a process makes of the client does not depend on the process. -/
structure Spilling {Q F S E α β : Type} (C : Controller Q F S E α β) (c : UUID) where
  old : S → F
  alike : F → Prop
  Keeps : F → F → Prop
  Settled : F → F → Prop
  silent : ∀ msg, C.outputs msg = []
  old_eq : ∀ f, old (C.fn.snapshotState f).1 = (C.fn.snapshotState f).2
  refl : ∀ f, Keeps f f
  trans : ∀ f f' f'', Keeps f f' → Keeps f' f'' → Keeps f f''
  process : ∀ q msg f, Keeps f (C.process q msg f)
  discard : ∀ x f e, x ≠ c → Keeps f (C.discard x f e).1
  free : ∀ x f e, x ≠ c →
    Keeps f (C.free x f e).1 ∧ ∀ g, Settled g f → Settled g (C.free x f e).1
  getResult : ∀ x f,
    Keeps f (C.getResult x f).2 ∧ ∀ g, Settled g f → Settled g (C.getResult x f).2
  snapshot : ∀ f, Keeps f (C.fn.snapshotState f).2 ∧
    ∀ g, Settled g f → Settled g (C.fn.snapshotState f).2
  fresh : ∀ k f,
    Keeps f (C.fn.fresh k f) ∧ ∀ g, Settled g f → Settled g (C.fn.fresh k f)
  settled_snapshot : ∀ f, Settled (C.fn.snapshotState f).2 (C.fn.snapshotState f).2
  restore : ∀ f f', Keeps (C.fn.snapshotState f).2 f' →
    Keeps (C.fn.snapshotState f).2 (C.fn.restoreState (C.fn.snapshotState f).1 f')
  settled_restore : ∀ f f', Settled (C.fn.snapshotState f).2 f' →
    Settled (C.fn.snapshotState f).2 (C.fn.restoreState (C.fn.snapshotState f).1 f')
  result : ∀ f f', alike (C.fn.snapshotState f).2 → Settled (C.fn.snapshotState f).2 f' →
    (C.getResult c (C.fn.restoreState (C.fn.snapshotState f).1 f')).1 =
      (C.getResult c (C.fn.snapshotState f).2).1

namespace RingNode

variable {Q F S E α β : Type} {C : Controller Q F S E α β} {c x : UUID}

/-- `start` emitted the client again and freed it, and the checkpoint does not know yet. -/
def FreedEarly (c : UUID) (m : Node Q F S E β) : Prop :=
  (m.storedRc.client c).ready = true ∧ .freed c ∈ Event.lastLife m.log

instance [DecidableEq β] (c : UUID) :
    DecidablePred (FreedEarly (Q := Q) (F := F) (S := S) (E := E) (β := β) c) := fun m =>
  inferInstanceAs (Decidable ((m.storedRc.client c).ready = true ∧
    .freed c ∈ Event.lastLife m.log))

/-- What a checkpoint that has the client complete fixes as its emission; `g` is the state
that it was taken of. -/
def plannedOf (C : Controller Q F S E α β) (c : UUID) (g : F)
    (b : Blob (NodeSnapshot S E)) : List (Event β) :=
  C.stampAll c b.state.outSeq (C.getResult c g).1

section Invariant

variable (L : Spilling C c)

/-- What the checkpoint has of a client in processing is on disk; if the client is complete,
nothing else is. -/
structure OnDisk (m : Node Q F S E β) : Prop where
  kept : ∀ b, m.store = some b → (b.state.rc.client c).phase = .processing →
    L.Keeps (L.old b.state.state) m.state.fn
  settled : ∀ b, m.store = some b → (b.state.rc.client c).ready = true →
    L.Settled (L.old b.state.state) m.state.fn

/-- What holds wherever a handler may be cut: the checkpoint is one of a state and has one
complete client at most, and what the process sent of the client is of the emission that it
fixes. -/
structure SpillSafe (m : Node Q F S E β) : Prop where
  onDisk : ¬FreedEarly c m → OnDisk L m
  taken : ∀ b, m.store = some b → ∃ f, b.state.state = (C.fn.snapshotState f).1
  one : ∀ b, m.store = some b → ∀ x y, (b.state.rc.client x).ready = true →
    (b.state.rc.client y).ready = true → x = y
  sent : ∀ b, m.store = some b → (b.state.rc.client c).ready = true →
    L.alike (L.old b.state.state) →
      Event.sentOf c m.log <+: plannedOf C c (L.old b.state.state) b ∧
        ∀ counts, .reported c counts ∈ Event.lastLife m.log →
          Event.sentOf c m.log = plannedOf C c (L.old b.state.state) b

/-- What holds besides in memory, when the clients `emits` are complete there. -/
structure Poised (emits : List UUID) (m : Node Q F S E β) : Prop where
  safe : SpillSafe L m
  ready : ∀ x, x ∈ emits ↔ (m.rc.client x).ready = true
  one : ∀ x ∈ emits, ∀ y ∈ emits, x = y
  untouched : (m.rc.client c).phase = .processing → Event.Untouched c m.log

/-- The clients `emits` are about to be emitted: if the client is complete in the checkpoint,
it is one of them, and memory is what the checkpoint fixes. -/
structure Due (emits : List UUID) (m : Node Q F S E β) : Prop extends Poised L emits m where
  primed : ∀ b, m.store = some b → (b.state.rc.client c).ready = true →
    c ∈ emits ∧ m.state.seqs = b.state.outSeq ∧ (L.alike (L.old b.state.state) →
      (C.getResult c m.state.fn).1 = (C.getResult c (L.old b.state.state)).1)

end Invariant

variable {L : Spilling C c} {emits : List UUID} {m m' : Node Q F S E β}

theorem storedRc_eq {b : Blob (NodeSnapshot S E)} (h : m.store = some b) :
    m.storedRc = b.state.rc := by
  simp only [Node.storedRc, h]

theorem not_freedEarly (h : .freed c ∉ Event.lastLife m.log) : ¬FreedEarly c m :=
  fun hfreed => h hfreed.2

/-! ## What does not matter -/

/-- A change of the business state that leaves the spill of the client, and other entries. -/
theorem SpillSafe.step (h : SpillSafe L m) (es : List (Event β)) (hstore : m'.store = m.store)
    (hkeeps : L.Keeps m.state.fn m'.state.fn)
    (hsettled : (m.storedRc.client c).ready = true →
      ∀ g, L.Settled g m.state.fn → L.Settled g m'.state.fn)
    (hlog : m'.log = es ++ m.log) (hes : ∀ e ∈ es, e.Aside c) : SpillSafe L m' := by
  have hrc : m'.storedRc = m.storedRc := by
    rw [Node.storedRc, Node.storedRc, hstore]
  obtain ⟨hfreed, hreported⟩ := Event.mem_lastLife_aside m.log hes
  constructor
  · intro hnot
    have hdisk := h.onDisk fun hold => hnot ⟨by rw [hrc]; exact hold.1, by
      rw [hlog, hfreed]
      exact hold.2⟩
    constructor
    · intro b hb hphase
      rw [hstore] at hb
      exact L.trans _ _ _ (hdisk.kept b hb hphase) hkeeps
    · intro b hb hready
      rw [hstore] at hb
      refine hsettled ?_ _ (hdisk.settled b hb hready)
      rw [storedRc_eq hb]
      exact hready
  · rw [hstore]
    exact h.taken
  · rw [hstore]
    exact h.one
  · intro b hb hready halike
    rw [hstore] at hb
    rw [hlog, Event.sentOf_aside hes]
    obtain ⟨hpart, hall⟩ := h.sent b hb hready halike
    refine ⟨hpart, fun counts hmem => ?_⟩
    rw [hreported] at hmem
    exact hall counts hmem

/-- A change of the business state only. -/
theorem SpillSafe.move (h : SpillSafe L m) (s : NodeState F E) (hkeeps : L.Keeps m.state.fn s.fn)
    (hsettled : (m.storedRc.client c).ready = true →
      ∀ g, L.Settled g m.state.fn → L.Settled g s.fn) : SpillSafe L { m with state := s } :=
  h.step [] rfl hkeeps hsettled rfl fun _ he => absurd he List.not_mem_nil

/-- Other entries of the history. -/
theorem SpillSafe.append (h : SpillSafe L m) (es : List (Event β)) (hes : ∀ e ∈ es, e.Aside c) :
    SpillSafe L { m with log := es ++ m.log } :=
  h.step es rfl (L.refl _) (fun _ _ hg => hg) rfl hes

/-- Only the business state, the checkpoint and the history matter. -/
theorem SpillSafe.frame (h : SpillSafe L m) (hfn : m'.state.fn = m.state.fn)
    (hstore : m'.store = m.store) (hlog : m'.log = m.log) : SpillSafe L m' := by
  refine h.step [] hstore ?_ ?_ hlog fun _ he => absurd he List.not_mem_nil
  · rw [hfn]
    exact L.refl _
  · rw [hfn]
    exact fun _ _ hg => hg

theorem Poised.change (h : Poised L emits m) (es : List (Event β)) (hsafe : SpillSafe L m')
    (hrc : m'.rc = m.rc) (hlog : m'.log = es ++ m.log) (hes : ∀ e ∈ es, e.Aside c) :
    Poised L emits m' := by
  refine ⟨hsafe, ?_, h.one, ?_⟩
  · rw [hrc]
    exact h.ready
  · rw [hrc, hlog]
    exact fun hphase => (h.untouched hphase).aside hes

theorem Poised.frame (h : Poised L emits m) (hstate : m'.state = m.state)
    (hstore : m'.store = m.store) (hlog : m'.log = m.log) : Poised L emits m' :=
  h.change [] (h.safe.frame (congrArg NodeState.fn hstate) hstore hlog)
    (congrArg NodeState.rc hstate) hlog fun _ he => absurd he List.not_mem_nil

theorem Poised.append (h : Poised L emits m) (es : List (Event β)) (hes : ∀ e ∈ es, e.Aside c) :
    Poised L emits { m with log := es ++ m.log } :=
  h.change es (h.safe.append es hes) rfl rfl hes

theorem Due.frame (h : Due L emits m) (hstate : m'.state = m.state)
    (hstore : m'.store = m.store) (hlog : m'.log = m.log) : Due L emits m' := by
  refine ⟨h.toPoised.frame hstate hstore hlog, ?_⟩
  rw [hstate, hstore]
  exact h.primed

/-- Between two calls the checkpoint has not got the client complete. -/
theorem Due.unready (h : Due L [] m) : (m.storedRc.client c).ready = false := by
  cases hstore : m.store with
  | none => simp [Node.storedRc, hstore]
  | some b =>
      rw [storedRc_eq hstore]
      by_contra hready
      exact List.not_mem_nil (h.primed b hstore (by simpa using hready)).1

/-- It stays so as long as the checkpoint does. -/
theorem Poised.due (h : Poised L emits m) (hunready : (m.storedRc.client c).ready = false) :
    Due L emits m := by
  refine ⟨h, fun b hb hready => ?_⟩
  rw [storedRc_eq hb, hready] at hunready
  cases hunready

/-- A change of the business state between two calls. -/
theorem Due.move (h : Due L [] m) (s : NodeState F E) (hrc : s.rc = m.rc)
    (hkeeps : L.Keeps m.state.fn s.fn) : Due L [] { m with state := s } := by
  have hunready := h.unready
  refine Poised.due (h.toPoised.change [] (h.safe.move s hkeeps fun hready => ?_) hrc rfl
    fun _ he => absurd he List.not_mem_nil) hunready
  rw [hunready] at hready
  cases hready

/-! ## Emissions -/

/-- The entries of an emission of another client. -/
theorem aside_emission (hne : x ≠ c) {sent : List (Output β)} {e : Event β}
    (he : e ∈ (C.stampAll x m.state.seqs sent).reverse ++ [.emitting x]) : e.Aside c := by
  rcases List.mem_append.mp he with he | he
  · exact Event.aside_of_mem_stampAll hne (List.mem_reverse.mp he)
  · rw [List.mem_singleton.mp he]
    exact ⟨rfl, rfl, by simp, by simp⟩

theorem restart_emission (sent : List (Output β)) :
    ∀ e ∈ (C.stampAll x m.state.seqs sent).reverse ++ [.emitting x], e.isRestart = false := by
  intro e he
  rcases List.mem_append.mp he with he | he
  · obtain ⟨s, id, pl, rfl⟩ := Controller.eq_data_of_mem_stampAll (List.mem_reverse.mp he)
    rfl
  · rw [List.mem_singleton.mp he]
    rfl

/-- The messages of an emission come after those of the client before it. -/
theorem sentOf_sending (sent : List (Output β)) :
    Event.sentOf c (sending C c sent m).log =
      Event.sentOf c m.log ++ C.stampAll c m.state.seqs sent := by
  have hlog : (sending C c sent m).log =
      ((C.stampAll c m.state.seqs sent).reverse ++ [.emitting c]) ++ m.log := by
    simp [sending]
  rw [hlog, Event.sentOf_append (restart_emission sent), List.filter_append, List.filter_reverse,
    Event.filter_stampAll]
  simp [Event.isDataOf]

/-- An emission adds no counts and deletes nothing. -/
theorem mem_lastLife_sending (sent : List (Output β)) {e : Event β}
    (hdata : ∀ s id pl, e ≠ .data s id c pl) (hemitting : e ≠ .emitting c) :
    e ∈ Event.lastLife (sending C c sent m).log ↔ e ∈ Event.lastLife m.log := by
  have hlog : (sending C c sent m).log =
      ((C.stampAll c m.state.seqs sent).reverse ++ [.emitting c]) ++ m.log := by
    simp [sending]
  rw [hlog, Event.lastLife_append (restart_emission sent), List.mem_append]
  refine or_iff_right fun he => ?_
  rcases List.mem_append.mp he with he | he
  · obtain ⟨s, id, pl, rfl⟩ :=
      Controller.eq_data_of_mem_stampAll (List.mem_reverse.mp he)
    exact hdata s id pl rfl
  · exact hemitting (List.mem_singleton.mp he)

/-- The client that is about to be emitted was not touched by this process. -/
theorem Due.untouched_self (h : Due L [c] m) : Event.Untouched c m.log :=
  h.untouched (Client.ready_iff.mp ((h.ready c).mp List.mem_cons_self)).1

/-- Wherever an emission stands, what was sent of the client is of the planned emission. -/
theorem Due.safe_sending (h : Due L [x] m) {sent rest : List (Output β)}
    (hsplit : resultOf C x m = sent ++ rest) : SpillSafe L (sending C x sent m) := by
  obtain ⟨hkeeps, hsettled⟩ := L.getResult x m.state.fn
  by_cases hx : x = c
  · subst hx
    have huntouched := h.untouched_self
    have hdisk := h.safe.onDisk (not_freedEarly huntouched.freed)
    refine ⟨fun _ => ⟨?_, ?_⟩, h.safe.taken, h.safe.one, ?_⟩
    · exact fun b hb hphase => L.trans _ _ _ (hdisk.kept b hb hphase) hkeeps
    · exact fun b hb hready => hsettled _ (hdisk.settled b hb hready)
    · intro b hb hready halike
      obtain ⟨-, hseqs, hresult⟩ := h.primed b hb hready
      have hplanned : plannedOf C x (L.old b.state.state) b =
          C.stampAll x m.state.seqs (sent ++ rest) := by
        rw [plannedOf, ← hresult halike, ← hseqs, ← hsplit, resultOf]
      constructor
      · rw [sentOf_sending, huntouched.sent, List.nil_append, hplanned,
          Controller.stampAll_append]
        exact List.prefix_append _ _
      · intro counts hmem
        rw [mem_lastLife_sending sent (by simp) (by simp)] at hmem
        exact absurd hmem (huntouched.reported counts)
  · refine h.safe.step ((C.stampAll x m.state.seqs sent).reverse ++ [.emitting x]) rfl hkeeps
      (fun _ => hsettled) ?_ fun e he => aside_emission hx he
    simp [sending]

/-- Once all of an emission is sent, its counts may be reported. -/
theorem Due.safe_reported (h : Due L [x] m) (counts : ShardCounts) :
    SpillSafe L ((sending C x (resultOf C x m) m).logged (.reported x counts)) := by
  have hsending := h.safe_sending (List.append_nil (resultOf C x m)).symm
  by_cases hx : x = c
  · subst hx
    have hlife : Event.lastLife ((sending C x (resultOf C x m) m).logged
        (.reported x counts)).log =
          .reported x counts :: Event.lastLife (sending C x (resultOf C x m) m).log := rfl
    have hsent : Event.sentOf x ((sending C x (resultOf C x m) m).logged
        (.reported x counts)).log = C.stampAll x m.state.seqs (resultOf C x m) := by
      have hsame : Event.sentOf x ((sending C x (resultOf C x m) m).logged
          (.reported x counts)).log = Event.sentOf x (sending C x (resultOf C x m) m).log :=
        rfl
      rw [hsame, sentOf_sending, h.untouched_self.sent, List.nil_append]
    refine ⟨fun hnot => ?_, hsending.taken, hsending.one, fun b hb hready halike => ?_⟩
    · have hdisk := hsending.onDisk fun hold => hnot ⟨hold.1, by
        rw [hlife]
        exact List.mem_cons_of_mem _ hold.2⟩
      exact ⟨hdisk.kept, hdisk.settled⟩
    · obtain ⟨-, hseqs, hresult⟩ := h.primed b hb hready
      have hplanned : plannedOf C x (L.old b.state.state) b =
          C.stampAll x m.state.seqs (resultOf C x m) := by
        rw [plannedOf, ← hresult halike, ← hseqs, resultOf]
      rw [hsent, hplanned]
      exact ⟨List.prefix_refl _, fun _ _ => rfl⟩
  · refine hsending.append [.reported x counts] fun e he => ?_
    rw [List.mem_singleton.mp he]
    exact ⟨rfl, rfl, by simp [hx], by simp⟩

/-- After an emission no client is complete, and what was sent of the client is all of the
planned emission. -/
theorem Due.poised_emitted (h : Due L [x] m) : Poised L [] (emitted C x m) := by
  have hready := (h.ready x).mp List.mem_cons_self
  obtain ⟨hothers, -⟩ := RingCompletion.reportSent_frame C.self m.rc x (countsOf C x m)
  have hself := RingCompletion.phase_reportSent C.self (countsOf C x m)
    (Client.ready_iff.mp hready).1
  have hclosings : ∀ e : Event β, e ∈ closings (m.rc.markEmitted x (countsOf C x m))
      (m.rc.reportSent C.self x (countsOf C x m)).2 → e.Aside c :=
    fun e he => Event.aside_of_mem_closings he
  constructor
  · exact (h.safe_reported (countsOf C x m)).step _ rfl (L.refl _) (fun _ _ hg => hg) rfl
      hclosings
  · intro y
    refine ⟨fun hy => absurd hy List.not_mem_nil, fun hy => ?_⟩
    by_cases hyx : y = x
    · subst hyx
      exact absurd (Client.ready_iff.mp hy).1 hself
    · have hold : (m.rc.client y).ready = true := by
        rw [← hothers y hyx]
        exact hy
      exact absurd (List.mem_singleton.mp ((h.ready y).mpr hold)) hyx
  · exact fun y hy => absurd hy List.not_mem_nil
  · intro hphase
    have hne : x ≠ c := by
      rintro rfl
      exact hself hphase
    have hold : (m.rc.client c).phase = .processing := by
      rw [← hothers c (Ne.symm hne)]
      exact hphase
    have hsent : Event.Untouched c ((C.stampAll x m.state.seqs (resultOf C x m)).reverse ++
        [.emitting x] ++ m.log) := (h.untouched hold).aside fun e he => aside_emission hne he
    have hreported : ∀ e ∈ [(.reported x (countsOf C x m) : Event β)], e.Aside c := by
      intro e he
      rw [List.mem_singleton.mp he]
      exact ⟨rfl, rfl, by simp [hne], by simp⟩
    have hall := (hsent.aside hreported).aside hclosings
    simpa [emitted] using hall

end RingNode
