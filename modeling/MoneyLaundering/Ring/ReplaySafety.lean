import MoneyLaundering.Ring.Deliveries

/-!
# Replay-safe emission

A stateful node sends a client's result when its input is complete.  A crash may
fall anywhere in that, and the result is sent again.  The module shows that the
second time sends what the first time sent: the checkpoint written before the
emission fixes the result and the counters it is stamped with, and nothing else
is sent until the checkpoint after it.
-/

open Crash

/-- A stateful node: it sends nothing while it processes its input, stamps its
result from its counters, reports the messages of the result, and its snapshot
describes its business state completely. -/
structure Stateful {Q F S E α β : Type} (C : Controller Q F S E α β) :
    Prop where
  silent : ∀ msg, C.outputs msg = []
  restamped : ∀ x f, Controller.Restamped (C.getResult x f).1
  counts : ∀ x outs e, (C.sentCounts x outs e).1 = countShards outs
  whole : ∀ f f', C.fn.restoreState (C.fn.snapshotState f).1 f' =
    (C.fn.snapshotState f).2

namespace RingNode

variable {Q F S E α β : Type} {C : Controller Q F S E α β} {g : F}
  {m : Node Q F S E β} {c x : UUID}

/-! ## The invariant -/

/-- What a client that the checkpoint left complete is emitted as. -/
def planned (C : Controller Q F S E α β) (g : F) (m : Node Q F S E β)
    (x : UUID) : List (Event β) :=
  C.stampAll x m.storedSeqs (C.getResult x g).1

/-- The history agrees with the checkpoint, whose business state is `g`: a
message of a client that is still owed belongs to the emission that the
checkpoint fixes, and a report of such a client comes after all of it. -/
structure Replayable (C : Controller Q F S E α β) (g : F)
    (m : Node Q F S E β) : Prop where
  restores : ∀ b, m.store = some b →
    ∀ f, C.fn.restoreState b.state.state f = g
  forgotten : ∀ x, m.storedRc.isAborted x = true → m.storedRc.client x = .new
  one : ∀ x y, (m.storedRc.client x).ready = true →
    (m.storedRc.client y).ready = true → x = y
  same : ∀ s s' id x x' pl pl', .data s id x pl ∈ m.log →
    .data s' id x' pl' ∈ m.log → s = s' ∧ pl = pl'
  published : ∀ s id x pl, .data s id x pl ∈ m.log →
    (id.2 ≤ m.storedSeqs id.1 ∧ ¬m.storedRc.Owed x) ∨
      ((m.storedRc.client x).ready = true ∧
        .data s id x pl ∈ planned C g m x)
  reported : ∀ x sent, .reported x sent ∈ m.log →
    (∀ s, sent.getD s 0 = (Event.distinctOn x s m.log).card) ∧
      (m.storedRc.Owed x → (m.storedRc.client x).ready = true ∧
        ∀ e ∈ planned C g m x, e ∈ m.log)

/-- A checkpoint of the memory agrees with the history, and leaves exactly the
clients of `emits` complete. -/
structure Saveable (emits : List UUID) (m : Node Q F S E β) : Prop where
  forgotten : ∀ x, m.rc.isAborted x = true → m.rc.client x = .new
  published : ∀ s id x pl, .data s id x pl ∈ m.log →
    id.2 ≤ m.state.seqs id.1 ∧ ¬m.rc.Owed x
  reported : ∀ x sent, .reported x sent ∈ m.log → ¬m.rc.Owed x
  ready : ∀ x, x ∈ emits ↔ (m.rc.client x).ready = true

theorem Replayable.owed_of_ready (h : Replayable C g m)
    (hready : (m.storedRc.client x).ready = true) : m.storedRc.Owed x := by
  refine ⟨(Client.ready_iff.mp hready).1, ?_⟩
  by_contra hab
  rw [h.forgotten x (by simpa using hab)] at hready
  simp at hready

/-- Only the checkpoint and the history matter. -/
theorem Replayable.frame {m' : Node Q F S E β} (h : Replayable C g m)
    (hstore : m'.store = m.store) (hlog : m'.log = m.log) :
    Replayable C g m' := by
  cases m
  cases m'
  subst hstore hlog
  exact ⟨h.restores, h.forgotten, h.one, h.same, h.published, h.reported⟩

/-- Other entries do not matter. -/
theorem Replayable.append (h : Replayable C g m) (es : List (Event β))
    (hplain : ∀ e ∈ es, e.Plain) (s : NodeState F E) :
    Replayable C g { m with state := s, log := es ++ m.log } := by
  have hdata : ∀ {s id x pl}, (.data s id x pl : Event β) ∈ es ++ m.log →
      .data s id x pl ∈ m.log := fun hmem =>
    (List.mem_append.mp hmem).resolve_left fun hes =>
      (hplain _ hes).1 _ _ _ _ rfl
  refine ⟨h.restores, h.forgotten, h.one, ?_, ?_, ?_⟩
  · intro s s' id x x' pl pl' he he'
    exact h.same s s' id x x' pl pl' (hdata he) (hdata he')
  · intro s id x pl he
    exact h.published s id x pl (hdata he)
  · intro x sent he
    have hold := (List.mem_append.mp he).resolve_left fun hes =>
      (hplain _ hes).2 _ _ rfl
    obtain ⟨hcounts, hall⟩ := h.reported x sent hold
    refine ⟨fun s => ?_, fun howed => ?_⟩
    · rw [hcounts, Event.distinctOn_append_plain hplain]
    · obtain ⟨hready, hmem⟩ := hall howed
      exact ⟨hready, fun e he => List.mem_append_right _ (hmem e he)⟩

theorem Saveable.append {emits : List UUID} (h : Saveable emits m)
    (es : List (Event β)) (hplain : ∀ e ∈ es, e.Plain) :
    Saveable emits { m with log := es ++ m.log } := by
  refine ⟨h.forgotten, fun s id x pl he => ?_, fun x sent he => ?_, h.ready⟩
  · exact h.published s id x pl ((List.mem_append.mp he).resolve_left
      fun hes => (hplain _ hes).1 _ _ _ _ rfl)
  · exact h.reported x sent ((List.mem_append.mp he).resolve_left
      fun hes => (hplain _ hes).2 _ _ rfl)

/-- A change of the memory that keeps the counters and opens no client. -/
theorem Saveable.change {emits emits' : List UUID} (h : Saveable emits m)
    (s : NodeState F E) (hseqs : s.seqs = m.state.seqs)
    (howed : ∀ y, s.rc.Owed y → m.rc.Owed y)
    (hforgotten : ∀ y, s.rc.isAborted y = true → s.rc.client y = .new)
    (hready : ∀ y, y ∈ emits' ↔ (s.rc.client y).ready = true) :
    Saveable emits' { m with state := s } := by
  refine ⟨hforgotten, fun s' id y pl he => ?_, fun y sent he ho => ?_, hready⟩
  · obtain ⟨hle, hnot⟩ := h.published s' id y pl he
    exact ⟨hseqs ▸ hle, fun ho => hnot (howed y ho)⟩
  · exact h.reported y sent he (howed y ho)

/-- The checkpoint of such a memory agrees with the history. -/
theorem Saveable.checkpointed {emits : List UUID} (hC : Stateful C)
    (h : Saveable emits m) (hr : Replayable C g m)
    (hone : ∀ x ∈ emits, ∀ y ∈ emits, x = y) :
    Replayable C (C.fn.snapshotState m.state.fn).2
      (m.checkpointed C.provider) := by
  refine ⟨?_, h.forgotten, fun x y hx hy => ?_, hr.same, ?_, ?_⟩
  · intro b hb f
    obtain rfl := Option.some.inj hb
    exact hC.whole m.state.fn f
  · exact hone x ((h.ready x).mpr hx) y ((h.ready y).mpr hy)
  · exact fun s id x pl he => Or.inl (h.published s id x pl he)
  · intro x sent he
    exact ⟨(hr.reported x sent he).1, fun ho => absurd ho (h.reported x sent he)⟩

/-! ## One emission -/

/-- The memory is what the checkpoint describes, and `emits` are the clients it
leaves complete. -/
structure Primed (C : Controller Q F S E α β) (g : F) (emits : List UUID)
    (m : Node Q F S E β) : Prop where
  replayable : Replayable C g m
  fn : m.state.fn = g
  seqs : m.state.seqs = m.storedSeqs
  rc : m.rc = m.storedRc
  ready : ∀ x, x ∈ emits ↔ (m.rc.client x).ready = true

theorem Primed.stampAll_resultOf (h : Primed C g [c] m) :
    C.stampAll c m.state.seqs (resultOf C c m) = planned C g m c := by
  rw [resultOf, h.fn, h.seqs]
  rfl

theorem Primed.ready_self (h : Primed C g [c] m) :
    (m.storedRc.client c).ready = true := by
  have := (h.ready c).mp (by simp)
  rwa [h.rc] at this

/-- While a planned emission is sent, every entry is one of the planned ones. -/
theorem Replayable.send (hC : Stateful C) (h : Replayable C g m)
    (hready : (m.storedRc.client c).ready = true) {es : List (Event β)}
    (hes : ∀ e ∈ es, e ∈ planned C g m c) (s : NodeState F E) :
    Replayable C g { m with state := s, log := es ++ m.log } := by
  have hnone := hC.restamped c g
  have hplan : ∀ {s id x pl}, (.data s id x pl : Event β) ∈ m.log →
      x = c → .data s id x pl ∈ planned C g m c := by
    rintro s id x pl he rfl
    rcases h.published s id x pl he with ⟨-, hnot⟩ | ⟨-, hmem⟩
    · exact absurd (h.owed_of_ready hready) hnot
    · exact hmem
  -- an older entry with the stamp of a planned one is that entry
  have hclash : ∀ {s s' id x x' pl pl'}, (.data s id x pl : Event β) ∈ es →
      .data s' id x' pl' ∈ m.log → s = s' ∧ pl = pl' := by
    intro s s' id x x' pl pl' he he'
    have hmem := hes _ he
    rcases h.published s' id x' pl' he' with ⟨hle, -⟩ | ⟨hready', hmem'⟩
    · have hlt := (Controller.bounds_of_mem_stampAll hnone hmem).2.1
      omega
    · obtain rfl := h.one x' c hready' hready
      obtain ⟨hs, -, hpl⟩ := Controller.eq_of_stamp_eq
        (Controller.nodup_stampAll hnone) hmem hmem'
      exact ⟨hs, hpl⟩
  refine ⟨h.restores, h.forgotten, h.one, ?_, ?_, ?_⟩
  · intro s s' id x x' pl pl' he he'
    rcases List.mem_append.mp he with he | he <;>
      rcases List.mem_append.mp he' with he' | he'
    · obtain ⟨hs, -, hpl⟩ := Controller.eq_of_stamp_eq
        (Controller.nodup_stampAll hnone) (hes _ he) (hes _ he')
      exact ⟨hs, hpl⟩
    · exact hclash he he'
    · obtain ⟨hs, hpl⟩ := hclash he' he
      exact ⟨hs.symm, hpl.symm⟩
    · exact h.same s s' id x x' pl pl' he he'
  · intro s id x pl he
    rcases List.mem_append.mp he with he | he
    · obtain ⟨rfl, -, -⟩ :=
        Controller.bounds_of_mem_stampAll hnone (hes _ he)
      exact Or.inr ⟨hready, hes _ he⟩
    · exact h.published s id x pl he
  · intro x sent he
    have hold : .reported x sent ∈ m.log := by
      refine (List.mem_append.mp he).resolve_left fun hmem => ?_
      obtain ⟨s, id, pl, heq⟩ := Controller.eq_data_of_mem_stampAll (hes _ hmem)
      cases heq
    obtain ⟨hcounts, hall⟩ := h.reported x sent hold
    refine ⟨fun s => ?_, fun howed => ?_⟩
    · rw [hcounts]
      congr 1
      ext id
      rw [Event.mem_distinctOn, Event.mem_distinctOn]
      constructor
      · rintro ⟨pl, hmem⟩
        exact ⟨pl, List.mem_append_right _ hmem⟩
      · rintro ⟨pl, hmem⟩
        refine ⟨pl, (List.mem_append.mp hmem).elim (fun hmem => ?_)
          fun hmem => hmem⟩
        obtain ⟨rfl, -, -⟩ :=
          Controller.bounds_of_mem_stampAll hnone (hes _ hmem)
        exact (hall (h.owed_of_ready hready)).2 _ (hes _ hmem)
    · obtain ⟨hready', hmem⟩ := hall howed
      exact ⟨hready', fun e he => List.mem_append_right _ (hmem e he)⟩

/-- Once a planned emission is sent, the report counts its messages. -/
theorem Replayable.report (hC : Stateful C) (h : Replayable C g m)
    (hready : (m.storedRc.client c).ready = true)
    (hall : ∀ e ∈ planned C g m c, e ∈ m.log) (s : NodeState F E) :
    Replayable C g { m with
      state := s
      log := .reported c (countShards (C.getResult c g).1) :: m.log } := by
  have hdata : ∀ {s id x pl}, (.data s id x pl : Event β) ∈
      .reported c (countShards (C.getResult c g).1) :: m.log →
        .data s id x pl ∈ m.log := fun hmem =>
    (List.mem_cons.mp hmem).resolve_left (by simp)
  have hcount : ∀ x s, Event.distinctOn x s
      (.reported c (countShards (C.getResult c g).1) :: m.log) =
        Event.distinctOn x s m.log := fun x s =>
    Event.distinctOn_cons fun id pl heq => by cases heq
  refine ⟨h.restores, h.forgotten, h.one, ?_, ?_, ?_⟩
  · intro s s' id x x' pl pl' he he'
    exact h.same s s' id x x' pl pl' (hdata he) (hdata he')
  · exact fun s id x pl he => h.published s id x pl (hdata he)
  · intro x sent he
    rcases List.mem_cons.mp he with heq | he
    · cases heq
      refine ⟨fun s => ?_, fun _ => ⟨hready, fun e he =>
        List.mem_cons_of_mem _ (hall e he)⟩⟩
      rw [hcount, ← card_distinctOn_stampAll (C := C) (x := c) m.storedSeqs
        (hC.restamped c g)]
      congr 1
      ext id
      rw [Event.mem_distinctOn, Event.mem_distinctOn]
      constructor
      · rintro ⟨pl, hmem⟩
        exact ⟨pl, hall _ hmem⟩
      · rintro ⟨pl, hmem⟩
        refine ⟨pl, ?_⟩
        rcases h.published s id c pl hmem with ⟨-, hnot⟩ | ⟨-, hplan⟩
        · exact absurd (h.owed_of_ready hready) hnot
        · exact hplan
    · obtain ⟨hcounts, hsent⟩ := h.reported x sent he
      refine ⟨fun s => (hcounts s).trans (by rw [hcount]), fun howed => ?_⟩
      obtain ⟨hready', hmem⟩ := hsent howed
      exact ⟨hready', fun e he => List.mem_cons_of_mem _ (hmem e he)⟩

/-- Wherever an emission stands, the history agrees with the checkpoint. -/
theorem Primed.replayable_sending (hC : Stateful C) (h : Primed C g [c] m)
    {sent rest : List (Output β)} (hsplit : resultOf C c m = sent ++ rest) :
    Replayable C g (sending C c sent m) := by
  have hbegun := h.replayable.append [.emitting c]
    (by simp [Event.Plain]) m.state
  have hmem : ∀ e ∈ (C.stampAll c m.state.seqs sent).reverse,
      e ∈ planned C g m c := by
    intro e he
    rw [← h.stampAll_resultOf, hsplit, Controller.stampAll_append]
    exact List.mem_append_left _ (List.mem_reverse.mp he)
  exact hbegun.send hC h.ready_self hmem _

/-- After an emission and its report the history agrees with the checkpoint, and
the memory is ready for the next one. -/
theorem Primed.saveable_emitted (hC : Stateful C) (h : Primed C g [c] m) :
    Replayable C g (emitted C c m) ∧ Saveable [] (emitted C c m) := by
  have hnone := hC.restamped c m.state.fn
  have hcounts : countsOf C c m = countShards (C.getResult c g).1 := by
    rw [countsOf, hC.counts, resultOf, h.fn]
  have hrest : resultOf C c m = resultOf C c m ++ [] := by simp
  have hreported := (h.replayable_sending hC hrest).report hC (c := c) h.ready_self
    (fun e he => by
      have hmem : e ∈ planned C g m c := he
      rw [← h.stampAll_resultOf] at hmem
      exact List.mem_append_left _ (List.mem_reverse.mpr hmem))
    (emitted C c m).state
  rw [← hcounts] at hreported
  have hclosed := hreported.append (closings
    (m.rc.markEmitted c (countsOf C c m))
    (m.rc.reportSent C.self c (countsOf C c m)).2)
    (fun e he => Event.plain_of_mem_closings he) (emitted C c m).state
  have hafter : Replayable C g (emitted C c m) := hclosed
  have hphase : (m.rc.client c).phase = .processing := by
    rw [h.rc]
    exact (Client.ready_iff.mp h.ready_self).1
  obtain ⟨hothers, haborted⟩ := RingCompletion.reportSent_frame C.self m.rc c
    (countsOf C c m)
  have hself := RingCompletion.phase_reportSent C.self
    (countsOf C c m) hphase
  have howed : ∀ y, (emitted C c m).rc.Owed y →
      y ≠ c ∧ m.storedRc.Owed y := by
    rintro y ⟨hy, hab⟩
    have hne : y ≠ c := by
      rintro rfl
      exact hself hy
    refine ⟨hne, ?_, ?_⟩
    · rw [← h.rc, ← hothers y hne]
      exact hy
    · rw [← h.rc, ← haborted y]
      exact hab
  have hseqs : ∀ p, m.storedSeqs p ≤ (emitted C c m).state.seqs p := by
    intro p
    rw [← h.seqs]
    exact Controller.le_seqsAfter _ _ p
  refine ⟨hafter, ?_, ?_, ?_, fun y => ?_⟩
  · intro y hab
    have hab' : m.rc.isAborted y = true := by
      rw [← haborted y]
      exact hab
    have hne : y ≠ c := by
      rintro rfl
      rw [h.rc] at hab'
      have := h.replayable.owed_of_ready h.ready_self
      simp [this.2] at hab'
    exact (hothers y hne).trans (by
      rw [h.rc] at hab' ⊢
      exact h.replayable.forgotten y hab')
  · intro s id y pl he
    rcases hafter.published s id y pl he with ⟨hle, hnot⟩ | ⟨hready, hplan⟩
    · exact ⟨hle.trans (hseqs id.1), fun ho => hnot (howed y ho).2⟩
    · obtain rfl := h.replayable.one y c hready h.ready_self
      have hmem : .data s id y pl ∈ planned C g m y := hplan
      rw [← h.stampAll_resultOf] at hmem
      exact ⟨(Controller.bounds_of_mem_stampAll hnone hmem).2.2,
        fun ho => (howed y ho).1 rfl⟩
  · intro y sent he ho
    obtain ⟨hne, ho'⟩ := howed y ho
    have hready := ((hafter.reported y sent he).2 ho').1
    exact hne (h.replayable.one y c hready h.ready_self)
  · constructor
    · simp
    · intro hready
      have hne : y ≠ c := by
        rintro rfl
        exact hself (Client.ready_iff.mp hready).1
      have hready' : (m.rc.client y).ready = true := by
        rw [← hothers y hne]
        exact hready
      have hmem := (h.ready y).mpr hready'
      exact absurd (List.mem_singleton.mp hmem) hne

/-- With nothing left to emit, the memory is ready for the next emission. -/
theorem Primed.saveable (h : Primed C g [] m) : Saveable [] m := by
  refine ⟨fun y hab => ?_, fun s id y pl he => ?_, fun y sent he ho => ?_,
    h.ready⟩
  · rw [h.rc] at hab ⊢
    exact h.replayable.forgotten y hab
  · rcases h.replayable.published s id y pl he with ⟨hle, hnot⟩ | ⟨hready, -⟩
    · rw [h.seqs, h.rc]
      exact ⟨hle, hnot⟩
    · rw [← h.rc] at hready
      simpa using (h.ready y).mpr hready
  · rw [h.rc] at ho
    have hready := ((h.replayable.reported y sent he).2 ho).1
    rw [← h.rc] at hready
    simpa using (h.ready y).mpr hready

/-! ## Handlers -/

/-- What every crash leaves. -/
def Recoverable (C : Controller Q F S E α β) (m : Node Q F S E β) : Prop :=
  ∃ g, Replayable C g m

/-- What holds between two calls. -/
def Steady (C : Controller Q F S E α β) (m : Node Q F S E β) : Prop :=
  Recoverable C m ∧ Saveable [] m

theorem Steady.append (h : Steady C m) (es : List (Event β))
    (hplain : ∀ e ∈ es, e.Plain) :
    Steady C { m with log := es ++ m.log } := by
  obtain ⟨⟨g, hg⟩, hs⟩ := h
  exact ⟨⟨g, hg.append es hplain m.state⟩, hs.append es hplain⟩

theorem Steady.frame {m' : Node Q F S E β} (h : Steady C m)
    (hstate : m'.state = m.state) (hstore : m'.store = m.store)
    (hlog : m'.log = m.log) : Steady C m' := by
  obtain ⟨⟨g, hg⟩, hs⟩ := h
  cases m
  cases m'
  subst hstate hstore hlog
  exact ⟨⟨g, hg.frame rfl rfl⟩, hs.forgotten, hs.published, hs.reported,
    hs.ready⟩

/-- A change of the memory that keeps the counters and opens no client. -/
theorem Steady.change (h : Steady C m) (s : NodeState F E)
    (hseqs : s.seqs = m.state.seqs) (howed : ∀ y, s.rc.Owed y → m.rc.Owed y)
    (hforgotten : ∀ y, s.rc.isAborted y = true → s.rc.client y = .new)
    (hready : ∀ y, (s.rc.client y).ready = false) :
    Steady C { m with state := s } := by
  obtain ⟨⟨g, hg⟩, hs⟩ := h
  exact ⟨⟨g, hg.frame rfl rfl⟩,
    hs.change s hseqs howed hforgotten (by simp [hready])⟩

theorem Steady.quiet (h : Steady C m) (y : UUID) :
    (m.rc.client y).ready = false := by
  by_contra hready
  simpa using (h.2.ready y).mpr (by simpa using hready)

/-- A change of the business state and the extra provider. -/
theorem Steady.change_fn (h : Steady C m) (f : F) (e : E) :
    Steady C { m with state := { m.state with fn := f, extra := e } } :=
  h.change _ rfl (fun _ ho => ho) h.2.forgotten h.quiet

variable [DecidableEq Q]

/-- A forced flush writes a checkpoint that fixes what is emitted next. -/
theorem spec_flush_primed (hC : Stateful C) {emits : List UUID}
    (hone : ∀ x ∈ emits, ∀ y ∈ emits, x = y) :
    Spec (fun m => Recoverable C m ∧ Saveable emits m)
      (Checkpointer.flush C.provider true : NodeProg Q F S E β Unit)
      (fun _ m => ∃ g, Primed C g emits m) (Recoverable C) := by
  refine Checkpointer.spec_checkpointAndFlush
    (R := fun m => ∃ g, Primed C g emits m) ?_ (by simp) ?_ ?_
  · rintro m ⟨⟨g, hg⟩, hs⟩ -
    refine ⟨⟨g, hg⟩, ⟨g, hg.frame rfl rfl⟩,
      _, hs.checkpointed hC hg hone, rfl, rfl, rfl, hs.ready⟩
  · rintro m tags rest ⟨g, hg⟩ -
    exact ⟨g, hg.replayable.frame rfl rfl⟩
  · rintro m ⟨g, hg⟩
    exact ⟨g, hg.replayable.frame rfl rfl, hg.fn, hg.seqs, hg.rc, hg.ready⟩

omit [DecidableEq Q] in
theorem Primed.steady (h : Primed C g [] m) : Steady C m :=
  ⟨⟨g, h.replayable⟩, h.saveable⟩

theorem spec_flush_steady (hC : Stateful C) (force : Bool) :
    Spec (Steady C)
      (Checkpointer.flush C.provider force : NodeProg Q F S E β Unit)
      (fun _ => Steady C) (Recoverable C) := by
  refine Checkpointer.spec_checkpointAndFlush (R := Steady C) ?_
    (fun m hm _ _ => hm) ?_ ?_
  · rintro m ⟨⟨g, hg⟩, hs⟩ -
    have hprimed : Primed C _ [] (m.checkpointed C.provider) :=
      ⟨hs.checkpointed hC hg (by simp), rfl, rfl, rfl, hs.ready⟩
    exact ⟨⟨g, hg⟩, ⟨g, hg.frame rfl rfl⟩, hprimed.steady⟩
  · rintro m tags rest ⟨⟨g, hg⟩, -⟩ -
    exact ⟨g, hg.frame rfl rfl⟩
  · exact fun m hm => hm.frame rfl rfl rfl

omit [DecidableEq Q] in
/-- The clients that a checkpoint left complete are emitted: there is at most
one. -/
theorem spec_runEmits_primed (hC : Stateful C) {emits : List UUID}
    (hnodup : emits.Nodup) :
    Spec (fun m => ∃ g, Primed C g emits m) (runEmits C emits)
      (fun _ => Steady C) (Recoverable C) := by
  match emits, hnodup with
  | [], _ =>
      refine Spec.pure ?_
      rintro m ⟨g, hg⟩
      exact hg.steady
  | [c], _ =>
      refine Spec.bind (spec_emit c ?_ ?_ (fun m hm => hm.1) ?_)
        fun _ => Spec.pure fun _ hm => hm
      · rintro m ⟨g, hg⟩ sent rest hsplit
        exact ⟨g, hg.replayable_sending hC hsplit⟩
      · rintro m ⟨g, hg⟩
        obtain ⟨hr, hs⟩ := hg.saveable_emitted hC
        exact ⟨⟨g, hr⟩, hs⟩
      · intro m e he hm
        exact hm.append [e]
          (by simpa using Event.plain_of_isBarrier he)
  | c :: d :: rest, hnodup =>
      rintro m ⟨g, hg⟩
      have hready : ∀ y ∈ c :: d :: rest,
          (m.storedRc.client y).ready = true := by
        intro y hy
        have := (hg.ready y).mp hy
        rwa [hg.rc] at this
      have heq : c = d := hg.replayable.one c d (hready c (by simp))
        (hready d (by simp))
      simp [heq] at hnodup

omit [DecidableEq Q] in
theorem spec_free_steady (xs : List UUID) :
    Spec (Steady C) (Prog.forEach xs (free C)) (fun _ => Steady C)
      (Recoverable C) := by
  refine Spec.forEach (I := fun _ => Steady C) xs fun _ y _ _ => ?_
  refine Spec.change (fun m hm => hm.1) fun m hm => ?_
  exact (hm.change_fn _ _).append [.freed y]
    (by simp [Event.Plain])

omit [DecidableEq Q] in
/-- One new message changes the business state, the extra provider and a
counter of received messages. -/
theorem spec_onData_steady (hC : Stateful C) (q : Q) (msg : DataMsg α) :
    Spec (fun m => Steady C m ∧ (m.rc.client msg.clientId).expected < 0)
      (onData C q msg) (fun _ => Steady C) (Recoverable C) := by
  refine Spec.bind (Q := fun _ m => Steady C m ∧
    (m.rc.client msg.clientId).expected < 0) (Spec.modify fun m hm => ?_)
    fun _ => ?_
  · exact ⟨hm.1.change_fn _ m.state.extra, hm.2⟩
  rw [hC.silent]
  refine Spec.bind (Q := fun _ m => Steady C m ∧
    (m.rc.client msg.clientId).expected < 0) (Spec.pure fun _ hm => hm)
    fun _ => ?_
  refine Spec.bind (Q := fun emits m => emits = [] ∧ Steady C m)
    (Spec.compute ?_) fun emits => Spec.of_pre ?_
  · rintro m ⟨hm, hneg⟩
    have hcounts := RingCompletion.counts_onData m.rc msg.clientId
    have hmem := hcounts.mem_iff hm.quiet
    have hnone : (m.rc.onData msg.clientId).2 = [] := by
      rw [List.eq_nil_iff_forall_not_mem]
      intro y hy
      have hexp := (Client.ready_iff.mp ((hmem y).mp hy)).2.1
      rw [RingCompletion.expected_onData, (hcounts.emits.2 y hy).1] at hexp
      omega
    refine ⟨hnone, hm.change _ rfl (fun y => (hcounts.owed_iff y).mp)
      (hcounts.forgotten hm.2.forgotten) fun y => ?_⟩
    · have hnot : y ∉ (m.rc.onData msg.clientId).2 := by simp [hnone]
      rw [hmem] at hnot
      simpa using hnot
  · rintro rfl
    exact Spec.pure fun _ hm => hm

omit [DecidableEq Q] in
/-- An announced count may complete its client, and only this one. -/
theorem Steady.noteEof (h : Steady C m) (q : Q) (x : UUID) (k : ℤ) :
    Recoverable C (noteEof C q x k m).2 ∧
      Saveable (noteEof C q x k m).1 (noteEof C q x k m).2 ∧
        (∀ y ∈ (noteEof C q x k m).1, y = x) ∧
          (noteEof C q x k m).1.Nodup := by
  have hnoted : Steady C (m.withState fun s =>
      { s with extra := (C.noteEof q x k m.state.extra).2 }) :=
    h.change_fn m.state.fn _
  cases htotal : (C.noteEof q x k m.state.extra).1 with
  | none =>
      rw [noteEof_none htotal]
      exact ⟨hnoted.1, hnoted.2, by simp, List.nodup_nil⟩
  | some total =>
      rw [noteEof_some htotal]
      have hcounts := RingCompletion.counts_onUpstreamEof m.rc x total
      obtain ⟨⟨g, hg⟩, hs⟩ := hnoted
      refine ⟨⟨g, hg.frame rfl rfl⟩, ?_, fun y hy => (hcounts.emits.2 y hy).1,
        hcounts.emits.1⟩
      exact hs.change _ rfl (fun y => (hcounts.owed_iff y).mp)
        (hcounts.forgotten h.2.forgotten) (hcounts.mem_iff h.quiet)

theorem spec_onEof_steady (hC : Stateful C) (q : Q) (x : UUID) (k : ℤ) :
    Spec (Steady C) (onEof C q x k) (fun _ => Steady C) (Recoverable C) := by
  refine Spec.bind (Q := fun emits m => ((∀ y ∈ emits, y = x) ∧ emits.Nodup) ∧
    Recoverable C m ∧ Saveable emits m) (Spec.compute fun m hm => ?_)
    fun emits => Spec.of_pre fun hemits => ?_
  · obtain ⟨hr, hs, hself, hnodup⟩ := hm.noteEof q x k
    exact ⟨⟨hself, hnodup⟩, hr, hs⟩
  have hone : ∀ y ∈ emits, ∀ z ∈ emits, y = z := fun y hy z hz =>
    (hemits.1 y hy).trans (hemits.1 z hz).symm
  refine Spec.bind (Q := fun _ m => (∃ g, Primed C g emits m) ∨
    (emits = [] ∧ Steady C m)) (Spec.when ?_ ?_) fun _ => ?_
  · intro _
    exact (spec_flush_primed hC hone).post fun _ _ hm => Or.inl hm
  · rintro hnil m ⟨hr, hs⟩
    have hnil' : emits = [] := not_not.mp hnil
    subst hnil'
    exact Or.inr ⟨rfl, hr, hs⟩
  refine Spec.bind (Q := fun _ => Steady C) ?_ fun _ => ?_
  · rintro m (hm | ⟨rfl, hm⟩)
    · exact spec_runEmits_primed hC hemits.2 m hm
    · exact Spec.pure (fun _ hm => hm) m hm
  refine Spec.bind (spec_flush_steady hC true) fun _ => ?_
  exact spec_free_steady emits

theorem spec_onAbort_steady (hC : Stateful C) (x : UUID) :
    Spec (Steady C) (onAbort C x) (fun _ => Steady C) (Recoverable C) := by
  refine Spec.bind (Q := fun _ => Steady C) (Spec.modify fun m hm => ?_)
    fun _ => ?_
  · have hclient : ∀ y, (m.rc.drop x).client y =
        if y = x then .new else m.rc.client y :=
      fun y => RingCompletion.client_drop m.rc x y
    refine hm.change { m.state with rc := m.rc.drop x } rfl ?_ ?_ ?_
    · rintro y ⟨hphase, hab⟩
      rw [RingCompletion.isAborted_drop, Bool.or_eq_false_iff,
        decide_eq_false_iff_not] at hab
      rw [hclient, if_neg hab.1] at hphase
      exact ⟨hphase, hab.2⟩
    · intro y hab
      rw [RingCompletion.isAborted_drop, Bool.or_eq_true,
        decide_eq_true_eq] at hab
      rw [hclient]
      split
      · rfl
      · exact hm.2.forgotten y (hab.resolve_left ‹_›)
    · intro y
      rw [hclient]
      split
      · rfl
      · exact hm.quiet y
  refine Spec.bind (Q := fun _ => Steady C) (Spec.change (fun m hm => hm.1)
    fun m hm => hm.change_fn _ _) fun _ => ?_
  refine Spec.bind (Q := fun _ => Steady C) (Spec.modify ?_) fun _ => ?_
  · exact fun m hm => hm.frame rfl rfl rfl
  refine Spec.bind (spec_flush_steady hC true) fun _ => ?_
  refine Spec.forEach (I := fun _ => Steady C) _ fun _ shard _ _ => ?_
  exact Spec.change (fun m hm => hm.1) fun m hm =>
    hm.append [.abort shard x] (by simp [Event.Plain])

theorem spec_onRingMsg_steady (hC : Stateful C) (t : BarrierToken) :
    Spec (Steady C) (onRingMsg C t) (fun _ => Steady C) (Recoverable C) := by
  refine Spec.bind (Q := fun _ => Steady C) (Spec.compute fun m hm => ?_)
    fun actions => ?_
  · rw [receiveToken_eq]
    obtain ⟨hclient, haborted⟩ := RingCompletion.onToken_spec
      C.self m.rc t
    have hchanged := hm.change
      { m.state with rc := (m.rc.onToken C.self t).1 } rfl ?_ ?_ ?_
    · exact hchanged.append _ fun e he => Event.plain_of_mem_closings he
    · rintro y ⟨hphase, hab⟩
      rw [haborted] at hab
      rcases hclient y with h | h
      · exact ⟨h ▸ hphase, hab⟩
      · rw [h] at hphase
        cases hphase
    · exact RingCompletion.forgotten_onToken C.self t hm.2.forgotten
    · intro y
      rcases hclient y with h | h
      · rw [h]
        exact hm.quiet y
      · simp [Client.ready, h]
  refine Spec.bind (spec_runBarrier actions (fun m hm => hm.1) ?_)
    fun _ => spec_flush_steady hC true
  intro m e he hm
  exact hm.append [e] (by simpa using Event.plain_of_isBarrier he)

theorem spec_start_steady (hC : Stateful C) :
    Spec (fun m => Recoverable C m ∧ Blank C m) (start C)
      (fun _ => Steady C) (Recoverable C) := by
  refine Spec.bind (Q := fun _ m => Recoverable C m ∧ Blank C m)
    (Spec.modify fun m hm => ?_) fun _ => ?_
  · obtain ⟨⟨g, hg⟩, hb⟩ := hm
    exact ⟨⟨g, hg.append [.restarted] (by simp [Event.Plain]) m.state⟩,
      hb.logged _⟩
  refine Spec.bind (Q := fun restored m => if restored = true
      then ∃ g, Primed C g m.rc.recheck m else Steady C m)
    (Checkpointer.spec_restore (fun m hm => hm.1) ?_ ?_) fun restored => ?_
  · rintro m ⟨⟨g, hg⟩, hb⟩ hnone
    have hrc : Node.storedRc m = .new := by simp [Node.storedRc, hnone]
    have howed : ∀ y, (Node.storedRc m).Owed y := fun y => by
      rw [hrc]
      exact ⟨rfl, rfl⟩
    have hunready : ∀ y, ((Node.storedRc m).client y).ready = false :=
      fun y => by simp [hrc]
    rw [if_neg (by simp)]
    refine ⟨⟨g, hg.frame rfl rfl⟩, ?_, ?_, ?_, fun y => ?_⟩
    · intro y hab
      have hab' : m.state.rc.isAborted y = true := hab
      simp [hb.rc] at hab'
    · intro s id y pl he
      rcases hg.published s id y pl he with ⟨-, hnot⟩ | ⟨hready, -⟩
      · exact absurd (howed y) hnot
      · simp [hunready] at hready
    · intro y sent he _
      have hready := ((hg.reported y sent he).2 (howed y)).1
      simp [hunready] at hready
    · have hready : (m.state.rc.client y).ready = false := by simp [hb.rc]
      exact ⟨fun h => absurd h List.not_mem_nil,
        fun h => absurd (hready.symm.trans h) (by simp)⟩
  · rintro m b ⟨⟨g, hg⟩, hb⟩ hstore
    rw [if_pos rfl]
    have hseqs : Node.storedSeqs m = b.state.outSeq := by
      simp [Node.storedSeqs, hstore]
    have hrc : Node.storedRc m = b.state.rc := by
      simp [Node.storedRc, hstore]
    exact ⟨g, hg.frame rfl rfl, hg.restores b hstore _,
      hseqs.symm, hrc.symm, fun y => RingCompletion.mem_recheck⟩
  refine Spec.bind (Q := fun _ => Steady C) (Spec.when ?_ ?_) fun _ =>
    Spec.modify ?_
  · intro hrestored
    refine Spec.pre ?_ (P := fun m => ∃ g, Primed C g m.rc.recheck m)
      fun m hm => by rwa [if_pos hrestored] at hm
    refine Spec.read_bind fun m => ?_
    refine Spec.bind ((spec_runEmits_primed hC
      (RingCompletion.nodup_recheck m.rc)).pre ?_) fun _ => ?_
    · rintro _ ⟨rfl, hm⟩
      exact hm
    refine Spec.read_bind fun m' => ?_
    exact Spec.bind ((spec_free_steady _).pre fun m hm => hm.2)
      fun _ => spec_flush_steady hC true
  · rintro hrestored m hm
    rwa [if_neg hrestored] at hm
  · exact fun m hm => hm.frame rfl rfl rfl

/-! ## Runs -/

/-- What holds between two calls and what a crash leaves, deliveries included. -/
def ReplayInv (C : Controller Q F S E α β)
    (arrivals : Q → ℕ → Option (Message α)) (tracks : E → Q → UUID → Prop) :
    Node Q F S E β → Prop :=
  NodeInv C (fun m => Delivered C arrivals tracks m ∧ Steady C m)
    (fun m => StoredDeliveries C arrivals tracks m ∧ Recoverable C m)

variable {arrivals : Q → ℕ → Option (Message α)} {tracks : E → Q → UUID → Prop}

theorem spec_onDataMsg_steady (hC : Stateful C)
    (tracks : E → Q → UUID → Prop) (tag : Q × ℕ) {msg : Message α}
    (htag : arrivals tag.1 tag.2 = some msg) :
    Spec (fun m => ∃ m₀, (Delivered C arrivals tracks m₀ ∧ Steady C m₀) ∧
        m = m₀.deliver tag)
      (onDataMsg C tag msg) (fun _ => Steady C) (Recoverable C) := by
  have hack : ∀ m : Node Q F S E β, Steady C m → Steady C (m.ackTag tag) :=
    fun m hm => hm.frame rfl rfl rfl
  have hstart : ∀ m : Node Q F S E β, (∃ m₀,
      (Delivered C arrivals tracks m₀ ∧ Steady C m₀) ∧ m = m₀.deliver tag) →
        Steady C m := by
    rintro _ ⟨m₀, ⟨-, hm₀⟩, rfl⟩
    exact hm₀.frame rfl rfl rfl
  refine Checkpointer.spec_dispatch ?_ ?_ ?_
  · rintro x k -
    refine Spec.bind ((spec_flush_steady hC false).pre hstart) fun _ => ?_
    refine Spec.bind (spec_onEof_steady hC tag.1 x k) fun _ => ?_
    exact Checkpointer.spec_ack (fun m hm => hm.1) hack
  · rintro x -
    refine Spec.bind ((spec_onAbort_steady hC x).pre hstart) fun _ => ?_
    exact Checkpointer.spec_ack (fun m hm => hm.1) hack
  · rintro d rfl
    refine Checkpointer.spec_handleData (R := Steady C) ?_ ?_ ?_ ?_
      fun _ hm _ => hm
    · exact fun m hm _ => ⟨(hstart m hm).1, hack m (hstart m hm)⟩
    · exact fun m hm _ _ => ⟨(hstart m hm).1, hack m (hstart m hm)⟩
    · refine (spec_onData_steady hC tag.1 d).conseq ?_
        (fun _ m hm => hm.frame rfl rfl rfl) (fun _ hm => hm)
      rintro m ⟨hm, hab, hdup⟩
      refine ⟨hstart m hm, ?_⟩
      obtain ⟨m₀, ⟨hdel, -⟩, rfl⟩ := hm
      have hneg := expected_neg_of_new (m := m₀) hdel.2 htag
        fun hk => hk.elim hdup hab
      exact hneg
    · exact (spec_flush_steady hC false).pre fun m hm => hm.1

theorem spec_call_steady (hC : Stateful C) (call : Call Q) :
    Spec (fun m => ReplayInv C arrivals tracks m ∧
        Enabled arrivals true call m)
      (handler C arrivals call) (fun _ => Steady C) (Recoverable C) := by
  cases call with
  | start =>
      refine (spec_start_steady hC).pre fun m hm => ?_
      obtain ⟨⟨-, hr⟩, hb⟩ := hm.1.stored hm.2
      exact ⟨hr, hb⟩
  | token t =>
      exact (spec_onRingMsg_steady hC t).pre fun m hm => (hm.1.live hm.2).2
  | deliver tag =>
      change Spec _ (receive C tag (arrivals tag.1 tag.2)) _ _
      cases htag : arrivals tag.1 tag.2 with
      | none =>
          refine Spec.pure fun m hm => ?_
          have := hm.2.2.1
          simp [htag] at this
      | some msg =>
          refine Spec.bind (Spec.modify fun m hm => ?_) fun _ =>
            spec_onDataMsg_steady hC tracks tag htag
          exact ⟨m, hm.1.live hm.2.1, rfl⟩

theorem spec_call_replay (hC : Stateful C) (laws : TracksEofs C tracks)
    (hqueues : OrderedQueues arrivals) (call : Call Q) :
    Spec (fun m => ReplayInv C arrivals tracks m ∧
        Enabled arrivals true call m)
      (handler C arrivals call)
      (fun _ m => Delivered C arrivals tracks m ∧ Steady C m)
      (fun m => StoredDeliveries C arrivals tracks m ∧ Recoverable C m) :=
  ((spec_call_delivered laws hqueues call).and
    (spec_call_steady hC call)).pre fun _ hm =>
      ⟨⟨hm.1.mono (fun _ h => h.1) fun _ h => h.1, hm.2⟩, hm⟩

theorem replayInv_reach (hC : Stateful C) (laws : TracksEofs C tracks)
    (hqueues : OrderedQueues arrivals) {crashable : Node Q F S E β → Prop}
    {f₀ : F} (h : (system C arrivals true crashable).Reach
      (Machine.initial (C.fresh f₀)) m) :
    ReplayInv C arrivals tracks m := by
  have hreboot : ∀ (m : Node Q F S E β) k,
      StoredDeliveries C arrivals tracks m ∧ Recoverable C m →
        StoredDeliveries C arrivals tracks (m.reboot C.provider k) ∧
          Recoverable C (m.reboot C.provider k) := by
    rintro m k ⟨hm, g, hg⟩
    exact ⟨⟨hm.acked, hm.tracked, hm.announced⟩, g, hg.frame rfl rfl⟩
  refine nodeInv_reach ⟨⟨?_, ?_, ?_⟩, f₀, ?_⟩ (fun call => ?_) ?_ h
  · simp [Machine.initial]
  · exact fun q c ht => absurd ht (laws.none q c)
  · intro tag d _ he
    simp [Machine.initial, Node.storedRc, Client.new] at he
  · refine ⟨?_, fun x hx => rfl, fun x y hx => ?_, ?_, ?_, ?_⟩ <;>
      simp_all [Machine.initial, Node.storedRc]
  · exact (spec_call_replay hC laws hqueues call).conseq (fun _ hm => hm)
      (fun _ _ hm => hm) fun m hm _ k => hreboot m k hm
  · rintro m (⟨hm, hs⟩ | hm) - k
    · exact hreboot m k ⟨hm.1, hs.1⟩
    · exact hreboot m k hm

/-- Two messages with one stamp are one message for one shard, and every report
gives the numbers of distinct messages of its client. -/
structure ReplaySafe (log : List (Event β)) : Prop where
  same : ∀ s s' id x x' pl pl', .data s id x pl ∈ log →
    .data s' id x' pl' ∈ log → s = s' ∧ pl = pl'
  counts : ∀ x sent, .reported x sent ∈ log →
    ∀ s, sent.getD s 0 = (Event.distinctOn x s log).card

/-- A stateful node is replay-safe in every state it passes through. -/
theorem replaySafe_visits (hC : Stateful C) (laws : TracksEofs C tracks)
    (hqueues : OrderedQueues arrivals) {crashable : Node Q F S E β → Prop}
    {f₀ : F} (h : (system C arrivals true crashable).Visits
      (Machine.initial (C.fresh f₀)) m) : ReplaySafe m.log := by
  have hrec : Recoverable C m := by
    refine node_visits (fun m hm => replayInv_reach hC laws hqueues hm)
      (fun m hm => hm.2.1) (fun m hm => hm.2) (fun call => ?_) h
    exact (spec_call_steady hC call).post fun _ _ _ => trivial
  obtain ⟨g, hg⟩ := hrec
  exact ⟨hg.same, fun x sent he => (hg.reported x sent he).1⟩

/-! ## Aggregates and merges -/

/-- Restoring a snapshot, from whatever state, gives the state that went on after
the snapshot was taken. -/
def DescribesAll {F S : Type} (K : Snapshotable F S) : Prop :=
  ∀ f f', K.restoreState (K.snapshotState f).1 f' = (K.snapshotState f).2

variable {cfg : NodeConfig} {nShards : ℕ}

theorem stateful_ringAggregate {fn : AggregateFn F S α β} {broadcast : Bool}
    (hwhole : DescribesAll fn.provider) :
    Stateful (ringAggregate cfg nShards fn broadcast) where
  silent _ := rfl
  restamped _ := Controller.restamped_ringAggregate
  counts _ _ _ := rfl
  whole := hwhole

/-- An aggregate has one input, so it tracks nothing. -/
theorem tracksEofs_ringAggregate {fn : AggregateFn F S α β} {broadcast : Bool} :
    TracksEofs (ringAggregate cfg nShards fn broadcast)
      (fun _ _ _ => False) where
  none _ _ h := h
  noted _ _ _ _ _ _ h := h.elim
  complete _ _ _ _ _ _ _ hne := hne rfl
  counted _ _ _ _ _ h := h
  reported _ _ _ _ _ h := h
  discarded _ _ _ _ _ h := h
  freed _ _ _ _ _ h := h

theorem stateful_ringMerge {fn : MergeFn F S α β}
    (hwhole : DescribesAll fn.provider) :
    Stateful (ringMerge cfg nShards fn) where
  silent _ := rfl
  restamped _ := Controller.restamped_ringMerge
  counts _ _ _ := rfl
  whole := hwhole

/-- The side whose count a merge remembers. -/
def MergeEofCounts.Announced (counts : MergeEofCounts) (side : Side)
    (x : UUID) : Prop :=
  match side with
  | .left => (counts.left.get? x).isSome
  | .right => (counts.right.get? x).isSome

theorem announced_drop {counts : MergeEofCounts} {x : UUID} {q : Side}
    {y : UUID} (h : MergeEofCounts.Announced (counts.drop x) q y) :
    MergeEofCounts.Announced counts q y := by
  cases q <;>
  · simp only [MergeEofCounts.Announced, MergeEofCounts.drop,
      Dict.get?_erase] at h ⊢
    split at h
    · cases h
    · exact h

theorem tracksEofs_ringMerge {fn : MergeFn F S α β} :
    TracksEofs (ringMerge cfg nShards fn) MergeEofCounts.Announced where
  none q x h := by
    cases q <;> simp [MergeEofCounts.Announced, ringMerge,
      MergeEofCounts.empty] at h
  noted q x k counts q' y h := by
    cases q <;> cases q' <;>
      simp only [MergeEofCounts.Announced, ringMerge, MergeEofCounts.note,
        Dict.get?_set] at h ⊢
    · split at h
      · exact Or.inr ⟨trivial, ‹_›⟩
      · exact Or.inl h
    · exact Or.inl h
    · exact Or.inl h
    · split at h
      · exact Or.inr ⟨trivial, ‹_›⟩
      · exact Or.inl h
  complete q x k counts total h q' hne := by
    cases q <;> cases q' <;>
      simp only [ringMerge, MergeEofCounts.combined, MergeEofCounts.note,
        MergeEofCounts.Announced] at h ⊢
    · exact absurd rfl hne
    · cases hright : counts.right.get? x with
      | none => simp [hright] at h
      | some r => rfl
    · cases hleft : counts.left.get? x with
      | none => simp [hleft] at h
      | some l => rfl
    · exact absurd rfl hne
  counted _ _ _ _ _ h := h
  reported _ _ _ _ _ h := h
  discarded _ _ _ _ _ h := announced_drop h
  freed _ _ _ _ _ h := announced_drop h

/-- Replay-safe emission.  A node whose business state is described by its
snapshots, and whose queues hand over a client's end-of-file after its data,
never sends two different messages under one stamp, and reports for every shard
the number of distinct messages it sent there. -/
theorem replay_safety {F S α β : Type} (cfg : NodeConfig) (nShards : ℕ) :
    (∀ (fn : AggregateFn F S α β) (broadcast : Bool)
        (arrivals : Unit → ℕ → Option (Message α)) (f₀ : F)
        (m : Node Unit F S Unit β),
      DescribesAll fn.provider → OrderedQueues arrivals →
      (system (ringAggregate cfg nShards fn broadcast) arrivals true
        fun _ => True).Visits
          (Machine.initial (Controller.fresh
            (ringAggregate cfg nShards fn broadcast) f₀)) m →
        ReplaySafe m.log) ∧
    (∀ (fn : MergeFn F S α β) (arrivals : Side → ℕ → Option (Message α))
        (f₀ : F) (m : Node Side F S MergeEofCounts β),
      DescribesAll fn.provider → OrderedQueues arrivals →
      (system (ringMerge cfg nShards fn) arrivals true fun _ => True).Visits
          (Machine.initial (Controller.fresh
            (ringMerge cfg nShards fn) f₀)) m →
        ReplaySafe m.log) := by
  constructor
  · intro fn broadcast arrivals f₀ m hwhole hqueues h
    exact replaySafe_visits (stateful_ringAggregate hwhole)
      tracksEofs_ringAggregate hqueues h
  · intro fn arrivals f₀ m hwhole hqueues h
    exact replaySafe_visits (stateful_ringMerge hwhole)
      tracksEofs_ringMerge hqueues h

/-- An aggregate that adds up what it reads and sends two results. -/
def totalAggregate : AggregateFn ℕ ℕ ℕ ℕ where
  provider := ⟨fun _ _ => 0, fun n => (n, n), fun n _ => n, fun n => n⟩
  aggregate msg n := n + msg.body
  getResult _ n := ([(n, 0), (n + 1, 1)], 0)
  discard _ n := n

/-- A merge that adds up its two sides apart. -/
def totalMerge : MergeFn (ℕ × ℕ) (ℕ × ℕ) ℕ ℕ where
  provider := ⟨fun _ _ => (0, 0), fun n => (n, n), fun n _ => n, fun n => n⟩
  left msg n := (n.1 + msg.body, n.2)
  right msg n := (n.1, n.2 + msg.body)
  getResult _ n := ([n.1, n.2], (0, 0))
  discard _ n := n

/-- A ring of one node whose outputs share their counter. -/
def onlyNode : NodeConfig := ⟨Peer.ofIds 0 [], 2, fun _ => 9⟩

/-- One message of client `7` and its end-of-file. -/
def oneMessage (producerId : ProducerId) : ℕ → Option (Message ℕ)
  | 0 => some (.data ⟨7, producerId, 1, 5⟩)
  | 1 => some (.eof 7 1)
  | _ => none

omit [DecidableEq Q] in
theorem orderedQueues_oneMessage {p : Q → ProducerId}
    (hinj : Function.Injective p) :
    OrderedQueues fun q => oneMessage (p q) := by
  have hcarries : ∀ (tag : Q × ℕ) d,
      Carries (fun q => oneMessage (p q)) tag d →
        tag.2 = 0 ∧ d = ⟨7, p tag.1, 1, 5⟩ := by
    rintro ⟨q, i⟩ d hd
    match i, hd with
    | 0, hd => exact ⟨rfl, (Message.data.inj (Option.some.inj hd)).symm⟩
    | 1, hd => cases hd
    | _ + 2, hd => cases hd
  refine ⟨fun tag d hd => ?_, fun tag tag' d d' hd hd' hid => ?_, ?_⟩
  · rw [(hcarries tag d hd).2]
  · obtain ⟨-, rfl⟩ := hcarries tag d hd
    obtain ⟨-, rfl⟩ := hcarries tag' d' hd'
    have hq : tag.1 = tag'.1 := hinj (congrArg Prod.fst hid)
    rw [hq]
  · intro q i j c k d he hd _
    obtain ⟨hj, -⟩ := hcarries (q, j) d hd
    have hi : i ≠ 0 := by
      rintro rfl
      cases he
    simp only at hj
    omega

/-- The messages that were published, newest first: shard, number, payload. -/
def sentOf (log : List (Event ℕ)) : List (ℕ × ℕ × ℕ) :=
  log.filterMap fun
    | .data s id _ pl => some (s, id.2, pl)
    | _ => none

/-- The producers of the two inputs of a merge. -/
def sideProducer : Side → ProducerId
  | .left => 1
  | .right => 2

/-- A node of each kind crashes after the first message of its emission and emits
again: the first message is sent twice, with the same stamp and payload. -/
theorem replay_safety_crashedEmission :
    (∃ m, (system (ringAggregate onlyNode 2 totalAggregate false)
        (fun _ : Unit => oneMessage 1) true fun _ => True).playAll
          [.finish .start, .finish (.deliver ((), 0)),
            .crash (.deliver ((), 1)) (fun _ n => n) 6, .finish .start]
          (Machine.initial (Controller.fresh
            (ringAggregate onlyNode 2 totalAggregate false) 0)) = some m ∧
      sentOf m.log = [(1, 2, 6), (0, 1, 5), (0, 1, 5)] ∧ ReplaySafe m.log) ∧
    ∃ m, (system (ringMerge onlyNode 2 totalMerge)
        (fun q => oneMessage (sideProducer q)) true fun _ => True).playAll
          [.finish .start, .finish (.deliver (.left, 0)),
            .finish (.deliver (.right, 0)), .finish (.deliver (.right, 1)),
            .crash (.deliver (.left, 1)) (fun _ n => n) 3, .finish .start]
          (Machine.initial (Controller.fresh
            (ringMerge onlyNode 2 totalMerge) (0, 0))) = some m ∧
      sentOf m.log = [(1, 2, 5), (0, 1, 5), (0, 1, 5)] ∧
        ReplaySafe m.log := by
  constructor
  · have hplays : ((system (ringAggregate onlyNode 2 totalAggregate false)
        (fun _ : Unit => oneMessage 1) true fun _ => True).playAll
          [.finish .start, .finish (.deliver ((), 0)),
            .crash (.deliver ((), 1)) (fun _ n => n) 6, .finish .start]
          (Machine.initial (Controller.fresh
            (ringAggregate onlyNode 2 totalAggregate false) 0))).map
        (fun m => sentOf m.log) =
          some [(1, 2, 6), (0, 1, 5), (0, 1, 5)] := by decide
    obtain ⟨m, hm, hobs⟩ := Option.map_eq_some_iff.mp hplays
    refine ⟨m, hm, hobs, (replay_safety onlyNode 2).1 totalAggregate false _ 0 m
      (fun _ _ => rfl) ?_ (.idle m (System.reach_of_playAll hm))⟩
    exact orderedQueues_oneMessage (p := fun _ : Unit => 1)
      fun _ _ _ => rfl
  · have hplays : ((system (ringMerge onlyNode 2 totalMerge)
        (fun q => oneMessage (sideProducer q)) true fun _ => True).playAll
          [.finish .start, .finish (.deliver (.left, 0)),
            .finish (.deliver (.right, 0)), .finish (.deliver (.right, 1)),
            .crash (.deliver (.left, 1)) (fun _ n => n) 3, .finish .start]
          (Machine.initial (Controller.fresh
            (ringMerge onlyNode 2 totalMerge) (0, 0)))).map
        (fun m => sentOf m.log) =
          some [(1, 2, 5), (0, 1, 5), (0, 1, 5)] := by decide
    obtain ⟨m, hm, hobs⟩ := Option.map_eq_some_iff.mp hplays
    refine ⟨m, hm, hobs, (replay_safety onlyNode 2).2 totalMerge _ (0, 0) m
      (fun _ _ => rfl) ?_ (.idle m (System.reach_of_playAll hm))⟩
    refine orderedQueues_oneMessage ?_
    intro q q' h
    cases q <;> cases q' <;> first | rfl | simp [sideProducer] at h

end RingNode
