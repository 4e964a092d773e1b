import MoneyLaundering.Ring.Emission
import MoneyLaundering.Ring.Runs

/-!
# The numbers of an emission

The messages of a result are stamped from the output counters, and a crash rolls
both the counters and the phase of the client back.  A node that has a client
past processing therefore counts the messages of its last emission, unless the
barrier of the client was closed while it was still processing.
-/

open Crash

namespace Event

variable {β : Type}

/-- The counts of the client were reported. -/
def isReport (c : UUID) : Event β → Bool
  | .reported x _ => decide (x = c)
  | _ => false

end Event

section Histories

variable {β : Type} {c : UUID} {log es body newer : List (Event β)}
  {seqs seqs' : ProducerId → ℕ}

/-- `body` is the last emission of the client that was reported, and `newer` is
what came after the report. -/
def LastEmission (c : UUID) (log body newer : List (Event β)) : Prop :=
  (∃ sent older,
    log = newer ++ .reported c sent :: (body ++ .emitting c :: older)) ∧
  (∀ e ∈ newer, e.isReport c = false) ∧ .emitting c ∉ body

/-- The counters include the numbers of the last emission of the client, and no
later message has one of them. -/
def Included (seqs : ProducerId → ℕ) (c : UUID) (log : List (Event β)) : Prop :=
  ∀ body newer, LastEmission c log body newer → ∀ s id x pl,
    .data s id x pl ∈ body →
      id.2 ≤ seqs id.1 ∧ ∀ s' x' pl', .data s' id x' pl' ∉ newer

theorem LastEmission.of_append (h : LastEmission c (es ++ log) body newer)
    (hreport : ∀ e ∈ es, e.isReport c = false) :
    ∃ newer', newer = es ++ newer' ∧ LastEmission c log body newer' := by
  obtain ⟨⟨sent, older, hsplit⟩, hnewer, hbody⟩ := h
  rcases List.append_eq_append_iff.mp hsplit with
    ⟨newer', rfl, hlog⟩ | ⟨rest, rfl, hlog⟩
  · exact ⟨newer', rfl, ⟨sent, older, hlog⟩,
      fun e he => hnewer e (List.mem_append_right _ he), hbody⟩
  · cases rest with
    | nil =>
        refine ⟨[], by simp, ⟨sent, older, ?_⟩, by simp, hbody⟩
        simpa using hlog.symm
    | cons e rest =>
        rw [List.cons_append, List.cons.injEq] at hlog
        have := hreport e (by simp)
        rw [← hlog.1] at this
        simp [Event.isReport] at this

/-- The entries before the first occurrence of an entry. -/
theorem eq_of_append_cons_eq {e : Event β} {xs xs' ys ys' : List (Event β)}
    (h : xs ++ e :: ys = xs' ++ e :: ys') (hxs : e ∉ xs) (hxs' : e ∉ xs') :
    xs = xs' := by
  induction xs generalizing xs' with
  | nil =>
      cases xs' with
      | nil => rfl
      | cons x xs' =>
          rw [List.nil_append, List.cons_append, List.cons.injEq] at h
          exact absurd (h.1 ▸ List.mem_cons_self) hxs'
  | cons x xs ih =>
      cases xs' with
      | nil =>
          rw [List.nil_append, List.cons_append, List.cons.injEq] at h
          exact absurd (h.1 ▸ List.mem_cons_self) hxs
      | cons x' xs' =>
          rw [List.cons_append, List.cons_append, List.cons.injEq] at h
          have htail := ih h.2 (fun hmem => hxs (List.mem_cons_of_mem _ hmem))
            fun hmem => hxs' (List.mem_cons_of_mem _ hmem)
          rw [h.1, htail]

/-- The report that was just made is about the emission before it. -/
theorem LastEmission.of_report {sent : ShardCounts} {emission older : List (Event β)}
    (hemission : .emitting c ∉ emission)
    (h : LastEmission c (.reported c sent :: (emission ++ .emitting c :: older))
      body newer) : newer = [] ∧ body = emission := by
  obtain ⟨⟨sent', older', hsplit⟩, hnewer, hbody⟩ := h
  cases newer with
  | cons e newer =>
      rw [List.cons_append, List.cons.injEq] at hsplit
      have := hnewer e List.mem_cons_self
      rw [← hsplit.1] at this
      simp [Event.isReport] at this
  | nil =>
      rw [List.nil_append, List.cons.injEq] at hsplit
      exact ⟨rfl, (eq_of_append_cons_eq hsplit.2 hemission hbody).symm⟩

end Histories

namespace Controller

variable {Q F S E α β : Type} {C : Controller Q F S E α β}

/-- All messages of the node are stamped from its counters. -/
def Restamps (C : Controller Q F S E α β) : Prop :=
  (∀ msg, Restamped (C.outputs msg)) ∧ ∀ x f, Restamped (C.getResult x f).1

/-- The results of the node are empty, or all of its messages are stamped from
its counters. -/
def EmitsWhole (C : Controller Q F S E α β) : Prop :=
  (∀ x f, (C.getResult x f).1 = []) ∨ Restamps C

end Controller

open Controller in
/-- Every class of nodes emits so. -/
theorem NodeClass.emitsWhole {Q F S E α β : Type} {C : Controller Q F S E α β}
    (h : NodeClass C) : EmitsWhole C := by
  cases h with
  | filter => exact Or.inl fun _ _ => rfl
  | broadcastFilter => exact Or.inl fun _ _ => rfl
  | groupBy => exact Or.inl fun _ _ => rfl
  | aggregate =>
      exact Or.inr ⟨fun _ _ ho => absurd ho List.not_mem_nil,
        fun _ => restamped_ringAggregate⟩
  | merge =>
      exact Or.inr ⟨fun _ _ ho => absurd ho List.not_mem_nil,
        fun _ => restamped_ringMerge⟩

namespace RingNode

variable {Q F S E α β : Type} {C : Controller Q F S E α β}
  {m : Node Q F S E β} {c x : UUID} {seqs seqs' : ProducerId → ℕ}
  {log es : List (Event β)}

/-! ## The invariant -/

/-- The counters include the last emission, for a reason that later messages
keep. -/
def Kept (C : Controller Q F S E α β) (seqs : ProducerId → ℕ) (c : UUID)
    (log : List (Event β)) : Prop :=
  ∀ body newer, LastEmission c log body newer → ∀ s id x pl,
    .data s id x pl ∈ body → Controller.Restamps C ∧ id.2 ≤ seqs id.1 ∧
      ∀ s' x' pl', .data s' id x' pl' ∉ newer

theorem Kept.included (h : Kept C seqs c log) : Included seqs c log :=
  fun body newer hlast s id x pl hmem =>
    (h body newer hlast s id x pl hmem).2

/-- The barrier of the client was closed while it was processing. -/
def ClosedEarly (c : UUID) (log : List (Event β)) : Prop :=
  ∃ per, .closed c .processing per ∈ log

/-- New messages are stamped past the counters. -/
def Fresh (C : Controller Q F S E α β) (seqs : ProducerId → ℕ)
    (es : List (Event β)) : Prop :=
  Controller.Restamps C → ∀ s id x pl, .data s id x pl ∈ es →
    seqs id.1 < id.2

theorem Kept.append (h : Kept C seqs c log) (hfresh : Fresh C seqs es)
    (hreport : ∀ e ∈ es, e.isReport c = false) (hle : ∀ p, seqs p ≤ seqs' p) :
    Kept C seqs' c (es ++ log) := by
  intro body newer hlast s id x pl hmem
  obtain ⟨newer', rfl, hlast'⟩ := hlast.of_append hreport
  obtain ⟨hstamps, hbound, hnone⟩ := h body newer' hlast' s id x pl hmem
  refine ⟨hstamps, hbound.trans (hle _), fun s' x' pl' hmem' => ?_⟩
  rcases List.mem_append.mp hmem' with hnew | hold
  · have := hfresh hstamps s' id x' pl' hnew
    omega
  · exact hnone s' x' pl' hold

/-- The counters after an emission include its numbers. -/
theorem kept_emitted (hC : Controller.EmitsWhole C) (sent : ShardCounts)
    (hes : ∀ e ∈ es, Event.Plain e) :
    Kept C (C.seqsAfter m.state.seqs (resultOf C c m)) c
      (es ++ .reported c sent :: ((C.stampAll c m.state.seqs
        (resultOf C c m)).reverse ++ .emitting c :: log)) := by
  intro body newer hlast s id x pl hmem
  have hreport : ∀ e ∈ es, e.isReport c = false := by
    intro e he
    cases e with
    | reported y sent' => exact absurd rfl ((hes _ he).2 y sent')
    | _ => rfl
  have hemission : Event.emitting c ∉
      (C.stampAll c m.state.seqs (resultOf C c m)).reverse := by
    intro h
    obtain ⟨s, id, pl, heq⟩ :=
      Controller.eq_data_of_mem_stampAll (List.mem_reverse.mp h)
    cases heq
  obtain ⟨newer', rfl, hlast'⟩ := hlast.of_append hreport
  obtain ⟨rfl, rfl⟩ := hlast'.of_report hemission
  have hmem' := List.mem_reverse.mp hmem
  rcases hC with hsilent | hstamps
  · rw [resultOf, hsilent] at hmem'
    exact absurd hmem' List.not_mem_nil
  · refine ⟨hstamps, (Controller.bounds_of_mem_stampAll
      (hstamps.2 c m.state.fn) hmem').2.2, fun s' x' pl' hnew => ?_⟩
    rw [List.append_nil] at hnew
    exact (hes _ hnew).1 s' id x' pl' rfl

/-- A node that has the client past processing counts its last emission, and so
does its checkpoint. -/
structure Accounted (C : Controller Q F S E α β) (c : UUID)
    (m : Node Q F S E β) : Prop where
  mem : (m.rc.client c).phase ≠ .processing →
    Kept C m.state.seqs c m.log ∨ ClosedEarly c m.log
  disk : (m.storedRc.client c).phase ≠ .processing →
    Kept C m.storedSeqs c m.log ∨ ClosedEarly c m.log

/-- The same of a consuming process, which never emits what its checkpoint has
emitted. -/
structure Accounting (C : Controller Q F S E α β) (c : UUID)
    (m : Node Q F S E β) : Prop extends Accounted C c m where
  seqs : ∀ p, m.storedSeqs p ≤ m.state.seqs p
  owed : m.rc.Owed c → m.storedRc.Owed c
  forgotten : ∀ y, m.rc.isAborted y = true → m.rc.client y = .new

theorem kept_or_append (es : List (Event β)) {seqs₀ : ProducerId → ℕ}
    (h : Kept C seqs c log ∨ ClosedEarly c log) (hfresh : Fresh C seqs₀ es)
    (hreport : ∀ e ∈ es, e.isReport c = false) (h₀ : ∀ p, seqs p ≤ seqs₀ p)
    (hle : ∀ p, seqs p ≤ seqs' p) :
    Kept C seqs' c (es ++ log) ∨ ClosedEarly c (es ++ log) := by
  rcases h with hkept | ⟨per, hclosed⟩
  · refine Or.inl (hkept.append (fun hstamps s id x pl hmem => ?_) hreport hle)
    exact lt_of_le_of_lt (h₀ _) (hfresh hstamps s id x pl hmem)
  · exact Or.inr ⟨per, List.mem_append_right _ hclosed⟩

/-- Only the state, the checkpoint and the history matter. -/
theorem Accounting.frame {m' : Node Q F S E β} (h : Accounting C c m)
    (hstate : m'.state = m.state) (hstore : m'.store = m.store)
    (hlog : m'.log = m.log) : Accounting C c m' := by
  cases m
  cases m'
  subst hstate hstore hlog
  exact ⟨⟨h.mem, h.disk⟩, h.seqs, h.owed, h.forgotten⟩

/-- A change of the memory that does not report the client. -/
theorem Accounting.change (h : Accounting C c m) (s : NodeState F E)
    (es : List (Event β)) (hle : ∀ p, m.state.seqs p ≤ s.seqs p)
    (hfresh : Fresh C m.state.seqs es)
    (hreport : ∀ e ∈ es, e.isReport c = false)
    (hphase : (s.rc.client c).phase ≠ .processing →
      (m.rc.client c).phase ≠ .processing ∨ ClosedEarly c es)
    (howed : s.rc.Owed c → m.rc.Owed c)
    (hforgotten : ∀ y, s.rc.isAborted y = true → s.rc.client y = .new) :
    Accounting C c { m with state := s, log := es ++ m.log } := by
  refine ⟨⟨fun hne => ?_, fun hne => ?_⟩, fun p => (h.seqs p).trans (hle p),
    fun ho => h.owed (howed ho), hforgotten⟩
  · rcases hphase hne with hold | ⟨per, hclosed⟩
    · exact kept_or_append es (h.mem hold) hfresh hreport (fun _ => le_rfl) hle
    · exact Or.inr ⟨per, List.mem_append_left _ hclosed⟩
  · exact kept_or_append es (h.disk hne) hfresh hreport h.seqs fun _ => le_rfl

theorem fresh_of_plain (hes : ∀ e ∈ es, Event.Plain e) : Fresh C seqs es :=
  fun _ s id x pl hmem => absurd rfl ((hes _ hmem).1 s id x pl)

theorem not_report_of_plain (es : List (Event β)) (hes : ∀ e ∈ es, Event.Plain e) :
    ∀ e ∈ es, e.isReport c = false := by
  intro e he
  cases e with
  | reported y sent => exact absurd rfl ((hes _ he).2 y sent)
  | _ => rfl

/-- Entries that are neither messages nor reports. -/
theorem Accounting.append (h : Accounting C c m) (es : List (Event β))
    (hes : ∀ e ∈ es, Event.Plain e) :
    Accounting C c { m with log := es ++ m.log } :=
  h.change m.state es (fun _ => le_rfl) (fresh_of_plain hes)
    (not_report_of_plain es hes) Or.inl (fun ho => ho) h.forgotten

/-- A change of the business state and the extra provider. -/
theorem Accounting.change_fn (h : Accounting C c m) (f : F) (e : E) :
    Accounting C c { m with state := { m.state with fn := f, extra := e } } :=
  h.change _ [] (fun _ => le_rfl) (fresh_of_plain (by simp)) (by simp) Or.inl
    (fun ho => ho) h.forgotten

/-- A completion state that keeps the phases. -/
theorem Accounting.counted (h : Accounting C c m)
    {r : RingCompletion × List UUID} (hr : m.rc.Counts x r) :
    Accounting C c { m with state := { m.state with rc := r.1 } } := by
  refine h.change _ [] (fun _ => le_rfl) (fresh_of_plain (by simp)) (by simp)
    (fun hne => Or.inl ?_) (hr.owed_iff c).mp (hr.forgotten h.forgotten)
  rwa [← hr.phase_eq c]

theorem Accounting.owed_of_ready (h : Accounting C c m)
    (hready : (m.rc.client x).ready = true) : m.rc.Owed x := by
  refine ⟨(Client.ready_iff.mp hready).1, ?_⟩
  by_contra hab
  rw [h.forgotten x (by simpa using hab)] at hready
  simp at hready

/-- The checkpoint takes over what the memory counts. -/
theorem Accounting.checkpointed (h : Accounting C c m) :
    Accounting C c (m.checkpointed C.provider) :=
  ⟨⟨h.mem, h.mem⟩, fun _ => le_rfl, fun ho => ho, h.forgotten⟩

/-! ## Handlers -/

theorem Accounting.published (h : Accounting C c m) (x : UUID) {o : Output β}
    (ho : Controller.Restamps C → o.stamp = none) :
    Accounting C c (published C x o m) := by
  rw [published_eq]
  refine h.change _ [_] (Controller.le_bump _ o) ?_ (by simp [Event.isReport])
    Or.inl (fun ho => ho) h.forgotten
  intro hstamps s id y pl hmem
  have heq := List.mem_singleton.mp hmem
  rw [(Controller.stampOf_of_none _ (ho hstamps)).1] at heq
  cases heq
  exact Nat.lt_succ_self _

/-- Another client is being emitted. -/
theorem Accounting.sending (h : Accounting C c m) (sent rest : List (Output β))
    (hsplit : resultOf C x m = sent ++ rest) :
    Accounting C c (sending C x sent m) := by
  refine (h.append [.emitting x] (by simp [Event.Plain])).change _ _
    (Controller.le_seqsAfter _ sent) ?_ ?_ Or.inl (fun ho => ho) h.forgotten
  · intro hstamps s id y pl hmem
    have hnone : Controller.Restamped (resultOf C x m) :=
      hstamps.2 x m.state.fn
    rw [hsplit] at hnone
    have hsent : Controller.Restamped sent := fun o ho =>
      hnone o (List.mem_append_left _ ho)
    exact (Controller.bounds_of_mem_stampAll hsent
      (List.mem_reverse.mp hmem)).2.1
  · intro e he
    obtain ⟨s, id, pl, rfl⟩ :=
      Controller.eq_data_of_mem_stampAll (List.mem_reverse.mp he)
    rfl

/-- After an emission the other clients are as they were. -/
theorem forgotten_emitted (hm : ∀ y, m.rc.isAborted y = true →
    m.rc.client y = .new) (hx : m.rc.Owed x) :
    ∀ y, (emitted C x m).rc.isAborted y = true →
      (emitted C x m).rc.client y = .new := by
  obtain ⟨hothers, haborted⟩ := RingCompletion.reportSent_frame C.self m.rc x
    (countsOf C x m)
  intro y hab
  have hab' : m.rc.isAborted y = true := (haborted y).symm.trans hab
  have hne : y ≠ x := by
    rintro rfl
    rw [hx.2] at hab'
    cases hab'
  exact (hothers y hne).trans (hm y hab')

theorem owed_emitted {y : UUID} (hy : y ≠ x) :
    (emitted C x m).rc.Owed y ↔ m.rc.Owed y := by
  obtain ⟨hothers, haborted⟩ := RingCompletion.reportSent_frame C.self m.rc x
    (countsOf C x m)
  have hclient : (emitted C x m).rc.client y = m.rc.client y := hothers y hy
  have hab : (emitted C x m).rc.isAborted y = m.rc.isAborted y := haborted y
  rw [RingCompletion.Owed, RingCompletion.Owed, hclient, hab]

theorem Accounting.emitted_of_ne (h : Accounting C c m) (hcx : c ≠ x)
    (hx : m.rc.Owed x) : Accounting C c (emitted C x m) := by
  have hsent : Accounting C c (RingNode.sending C x (resultOf C x m) m) :=
    h.sending (x := x) (resultOf C x m) [] (by simp)
  have hothers := (RingCompletion.reportSent_frame C.self m.rc x
    (countsOf C x m)).1
  have hreported := hsent.change (emitted C x m).state
    (closings (m.rc.markEmitted x (countsOf C x m))
      (m.rc.reportSent C.self x (countsOf C x m)).2 ++
        [.reported x (countsOf C x m)]) (fun _ => le_rfl) ?_ ?_ ?_
        (owed_emitted hcx).mp (forgotten_emitted h.forgotten hx)
  · simpa only [RingNode.sending, emitted, List.append_assoc,
      List.singleton_append] using hreported
  · intro _ s id y pl hmem
    rcases List.mem_append.mp hmem with hmem | hmem
    · exact absurd rfl ((Event.plain_of_mem_closings hmem).1 s id y pl)
    · cases List.mem_singleton.mp hmem
  · intro e he
    rcases List.mem_append.mp he with he | he
    · exact not_report_of_plain (closings _ _)
        (fun _ h => Event.plain_of_mem_closings h) e he
    · rw [List.mem_singleton.mp he]
      simpa [Event.isReport] using fun heq => hcx heq.symm
  · intro hne
    have hclient : (emitted C x m).rc.client c = m.rc.client c :=
      hothers c hcx
    exact Or.inl fun hphase => hne ((congrArg Client.phase hclient).trans hphase)

/-- While the client itself is emitted, the checkpoint still owes it. -/
theorem Accounting.accounted_sending (h : Accounting C c m) (hc : m.rc.Owed c)
    (sent : List (Output β)) : Accounted C c (RingNode.sending C c sent m) :=
  ⟨fun hne => absurd hc.1 hne, fun hne => absurd (h.owed hc).1 hne⟩

/-- Once it is reported, the counters include it. -/
theorem Accounting.emitted_self (hC : Controller.EmitsWhole C)
    (h : Accounting C c m) (hc : m.rc.Owed c) :
    Accounting C c (emitted C c m) := by
  have hphase := RingCompletion.phase_reportSent C.self
    (countsOf C c m) hc.1
  refine ⟨⟨fun _ => Or.inl ?_, fun hne => absurd (h.owed hc).1 hne⟩, fun p => ?_,
    fun ho => absurd ho.1 hphase, forgotten_emitted h.forgotten hc⟩
  · exact kept_emitted hC _ fun e he => Event.plain_of_mem_closings he
  · exact (h.seqs p).trans (Controller.le_seqsAfter _ _ p)

theorem spec_emit_accounting (hC : Controller.EmitsWhole C) (x : UUID)
    (rest : List UUID) (hrest : x ∉ rest) :
    Spec (fun m => Accounting C c m ∧ ∀ y ∈ x :: rest, m.rc.Owed y) (emit C x)
      (fun _ m => Accounting C c m ∧ ∀ y ∈ rest, m.rc.Owed y)
      (Accounted C c) := by
  refine spec_emit x ?_ ?_ (fun m hm => hm.1.toAccounted) ?_
  · rintro m ⟨hm, howed⟩ sent outs hsplit
    by_cases hx : c = x
    · subst hx
      exact hm.accounted_sending (howed c List.mem_cons_self) sent
    · exact (hm.sending sent outs hsplit).toAccounted
  · rintro m ⟨hm, howed⟩
    have hx := howed x List.mem_cons_self
    refine ⟨?_, fun y hy => (owed_emitted ?_).mpr
      (howed y (List.mem_cons_of_mem _ hy))⟩
    · by_cases hcx : c = x
      · subst hcx
        exact hm.emitted_self hC hx
      · exact hm.emitted_of_ne hcx hx
    · rintro rfl
      exact hrest hy
  · rintro m e he ⟨hm, howed⟩
    exact ⟨hm.append [e] (by simpa using Event.plain_of_isBarrier he),
      howed⟩

theorem spec_runEmits_accounting (hC : Controller.EmitsWhole C)
    (xs : List UUID) (hnodup : xs.Nodup) :
    Spec (fun m => Accounting C c m ∧ ∀ y ∈ xs, m.rc.Owed y) (runEmits C xs)
      (fun _ => Accounting C c) (Accounted C c) := by
  induction xs with
  | nil => exact Spec.pure fun m hm => hm.1
  | cons x xs ih =>
      rw [List.nodup_cons] at hnodup
      exact Spec.bind (spec_emit_accounting hC x xs hnodup.1)
        fun _ => ih hnodup.2

theorem spec_free_accounting (xs : List UUID) :
    Spec (Accounting C c) (Prog.forEach xs (free C))
      (fun _ => Accounting C c) (Accounted C c) := by
  refine Spec.forEach (I := fun _ => Accounting C c) xs fun _ y _ _ => ?_
  refine Spec.change (fun m hm => hm.toAccounted) fun m hm => ?_
  exact (hm.change_fn _ _).append [.freed y] (by simp [Event.Plain])

/-- Clients to emit, after an input was counted. -/
theorem Accounting.onRing (h : Accounting C c m)
    {f : RingCompletion → RingCompletion × List UUID}
    (hf : m.rc.Counts x (f m.rc)) :
    (onRing f m).1.Nodup ∧ Accounting C c (onRing f m).2 ∧
      ∀ y ∈ (onRing f m).1, (onRing f m).2.rc.Owed y := by
  have hcounted := h.counted hf
  obtain ⟨hnodup, hready⟩ := hf.emits
  exact ⟨hnodup, hcounted,
    fun y hy => hcounted.owed_of_ready (hready y hy).2⟩

theorem spec_onData_accounting [DecidableEq Q] (hC : Controller.EmitsWhole C)
    (q : Q) (msg : DataMsg α) :
    Spec (Accounting C c) (onData C q msg) (fun _ => Accounting C c)
      (Accounted C c) := by
  have hI : ∀ m, Accounting C c m → Accounted C c m :=
    fun m hm => hm.toAccounted
  refine Spec.bind (Q := fun _ => Accounting C c)
    (Spec.modify fun m hm => hm.change_fn _ m.state.extra) fun _ => ?_
  refine Spec.bind (Q := fun _ => Accounting C c) ?_ fun _ => ?_
  · refine Spec.forEach (I := fun _ => Accounting C c) _ ?_
    intro before o after hsplit
    refine Spec.bind (Q := fun _ => Accounting C c)
      (Spec.change hI fun m hm => ?_)
      fun _ => Spec.modify fun m hm => hm.change_fn m.state.fn _
    exact hm.published msg.clientId fun hstamps =>
      hstamps.1 msg o (by simp [hsplit])
  refine Spec.bind (Q := fun emits m => emits.Nodup ∧ Accounting C c m ∧
    ∀ y ∈ emits, m.rc.Owed y) (Spec.compute fun m hm => ?_)
    fun emits => Spec.of_pre (spec_runEmits_accounting hC emits)
  exact hm.onRing (RingCompletion.counts_onData m.rc msg.clientId)

variable [DecidableEq Q]

/-- A flush keeps the account, and what the completion state says. -/
theorem spec_flush_accounting {A : RingCompletion → Prop} (force : Bool) :
    Spec (fun m => Accounting C c m ∧ A (Node.rc m))
      (Checkpointer.flush C.provider force : NodeProg Q F S E β Unit)
      (fun _ m => Accounting C c m ∧ A (Node.rc m)) (Accounted C c) := by
  refine Checkpointer.spec_checkpointAndFlush
    (R := fun m => Accounting C c m ∧ A (Node.rc m)) ?_ (fun m hm _ _ => hm) ?_ ?_
  · rintro m ⟨hm, hA⟩ -
    exact ⟨hm.toAccounted, ⟨hm.mem, hm.disk⟩, hm.checkpointed, hA⟩
  · rintro m tags rest ⟨hm, -⟩ -
    exact ⟨hm.mem, hm.disk⟩
  · rintro m ⟨hm, hA⟩
    exact ⟨hm.frame rfl rfl rfl, hA⟩

theorem spec_flush_accounting' (force : Bool) :
    Spec (Accounting C c)
      (Checkpointer.flush C.provider force : NodeProg Q F S E β Unit)
      (fun _ => Accounting C c) (Accounted C c) :=
  (spec_flush_accounting (A := fun _ => True) force).conseq
    (fun _ hm => ⟨hm, trivial⟩) (fun _ _ hm => hm.1) fun _ hm => hm

theorem spec_onEof_accounting (hC : Controller.EmitsWhole C) (q : Q) (x : UUID)
    (k : ℤ) :
    Spec (Accounting C c) (onEof C q x k) (fun _ => Accounting C c)
      (Accounted C c) := by
  refine Spec.bind (Q := fun emits m => emits.Nodup ∧ Accounting C c m ∧
    ∀ y ∈ emits, m.rc.Owed y) (Spec.compute fun m hm => ?_)
    fun emits => Spec.of_pre fun hnodup => ?_
  · have hnoted : Accounting C c (m.withState fun s =>
        { s with extra := (C.noteEof q x k m.state.extra).2 }) :=
      hm.change_fn m.state.fn _
    unfold noteEof
    cases htotal : (C.noteEof q x k m.state.extra).1 with
    | none =>
        simp only [htotal]
        exact ⟨List.nodup_nil, hnoted, by simp⟩
    | some total =>
        simp only [htotal]
        exact hnoted.onRing (RingCompletion.counts_onUpstreamEof m.rc x total)
  refine Spec.bind (Q := fun _ m => Accounting C c m ∧
    ∀ y ∈ emits, m.rc.Owed y)
    (Spec.when (fun _ => spec_flush_accounting
      (A := fun rc => ∀ y ∈ emits, rc.Owed y) true) fun _ _ hm => hm)
    fun _ => ?_
  refine Spec.bind (spec_runEmits_accounting hC emits hnodup) fun _ => ?_
  exact Spec.bind (spec_flush_accounting' true)
    fun _ => spec_free_accounting emits

theorem spec_onAbort_accounting (x : UUID) :
    Spec (Accounting C c) (onAbort C x) (fun _ => Accounting C c)
      (Accounted C c) := by
  refine Spec.bind (Q := fun _ => Accounting C c) (Spec.modify fun m hm => ?_)
    fun _ => ?_
  · have hclient : ∀ y, (m.rc.drop x).client y =
        if y = x then .new else m.rc.client y :=
      fun y => RingCompletion.client_drop m.rc x y
    refine hm.change { m.state with rc := m.rc.drop x } [] (fun _ => le_rfl)
      (fresh_of_plain (by simp)) (by simp) (fun hne => Or.inl ?_) ?_ ?_
    · intro hphase
      rw [hclient] at hne
      split at hne
      · exact hne rfl
      · exact hne hphase
    · rintro ⟨hphase, hab⟩
      rw [RingCompletion.isAborted_drop, Bool.or_eq_false_iff,
        decide_eq_false_iff_not] at hab
      rw [hclient, if_neg hab.1] at hphase
      exact ⟨hphase, hab.2⟩
    · intro y hab
      rw [RingCompletion.isAborted_drop, Bool.or_eq_true,
        decide_eq_true_eq] at hab
      rw [hclient]
      split
      · rfl
      · exact hm.forgotten y (hab.resolve_left ‹_›)
  refine Spec.bind (Q := fun _ => Accounting C c)
    (Spec.change (fun m hm => hm.toAccounted) fun m hm => hm.change_fn _ _)
    fun _ => ?_
  refine Spec.bind (Q := fun _ => Accounting C c)
    (Spec.modify fun m hm => hm.frame rfl rfl rfl) fun _ => ?_
  refine Spec.bind (spec_flush_accounting' true) fun _ => ?_
  refine Spec.forEach (I := fun _ => Accounting C c) _ fun _ shard _ _ => ?_
  exact Spec.change (fun m hm => hm.toAccounted) fun m hm =>
    hm.append [.abort shard x] (by simp [Event.Plain])

/-- A token that moves a client on while it is processing closes its barrier
early. -/
theorem closedEarly_of_onToken {self : Peer} {rc : RingCompletion}
    {t : BarrierToken}
    (h : ((rc.onToken self t).1.client c).phase ≠ .processing) :
    (rc.client c).phase ≠ .processing ∨
      ClosedEarly c (closings (β := β) rc (rc.onToken self t).2) := by
  unfold RingCompletion.onToken at h ⊢
  split
  · rename_i hab
    rw [if_pos hab] at h
    exact Or.inl h
  · rename_i hab
    rw [if_neg hab] at h
    rcases advance_cases self (rc.touch t.clientId)
      (RingCompletion.stampToken self rc t) with heq | heq | heq <;>
      rw [heq] at h ⊢
    · exact Or.inl (by simpa using h)
    · exact Or.inl (by simpa using h)
    · by_cases hc : c = t.clientId
      · by_cases hphase : (rc.client c).phase = .processing
        · refine Or.inr ⟨RingCompletion.sumSlots
            (RingCompletion.stampToken self rc t).sentBy, ?_⟩
          simp [closings, ← hc, hphase]
        · exact Or.inl hphase
      · exact Or.inl (by simpa [hc] using h)

theorem spec_onRingMsg_accounting (t : BarrierToken) :
    Spec (Accounting C c) (onRingMsg C t) (fun _ => Accounting C c)
      (Accounted C c) := by
  refine Spec.bind (Q := fun _ => Accounting C c) (Spec.compute fun m hm => ?_)
    fun actions => ?_
  · rw [receiveToken_eq]
    obtain ⟨hclient, haborted⟩ := RingCompletion.onToken_spec
      C.self m.rc t
    have hplain : ∀ e ∈ closings (β := β) m.rc (m.rc.onToken C.self t).2,
        Event.Plain e := fun e he => Event.plain_of_mem_closings he
    refine hm.change { m.state with rc := (m.rc.onToken C.self t).1 } _
      (fun _ => le_rfl) (fresh_of_plain hplain) (not_report_of_plain _ hplain)
      closedEarly_of_onToken ?_
      (RingCompletion.forgotten_onToken C.self t hm.forgotten)
    rintro ⟨hphase, hab⟩
    rcases hclient c with h | h
    · exact ⟨(congrArg Client.phase h).symm.trans hphase,
        (haborted c).symm.trans hab⟩
    · exact absurd (hphase.symm.trans h) (by simp)
  refine Spec.bind (spec_runBarrier actions (fun m hm => hm.toAccounted) ?_)
    fun _ => spec_flush_accounting' true
  intro m e he hm
  exact hm.append [e] (by simpa using Event.plain_of_isBarrier he)

theorem spec_start_accounting (hC : Controller.EmitsWhole C) :
    Spec (fun m => (Accounted C c m ∧ Blank C m) ∧
        ∀ y, m.storedRc.isAborted y = true → m.storedRc.client y = .new)
      (start C) (fun _ => Accounting C c) (Accounted C c) := by
  refine Spec.bind (Q := fun _ m => (Accounted C c m ∧ Blank C m) ∧
      ∀ y, (Node.storedRc m).isAborted y = true →
        (Node.storedRc m).client y = .new)
    (Spec.modify fun m hm => ?_) fun _ => ?_
  · obtain ⟨⟨hm, hb⟩, hforgotten⟩ := hm
    have hplain : ∀ e ∈ [(.restarted : Event β)], Event.Plain e := by
      simp [Event.Plain]
    refine ⟨⟨⟨fun hne => ?_, fun hne => ?_⟩, hb.logged _⟩, hforgotten⟩
    · exact kept_or_append [.restarted] (hm.mem hne)
        (fresh_of_plain hplain) (not_report_of_plain _ hplain)
        (fun _ => le_rfl) fun _ => le_rfl
    · exact kept_or_append [.restarted] (hm.disk hne)
        (fresh_of_plain hplain) (not_report_of_plain _ hplain)
        (fun _ => le_rfl) fun _ => le_rfl
  refine Spec.bind (Q := fun _ => Accounting C c)
    (Checkpointer.spec_restore (fun m hm => hm.1.1) ?_ ?_) fun restored => ?_
  · rintro m ⟨⟨hm, hb⟩, -⟩ hnone
    have hnew : m.state.rc = .new := hb.rc
    have hseqs : Node.storedSeqs m = fun _ => 0 := by
      simp [Node.storedSeqs, hnone]
    have hrc : Node.storedRc m = .new := by simp [Node.storedRc, hnone]
    refine ⟨⟨fun hne => ?_, hm.disk⟩, fun p => ?_, fun _ => ?_, fun y hab => ?_⟩
    · have hne' : (m.state.rc.client c).phase ≠ .processing := hne
      simp [hnew] at hne'
    · change Node.storedSeqs m p ≤ _
      simp [hseqs]
    · change (Node.storedRc m).Owed c
      rw [hrc]
      exact ⟨rfl, rfl⟩
    · have hab' : m.state.rc.isAborted y = true := hab
      simp [hnew] at hab'
  · rintro m b ⟨⟨hm, hb⟩, hforgotten⟩ hstore
    have hseqs : Node.storedSeqs m = b.state.outSeq := by
      simp [Node.storedSeqs, hstore]
    have hrc : Node.storedRc m = b.state.rc := by
      simp [Node.storedRc, hstore]
    have hdisk := hm.disk
    rw [hseqs, hrc] at hdisk
    rw [hrc] at hforgotten
    refine ⟨⟨hdisk, hm.disk⟩, fun p => ?_, fun ho => ?_, hforgotten⟩
    · change Node.storedSeqs m p ≤ b.state.outSeq p
      rw [hseqs]
    · change (Node.storedRc m).Owed c
      rw [hrc]
      exact ho
  refine Spec.bind (Q := fun _ => Accounting C c)
    (Spec.when (fun _ => ?_) fun _ _ hm => hm)
    fun _ => Spec.modify fun m hm => hm.frame rfl rfl rfl
  refine Spec.read_bind fun m => ?_
  refine Spec.bind ((spec_runEmits_accounting hC m.rc.recheck
    (RingCompletion.nodup_recheck _)).pre ?_) fun _ => ?_
  · rintro _ ⟨rfl, hm⟩
    exact ⟨hm, fun y hy => hm.owed_of_ready (RingCompletion.mem_recheck.mp hy)⟩
  refine Spec.read_bind fun m' => ?_
  exact Spec.bind ((spec_free_accounting _).pre fun m hm => hm.2)
    fun _ => spec_flush_accounting' true

/-! ## Runs -/

variable {arrivals : Q → ℕ → Option (Message α)} {fifo : Bool}

theorem spec_onDataMsg_accounting (hC : Controller.EmitsWhole C) (tag : Q × ℕ)
    (msg : Message α) :
    Spec (Accounting C c) (onDataMsg C tag msg) (fun _ => Accounting C c)
      (Accounted C c) := by
  have hI : ∀ m, Accounting C c m → Accounted C c m :=
    fun m hm => hm.toAccounted
  have hack : ∀ m : Node Q F S E β, Accounting C c m →
      Accounting C c (m.ackTag tag) := fun m hm => hm.frame rfl rfl rfl
  refine Checkpointer.spec_dispatch ?_ ?_ ?_
  · rintro x k -
    refine Spec.bind (spec_flush_accounting' false) fun _ => ?_
    exact Spec.bind (spec_onEof_accounting hC tag.1 x k) fun _ =>
      Checkpointer.spec_ack hI hack
  · rintro x -
    exact Spec.bind (spec_onAbort_accounting x) fun _ =>
      Checkpointer.spec_ack hI hack
  · rintro d -
    refine Checkpointer.spec_handleData (R := Accounting C c) ?_ ?_ ?_ ?_
      fun _ hm _ => hm
    · exact fun m hm _ => ⟨hI m hm, hack m hm⟩
    · exact fun m hm _ _ => ⟨hI m hm, hack m hm⟩
    · exact (spec_onData_accounting hC tag.1 d).conseq (fun _ hm => hm.1)
        (fun _ m hm => hm.frame rfl rfl rfl) fun _ hm => hm
    · exact (spec_flush_accounting' false).pre fun _ hm => hm.1

theorem spec_call_accounting (hC : Controller.EmitsWhole C) (call : Call Q) :
    Spec (fun m => NodeInv C (Accounting C c) (Accounted C c) m ∧
        Enabled arrivals fifo call m)
      (handler C arrivals call) (fun _ => Accounting C c) (Accounted C c) := by
  cases call with
  | start =>
      refine (spec_start_accounting hC).pre fun m hm => ?_
      exact ⟨hm.1.stored hm.2, fun y => (hm.1.forgotten y).2⟩
  | token t =>
      exact (spec_onRingMsg_accounting t).pre fun m hm => hm.1.live hm.2
  | deliver tag =>
      change Spec _ (receive C tag (arrivals tag.1 tag.2)) _ _
      cases arrivals tag.1 tag.2 with
      | none => exact Spec.pure fun m hm => hm.1.live hm.2.1
      | some msg =>
          refine Spec.bind (Spec.modify fun m hm => ?_) fun _ =>
            spec_onDataMsg_accounting hC tag msg
          exact (hm.1.live hm.2.1).frame rfl rfl rfl

/-- In every state a node passes through. -/
theorem accounted_visits (hC : Controller.EmitsWhole C)
    {crashable : Node Q F S E β → Prop} {f₀ : F}
    (h : (system C arrivals fifo crashable).Visits
      (Machine.initial (C.fresh f₀)) m) : Accounted C c m := by
  have hreboot : ∀ (m : Node Q F S E β) k, Accounted C c m →
      Accounted C c (m.reboot C.provider k) :=
    fun m k hm => ⟨fun hne => absurd rfl hne, hm.disk⟩
  refine node_visits (L := Accounting C c) (D := Accounted C c) (fun m hm => ?_)
    (fun m hm => hm.toAccounted) (fun m hm => hm)
    (fun call => (spec_call_accounting hC call).post fun _ _ _ => trivial) h
  refine nodeInv_reach ?_ (fun call => ?_) ?_ hm
  · exact ⟨fun hne => absurd rfl hne, fun hne => absurd rfl hne⟩
  · exact (spec_call_accounting hC call).conseq (fun _ hm => hm)
      (fun _ _ hm => hm) fun m hm _ k => hreboot m k hm
  · rintro m (hm | hm) - k
    · exact hreboot m k hm.toAccounted
    · exact hreboot m k hm

end RingNode
