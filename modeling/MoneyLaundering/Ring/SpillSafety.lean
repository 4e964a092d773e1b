import MoneyLaundering.Ring.Spilling

/-!
# The spill of a node through its runs

A checkpoint that has a client in processing finds on disk all that was there when it was
written, as long as no crash falls between the deletion of a client that `start` emitted again
and the checkpoint that follows.  What the node sends of the client under such a checkpoint is
one emission, the first time and every later time.
-/

open Crash

namespace RingNode

variable {Q F S E α β : Type} {C : Controller Q F S E α β} {c x : UUID} {L : Spilling C c}
  {emits : List UUID} {m m' : Node Q F S E β}

/-! ## Handlers -/

/-- Entries that are not about the client. -/
theorem Poised.logged (h : Poised L emits m) {e : Event β} (he : e.Aside c) :
    Poised L emits (m.logged e) := by
  refine h.append [e] fun e' he' => ?_
  rw [List.mem_singleton.mp he']
  exact he

/-- A change of the completion state that completes the clients `emits'`. -/
theorem Poised.complete {emits' : List UUID} (h : Poised L emits m) (s : NodeState F E)
    (hfn : s.fn = m.state.fn) (hready : ∀ y, y ∈ emits' ↔ (s.rc.client y).ready = true)
    (hone : ∀ y ∈ emits', ∀ z ∈ emits', y = z)
    (hphase : (s.rc.client c).phase = .processing → (m.rc.client c).phase = .processing) :
    Poised L emits' { m with state := s } :=
  ⟨h.safe.frame hfn rfl rfl, hready, hone, fun hc => h.untouched (hphase hc)⟩

/-- A clean flush. -/
theorem Poised.checkpointed (h : Poised L emits m) :
    Due L emits (m.checkpointed C.provider) ∧
      Node.storedRc (m.checkpointed C.provider) = m.rc := by
  have hold : L.old (C.fn.snapshotState m.state.fn).1 = (C.fn.snapshotState m.state.fn).2 :=
    L.old_eq _
  refine ⟨⟨⟨⟨fun _ => ⟨?_, ?_⟩, ?_, ?_, ?_⟩, h.ready, h.one, h.untouched⟩, ?_⟩, rfl⟩
  · intro b hb _
    obtain rfl := Option.some.inj hb
    change L.Keeps (L.old (C.fn.snapshotState m.state.fn).1) _
    rw [hold]
    exact L.refl _
  · intro b hb _
    obtain rfl := Option.some.inj hb
    change L.Settled (L.old (C.fn.snapshotState m.state.fn).1) _
    rw [hold]
    exact L.settled_snapshot _
  · intro b hb
    obtain rfl := Option.some.inj hb
    exact ⟨m.state.fn, rfl⟩
  · intro b hb y z hy hz
    obtain rfl := Option.some.inj hb
    exact h.one y ((h.ready y).mpr hy) z ((h.ready z).mpr hz)
  · intro b hb hready _
    obtain rfl := Option.some.inj hb
    have huntouched := h.untouched (Client.ready_iff.mp hready).1
    change Event.sentOf c m.log <+: _ ∧ _
    rw [huntouched.sent]
    exact ⟨List.nil_prefix, fun counts hmem => absurd hmem (huntouched.reported counts)⟩
  · intro b hb hready
    obtain rfl := Option.some.inj hb
    refine ⟨(h.ready c).mpr hready, rfl, fun _ => ?_⟩
    change (C.getResult c (C.fn.snapshotState m.state.fn).2).1 = _
    change _ = (C.getResult c (L.old (C.fn.snapshotState m.state.fn).1)).1
    rw [hold]

theorem SpillSafe.snapshotted (h : SpillSafe L m) : SpillSafe L (m.snapshotted C.provider) := by
  obtain ⟨hkeeps, hsettled⟩ := L.snapshot m.state.fn
  exact h.move (C.provider.snapshotState m.state).2 hkeeps fun _ => hsettled

variable [DecidableEq Q]

theorem SpillSafe.ackAll (h : SpillSafe L m) (tags : List (Q × ℕ)) : SpillSafe L (m.ackAll tags) :=
  h.frame rfl rfl rfl

/-- A forced flush writes what memory has, and leaves memory. -/
theorem spec_flush_poised (P : RingCompletion → Prop) :
    Spec (fun m => Poised L emits m ∧ P m.rc)
      (Checkpointer.flush C.provider true : NodeProg Q F S E β Unit)
      (fun _ m => Due L emits m ∧ m.storedRc = m.rc ∧ P m.rc) (SpillSafe L) := by
  refine Checkpointer.spec_checkpointAndFlush
    (R := fun m : Node Q F S E β => Due L emits m ∧ m.storedRc = m.rc ∧ P m.rc) ?_ (by simp)
      ?_ ?_
  · intro m hm _
    obtain ⟨hdue, hrc⟩ := hm.1.checkpointed
    exact ⟨hm.1.safe, hm.1.safe.snapshotted, hdue, hrc, hm.2⟩
  · exact fun m tags _ hm _ => hm.1.safe.ackAll tags
  · exact fun m hm => ⟨hm.1.frame rfl rfl rfl, hm.2⟩

/-- A forced flush between two emissions. -/
theorem spec_flush_settle :
    Spec (Poised L emits) (Checkpointer.flush C.provider true : NodeProg Q F S E β Unit)
      (fun _ => Due L emits) (SpillSafe L) :=
  ((spec_flush_poised fun _ => True).pre fun _ hm => ⟨hm, trivial⟩).post fun _ _ hm => hm.1

theorem spec_flush_due (force : Bool) :
    Spec (Due L []) (Checkpointer.flush C.provider force : NodeProg Q F S E β Unit)
      (fun _ => Due L []) (SpillSafe L) := by
  refine Checkpointer.spec_checkpointAndFlush (R := Due L []) ?_ (fun _ hm _ _ => hm) ?_ ?_
  · exact fun m hm _ => ⟨hm.safe, hm.safe.snapshotted, hm.toPoised.checkpointed.1⟩
  · exact fun m tags _ hm _ => hm.safe.ackAll tags
  · exact fun m hm => hm.frame rfl rfl rfl

omit [DecidableEq Q] in
/-- The clients that are complete are emitted: there is at most one.  `st` is the checkpoint,
and `r` what is known if the client was resolved before. -/
theorem spec_runEmits_due (hnodup : emits.Nodup) (st : Option (Blob (NodeSnapshot S E)))
    (r : Prop) :
    Spec (fun m => Due L emits m ∧ m.store = st ∧ ((m.rc.client c).phase ≠ .processing → r))
      (runEmits C emits)
      (fun _ m => Poised L [] m ∧ (∀ x ∈ emits, (m.rc.client x).phase ≠ .processing) ∧
        m.store = st ∧ ((m.rc.client c).phase ≠ .processing → r ∨ c ∈ emits))
      (SpillSafe L) := by
  match emits, hnodup with
  | [], _ =>
      refine Spec.pure fun m hm => ⟨hm.1.toPoised, ?_, hm.2.1, fun hphase => ?_⟩
      · exact fun _ hx => absurd hx List.not_mem_nil
      · exact Or.inl (hm.2.2 hphase)
  | [x], _ =>
      refine Spec.bind (spec_emit x (fun m hm sent rest hsplit => hm.1.safe_sending hsplit)
        (fun m hm => ⟨hm.1.poised_emitted, fun y hy => ?_, hm.2.1, fun hphase => ?_⟩)
        (fun m hm => hm.1.safe)
        fun m e he hm => ⟨hm.1.logged (Event.aside_of_isBarrier he), hm.2⟩)
          fun _ => Spec.pure fun _ hm => hm
      · rw [List.mem_singleton.mp hy]
        have hready := (hm.1.ready x).mp List.mem_cons_self
        exact RingCompletion.phase_reportSent C.self (countsOf C x m)
          (Client.ready_iff.mp hready).1
      · by_cases hx : c = x
        · exact Or.inr (List.mem_singleton.mpr hx)
        · have hothers :=
            (RingCompletion.reportSent_frame C.self m.rc x (countsOf C x m)).1 c hx
          refine Or.inl (hm.2.2 fun hold => hphase ?_)
          change ((m.rc.reportSent C.self x (countsOf C x m)).1.client c).phase = _
          rw [hothers]
          exact hold
  | x :: y :: rest, hnodup =>
      rintro m ⟨hm, -⟩
      have heq : x = y := hm.one x (by simp) y (by simp)
      simp [heq] at hnodup

/-- Clients to be freed: memory has them past processing.  If client `c` is one of them, the
checkpoint has it past processing, or has it complete and does not know of its emission
yet. -/
structure Freeable (c : UUID) (xs : List UUID) (m : Node Q F S E β) : Prop where
  resolved : ∀ x ∈ xs, (m.rc.client x).phase ≠ .processing
  stored : c ∈ xs → ∀ b, m.store = some b →
    (b.state.rc.client c).ready = true ∨ (b.state.rc.client c).phase ≠ .processing

omit [DecidableEq Q] in
theorem spec_free_poised (xs : List UUID) (st : Option (Blob (NodeSnapshot S E))) :
    Spec (fun m => Poised L [] m ∧ m.store = st ∧ Freeable c xs m)
      (Prog.forEach xs (free C)) (fun _ m => Poised L [] m ∧ m.store = st) (SpillSafe L) := by
  refine (Spec.forEach (I := fun _ m => Poised L [] m ∧ m.store = st ∧ Freeable c xs m) xs
    fun before x after hxs => ?_).post fun _ m hm => ⟨hm.1, hm.2.1⟩
  have hmem : x ∈ xs := by simp [hxs]
  refine Spec.change (fun m hm => hm.1.safe) fun m hm => ?_
  obtain ⟨hm, rfl, hfreeable⟩ := hm
  refine ⟨?_, rfl, hfreeable.resolved, hfreeable.stored⟩
  by_cases hx : x = c
  · subst hx
    refine ⟨⟨fun hnot => ?_, hm.safe.taken, hm.safe.one, fun b hb hready halike => ?_⟩, hm.ready,
      hm.one, fun hphase => absurd hphase (hfreeable.resolved x hmem)⟩
    · have hphase : ∀ b, m.store = some b → (b.state.rc.client x).phase ≠ .processing := by
        intro b hb
        refine (hfreeable.stored hmem b hb).resolve_left fun hready => ?_
        refine hnot ⟨?_, List.mem_cons_self⟩
        change (m.storedRc.client x).ready = true
        rw [storedRc_eq hb]
        exact hready
      exact ⟨fun b hb h => absurd h (hphase b hb),
        fun b hb h => absurd (Client.ready_iff.mp h).1 (hphase b hb)⟩
    · obtain ⟨hpart, hall⟩ := hm.safe.sent b hb hready halike
      exact ⟨hpart, fun counts hreported =>
        hall counts ((List.mem_cons.mp hreported).resolve_left (by simp))⟩
  · obtain ⟨hkeeps, hsettled⟩ := L.free x m.state.fn m.state.extra hx
    have haside : ∀ e ∈ [(.freed x : Event β)], e.Aside c := by
      intro e he
      rw [List.mem_singleton.mp he]
      exact ⟨rfl, rfl, by simp, by simp [hx]⟩
    exact hm.change [.freed x] (hm.safe.step [.freed x] rfl hkeeps (fun _ => hsettled) rfl haside)
      rfl rfl haside

omit [DecidableEq Q] in
/-- Counting an input may complete its client, and only this one. -/
theorem Due.counted (h : Due L [] m) {r : RingCompletion × List UUID} (hr : m.rc.Counts x r)
    (s : NodeState F E) (hfn : s.fn = m.state.fn) (hrc : s.rc = r.1) :
    Due L r.2 { m with state := s } ∧ r.2.Nodup := by
  have hquiet : ∀ y, (m.rc.client y).ready = false := by
    intro y
    by_contra hready
    exact List.not_mem_nil ((h.ready y).mpr (by simpa using hready))
  refine ⟨Poised.due (h.toPoised.complete s hfn ?_ ?_ ?_) h.unready, hr.emits.1⟩
  · rw [hrc]
    exact hr.mem_iff hquiet
  · exact fun y hy z hz => (hr.eq_of_mem hy).trans (hr.eq_of_mem hz).symm
  · rw [hrc, hr.phase_eq]
    exact id

omit [DecidableEq Q] in
/-- Clients that a message completes are emitted under the checkpoint before it. -/
theorem spec_runEmits_unready (hnodup : emits.Nodup) :
    Spec (fun m => Due L emits m ∧ (m.storedRc.client c).ready = false) (runEmits C emits)
      (fun _ => Due L []) (SpillSafe L) := by
  intro m hm
  have hspec := spec_runEmits_due hnodup m.store True m ⟨hm.1, rfl, fun _ => trivial⟩
  refine ⟨hspec.1, hspec.2.1.due ?_⟩
  rw [Node.storedRc, hspec.2.2.2.1]
  exact hm.2

omit [DecidableEq Q] in
/-- A new message changes the business state and a counter, and may complete its client. -/
theorem spec_onData_due (q : Q) (msg : DataMsg α) :
    Spec (Due L []) (onData C q msg) (fun _ => Due L []) (SpillSafe L) := by
  refine Spec.bind (Q := fun _ => Due L []) (Spec.modify fun m hm => ?_) fun _ => ?_
  · exact hm.move { m.state with fn := C.process q msg m.state.fn } rfl (L.process q msg _)
  rw [L.silent]
  refine Spec.bind (Q := fun _ => Due L []) (Spec.pure fun _ hm => hm) fun _ => ?_
  refine Spec.bind (Q := fun emits m => emits.Nodup ∧ Due L emits m ∧
    (m.storedRc.client c).ready = false) (Spec.compute fun m hm => ?_)
      fun emits => Spec.of_pre fun hnodup => spec_runEmits_unready hnodup
  obtain ⟨hdue, hnodup⟩ := hm.counted (RingCompletion.counts_onData m.rc msg.clientId)
    { m.state with rc := (m.rc.onData msg.clientId).1 } rfl rfl
  exact ⟨hnodup, hdue, hm.unready⟩

omit [DecidableEq Q] in
/-- An announced count may complete its client, and only this one. -/
theorem Due.noteEof (h : Due L [] m) (q : Q) (k : ℤ) :
    Due L (noteEof C q x k m).1 (noteEof C q x k m).2 ∧ (noteEof C q x k m).1.Nodup := by
  have hpoised : Due L [] (m.withState fun s =>
      { s with extra := (C.noteEof q x k m.state.extra).2 }) :=
    Poised.due (h.toPoised.complete { m.state with extra := (C.noteEof q x k m.state.extra).2 }
      rfl h.ready h.one id) h.unready
  cases htotal : (C.noteEof q x k m.state.extra).1 with
  | none =>
      rw [noteEof_none htotal]
      exact ⟨hpoised, List.nodup_nil⟩
  | some total =>
      rw [noteEof_some htotal]
      exact hpoised.counted (RingCompletion.counts_onUpstreamEof m.rc x total)
        { m.state with
          extra := (C.noteEof q x k m.state.extra).2
          rc := (m.rc.onUpstreamEof x total).1 } rfl rfl

/-- The checkpoint is written before the emission and after it, and only then the client is
freed. -/
theorem spec_onEof_due (q : Q) (x : UUID) (k : ℤ) :
    Spec (Due L []) (onEof C q x k) (fun _ => Due L []) (SpillSafe L) := by
  refine Spec.bind (Q := fun emits m => emits.Nodup ∧ Due L emits m)
    (Spec.compute fun m hm => ?_) fun emits => Spec.of_pre fun hnodup => ?_
  · obtain ⟨hdue, hnodup⟩ := hm.noteEof q k
    exact ⟨hnodup, hdue⟩
  refine Spec.bind (Q := fun _ => Due L emits) (Spec.when ?_ fun _ _ hm => hm) fun _ => ?_
  · intro _
    exact spec_flush_settle.pre fun m hm => hm.toPoised
  refine Spec.bind (Q := fun _ m => Poised L [] m ∧
    ∀ x ∈ emits, (m.rc.client x).phase ≠ .processing) ?_ fun _ => ?_
  · intro m hm
    obtain ⟨hpoints, hpoised, hresolved, -⟩ :=
      spec_runEmits_due hnodup m.store True m ⟨hm, rfl, fun _ => trivial⟩
    exact ⟨hpoints, hpoised, hresolved⟩
  refine Spec.bind (Q := fun _ m => Due L [] m ∧ Freeable c emits m) ?_ fun _ => ?_
  · refine (spec_flush_poised fun rc => ∀ x ∈ emits, (rc.client x).phase ≠ .processing).post
      fun _ m hm => ⟨hm.1, hm.2.2, ?_⟩
    intro hc b hb
    refine Or.inr ?_
    rw [← storedRc_eq hb, hm.2.1]
    exact hm.2.2 c hc
  · intro m hm
    obtain ⟨hpoints, hpoised, hstore⟩ := spec_free_poised emits m.store m ⟨hm.1.toPoised, rfl, hm.2⟩
    refine ⟨hpoints, hpoised.due ?_⟩
    rw [Node.storedRc, hstore]
    exact hm.1.unready

theorem spec_onAbort_due (hx : x ≠ c) :
    Spec (Due L []) (onAbort C x) (fun _ => Due L []) (SpillSafe L) := by
  refine Spec.bind (Q := fun _ => Due L []) (Spec.modify fun m hm => ?_) fun _ => ?_
  · have hclient : ∀ y, (m.rc.drop x).client y = if y = x then .new else m.rc.client y :=
      fun y => RingCompletion.client_drop m.rc x y
    refine Poised.due (hm.toPoised.complete { m.state with rc := m.rc.drop x } rfl (fun y => ?_)
      (fun y hy => absurd hy List.not_mem_nil) ?_) hm.unready
    · rw [hclient]
      split
      · simp
      · exact hm.ready y
    · rw [hclient, if_neg (Ne.symm hx)]
      exact id
  refine Spec.bind (Q := fun _ => Due L []) (Spec.change (fun m hm => hm.safe)
    fun m hm => ?_) fun _ => ?_
  · exact hm.move { m.state with
      fn := (C.discard x m.state.fn m.state.extra).1
      extra := (C.discard x m.state.fn m.state.extra).2 } rfl (L.discard x _ _ hx)
  refine Spec.bind (Q := fun _ => Due L []) (Spec.modify fun m hm => hm.frame rfl rfl rfl)
    fun _ => ?_
  refine Spec.bind (spec_flush_due true) fun _ => ?_
  refine Spec.forEach (I := fun _ => Due L []) _ fun _ shard _ _ => ?_
  refine Spec.change (fun m hm => hm.safe) fun m hm => ?_
  exact (hm.toPoised.logged ⟨rfl, rfl, by simp, by simp⟩).due hm.unready

theorem spec_onRingMsg_due (t : BarrierToken) :
    Spec (Due L []) (onRingMsg C t) (fun _ => Due L []) (SpillSafe L) := by
  refine Spec.bind (Q := fun _ => Poised L []) (Spec.compute fun m hm => ?_) fun actions => ?_
  · rw [receiveToken_eq]
    obtain ⟨hclient, -⟩ := RingCompletion.onToken_spec C.self m.rc t
    have hchanged : Poised L [] { m with
        state := { m.state with rc := (m.rc.onToken C.self t).1 } } :=
      hm.toPoised.complete _ rfl (fun y => ?_) (fun y hy => absurd hy List.not_mem_nil)
        fun hphase => ?_
    · exact hchanged.append _ fun e he => Event.aside_of_mem_closings he
    · rcases hclient y with h | h
      · rw [h]
        exact hm.ready y
      · simp [Client.ready, h]
    · rcases hclient c with h | h
      · rw [← h]
        exact hphase
      · rw [h] at hphase
        cases hphase
  refine Spec.bind (spec_runBarrier actions (fun m hm => hm.safe) fun m e he hm =>
    hm.logged (Event.aside_of_isBarrier he)) fun _ => spec_flush_settle

omit [DecidableEq Q] in
/-- A new process has done nothing yet. -/
theorem SpillSafe.restarted (h : SpillSafe L m) (hdisk : OnDisk L m) :
    SpillSafe L (m.logged .restarted) := by
  have huntouched : Event.Untouched c (m.logged .restarted).log := Event.untouched_restarted
  refine ⟨fun _ => ⟨hdisk.kept, hdisk.settled⟩, h.taken, h.one, fun b hb hready halike => ?_⟩
  rw [huntouched.sent]
  exact ⟨List.nil_prefix, fun counts hmem => absurd hmem (huntouched.reported counts)⟩

omit [DecidableEq Q] in
/-- What a new process restores is what the checkpoint fixes. -/
theorem SpillSafe.restored (h : SpillSafe L m) (huntouched : Event.Untouched c m.log)
    {b : Blob (NodeSnapshot S E)} (hb : m.store = some b) :
    Due L b.state.rc.recheck (m.restored C.provider b) := by
  have hdisk := h.onDisk (not_freedEarly huntouched.freed)
  obtain ⟨f, hf⟩ := h.taken b hb
  have hold : L.old b.state.state = (C.fn.snapshotState f).2 := by
    rw [hf]
    exact L.old_eq f
  refine ⟨⟨⟨fun _ => ⟨?_, ?_⟩, h.taken, h.one, h.sent⟩, fun x => RingCompletion.mem_recheck,
    ?_, fun _ => huntouched⟩, ?_⟩
  · intro b' hb' hphase
    obtain rfl : b = b' := Option.some.inj (hb.symm.trans hb')
    have hkept := hdisk.kept b hb hphase
    change L.Keeps _ (C.fn.restoreState b.state.state m.state.fn)
    rw [hold] at hkept ⊢
    rw [hf]
    exact L.restore f _ hkept
  · intro b' hb' hready
    obtain rfl : b = b' := Option.some.inj (hb.symm.trans hb')
    have hsettled := hdisk.settled b hb hready
    change L.Settled _ (C.fn.restoreState b.state.state m.state.fn)
    rw [hold] at hsettled ⊢
    rw [hf]
    exact L.settled_restore f _ hsettled
  · intro x hx y hy
    exact h.one b hb x y (RingCompletion.mem_recheck.mp hx) (RingCompletion.mem_recheck.mp hy)
  · intro b' hb' hready
    obtain rfl : b = b' := Option.some.inj (hb.symm.trans hb')
    refine ⟨RingCompletion.mem_recheck.mpr hready, rfl, fun halike => ?_⟩
    have hsettled := hdisk.settled b hb hready
    change (C.getResult c (C.fn.restoreState b.state.state m.state.fn)).1 = _
    rw [hold] at halike hsettled ⊢
    rw [hf]
    exact L.result f _ halike hsettled

/-- The clients that memory has past processing are freed, and the checkpoint is written. -/
theorem spec_free_resolved :
    Spec (fun m => Poised L [] m ∧ ((m.rc.client c).phase ≠ .processing →
        ∀ b, m.store = some b → (b.state.rc.client c).ready = true ∨
          (b.state.rc.client c).phase ≠ .processing))
      (do
        let m : Node Q F S E β ← Prog.read
        Prog.forEach m.rc.resolvedClients (free C)
        Checkpointer.flush C.provider true)
      (fun _ => Due L []) (SpillSafe L) := by
  refine Spec.read_bind fun m => Spec.bind (Q := fun _ => Poised L [])
    ((spec_free_poised m.rc.resolvedClients m.store).conseq ?_ (fun _ _ hm => hm.1)
      fun _ hm => hm) fun _ => spec_flush_settle
  rintro _ ⟨rfl, hpoised, hknown⟩
  exact ⟨hpoised, rfl, fun x hx => RingCompletion.mem_resolvedClients.mp hx,
    fun hc => hknown (RingCompletion.mem_resolvedClients.mp hc)⟩

/-- The checkpoint is taken over, what it has complete is emitted again, and what is resolved
is freed before the next checkpoint. -/
theorem spec_start_due :
    Spec (fun m => OnDisk L m ∧ SpillSafe L m ∧ m.rc = .new) (start C)
      (fun _ => Due L []) (SpillSafe L) := by
  refine Spec.bind (Q := fun _ m => SpillSafe L m ∧ Event.Untouched c m.log ∧ m.rc = .new)
    (Spec.modify fun m hm => ⟨hm.2.1.restarted hm.1, Event.untouched_restarted, hm.2.2⟩)
      fun _ => ?_
  refine Spec.bind (Q := fun restored m => if restored = true
      then Due L m.rc.recheck m ∧ m.storedRc = m.rc else Due L [] m)
    (Checkpointer.spec_restore (fun m hm => hm.1) ?_ ?_) fun restored => ?_
  · rintro m ⟨-, huntouched, hrc⟩ hnone
    have habsurd : ∀ b, m.store ≠ some b := by simp [hnone]
    have hsafe : SpillSafe L { m with
        state := C.provider.clearStaleSpill m.state } :=
      ⟨fun _ => ⟨fun b hb => absurd hb (habsurd b), fun b hb => absurd hb (habsurd b)⟩,
        fun b hb => absurd hb (habsurd b), fun b hb => absurd hb (habsurd b),
        fun b hb => absurd hb (habsurd b)⟩
    rw [if_neg (by simp)]
    refine ⟨⟨hsafe, fun x => ?_, fun x hx => absurd hx List.not_mem_nil, fun _ => huntouched⟩,
      fun b hb => absurd hb (habsurd b)⟩
    change _ ↔ (Node.rc m |>.client x).ready = true
    simp [hrc]
  · rintro m b ⟨hsafe, huntouched, -⟩ hb
    rw [if_pos rfl]
    exact ⟨hsafe.restored huntouched hb, storedRc_eq hb⟩
  refine Spec.bind (Q := fun _ => Due L []) (Spec.when ?_ ?_) fun _ =>
    Spec.modify fun m hm => hm.frame rfl rfl rfl
  · intro hrestored
    refine Spec.pre ?_ (P := fun m => Due L m.rc.recheck m ∧ m.storedRc = m.rc)
      fun m hm => by rwa [if_pos hrestored] at hm
    refine Spec.read_bind fun m => ?_
    rintro m₀ ⟨rfl, hdue, hrc⟩
    have hstored : ∀ b, m₀.store = some b → b.state.rc = m₀.rc := fun b hb =>
      (storedRc_eq hb).symm.trans hrc
    have hemits := spec_runEmits_due (L := L) (C := C) (RingCompletion.nodup_recheck m₀.rc)
      m₀.store (∀ b, m₀.store = some b → (b.state.rc.client c).phase ≠ .processing)
    refine Spec.bind hemits (fun _ => spec_free_resolved.pre fun m hm => ⟨hm.1, ?_⟩) m₀
      ⟨hdue, rfl, fun hphase b hb => (hstored b hb).symm ▸ hphase⟩
    intro hphase b hb
    rw [hm.2.2.1] at hb
    refine (hm.2.2.2 hphase).symm.imp (fun hready => ?_) fun h => h b hb
    rw [hstored b hb]
    exact RingCompletion.mem_recheck.mp hready
  · rintro hrestored m hm
    rwa [if_neg hrestored] at hm

/-! ## Runs -/

omit [DecidableEq Q] in
/-- What was on disk stays there when the process crashes. -/
theorem SpillSafe.reboot (h : SpillSafe L m) (hdisk : OnDisk L m) (k : UUID → ℕ → ℕ) :
    OnDisk L (m.reboot C.provider k) ∧ SpillSafe L (m.reboot C.provider k) := by
  obtain ⟨hkeeps, hsettled⟩ := L.fresh k m.state.fn
  have hsafe : SpillSafe L (m.reboot C.provider k) :=
    h.step [] rfl hkeeps (fun _ => hsettled) rfl fun _ he => absurd he List.not_mem_nil
  exact ⟨⟨fun b hb hphase => L.trans _ _ _ (hdisk.kept b hb hphase) hkeeps,
    fun b hb hready => hsettled _ (hdisk.settled b hb hready)⟩, hsafe⟩

/-- The call hands over an abort of the client. -/
def Aborts (arrivals : Q → ℕ → Option (Message α)) (c : UUID) : Call Q → Prop
  | .deliver tag => arrivals tag.1 tag.2 = some (.abort c)
  | _ => False

/-- A node with its queues that has received no abort of client `c`. -/
def unaborted (C : Controller Q F S E α β) (arrivals : Q → ℕ → Option (Message α))
    (fifo : Bool) (c : UUID) (crashable : Node Q F S E β → Prop) :
    System Effect (Node Q F S E β) (Call Q) (UUID → ℕ → ℕ) :=
  { system C arrivals fifo crashable with
    enabled := fun call m => Enabled arrivals fifo call m ∧ ¬Aborts arrivals c call }

instance [DecidableEq α] (arrivals : Q → ℕ → Option (Message α)) (c : UUID) :
    DecidablePred (Aborts arrivals c)
  | .start => isFalse id
  | .deliver tag => inferInstanceAs (Decidable (arrivals tag.1 tag.2 = some (.abort c)))
  | .token _ => isFalse id

instance [DecidableEq α] (C : Controller Q F S E α β)
    (arrivals : Q → ℕ → Option (Message α)) (fifo : Bool) (c : UUID)
    (crashable : Node Q F S E β → Prop) (call : Call Q) :
    DecidablePred ((unaborted C arrivals fifo c crashable).enabled call) := fun m =>
  inferInstanceAs (Decidable (Enabled arrivals fifo call m ∧ ¬Aborts arrivals c call))

instance (C : Controller Q F S E α β) (arrivals : Q → ℕ → Option (Message α)) (fifo : Bool)
    (c : UUID) (crashable : Node Q F S E β → Prop) [DecidablePred crashable] (call : Call Q)
    (k : UUID → ℕ → ℕ) :
    DecidablePred ((unaborted C arrivals fifo c crashable).crashable call k) :=
  inferInstanceAs (DecidablePred crashable)

variable {arrivals : Q → ℕ → Option (Message α)} {fifo : Bool} {f₀ : F}

theorem spec_onDataMsg_due (tag : Q × ℕ) {msg : Message α} (hmsg : msg ≠ .abort c) :
    Spec (Due L []) (onDataMsg C tag msg) (fun _ => Due L []) (SpillSafe L) := by
  have hack : ∀ m : Node Q F S E β, Due L [] m → Due L [] (m.ackTag tag) :=
    fun m hm => hm.frame rfl rfl rfl
  refine Checkpointer.spec_dispatch (fun x k _ => ?_) (fun x hx => ?_) fun d _ => ?_
  · refine Spec.bind (spec_flush_due false) fun _ => ?_
    exact Spec.bind (spec_onEof_due tag.1 x k) fun _ =>
      Checkpointer.spec_ack (fun m hm => hm.safe) hack
  · refine Spec.bind (spec_onAbort_due fun heq => hmsg (heq ▸ hx)) fun _ => ?_
    exact Checkpointer.spec_ack (fun m hm => hm.safe) hack
  · refine Checkpointer.spec_handleData (R := Due L []) (fun m hm _ => ⟨hm.safe, hack m hm⟩)
      (fun m hm _ _ => ⟨hm.safe, hack m hm⟩) ?_ ?_ fun _ hm _ => hm
    · exact (spec_onData_due tag.1 d).conseq (fun _ hm => hm.1)
        (fun _ m hm => hm.frame rfl rfl rfl) fun _ hm => hm
    · exact (spec_flush_due false).pre fun m hm => hm.1

/-- The invariant of a node. -/
abbrev SpillInv (L : Spilling C c) (m : Node Q F S E β) : Prop :=
  NodeInv C (Due L []) (fun m => OnDisk L m ∧ SpillSafe L m) m

theorem spec_call_due (call : Call Q) :
    Spec (fun m => SpillInv L m ∧ Enabled arrivals fifo call m ∧ ¬Aborts arrivals c call)
      (handler C arrivals call) (fun _ => Due L []) (SpillSafe L) := by
  cases call with
  | start =>
      refine spec_start_due.pre fun m hm => ?_
      obtain ⟨⟨hdisk, hsafe⟩, hblank⟩ := hm.1.stored hm.2.1
      exact ⟨hdisk, hsafe, hblank.rc⟩
  | token t => exact (spec_onRingMsg_due t).pre fun m hm => hm.1.live hm.2.1
  | deliver tag =>
      change Spec _ (receive C tag (arrivals tag.1 tag.2)) _ _
      cases htag : arrivals tag.1 tag.2 with
      | none => exact Spec.pure fun m hm => hm.1.live hm.2.1.1
      | some msg =>
          intro m hm
          have hmsg : msg ≠ .abort c := fun heq => hm.2.2 (htag.trans (congrArg some heq))
          refine Spec.bind (Q := fun _ => Due L []) (Spec.modify fun m hm => ?_)
            (fun _ => spec_onDataMsg_due tag hmsg) m (hm.1.live hm.2.1.1)
          exact Due.frame hm rfl rfl rfl

theorem spillInv_reach
    (h : (unaborted C arrivals fifo c fun m => ¬FreedEarly c m).Reach
      (Machine.initial (C.fresh f₀)) m) : SpillInv L m := by
  have hreboot : ∀ (m : Node Q F S E β) k, (∀ y, DiskForgotten (m.view y)) → SpillSafe L m →
      ¬FreedEarly c m → SpillInv L (m.reboot C.provider k) := by
    intro m k hforgotten hsafe hnot
    refine ⟨fun hup => ?_, fun _ => ⟨hsafe.reboot (hsafe.onDisk hnot) k, blank_reboot k m⟩,
      fun y => ?_⟩
    · simp [Machine.reboot] at hup
    · rw [view_reboot]
      exact ⟨fun hab => Bool.noConfusion hab, hforgotten y⟩
  refine System.Reach.invariant (I := SpillInv L) ?_ (fun call => ?_) ?_ h
  · have habsurd : ∀ b, (Machine.initial (C.fresh f₀) : Node Q F S E β).store ≠ some b :=
      fun b hb => by cases hb
    refine ⟨fun hup => by simp [Machine.initial] at hup, fun _ => ⟨⟨?_, ?_⟩, blank_initial f₀⟩,
      fun y => ⟨fun _ => rfl, fun _ => rfl⟩⟩
    · exact ⟨fun b hb => absurd hb (habsurd b), fun b hb => absurd hb (habsurd b)⟩
    · exact ⟨fun _ => ⟨fun b hb => absurd hb (habsurd b), fun b hb => absurd hb (habsurd b)⟩,
        fun b hb => absurd hb (habsurd b), fun b hb => absurd hb (habsurd b),
        fun b hb => absurd hb (habsurd b)⟩
  · have hdue : Spec (fun m => SpillInv L m ∧ Enabled arrivals fifo call m ∧
        ¬Aborts arrivals c call) (handler C arrivals call) (fun _ => Due L []) (SpillSafe L) :=
      spec_call_due call
    refine (hdue.and (spec_call_up (L := Due L [])
      (D := fun m => OnDisk L m ∧ SpillSafe L m) fifo call)).conseq ?_ ?_ ?_
    · exact fun m hm => ⟨⟨hm.1, hm.2⟩, hm.1, hm.2.1⟩
    · rintro - m ⟨hdue, hup, hforgotten⟩
      exact ⟨fun _ => hdue, fun hdown => by simp [hup] at hdown, hforgotten⟩
    · rintro m ⟨hsafe, hforgotten⟩ k hnot
      exact hreboot m k hforgotten hsafe hnot
  · intro call k m hm hnot
    refine hreboot m k (fun y => (hm.forgotten y).2) ?_ hnot
    cases hup : m.up with
    | true => exact (hm.live hup).safe
    | false => exact (hm.stored hup).1.2

/-- Between two calls and after every crash the checkpoint finds its content on disk. -/
theorem onDisk_reach
    (h : (unaborted C arrivals fifo c fun m => ¬FreedEarly c m).Reach
      (Machine.initial (C.fresh f₀)) m) : OnDisk L m := by
  have hinv : SpillInv L m := spillInv_reach h
  cases hup : m.up with
  | true =>
      have hdue := hinv.live hup
      refine hdue.safe.onDisk fun hfreed => ?_
      have hready := hdue.unready
      rw [hfreed.1] at hready
      cases hready
  | false => exact (hinv.stored hup).1.1

/-- In every run in which no crash falls between the deletion of a client that `start` emitted
again and the checkpoint after it, every visited state is safe. -/
theorem spillSafe_visits
    (h : (unaborted C arrivals fifo c fun m => ¬FreedEarly c m).Visits
      (Machine.initial (C.fresh f₀)) m) : SpillSafe L m := by
  refine h.property (I := SpillInv L) (fun m hm => spillInv_reach hm) (fun m hm => ?_)
    fun call => (spec_call_due call).post fun _ _ _ => trivial
  cases hup : m.up with
  | true => exact (hm.live hup).safe
  | false => exact (hm.stored hup).1.2

end RingNode
