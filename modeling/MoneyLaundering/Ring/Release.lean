import MoneyLaundering.Ring.LeaderSafety

/-!
# Releasing a client

A node that emits a client when its end-of-file arrives frees it afterwards.  A node that
emits it when its last message arrives does not: what the business function keeps of a
client after its result was taken out stays there.
-/

open Crash

/-- What a business function has to do so that nothing is kept of a client that was freed:
`Bare` says that nothing is kept, and `pops` that `get_result` keeps nothing either. -/
structure Controller.Releases {Q F S E α β : Type} (C : Controller Q F S E α β) (pops : Prop)
    (Bare : UUID → F → Prop) : Prop where
  snapshot : ∀ c f, Bare c f → Bare c (C.fn.snapshotState f).2
  process : ∀ q msg c f, c ≠ msg.clientId → Bare c f → Bare c (C.process q msg f)
  getResult : ∀ x c f, c ≠ x → Bare c f → Bare c (C.getResult x f).2
  popped : pops → ∀ x f, Bare x (C.getResult x f).2
  free : ∀ x c f e, c = x ∨ Bare c f → Bare c (C.free x f e).1
  discard : ∀ x c f e, c ≠ x → Bare c f → Bare c (C.discard x f e).1

namespace RingNode

variable {Q F S E α β : Type} {C : Controller Q F S E α β} {pops : Prop}
  {Bare : UUID → F → Prop} {m : Node Q F S E β} {xs ys : List UUID} {c x : UUID}

/-! ## The invariant -/

/-- The node is consuming and keeps nothing of a client past processing, apart from the
clients `xs`, which are about to be freed. -/
structure Released (Bare : UUID → F → Prop) (xs : List UUID) (m : Node Q F S E β) :
    Prop where
  up : m.up = true
  bare : ∀ c ∉ xs, (m.rc.client c).phase ≠ .processing →
    Bare c m.state.fn ∨ ClosedEarly c m.log

theorem Released.mono (h : Released Bare xs m) (hsub : xs ⊆ ys) : Released Bare ys m := by
  constructor
  · exact h.up
  · intro c hc
    exact h.bare c fun hmem => hc (hsub hmem)

/-- What holds of a node between two calls, if it never crashed. -/
structure Held (Bare : UUID → F → Prop) (m : Node Q F S E β) : Prop where
  live : m.up = true → Released Bare [] m
  stored : m.up = false → m.store = none ∧ m.rc = .new

theorem Released.held (h : Released Bare [] m) : Held Bare m := by
  constructor
  · exact fun _ => h
  · intro hdown
    rw [h.up] at hdown
    cases hdown

/-- A change that no client past processing notices. -/
theorem Released.change (h : Released Bare xs m) (m' : Node Q F S E β) (hup : m'.up = m.up)
    (hphase : ∀ c ∉ xs, (m'.rc.client c).phase ≠ .processing →
      (m.rc.client c).phase ≠ .processing)
    (hfn : ∀ c ∉ xs, (m.rc.client c).phase ≠ .processing → Bare c m.state.fn →
      Bare c m'.state.fn)
    (hlog : ∀ e ∈ m.log, e ∈ m'.log) : Released Bare xs m' := by
  constructor
  · exact hup.trans h.up
  · intro c hc hresolved
    have hbefore := hphase c hc hresolved
    rcases h.bare c hc hbefore with hbare | ⟨per, hmem⟩
    · exact Or.inl (hfn c hc hbefore hbare)
    · exact Or.inr ⟨per, hlog _ hmem⟩

theorem Released.logged (h : Released Bare xs m) (e : Event β) :
    Released Bare xs (m.logged e) :=
  h.change (m.logged e) rfl (fun _ _ => id) (fun _ _ _ => id)
    fun _ hmem => List.mem_cons_of_mem e hmem

/-- A change of the counters and the extra provider. -/
theorem Released.counters (h : Released Bare xs m) (f : NodeState F E → NodeState F E)
    (hfn : ∀ s, (f s).fn = s.fn) (hrc : ∀ s, (f s).rc = s.rc) :
    Released Bare xs (m.withState f) := by
  apply h.change (m.withState f) rfl
  · intro c _ hresolved
    have hsame : (m.withState f).rc = m.rc := hrc m.state
    rwa [hsame] at hresolved
  · intro c _ _ hbare
    have hsame : (m.withState f).state.fn = m.state.fn := hfn m.state
    rwa [hsame]
  · exact fun _ hmem => hmem

/-- A change of the completion state that keeps the phases. -/
theorem Released.counted (h : Released Bare xs m) {A : Type}
    {f : RingCompletion → RingCompletion × A}
    (hphase : ∀ y, ((f m.rc).1.client y).phase = (m.rc.client y).phase) :
    Released Bare xs (onRing f m).2 := by
  apply h.change (onRing f m).2 rfl
  · intro c _ hresolved
    exact (hphase c).symm.trans_ne hresolved
  · exact fun _ _ _ hbare => hbare
  · exact fun _ hmem => hmem

/-! ## Emissions -/

/-- Nothing is kept of a client that is being emitted, or it is about to be freed. -/
def Releasing (Bare : UUID → F → Prop) (xs : List UUID) (x : UUID) (m : Node Q F S E β) :
    Prop :=
  Released Bare xs m ∧ (x ∈ xs ∨ Bare x m.state.fn)

theorem Released.published (h : Released Bare xs m) (o : Output β) :
    Released Bare xs (published C x o m) ∧
      (RingNode.published C x o m).state.fn = m.state.fn ∧
      (RingNode.published C x o m).rc = m.rc := by
  rw [published_eq]
  refine ⟨Released.logged ?_ _, rfl, rfl⟩
  exact h.counters _ (fun _ => rfl) fun _ => rfl

theorem spec_send_releasing (o : Output β) :
    Spec (Releasing Bare xs x) (send C x o) (fun _ => Releasing Bare xs x)
      fun _ => True := by
  apply Spec.change (fun _ _ => trivial)
  intro m hm
  obtain ⟨hreleased, hfn, -⟩ := hm.1.published o
  refine ⟨hreleased, ?_⟩
  rw [hfn]
  exact hm.2

theorem spec_logged_released (e : Effect) (event : Event β) :
    Spec (Released Bare xs) (Prog.change e fun m : Node Q F S E β => m.logged event)
      (fun _ => Released Bare xs) fun _ => True :=
  Spec.change (fun _ _ => trivial) fun _ hm => hm.logged event

theorem spec_runBarrier_released (actions : List BarrierAction) :
    Spec (Released Bare xs) (runBarrier C actions) (fun _ => Released Bare xs)
      fun _ => True := by
  apply Spec.forEach (I := fun _ => Released Bare xs)
  intro before action after _
  cases action with
  | forward token => exact spec_logged_released _ _
  | downstreamEof clientId expectedPerShard =>
      apply Spec.forEach (I := fun _ => Released Bare xs)
      exact fun _ shard _ _ => spec_logged_released _ _

/-- The result of a client is taken out. -/
theorem Released.takeResult (h : Released Bare xs m) (hC : C.Releases pops Bare)
    (hx : x ∈ xs ∨ pops) : Releasing Bare xs x (takeResult C x m).2 := by
  constructor
  · apply h.change (RingNode.takeResult C x m).2 rfl
    · exact fun _ _ => id
    · intro c hc _ hbare
      by_cases hcx : c = x
      · subst hcx
        exact hC.popped (hx.resolve_left hc) c m.state.fn
      · exact hC.getResult x c m.state.fn hcx hbare
    · exact fun _ => id
  · exact hx.imp id fun hpops => hC.popped hpops x m.state.fn

/-- A client that was reported is past processing. -/
theorem Releasing.reportSent (h : Releasing Bare xs x m) (outs : List (Output β)) :
    Released Bare xs (reportSent C x outs m).2 := by
  obtain ⟨hreleased, hx⟩ := h
  constructor
  · exact hreleased.up
  · intro c hc hresolved
    by_cases hcx : c = x
    · subst hcx
      exact Or.inl (hx.resolve_left hc)
    · have hphase : ((RingNode.reportSent C x outs m).2.rc.client c).phase =
          (m.rc.client c).phase :=
        congrArg (fun v : ClientView β => v.mem.phase) (view_reportSent_of_ne outs hcx)
      rw [hphase] at hresolved
      rcases hreleased.bare c hc hresolved with hbare | ⟨per, hmem⟩
      · exact Or.inl hbare
      · exact Or.inr ⟨per, List.mem_append_right _ (List.mem_cons_of_mem _ hmem)⟩

/-- A client that is emitted is about to be freed, or its result was all there was. -/
theorem spec_emit_released (hC : C.Releases pops Bare) (hx : x ∈ xs ∨ pops) :
    Spec (Released Bare xs) (emit C x) (fun _ => Released Bare xs) fun _ => True := by
  apply Spec.bind (Spec.modify fun m hm => hm.logged _)
  intro _
  apply Spec.bind (Q := fun _ => Releasing Bare xs x)
  · exact Spec.compute fun m hm => hm.takeResult hC hx
  intro outs
  apply Spec.bind (Q := fun _ => Releasing Bare xs x)
  · apply Spec.forEach (I := fun _ => Releasing Bare xs x)
    exact fun _ o _ _ => spec_send_releasing o
  intro _
  apply Spec.bind (Q := fun _ => Released Bare xs)
  · exact Spec.compute fun m hm => hm.reportSent outs
  intro actions
  exact spec_runBarrier_released actions

theorem spec_runEmits_released (hC : C.Releases pops Bare) {emits : List UUID}
    (hemits : ∀ x ∈ emits, x ∈ xs ∨ pops) :
    Spec (Released Bare xs) (runEmits C emits) (fun _ => Released Bare xs) fun _ => True := by
  apply Spec.forEach (I := fun _ => Released Bare xs)
  intro before x after hsplit
  exact spec_emit_released hC (hemits x (by simp [hsplit]))

/-- A freed client is bare, and the others are as they were. -/
theorem spec_free_released (hC : C.Releases pops Bare) :
    Spec (Released Bare xs) (free C x) (fun _ => Released Bare (xs.filter fun y => y ≠ x))
      fun _ => True := by
  apply Spec.change (fun _ _ => trivial)
  intro m hm
  constructor
  · exact hm.up
  · intro c hc hresolved
    by_cases hcx : c = x
    · exact Or.inl (hC.free x c m.state.fn m.state.extra (Or.inl hcx))
    · have hold : c ∉ xs := by
        intro hmem
        exact hc (List.mem_filter.mpr ⟨hmem, by simpa using hcx⟩)
      rcases hm.bare c hold hresolved with hbare | ⟨per, hmem⟩
      · exact Or.inl (hC.free x c m.state.fn m.state.extra (Or.inr hbare))
      · exact Or.inr ⟨per, List.mem_cons_of_mem _ hmem⟩

/-- After the loop over the emitted clients nothing is due any more. -/
theorem spec_frees_released (hC : C.Releases pops Bare) (xs : List UUID) :
    Spec (Released Bare xs) (Prog.forEach xs (free C)) (fun _ => Released Bare [])
      fun _ => True := by
  induction xs with
  | nil => exact Spec.pure fun _ hm => hm
  | cons x xs ih =>
      apply Spec.bind (spec_free_released hC)
      intro _
      apply ih.pre
      intro m hm
      apply hm.mono
      intro y hy
      obtain ⟨hmem, hne⟩ := List.mem_filter.mp hy
      exact (List.mem_cons.mp hmem).resolve_left (by simpa using hne)

/-! ## Handlers -/

/-- A data message finds its client being processed and does not complete it, unless the
result of the client is all there is. -/
def Settles (pops : Prop) (x : UUID) (rc : RingCompletion) : Prop :=
  (rc.client x).phase = .processing ∧
    (pops ∨ ¬(0 ≤ (rc.client x).expected ∧
      (rc.client x).expected ≤ ((rc.client x).received + 1 : ℕ)))

instance [Decidable pops] (x : UUID) : DecidablePred (Settles pops x) := fun rc =>
  inferInstanceAs (Decidable ((rc.client x).phase = .processing ∧
    (pops ∨ ¬(0 ≤ (rc.client x).expected ∧
      (rc.client x).expected ≤ ((rc.client x).received + 1 : ℕ)))))

theorem Settles.not_emitted {rc : RingCompletion} {y : UUID} (h : Settles pops x rc)
    (hy : y ∈ (rc.onData x).2) : pops := by
  apply h.2.resolve_right
  intro hincomplete
  unfold RingCompletion.onData at hy
  split at hy
  · exact List.not_mem_nil hy
  · obtain ⟨-, hready⟩ := RingCompletion.mem_maybeLocalComplete.mp hy
    rw [RingCompletion.client_put, if_pos rfl] at hready
    exact hincomplete (Client.ready_iff.mp hready).2

/-- A message of the client is being processed. -/
def Settling (pops : Prop) (Bare : UUID → F → Prop) (x : UUID) (m : Node Q F S E β) : Prop :=
  Released Bare [] m ∧ Settles pops x m.rc

theorem spec_outputs_settling (msg : DataMsg α) :
    Spec (Settling pops Bare x)
      (Prog.forEach (C.outputs msg) fun o => do
        send C msg.clientId o
        Prog.modify fun m : Node Q F S E β => m.withState fun s =>
          { s with extra := C.countSent msg.clientId o.shard s.extra })
      (fun _ => Settling pops Bare x) fun _ => True := by
  apply Spec.forEach (I := fun _ => Settling pops Bare x)
  intro before o after _
  apply Spec.bind (Q := fun _ => Settling pops Bare x)
  · apply Spec.change (fun _ _ => trivial)
    intro m hm
    obtain ⟨hreleased, -, hrc⟩ := hm.1.published o
    refine ⟨hreleased, ?_⟩
    rw [hrc]
    exact hm.2
  · intro _
    apply Spec.modify
    exact fun m hm => ⟨hm.1.counters _ (fun _ => rfl) fun _ => rfl, hm.2⟩

/-- What is processed of a client stays with the client until it is emitted. -/
theorem spec_onData_released (hC : C.Releases pops Bare) (q : Q) (msg : DataMsg α) :
    Spec (Settling pops Bare msg.clientId) (onData C q msg) (fun _ => Released Bare [])
      fun _ => True := by
  apply Spec.bind (Q := fun _ => Settling pops Bare msg.clientId)
  · apply Spec.modify
    intro m hm
    refine ⟨?_, hm.2⟩
    apply hm.1.change (m.withState _) rfl (fun _ _ => id)
    · intro c _ hresolved hbare
      apply hC.process q msg c m.state.fn _ hbare
      rintro rfl
      exact hresolved hm.2.1
    · exact fun _ => id
  intro _
  apply Spec.bind (spec_outputs_settling msg)
  intro _
  apply Spec.bind (Q := fun emits m => (∀ y ∈ emits, pops) ∧ Released Bare [] m)
  · apply Spec.compute
    intro m hm
    constructor
    · exact fun y hy => hm.2.not_emitted hy
    · apply hm.1.counted
      exact (RingCompletion.counts_onData m.rc msg.clientId).phase_eq
  intro emits
  apply Spec.of_pre
  intro hpops
  exact spec_runEmits_released hC fun y hy => Or.inr (hpops y hy)

/-- The clients to emit, after the end-of-file was noted. -/
theorem Released.noteEof (h : Released Bare xs m) (q : Q) (expected : ℤ) :
    Released Bare xs (noteEof C q x expected m).2 := by
  have hnoted : Released Bare xs (m.withState fun s =>
      { s with extra := (C.noteEof q x expected m.state.extra).2 }) :=
    h.counters _ (fun _ => rfl) fun _ => rfl
  unfold RingNode.noteEof
  cases htotal : (C.noteEof q x expected m.state.extra).1 with
  | none =>
      simp only [htotal]
      exact hnoted
  | some total =>
      simp only [htotal]
      apply hnoted.counted
      exact (RingCompletion.counts_onUpstreamEof m.rc x total).phase_eq

variable [DecidableEq Q]

theorem spec_flush_released (hC : C.Releases pops Bare) (force : Bool) :
    Spec (Released Bare xs) (Checkpointer.flush C.provider force : NodeProg Q F S E β Unit)
      (fun _ => Released Bare xs) fun _ => True := by
  apply Checkpointer.spec_checkpointAndFlush (R := Released Bare xs)
  · intro m hm _
    refine ⟨trivial, trivial, ?_⟩
    apply hm.change (m.checkpointed C.provider) rfl (fun _ _ => id)
    · exact fun c _ _ => hC.snapshot c m.state.fn
    · exact fun _ => id
  · exact fun _ hm _ _ => hm
  · exact fun _ _ _ _ _ => trivial
  · exact fun m hm => hm.change m.released rfl (fun _ _ => id) (fun _ _ _ => id) fun _ => id

/-- Every client that an end-of-file emits is freed. -/
theorem spec_onEof_released (hC : C.Releases pops Bare) (q : Q) (expected : ℤ) :
    Spec (Released Bare []) (onEof C q x expected) (fun _ => Released Bare [])
      fun _ => True := by
  apply Spec.bind (Q := fun emits => Released Bare emits)
  · apply Spec.compute
    intro m hm
    exact (hm.noteEof q expected).mono (List.nil_subset _)
  intro emits
  apply Spec.bind (Q := fun _ => Released Bare emits)
  · exact Spec.when (fun _ => spec_flush_released hC true) fun _ _ hm => hm
  intro _
  apply Spec.bind (spec_runEmits_released hC fun _ hx => Or.inl hx)
  intro _
  apply Spec.bind (spec_flush_released hC true)
  intro _
  exact spec_frees_released hC emits

theorem spec_onAbort_released (hC : C.Releases pops Bare) :
    Spec (Released Bare []) (onAbort C x) (fun _ => Released Bare []) fun _ => True := by
  apply Spec.bind (Q := fun _ m => Released Bare [] m ∧
    ((Node.rc m).client x).phase = .processing)
  · apply Spec.modify
    intro m hm
    constructor
    · apply hm.change (m.withState _) rfl
      · intro c _ hresolved hprocessing
        have hclient : ((m.rc.drop x).client c).phase ≠ .processing := hresolved
        rw [RingCompletion.client_drop] at hclient
        split at hclient
        · exact hclient rfl
        · exact hclient hprocessing
      · exact fun _ _ _ => id
      · exact fun _ => id
    · change ((m.rc.drop x).client x).phase = .processing
      rw [RingCompletion.client_drop, if_pos rfl, Client.new_phase]
  intro _
  apply Spec.bind (Q := fun _ => Released Bare [])
  · apply Spec.change (fun _ _ => trivial)
    intro m hm
    obtain ⟨hreleased, hprocessing⟩ := hm
    apply hreleased.change (m.withState _) rfl (fun _ _ => id)
    · intro c _ hresolved hbare
      apply hC.discard x c m.state.fn m.state.extra _ hbare
      rintro rfl
      exact hresolved hprocessing
    · exact fun _ => id
  intro _
  apply Spec.bind (Q := fun _ => Released Bare [])
  · apply Spec.modify
    exact fun m hm => hm.change _ rfl (fun _ _ => id) (fun _ _ _ => id) fun _ => id
  intro _
  apply Spec.bind (spec_flush_released hC true)
  intro _
  apply Spec.forEach (I := fun _ => Released Bare [])
  exact fun _ shard _ _ => spec_logged_released _ _

/-- A token that moves a client on while it is being processed closes its barrier. -/
theorem spec_onRingMsg_released (hC : C.Releases pops Bare) (token : BarrierToken) :
    Spec (Released Bare []) (onRingMsg C token) (fun _ => Released Bare [])
      fun _ => True := by
  apply Spec.bind (Q := fun _ => Released Bare [])
  · apply Spec.compute
    intro m hm
    constructor
    · exact hm.up
    · intro c hc hresolved
      rcases closedEarly_of_onToken (β := β) hresolved with hbefore | ⟨per, hmem⟩
      · rcases hm.bare c hc hbefore with hbare | ⟨per, hmem⟩
        · exact Or.inl hbare
        · exact Or.inr ⟨per, List.mem_append_right _ hmem⟩
      · exact Or.inr ⟨per, List.mem_append_left _ hmem⟩
  intro actions
  apply Spec.bind (spec_runBarrier_released actions)
  intro _
  exact spec_flush_released hC true

/-- A node that was never started starts with no client. -/
theorem spec_start_released :
    Spec (fun m : Node Q F S E β => m.store = none ∧ m.rc = .new) (start C)
      (fun _ => Released Bare []) fun _ => True := by
  apply Spec.bind (Q := fun _ m => m.store = none ∧ Node.rc m = .new)
  · exact Spec.modify fun _ hm => hm
  intro _
  apply Spec.bind (Q := fun restored m => restored = false ∧ Node.rc m = .new)
  · apply Checkpointer.spec_restore (fun _ _ => trivial)
    · exact fun m hm _ => ⟨rfl, hm.2⟩
    · intro m b hm hstore
      rw [hm.1] at hstore
      cases hstore
  intro restored
  apply Spec.bind (Q := fun _ m => Node.rc m = .new)
  · apply Spec.of_pre
    intro hnone
    apply Spec.when
    · intro hsome
      rw [hnone] at hsome
      cases hsome
    · exact fun _ _ hm => hm
  intro _
  apply Spec.modify
  intro m hm
  constructor
  · rfl
  · intro c _ hresolved
    have hclient : (m.rc.client c).phase ≠ .processing := hresolved
    rw [hm] at hclient
    exact absurd rfl hclient

/-! ## Runs without crashes -/

variable {arrivals : Q → ℕ → Option (Message α)} {fifo : Bool}

/-- A data message settles when it is applied. -/
def TimelyMessage (pops : Prop) : Message α → Node Q F S E β → Prop
  | .data msg, m => msg.clientId ∈ m.aborted ∨ m.dedup.Recorded msg.identity ∨
      Settles pops msg.clientId m.rc
  | _, _ => True

/-- The call delivers nothing, or a message that is timely. -/
def Timely (pops : Prop) (arrivals : Q → ℕ → Option (Message α)) :
    Call Q → Node Q F S E β → Prop
  | .deliver tag, m => ∀ msg ∈ arrivals tag.1 tag.2, TimelyMessage pops msg m
  | _, _ => True

instance [Decidable pops] (m : Node Q F S E β) :
    DecidablePred fun msg : Message α => TimelyMessage pops msg m := fun msg =>
  match msg with
  | .data msg => inferInstanceAs (Decidable (msg.clientId ∈ m.aborted ∨
      m.dedup.Recorded msg.identity ∨ Settles pops msg.clientId m.rc))
  | .eof _ _ => .isTrue trivial
  | .abort _ => .isTrue trivial

instance [Decidable pops] (arrivals : Q → ℕ → Option (Message α)) (call : Call Q) :
    DecidablePred (Timely (F := F) (S := S) (E := E) (β := β) pops arrivals call) := fun m =>
  match call with
  | .start => .isTrue trivial
  | .token _ => .isTrue trivial
  | .deliver tag => inferInstanceAs (Decidable
      (∀ msg ∈ arrivals tag.1 tag.2, TimelyMessage pops msg m))

/-- A node that never crashes and that applies timely messages only. -/
def timely (C : Controller Q F S E α β) (pops : Prop) (arrivals : Q → ℕ → Option (Message α))
    (fifo : Bool) : System Effect (Node Q F S E β) (Call Q) (UUID → ℕ → ℕ) :=
  { system C arrivals fifo fun _ => False with
    enabled := fun call m => Enabled arrivals fifo call m ∧ Timely pops arrivals call m }

theorem spec_data_released (hC : C.Releases pops Bare) (tag : Q × ℕ) (msg : DataMsg α) :
    Spec (fun m => Released Bare [] m ∧ TimelyMessage pops (.data msg) m)
      (Checkpointer.handleData C.provider C.checkpointEvery tag msg (onData C tag.1 msg))
      (fun _ => Released Bare []) fun _ => True := by
  have hack (m : Node Q F S E β) (hm : Released Bare [] m) :
      Released Bare [] (m.ackTag tag) :=
    hm.change _ rfl (fun _ _ => id) (fun _ _ _ => id) fun _ => id
  apply Checkpointer.spec_handleData (R := Released Bare [])
  · exact fun m hm _ => ⟨trivial, hack m hm.1⟩
  · exact fun m hm _ _ => ⟨trivial, hack m hm.1⟩
  · apply (spec_onData_released hC tag.1 msg).conseq
    · intro m hm
      obtain ⟨⟨hreleased, hor⟩, haborted, hnew⟩ := hm
      exact ⟨hreleased, (hor.resolve_left haborted).resolve_left hnew⟩
    · exact fun _ m hm => hm.change _ rfl (fun _ _ => id) (fun _ _ _ => id) fun _ => id
    · exact fun _ => id
  · exact (spec_flush_released hC false).pre fun _ hm => hm.1
  · exact fun _ hm _ => hm

/-- One delivery. -/
theorem spec_receive_released (hC : C.Releases pops Bare) (tag : Q × ℕ) :
    Spec (fun m => Released Bare [] m ∧ Timely pops arrivals (.deliver tag) m)
      (receive C tag (arrivals tag.1 tag.2)) (fun _ => Released Bare []) fun _ => True := by
  have hack (m : Node Q F S E β) (hm : Released Bare [] m) :
      Released Bare [] (m.ackTag tag) :=
    hm.change _ rfl (fun _ _ => id) (fun _ _ _ => id) fun _ => id
  have hdeliver (m : Node Q F S E β) (hm : Released Bare [] m) :
      Released Bare [] (Machine.deliver tag m) :=
    hm.change _ rfl (fun _ _ => id) (fun _ _ _ => id) fun _ => id
  cases harrives : arrivals tag.1 tag.2 with
  | none => exact Spec.pure fun _ hm => hm.1
  | some msg =>
      cases msg with
      | data msg =>
          apply Spec.bind (Q := fun _ m =>
            Released Bare [] m ∧ TimelyMessage pops (.data msg) m)
          · apply Spec.modify
            intro m hm
            constructor
            · exact hdeliver m hm.1
            · exact hm.2 (.data msg) harrives
          · exact fun _ => spec_data_released hC tag msg
      | eof x expected =>
          apply Spec.bind (Spec.modify fun m hm => hdeliver m hm.1)
          intro _
          apply Spec.bind (spec_flush_released hC false)
          intro _
          apply Spec.bind (spec_onEof_released hC tag.1 expected)
          exact fun _ => Checkpointer.spec_ack (fun _ _ => trivial) hack
      | abort x =>
          apply Spec.bind (Spec.modify fun m hm => hdeliver m hm.1)
          intro _
          apply Spec.bind (spec_onAbort_released hC)
          exact fun _ => Checkpointer.spec_ack (fun _ _ => trivial) hack

theorem spec_call_held (hC : C.Releases pops Bare) (call : Call Q) :
    Spec (fun m => Held Bare m ∧ (timely C pops arrivals fifo).enabled call m)
      ((timely C pops arrivals fifo).handler call) (fun _ => Held Bare) fun _ => True := by
  cases call with
  | start =>
      apply spec_start_released.conseq
      · exact fun m hm => hm.1.stored hm.2.1
      · exact fun _ m hm => Released.held hm
      · exact fun _ => id
  | token token =>
      apply (spec_onRingMsg_released hC token).conseq
      · exact fun m hm => hm.1.live hm.2.1
      · exact fun _ m hm => hm.held
      · exact fun _ => id
  | deliver tag =>
      apply (spec_receive_released hC tag).conseq
      · exact fun m hm => ⟨hm.1.live hm.2.1.1, hm.2.2⟩
      · exact fun _ m hm => hm.held
      · exact fun _ => id

theorem held_reach (hC : C.Releases pops Bare) (f₀ : F)
    (h : (timely C pops arrivals fifo).Reach (Machine.initial (C.fresh f₀)) m) :
    Held Bare m := by
  apply System.Reach.invariant (I := Held Bare) _ _ _ h
  · constructor
    · intro hup
      cases hup
    · exact fun _ => ⟨rfl, rfl⟩
  · intro call
    apply (spec_call_held hC call).conseq (fun _ hm => hm) (fun _ _ hm => hm)
    exact fun _ _ _ hcrash => hcrash.elim
  · exact fun _ _ _ _ hcrash => hcrash.elim

end RingNode
