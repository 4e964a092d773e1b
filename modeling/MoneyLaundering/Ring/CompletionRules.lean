import MoneyLaundering.Ring.Deliveries
import MoneyLaundering.Ring.TokenRetry

/-!
# Completion state and history

What handlers keep of a completion state together with the history: of the state in memory
between two calls, and of the checkpoint wherever a handler may be cut.  Whatever a change
of the state asks to be sent is sent before the handler ends, so a property may speak of
what was sent.
-/

open Crash

namespace RingNode

variable {Q F S E α β : Type} {C : Controller Q F S E α β} {x : UUID}
  {aborts : UUID → Prop} {I : RingCompletion → List (Event β) → Prop}

/-- The changes under which a property of a completion state and the history has to be
stable for handlers to keep it.  `aborts` are the clients that may be aborted. -/
structure CompletionRules (C : Controller Q F S E α β) (aborts : UUID → Prop)
    (I : RingCompletion → List (Event β) → Prop) : Prop where
  logged : ∀ rc e log, I rc log → I rc (e :: log)
  counted : ∀ rc x r log, rc.Counts x r → I rc log → I r.1 log
  dropped : ∀ rc x log, aborts x → I rc log → I (rc.drop x) log
  reported : ∀ rc x sent log, I rc log →
    I (rc.reportSent C.self x sent).1
      ((sends C (rc.reportSent C.self x sent).2).reverse ++ log)
  token : ∀ rc t log, I rc log →
    I (rc.onToken C.self t).1 ((sends C (rc.onToken C.self t).2).reverse ++ log)

/-- The property of the state in memory and of the checkpoint. -/
def Upheld (I : RingCompletion → List (Event β) → Prop) (m : Node Q F S E β) : Prop :=
  I m.rc m.log ∧ I m.storedRc m.log

/-- The property of the checkpoint, which is all that a crash leaves. -/
def UpheldOnDisk (I : RingCompletion → List (Event β) → Prop) (m : Node Q F S E β) :
    Prop :=
  I m.storedRc m.log

/-- The property will hold once some actions of the barrier are performed. -/
def Announcing (C : Controller Q F S E α β) (I : RingCompletion → List (Event β) → Prop)
    (actions : List BarrierAction) (m : Node Q F S E β) : Prop :=
  actions.length ≤ 1 ∧ UpheldOnDisk I m ∧ I m.rc ((sends C actions).reverse ++ m.log)

/-- A flush captures the state as it is. -/
theorem spec_flush_upheld [DecidableEq Q] (force : Bool) :
    Spec (Upheld I) (Checkpointer.flush C.provider force : NodeProg Q F S E β Unit)
      (fun _ => Upheld I) (UpheldOnDisk I) :=
  Checkpointer.spec_checkpointAndFlush (R := Upheld I)
    (fun _ hm _ => ⟨hm.2, hm.2, hm.1, hm.1⟩) (fun _ hm _ _ => hm)
    (fun _ _ _ hm _ => hm.2) fun _ hm => hm

namespace CompletionRules

theorem append (rules : CompletionRules C aborts I) {rc : RingCompletion}
    {log : List (Event β)} (es : List (Event β)) (h : I rc log) : I rc (es ++ log) := by
  induction es with
  | nil => exact h
  | cons e es ih => exact rules.logged _ _ _ ih

/-- A change of other parts, and an entry of the history. -/
theorem frame (rules : CompletionRules C aborts I) {m m' : Node Q F S E β}
    (hrc : m'.rc = m.rc) (hstored : m'.storedRc = m.storedRc)
    (hlog : ∃ es, m'.log = es ++ m.log) (h : Upheld I m) : Upheld I m' := by
  obtain ⟨es, hes⟩ := hlog
  rw [Upheld, hrc, hstored, hes]
  exact ⟨rules.append es h.1, rules.append es h.2⟩

theorem spec_change (rules : CompletionRules C aborts I) {l : Effect}
    {f : Node Q F S E β → Node Q F S E β} (hrc : ∀ m, (f m).rc = m.rc)
    (hstored : ∀ m, (f m).storedRc = m.storedRc)
    (hlog : ∀ m, ∃ es, (f m).log = es ++ m.log) :
    Spec (Upheld I) (Prog.change l f) (fun _ => Upheld I) (UpheldOnDisk I) :=
  Spec.change (fun _ hm => hm.2) fun m hm => rules.frame (hrc m) (hstored m) (hlog m) hm

theorem spec_modify (rules : CompletionRules C aborts I)
    {f : Node Q F S E β → Node Q F S E β} (hrc : ∀ m, (f m).rc = m.rc)
    (hstored : ∀ m, (f m).storedRc = m.storedRc)
    (hlog : ∀ m, ∃ es, (f m).log = es ++ m.log) :
    Spec (ε := Effect) (Upheld I) (Prog.modify f) (fun _ => Upheld I) (UpheldOnDisk I) :=
  Spec.modify fun m hm => rules.frame (hrc m) (hstored m) (hlog m) hm

theorem spec_send (rules : CompletionRules C aborts I) (o : Output β) :
    Spec (Upheld I) (send C x o) (fun _ => Upheld I) (UpheldOnDisk I) := by
  refine rules.spec_change (fun m => ?_) (fun m => ?_) fun m => ?_
  · rw [published_eq]
    rfl
  · rw [published_eq]
    rfl
  · rw [published_eq]
    exact ⟨[_], rfl⟩

/-- Once the actions are performed the property holds again. -/
theorem spec_runBarrier (rules : CompletionRules C aborts I)
    (actions : List BarrierAction) :
    Spec (Announcing C I actions) (runBarrier C actions) (fun _ => Upheld I)
      (UpheldOnDisk I) := by
  intro m hm
  obtain ⟨hlength, hdisk, hmem⟩ := hm
  obtain ⟨hpoints, hfinal⟩ := runBarrier_run (C := C) hlength m
  constructor
  · intro p hp
    obtain ⟨sent, rest, -, -, hstate, -⟩ := hpoints p hp
    rw [hstate]
    exact rules.append sent.reverse hdisk
  · rw [hfinal]
    exact ⟨hmem, rules.append _ hdisk⟩

theorem spec_emit (rules : CompletionRules C aborts I) (x : UUID) :
    Spec (Upheld I) (emit C x) (fun _ => Upheld I) (UpheldOnDisk I) := by
  refine Spec.bind (rules.spec_modify (fun _ => rfl) (fun _ => rfl)
    fun _ => ⟨[_], rfl⟩) fun _ => ?_
  refine Spec.bind (Q := fun _ => Upheld I) (Spec.compute fun m hm => hm) fun outs => ?_
  refine Spec.bind (Spec.forEach (I := fun _ => Upheld I) outs
    fun _ o _ _ => rules.spec_send o) fun _ => ?_
  refine Spec.bind (Q := Announcing C I) (Spec.compute fun m hm => ?_)
    fun actions => rules.spec_runBarrier actions
  refine ⟨length_reportSent_le outs, ?_, ?_⟩
  · exact rules.append _ (rules.logged _ _ _ hm.2)
  · exact rules.reported _ x _ _ (rules.append _ (rules.logged _ _ _ hm.1))

theorem spec_runEmits (rules : CompletionRules C aborts I) (xs : List UUID) :
    Spec (Upheld I) (runEmits C xs) (fun _ => Upheld I) (UpheldOnDisk I) :=
  Spec.forEach (I := fun _ => Upheld I) xs fun _ x _ _ => rules.spec_emit x

theorem spec_free (rules : CompletionRules C aborts I) (xs : List UUID) :
    Spec (Upheld I) (Prog.forEach xs (free C)) (fun _ => Upheld I) (UpheldOnDisk I) :=
  Spec.forEach (I := fun _ => Upheld I) xs fun _ _ _ _ =>
    rules.spec_change (fun _ => rfl) (fun _ => rfl) fun _ => ⟨[_], rfl⟩

theorem spec_onData (rules : CompletionRules C aborts I) (q : Q) (msg : DataMsg α) :
    Spec (Upheld I) (onData C q msg) (fun _ => Upheld I) (UpheldOnDisk I) := by
  refine Spec.bind (rules.spec_modify (fun _ => rfl) (fun _ => rfl)
    fun _ => ⟨[], rfl⟩) fun _ => ?_
  refine Spec.bind (Spec.forEach (I := fun _ => Upheld I) _ fun _ o _ _ => ?_) fun _ => ?_
  · exact Spec.bind (rules.spec_send o) fun _ =>
      rules.spec_modify (fun _ => rfl) (fun _ => rfl) fun _ => ⟨[], rfl⟩
  · refine Spec.bind (Q := fun _ => Upheld I) (Spec.compute fun m hm => ⟨?_, hm.2⟩)
      fun emits => rules.spec_runEmits emits
    exact rules.counted _ _ _ _ (RingCompletion.counts_onData _ _) hm.1

/-- The end-of-file changes the counters at most. -/
theorem upheld_noteEof (rules : CompletionRules C aborts I) (q : Q) (x : UUID) (k : ℤ)
    {m : Node Q F S E β} (h : Upheld I m) : Upheld I (noteEof C q x k m).2 := by
  by_cases hnone : (C.noteEof q x k m.state.extra).1 = none
  · rw [noteEof_none hnone]
    exact h
  · obtain ⟨total, htotal⟩ := Option.ne_none_iff_exists'.mp hnone
    rw [noteEof_some htotal]
    exact ⟨rules.counted _ _ _ _ (RingCompletion.counts_onUpstreamEof _ _ _) h.1, h.2⟩

section Handlers

variable [DecidableEq Q]

theorem spec_onEof (rules : CompletionRules C aborts I) (q : Q) (x : UUID) (k : ℤ) :
    Spec (Upheld I) (onEof C q x k) (fun _ => Upheld I) (UpheldOnDisk I) := by
  refine Spec.bind (Q := fun _ => Upheld I)
    (Spec.compute fun m hm => rules.upheld_noteEof q x k hm) fun emits => ?_
  refine Spec.bind (Spec.when (fun _ => spec_flush_upheld true) fun _ _ hm => hm)
    fun _ => ?_
  refine Spec.bind (rules.spec_runEmits emits) fun _ => ?_
  exact Spec.bind (spec_flush_upheld true) fun _ => rules.spec_free emits

theorem spec_onAbort (rules : CompletionRules C aborts I) (hx : aborts x) :
    Spec (Upheld I) (onAbort C x) (fun _ => Upheld I) (UpheldOnDisk I) := by
  refine Spec.bind (Q := fun _ => Upheld I) (Spec.modify fun m hm =>
    ⟨rules.dropped _ x _ hx hm.1, hm.2⟩) fun _ => ?_
  refine Spec.bind (rules.spec_change (fun _ => rfl) (fun _ => rfl)
    fun _ => ⟨[], rfl⟩) fun _ => ?_
  refine Spec.bind (Q := fun _ => Upheld I) (Spec.modify fun _ hm => hm) fun _ => ?_
  refine Spec.bind (spec_flush_upheld true) fun _ => ?_
  exact Spec.forEach (I := fun _ => Upheld I) _ fun _ _ _ _ =>
    rules.spec_change (fun _ => rfl) (fun _ => rfl) fun _ => ⟨[_], rfl⟩

theorem spec_onRingMsg (rules : CompletionRules C aborts I) (t : BarrierToken) :
    Spec (Upheld I) (onRingMsg C t) (fun _ => Upheld I) (UpheldOnDisk I) := by
  refine Spec.bind (Q := Announcing C I) (Spec.compute fun m hm => ?_) fun actions =>
    Spec.bind (rules.spec_runBarrier actions) fun _ => spec_flush_upheld true
  refine ⟨length_receiveToken_le t, ?_, ?_⟩
  · exact rules.append _ hm.2
  · exact rules.token _ t _ (rules.append _ hm.1)

theorem spec_start (rules : CompletionRules C aborts I) :
    Spec (Upheld I) (start C) (fun _ => Upheld I) (UpheldOnDisk I) := by
  refine Spec.bind (rules.spec_modify (fun _ => rfl) (fun _ => rfl)
    fun _ => ⟨[_], rfl⟩) fun _ => ?_
  refine Spec.bind (Q := fun _ => Upheld I)
    (Checkpointer.spec_restore (fun _ hm => hm.2) (fun _ hm _ => hm) fun m b hm hb => ?_)
    fun restored => ?_
  · have hstored : Node.storedRc m = b.state.rc := by simp only [Node.storedRc, hb]
    have hdisk : I b.state.rc m.log := hstored ▸ hm.2
    exact ⟨hdisk, hm.2⟩
  refine Spec.bind (Spec.when (fun _ => ?_) fun _ _ hm => hm)
    fun _ => Spec.modify fun _ hm => hm
  refine Spec.read_bind fun m => (Spec.bind (rules.spec_runEmits _) fun _ => ?_).pre
    fun _ hm => hm.2
  exact Spec.read_bind fun m' => (Spec.bind (rules.spec_free _) fun _ =>
    spec_flush_upheld true).pre fun _ hm => hm.2

/-- Every call keeps the property. -/
theorem spec_call (rules : CompletionRules C aborts I)
    (arrivals : Q → ℕ → Option (Message α))
    (haborts : ∀ q i x, arrivals q i = some (.abort x) → aborts x) (call : Call Q) :
    Spec (Upheld I) (handler C arrivals call) (fun _ => Upheld I) (UpheldOnDisk I) := by
  have hack : ∀ tag, Spec (Upheld I) (Checkpointer.ack tag : NodeProg Q F S E β Unit)
      (fun _ => Upheld I) (UpheldOnDisk I) :=
    fun tag => Spec.change (fun _ hm => hm.2) fun _ hm => hm
  cases call with
  | start => exact rules.spec_start
  | token t => exact rules.spec_onRingMsg t
  | deliver tag =>
      change Spec _ (receive C tag (arrivals tag.1 tag.2)) _ _
      cases harrives : arrivals tag.1 tag.2 with
      | none => exact Spec.pure fun _ hm => hm
      | some msg =>
          refine Spec.bind (Q := fun _ => Upheld I) (Spec.modify fun _ hm => hm)
            fun _ => ?_
          refine Checkpointer.spec_dispatch (fun y k _ => ?_) (fun y hmsg => ?_)
            fun d _ => ?_
          · refine Spec.bind (spec_flush_upheld false) fun _ => ?_
            exact Spec.bind (rules.spec_onEof tag.1 y k) fun _ => hack tag
          · refine Spec.bind (rules.spec_onAbort ?_) fun _ => hack tag
            exact haborts tag.1 tag.2 y (hmsg ▸ harrives)
          · refine Checkpointer.spec_handleData (R := Upheld I)
              (fun _ hm _ => ⟨hm.2, hm⟩) (fun _ hm _ _ => ⟨hm.2, hm⟩) ?_ ?_
              fun _ hm _ => hm
            · exact ((rules.spec_onData tag.1 d).pre fun _ hm => hm.1).post
                fun _ _ hm => hm
            · exact (spec_flush_upheld false).pre fun _ hm => hm.1

/-- So the property holds in every state that is reached, if it does of a node that knows
nothing of any client. -/
theorem reach (rules : CompletionRules C aborts I) (hnew : ∀ log, I .new log)
    {arrivals : Q → ℕ → Option (Message α)}
    (haborts : ∀ q i x, arrivals q i = some (.abort x) → aborts x) {fifo : Bool}
    {crashable : Node Q F S E β → Prop} {f₀ : F} {m : Node Q F S E β}
    (h : (system C arrivals fifo crashable).Reach (Machine.initial (C.fresh f₀)) m) :
    Upheld I m := by
  have hreboot : ∀ (k : UUID → ℕ → ℕ) (m : Node Q F S E β), UpheldOnDisk I m →
      Upheld I (m.reboot C.provider k) := fun k m hm => ⟨hnew _, hm⟩
  have hinit : Upheld I (Machine.initial (C.fresh f₀) : Node Q F S E β) :=
    ⟨hnew _, hnew _⟩
  refine System.Reach.invariant (I := Upheld I) hinit (fun call => ?_)
    (fun _ k m hm _ => hreboot k m hm.2) h
  exact (rules.spec_call _ haborts call).conseq (fun _ hm => hm.1) (fun _ _ hm => hm)
    fun m hm k _ => hreboot k m hm

end Handlers

end CompletionRules

end RingNode
