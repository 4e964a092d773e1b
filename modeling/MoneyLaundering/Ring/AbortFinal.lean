import MoneyLaundering.Ring.Controllers
import MoneyLaundering.Ring.Runs

/-!
# After an abort

A node tombstones an aborted client twice: its checkpointer ignores the client's data, and
its completion state ignores end-of-files and tokens of the client.  Both sets are in the
checkpoint before the abort is acknowledged, so nothing is sent for the client any more.
-/

open Crash

/-! ## The tombstones of the completion state -/

namespace RingCompletion

/-- Nothing is known about an aborted client. -/
def Forgets (rc : RingCompletion) : Prop :=
  ∀ x ∈ rc.aborted, rc.client x = .new

/-- An operation keeps the tombstones, and asks for nothing on behalf of an aborted
client. -/
structure Respects {A : Type} (client : A → UUID) (rc : RingCompletion)
    (r : RingCompletion × List A) : Prop where
  forgets : rc.Forgets → r.1.Forgets
  aborted : r.1.aborted = rc.aborted
  actions : ∀ a ∈ r.2, client a ∉ rc.aborted

variable {rc : RingCompletion} {x : UUID} {self : Peer}

theorem forgets_new : new.Forgets := by
  intro y hy
  simp [new] at hy

theorem Forgets.put (h : rc.Forgets) (hx : x ∉ rc.aborted) (cl : Client) :
    (rc.put x cl).Forgets := by
  intro y hy
  have hne : y ≠ x := fun heq => hx (heq ▸ hy)
  rw [client_put, if_neg hne]
  exact h y hy

theorem Forgets.drop (h : rc.Forgets) : (rc.drop x).Forgets := by
  intro y hy
  rw [client_drop]
  split
  · rfl
  · exact h y ((Finset.mem_insert.mp hy).resolve_left ‹_›)

/-- A client to emit after a restart is not aborted. -/
theorem Forgets.not_mem_of_recheck (h : rc.Forgets) (hx : x ∈ rc.recheck) :
    x ∉ rc.aborted := by
  intro hab
  have hready := mem_recheck.mp hx
  rw [h x hab] at hready
  simp at hready

theorem Counts.respects {r : RingCompletion × List UUID} (h : rc.Counts x r) :
    Respects id rc r := by
  rcases h with rfl | ⟨hab, cl, -, -, rfl⟩
  · exact ⟨fun h => h, rfl, by simp⟩
  · have hx : x ∉ rc.aborted := by simpa [isAborted] using hab
    constructor
    · intro h
      exact h.put hx cl
    · rfl
    · intro y hy
      rw [(mem_maybeLocalComplete.mp hy).1]
      exact hx

theorem respects_advance {t : BarrierToken} (hx : t.clientId ∉ rc.aborted) :
    Respects BarrierAction.client rc (rc.advance self t) := by
  rcases RingNode.advance_cases self rc t with heq | heq | heq <;> rw [heq]
  · exact ⟨fun h => h, rfl, by simpa [BarrierAction.client] using hx⟩
  · exact ⟨fun h => h, rfl, by simp⟩
  · exact ⟨fun h => h.put hx _, rfl, by simpa [BarrierAction.client] using hx⟩

theorem respects_reportSent {sent : ShardCounts} (hx : x ∉ rc.aborted) :
    Respects BarrierAction.client rc (rc.reportSent self x sent) := by
  have hmark : rc.Forgets → (rc.markEmitted x sent).Forgets := fun h => h.put hx _
  unfold reportSent
  split
  · exact ⟨fun h => h, rfl, by simp⟩
  split
  · exact ⟨hmark, rfl, by simp⟩
  · have hadvance : Respects BarrierAction.client (rc.markEmitted x sent)
        (advance self (rc.markEmitted x sent) (firstToken self x sent)) :=
      respects_advance
      (t := firstToken self x sent) hx
    exact ⟨fun h => hadvance.forgets (hmark h), hadvance.aborted, hadvance.actions⟩

theorem respects_onToken {t : BarrierToken} :
    Respects BarrierAction.client rc (rc.onToken self t) := by
  unfold onToken
  split
  · exact ⟨fun h => h, rfl, by simp⟩
  · rename_i hab
    have hx : t.clientId ∉ rc.aborted := by simpa [isAborted] using hab
    have hadvance : Respects BarrierAction.client (rc.touch t.clientId)
        (advance self (rc.touch t.clientId) (stampToken self rc t)) :=
      respects_advance
      (t := stampToken self rc t) (by simpa [touch] using hx)
    exact ⟨fun h => hadvance.forgets (h.put hx _), hadvance.aborted,
      hadvance.actions⟩

end RingCompletion

/-- A data message, a token or an end-of-file of the client was sent. -/
def Event.sends {β : Type} (clientId : UUID) : Event β → Bool
  | .data _ _ x _ => decide (x = clientId)
  | .eof _ x _ => decide (x = clientId)
  | .forward token => decide (token.clientId = clientId)
  | _ => false

namespace RingNode

variable {Q F S E α β : Type} {C : Controller Q F S E α β}
  {arrivals : Q → ℕ → Option (Message α)} {watched : Prop} {c x : UUID}
  {log : List (Event β)} {A : Finset UUID} {m : Node Q F S E β}

/-! ## The invariant -/

/-- The client is tombstoned in the checkpoint, in both sets. -/
def Tombstoned (x : UUID) (m : Node Q F S E β) : Prop :=
  ∃ b, m.store = some b ∧ x ∈ b.aborted ∧ x ∈ b.state.rc.aborted

/-- What a crash preserves: the checkpoint has every acknowledged abort, and since a
client is watched nothing was sent for it. -/
structure AbortDisk (arrivals : Q → ℕ → Option (Message α)) (watched : Prop)
    (c : UUID) (log : List (Event β)) (m : Node Q F S E β) : Prop where
  forgets : ∀ b, m.store = some b → b.state.rc.Forgets
  stored : ∀ tag x, arrivals tag.1 tag.2 = some (.abort x) → tag ∈ m.acked →
    Tombstoned x m
  watch : watched → Tombstoned c m ∧
    ∃ es, m.log = es ++ log ∧ ∀ e ∈ es, e.sends c = false

/-- What a process adds that took over the checkpoint; `A` are the clients which its
completion state has tombstoned. -/
structure AbortMem (arrivals : Q → ℕ → Option (Message α)) (A : Finset UUID)
    (m : Node Q F S E β) : Prop where
  tombstones : m.rc.aborted = A
  forgets : m.rc.Forgets
  aborted : ∀ b, m.store = some b →
    b.aborted ⊆ m.aborted ∧ b.state.rc.aborted ⊆ A
  pending : ∀ tag ∈ m.pendingAcks, ∃ d, arrivals tag.1 tag.2 = some (.data d)

/-- The invariant of such a process. -/
def AbortLive (arrivals : Q → ℕ → Option (Message α)) (watched : Prop) (c : UUID)
    (log : List (Event β)) (A : Finset UUID) (m : Node Q F S E β) : Prop :=
  AbortDisk arrivals watched c log m ∧ AbortMem arrivals A m

theorem AbortLive.mem (h : AbortLive arrivals watched c log A m) (hw : watched) :
    c ∈ m.aborted ∧ c ∈ A := by
  obtain ⟨b, hb, hc, hrc⟩ := (h.1.watch hw).1
  obtain ⟨hsub, hsubrc⟩ := h.2.aborted b hb
  exact ⟨hsub hc, hsubrc hrc⟩

/-- A change of memory and history that keeps the tombstones and sends nothing for the
watched client. -/
theorem AbortLive.step (h : AbortLive arrivals watched c log A m)
    (m' : Node Q F S E β) (hstore : m'.store = m.store) (hacked : m'.acked = m.acked)
    (hpending : m'.pendingAcks = m.pendingAcks) (haborted : m'.aborted = m.aborted)
    (hrc : m'.rc.aborted = A) (hforgets : m'.rc.Forgets)
    (hlog : ∃ es, m'.log = es ++ m.log ∧
      ∀ e ∈ es, watched → e.sends c = false) :
    AbortLive arrivals watched c log A m' := by
  obtain ⟨⟨hdisk, hstored, hwatch⟩, hmem⟩ := h
  refine ⟨⟨?_, ?_, ?_⟩, hrc, hforgets, ?_, ?_⟩
  · rw [hstore]
    exact hdisk
  · intro tag y htag ht
    rw [hacked] at ht
    rw [Tombstoned, hstore]
    exact hstored tag y htag ht
  · intro hw
    obtain ⟨htomb, es, hes, hall⟩ := hwatch hw
    obtain ⟨es', hes', hall'⟩ := hlog
    refine ⟨?_, es' ++ es, ?_, ?_⟩
    · rw [Tombstoned, hstore]
      exact htomb
    · rw [hes', hes, List.append_assoc]
    · intro e he
      rcases List.mem_append.mp he with he | he
      · exact hall' e he hw
      · exact hall e he
  · rw [hstore, haborted]
    exact hmem.aborted
  · rw [hpending]
    exact hmem.pending

/-- A change of the providers that leaves the ring alone. -/
theorem AbortLive.withState (h : AbortLive arrivals watched c log A m)
    {f : NodeState F E → NodeState F E} (hf : (f m.state).rc = m.rc) :
    AbortLive arrivals watched c log A (m.withState f) := by
  have hrc : (m.withState f).rc = m.rc := hf
  apply h.step (m.withState f) rfl rfl rfl rfl
  · rw [hrc]
    exact h.2.tombstones
  · rw [hrc]
    exact h.2.forgets
  · exact ⟨[], rfl, by simp⟩

/-- An entry that is harmless to the watched client. -/
theorem AbortLive.logged (h : AbortLive arrivals watched c log A m) {e : Event β}
    (he : watched → e.sends c = false) :
    AbortLive arrivals watched c log A (m.logged e) := by
  apply h.step (m.logged e) rfl rfl rfl rfl h.2.tombstones h.2.forgets
  exact ⟨[e], rfl, by simpa using he⟩

theorem AbortLive.checkpointed (h : AbortLive arrivals watched c log A m) :
    AbortLive arrivals watched c log A (m.checkpointed C.provider) := by
  obtain ⟨⟨hdisk, hstored, hwatch⟩, htomb, hforgets, haborted, hpending⟩ := h
  have hkeep : ∀ y, Tombstoned y m → Tombstoned y (m.checkpointed C.provider) := by
    intro y ⟨b, hb, hy, hyrc⟩
    obtain ⟨hsub, hsubrc⟩ := haborted b hb
    exact ⟨_, rfl, hsub hy, htomb.symm ▸ hsubrc hyrc⟩
  refine ⟨⟨?_, ?_, ?_⟩, htomb, hforgets, ?_, hpending⟩
  · intro b hb
    obtain rfl := Option.some.inj hb
    exact hforgets
  · intro tag y htag hacked
    exact hkeep y (hstored tag y htag hacked)
  · intro hw
    exact ⟨hkeep c (hwatch hw).1, (hwatch hw).2⟩
  · intro b hb
    obtain rfl := Option.some.inj hb
    exact ⟨Finset.Subset.refl _, htomb.subset⟩

section Acks

variable [DecidableEq Q]

theorem AbortDisk.ackTag (h : AbortDisk arrivals watched c log m) {tag : Q × ℕ}
    (hsafe : ∀ x, arrivals tag.1 tag.2 = some (.abort x) → Tombstoned x m) :
    AbortDisk arrivals watched c log (m.ackTag tag) := by
  refine ⟨h.forgets, ?_, h.watch⟩
  intro t y ht hacked
  rcases Finset.mem_insert.mp hacked with rfl | hacked
  · exact hsafe y ht
  · exact h.stored t y ht hacked

theorem AbortDisk.ackAll (h : AbortDisk arrivals watched c log m)
    {tags : List (Q × ℕ)}
    (hdata : ∀ tag ∈ tags, ∃ d, arrivals tag.1 tag.2 = some (.data d)) :
    AbortDisk arrivals watched c log (m.ackAll tags) := by
  refine ⟨h.forgets, ?_, h.watch⟩
  intro t y ht hacked
  rcases Finset.mem_union.mp hacked with hacked | hmem
  · exact h.stored t y ht hacked
  · obtain ⟨d, hd⟩ := hdata t (List.mem_toFinset.mp hmem)
    rw [hd] at ht
    cases ht

theorem AbortLive.ackTag (h : AbortLive arrivals watched c log A m) {tag : Q × ℕ}
    (hsafe : ∀ x, arrivals tag.1 tag.2 = some (.abort x) → Tombstoned x m) :
    AbortLive arrivals watched c log A (m.ackTag tag) :=
  ⟨h.1.ackTag hsafe, h.2.tombstones, h.2.forgets, h.2.aborted, h.2.pending⟩

theorem AbortLive.released (h : AbortLive arrivals watched c log A m) :
    AbortLive arrivals watched c log A m.released := by
  have hdisk := h.1.ackAll h.2.pending
  exact ⟨⟨hdisk.forgets, hdisk.stored, hdisk.watch⟩, h.2.tombstones, h.2.forgets,
    h.2.aborted, by simp [Machine.released]⟩

end Acks

/-! ## Emissions -/

theorem spec_send_abort (hx : watched → x ≠ c) (o : Output β) :
    Spec (AbortLive arrivals watched c log A) (send C x o)
      (fun _ => AbortLive arrivals watched c log A)
      (AbortDisk arrivals watched c log) := by
  apply Spec.change
  · intro m hm
    exact hm.1
  · intro m hm
    have hsends : ∀ id, watched →
        (Event.data o.shard id x o.payload : Event β).sends c = false := by
      intro id hw
      simpa [Event.sends] using hx hw
    unfold published
    cases o.stamp with
    | none => exact (hm.withState rfl).logged (hsends _)
    | some id => exact hm.logged (hsends id)

theorem spec_downstreamEof_abort (hx : watched → x ≠ c) (counts : ShardCounts) :
    Spec (AbortLive arrivals watched c log A) (downstreamEof C x counts)
      (fun _ => AbortLive arrivals watched c log A)
      (AbortDisk arrivals watched c log) := by
  apply Spec.forEach (I := fun _ => AbortLive arrivals watched c log A)
  intro _ shard _ _
  apply Spec.change
  · intro m hm
    exact hm.1
  · intro m hm
    apply hm.logged
    intro hw
    simpa [Event.sends] using hx hw

/-- The watched client is among the tombstoned ones, so that another client is meant
where one is not tombstoned. -/
theorem ne_of_notMem (hA : watched → c ∈ A) (hx : x ∉ A) : watched → x ≠ c := by
  rintro hw rfl
  exact hx (hA hw)

theorem spec_runBarrier_abort (hA : watched → c ∈ A) {actions : List BarrierAction}
    (hactions : ∀ a ∈ actions, a.client ∉ A) :
    Spec (AbortLive arrivals watched c log A) (runBarrier C actions)
      (fun _ => AbortLive arrivals watched c log A)
      (AbortDisk arrivals watched c log) := by
  apply Spec.forEach (I := fun _ => AbortLive arrivals watched c log A)
  intro before a after hsplit
  have ha : watched → a.client ≠ c := ne_of_notMem hA (hactions a (by simp [hsplit]))
  cases a with
  | downstreamEof y counts => exact spec_downstreamEof_abort ha counts
  | forward t =>
      apply Spec.change
      · intro m hm
        exact hm.1
      · intro m hm
        apply hm.logged
        intro hw
        simpa [Event.sends] using ha hw

/-- The entries for closed barriers send nothing. -/
theorem sends_closings {before : RingCompletion} {actions : List BarrierAction}
    {e : Event β} (he : e ∈ closings before actions) : e.sends c = false := by
  obtain ⟨a, -, ha⟩ := List.mem_filterMap.mp he
  cases a with
  | forward t => cases ha
  | downstreamEof y counts =>
      obtain rfl := Option.some.inj ha
      rfl

/-- The client that is emitted is not aborted. -/
theorem spec_emit_abort (hA : watched → c ∈ A) (hx : x ∉ A) :
    Spec (AbortLive arrivals watched c log A) (emit C x)
      (fun _ => AbortLive arrivals watched c log A)
      (AbortDisk arrivals watched c log) := by
  apply Spec.bind (Q := fun _ => AbortLive arrivals watched c log A)
  · apply Spec.modify
    intro m hm
    exact hm.logged fun _ => rfl
  intro _
  apply Spec.bind (Q := fun _ => AbortLive arrivals watched c log A)
  · apply Spec.compute
    intro m hm
    exact hm.withState (f := fun s => { s with fn := (C.getResult x s.fn).2 }) rfl
  intro outs
  apply Spec.bind (Q := fun _ => AbortLive arrivals watched c log A)
  · apply Spec.forEach (I := fun _ => AbortLive arrivals watched c log A)
    intro _ o _ _
    exact spec_send_abort (ne_of_notMem hA hx) o
  intro _
  apply Spec.bind (Q := fun actions m => (∀ a ∈ actions, a.client ∉ A) ∧
    AbortLive arrivals watched c log A m)
  · apply Spec.compute
    intro m hm
    have hrespects : RingCompletion.Respects BarrierAction.client m.rc
        (m.rc.reportSent C.self x (C.sentCounts x outs m.state.extra).1) :=
      RingCompletion.respects_reportSent (hm.2.tombstones ▸ hx)
    constructor
    · intro a ha
      exact hm.2.tombstones ▸ hrespects.actions a ha
    · apply hm.step (reportSent C x outs m).2 rfl rfl rfl rfl
        (hrespects.aborted.trans hm.2.tombstones) (hrespects.forgets hm.2.forgets)
      refine ⟨closings (m.rc.markEmitted x (C.sentCounts x outs m.state.extra).1)
        (reportSent C x outs m).1 ++
          [.reported x (C.sentCounts x outs m.state.extra).1], ?_, ?_⟩
      · rw [List.append_assoc]
        rfl
      · intro e he _
        rcases List.mem_append.mp he with he | he
        · exact sends_closings he
        · rw [List.mem_singleton.mp he]
          rfl
  · intro actions
    apply Spec.of_pre
    intro hactions
    exact spec_runBarrier_abort hA hactions

theorem spec_runEmits_abort (hA : watched → c ∈ A) {xs : List UUID}
    (hxs : ∀ x ∈ xs, x ∉ A) :
    Spec (AbortLive arrivals watched c log A) (runEmits C xs)
      (fun _ => AbortLive arrivals watched c log A)
      (AbortDisk arrivals watched c log) := by
  apply Spec.forEach (I := fun _ => AbortLive arrivals watched c log A)
  intro before x after hsplit
  exact spec_emit_abort hA (hxs x (by simp [hsplit]))

theorem spec_free_abort :
    Spec (AbortLive arrivals watched c log A) (free C x)
      (fun _ => AbortLive arrivals watched c log A)
      (AbortDisk arrivals watched c log) := by
  apply Spec.change
  · intro m hm
    exact hm.1
  · intro m hm
    exact AbortLive.logged (hm.withState rfl) fun _ => rfl

/-! ## The handlers -/

variable [DecidableEq Q]

theorem spec_flush_abort (force : Bool) :
    Spec (AbortLive arrivals watched c log A)
      (Checkpointer.flush C.provider force)
      (fun _ => AbortLive arrivals watched c log A)
      (AbortDisk arrivals watched c log) := by
  apply Checkpointer.spec_checkpointAndFlush
    (R := AbortLive arrivals watched c log A)
  · intro m hm _
    have hsnapshot : AbortDisk arrivals watched c log (m.snapshotted C.provider) :=
      (hm.withState (f := fun s => (C.provider.snapshotState s).2) rfl).1
    exact ⟨hm.1, hsnapshot, hm.checkpointed⟩
  · intro m hm _ _
    exact hm
  · intro m tags rest hm hsplit
    apply hm.1.ackAll
    intro tag htag
    apply hm.2.pending
    rw [hsplit]
    exact List.mem_append_left _ htag
  · intro m hm
    exact hm.released

omit [DecidableEq Q] in
/-- Counting a message or an announcement. -/
theorem onRing_abort (hm : AbortLive arrivals watched c log A m)
    {f : RingCompletion → RingCompletion × List UUID}
    (hf : m.rc.Counts x (f m.rc)) :
    (∀ y ∈ (onRing f m).1, y ∉ A) ∧
      AbortLive arrivals watched c log A (onRing f m).2 := by
  have hrespects := hf.respects
  constructor
  · intro y hy
    exact hm.2.tombstones ▸ hrespects.actions y hy
  · apply hm.step (onRing f m).2 rfl rfl rfl rfl
      (hrespects.aborted.trans hm.2.tombstones) (hrespects.forgets hm.2.forgets)
    exact ⟨[], rfl, by simp⟩

variable {q : Q} {k : ℤ}

theorem spec_onEof_abort (hA : watched → c ∈ A) :
    Spec (AbortLive arrivals watched c log A) (onEof C q x k)
      (fun _ => AbortLive arrivals watched c log A)
      (AbortDisk arrivals watched c log) := by
  apply Spec.bind (Q := fun emits m => (∀ y ∈ emits, y ∉ A) ∧
    AbortLive arrivals watched c log A m)
  · apply Spec.compute
    intro m hm
    have hnoted : AbortLive arrivals watched c log A (m.withState fun s =>
        { s with extra := (C.noteEof q x k m.state.extra).2 }) := hm.withState rfl
    unfold noteEof
    cases htotal : (C.noteEof q x k m.state.extra).1 with
    | none =>
        simp only [htotal]
        exact ⟨by simp, hnoted⟩
    | some total =>
        simp only [htotal]
        exact onRing_abort (f := fun rc => rc.onUpstreamEof x total) hnoted
          (RingCompletion.counts_onUpstreamEof _ x total)
  intro emits
  apply Spec.of_pre
  intro hemits
  apply Spec.bind (Q := fun _ => AbortLive arrivals watched c log A)
  · exact Spec.when (fun _ => spec_flush_abort true) fun _ _ hm => hm
  intro _
  apply Spec.bind (spec_runEmits_abort hA hemits)
  intro _
  apply Spec.bind (spec_flush_abort true)
  intro _
  apply Spec.forEach (I := fun _ => AbortLive arrivals watched c log A)
  intro _ _ _ _
  exact spec_free_abort

omit [DecidableEq Q] in
theorem spec_onData_abort (hA : watched → c ∈ A) {msg : DataMsg α}
    (hx : watched → msg.clientId ≠ c) :
    Spec (AbortLive arrivals watched c log A) (onData C q msg)
      (fun _ => AbortLive arrivals watched c log A)
      (AbortDisk arrivals watched c log) := by
  apply Spec.bind (Q := fun _ => AbortLive arrivals watched c log A)
  · apply Spec.modify
    intro m hm
    exact hm.withState rfl
  intro _
  apply Spec.bind (Q := fun _ => AbortLive arrivals watched c log A)
  · apply Spec.forEach (I := fun _ => AbortLive arrivals watched c log A)
    intro _ o _ _
    apply Spec.bind (spec_send_abort hx o)
    intro _
    apply Spec.modify
    intro m hm
    exact hm.withState rfl
  intro _
  apply Spec.bind (Q := fun emits m => (∀ y ∈ emits, y ∉ A) ∧
    AbortLive arrivals watched c log A m)
  · apply Spec.compute
    intro m hm
    exact onRing_abort (f := fun rc => rc.onData msg.clientId) hm
      (RingCompletion.counts_onData _ _)
  · intro emits
    apply Spec.of_pre
    intro hemits
    exact spec_runEmits_abort hA hemits

/-- The forced flush of an abort puts the client into both sets of the checkpoint. -/
theorem spec_flush_aborted :
    Spec (fun m => AbortLive arrivals watched c log A m ∧ x ∈ m.aborted ∧ x ∈ A)
      (Checkpointer.flush C.provider true)
      (fun _ m => AbortLive arrivals watched c log A m ∧ Tombstoned x m)
      (AbortDisk arrivals watched c log) := by
  apply Checkpointer.spec_checkpointAndFlush
    (R := fun m => AbortLive arrivals watched c log A m ∧ Tombstoned x m)
  · intro m ⟨hm, hx, hA⟩ _
    have hsnapshot : AbortDisk arrivals watched c log (m.snapshotted C.provider) :=
      (hm.withState (f := fun s => (C.provider.snapshotState s).2) rfl).1
    exact ⟨hm.1, hsnapshot, hm.checkpointed, _, rfl, hx, hm.2.tombstones.symm ▸ hA⟩
  · intro m _ _ hforce
    cases hforce
  · intro m tags rest hm hsplit
    apply hm.1.1.ackAll
    intro tag htag
    apply hm.1.2.pending
    rw [hsplit]
    exact List.mem_append_left _ htag
  · intro m hm
    exact ⟨hm.1.released, hm.2⟩

theorem spec_onAbort_abort :
    Spec (AbortLive arrivals watched c log A) (onAbort C x)
      (fun _ m => AbortLive arrivals watched c log (insert x A) m ∧ Tombstoned x m)
      (AbortDisk arrivals watched c log) := by
  apply Spec.bind (Q := fun _ => AbortLive arrivals watched c log (insert x A))
  · apply Spec.modify
    intro m ⟨hdisk, hmem⟩
    refine ⟨⟨hdisk.forgets, hdisk.stored, hdisk.watch⟩, ?_, hmem.forgets.drop, ?_,
      hmem.pending⟩
    · exact congrArg (insert x) hmem.tombstones
    · intro b hb
      obtain ⟨hsub, hsubrc⟩ := hmem.aborted b hb
      exact ⟨hsub, hsubrc.trans (Finset.subset_insert x A)⟩
  intro _
  apply Spec.bind (Q := fun _ => AbortLive arrivals watched c log (insert x A))
  · apply Spec.change
    · intro m hm
      exact hm.1
    · intro m hm
      exact hm.withState rfl
  intro _
  apply Spec.bind (Q := fun _ m => AbortLive arrivals watched c log (insert x A) m ∧
    x ∈ m.aborted ∧ x ∈ insert x A)
  · apply Spec.modify
    intro m ⟨hdisk, hmem⟩
    refine ⟨⟨⟨hdisk.forgets, hdisk.stored, hdisk.watch⟩, hmem.tombstones,
      hmem.forgets, ?_, hmem.pending⟩, Finset.mem_insert_self x _,
      Finset.mem_insert_self x _⟩
    intro b hb
    obtain ⟨hsub, hsubrc⟩ := hmem.aborted b hb
    exact ⟨hsub.trans (Finset.subset_insert x _), hsubrc⟩
  intro _
  apply Spec.bind spec_flush_aborted
  intro _
  apply Spec.forEach
    (I := fun _ m => AbortLive arrivals watched c log (insert x A) m ∧ Tombstoned x m)
  intro _ shard _ _
  apply Spec.change
  · intro m hm
    exact hm.1.1
  · intro m hm
    exact ⟨hm.1.logged fun _ => rfl, hm.2⟩

/-- The invariant, whatever is tombstoned. -/
def AbortSteady (arrivals : Q → ℕ → Option (Message α)) (watched : Prop) (c : UUID)
    (log : List (Event β)) (m : Node Q F S E β) : Prop :=
  AbortLive arrivals watched c log m.rc.aborted m

omit [DecidableEq Q] in
theorem AbortLive.steady (h : AbortLive arrivals watched c log A m) :
    AbortSteady arrivals watched c log m := by
  have htomb := h.2.tombstones
  subst htomb
  exact h

omit [DecidableEq Q] in
/-- A program may be looked at with the tombstones that it starts with. -/
theorem spec_steady {B : Type} {p : NodeProg Q F S E β B}
    {R : B → Node Q F S E β → Prop} {I : Node Q F S E β → Prop}
    (h : ∀ A, (watched → c ∈ A) →
      Spec (AbortLive arrivals watched c log A) p R I) :
    Spec (AbortSteady arrivals watched c log) p R I := by
  intro m hm
  exact h m.rc.aborted (fun hw => (hm.mem hw).2) m hm

/-! ## Runs -/

variable {tag : Q × ℕ}

theorem spec_receive_abort (tag : Q × ℕ) :
    Spec (AbortSteady arrivals watched c log)
      (receive C tag (arrivals tag.1 tag.2))
      (fun _ => AbortSteady arrivals watched c log)
      (AbortDisk arrivals watched c log) := by
  cases htag : arrivals tag.1 tag.2 with
  | none => exact Spec.pure fun _ hm => hm
  | some msg =>
      apply spec_steady
      intro A hA
      apply Spec.bind (Q := fun _ => AbortLive arrivals watched c log A)
      · apply Spec.modify
        intro m hm
        exact ⟨⟨hm.1.forgets, hm.1.stored, hm.1.watch⟩, hm.2.tombstones,
          hm.2.forgets, hm.2.aborted, hm.2.pending⟩
      intro _
      have hsafe : (∀ x, msg ≠ .abort x) → ∀ (m : Node Q F S E β) x,
          arrivals tag.1 tag.2 = some (.abort x) → Tombstoned x m := by
        intro hmsg m x hx
        rw [htag] at hx
        exact absurd (Option.some.inj hx) (hmsg x)
      apply Checkpointer.spec_dispatch
      · rintro x k rfl
        apply Spec.bind (spec_flush_abort false)
        intro _
        apply Spec.bind (spec_onEof_abort hA)
        intro _
        apply Checkpointer.spec_ack
        · intro m hm
          exact hm.1
        · intro m hm
          exact (hm.ackTag (hsafe (by simp) m)).steady
      · rintro x rfl
        apply Spec.bind spec_onAbort_abort
        intro _
        apply Checkpointer.spec_ack
        · intro m hm
          exact hm.1.1
        · intro m hm
          apply AbortLive.steady
          apply hm.1.ackTag
          intro y hy
          rw [htag] at hy
          cases hy
          exact hm.2
      · rintro d rfl
        apply Checkpointer.spec_handleData (R := AbortLive arrivals watched c log A)
        · intro m hm _
          exact ⟨hm.1, (hm.ackTag (hsafe (by simp) m)).steady⟩
        · intro m hm _ _
          exact ⟨hm.1, (hm.ackTag (hsafe (by simp) m)).steady⟩
        · intro m ⟨hm, hnot, _⟩
          have hx : watched → d.clientId ≠ c := by
            rintro hw rfl
            exact hnot (hm.mem hw).1
          have hspec : Spec (AbortLive arrivals watched c log A) (onData C tag.1 d)
              (fun _ m => AbortLive arrivals watched c log A (m.recorded tag d))
              (AbortDisk arrivals watched c log) := by
            apply (spec_onData_abort hA hx).post
            intro _ t ht
            refine ⟨⟨ht.1.forgets, ht.1.stored, ht.1.watch⟩, ht.2.tombstones,
              ht.2.forgets, ht.2.aborted, ?_⟩
            intro t' ht'
            rcases List.mem_append.mp ht' with ht' | ht'
            · exact ht.2.pending t' ht'
            · rw [List.mem_singleton.mp ht']
              exact ⟨d, htag⟩
          exact hspec m hm
        · exact (spec_flush_abort false).conseq (fun _ hm => hm.1)
            (fun _ _ hm => hm.steady) fun _ hm => hm
        · exact fun _ hm _ => hm.steady

theorem spec_onRingMsg_abort (t : BarrierToken) :
    Spec (AbortSteady arrivals watched c log) (onRingMsg C t)
      (fun _ => AbortSteady arrivals watched c log)
      (AbortDisk arrivals watched c log) := by
  apply spec_steady
  intro A hA
  apply Spec.bind (Q := fun actions m => (∀ a ∈ actions, a.client ∉ A) ∧
    AbortLive arrivals watched c log A m)
  · apply Spec.compute
    intro m hm
    have hrespects : RingCompletion.Respects BarrierAction.client m.rc
        (m.rc.onToken C.self t) := RingCompletion.respects_onToken
    constructor
    · intro a ha
      exact hm.2.tombstones ▸ hrespects.actions a ha
    · apply hm.step (receiveToken C t m).2 rfl rfl rfl rfl
        (hrespects.aborted.trans hm.2.tombstones) (hrespects.forgets hm.2.forgets)
      exact ⟨closings m.rc (receiveToken C t m).1, rfl,
        fun e he _ => sends_closings he⟩
  intro actions
  apply Spec.of_pre
  intro hactions
  apply Spec.bind (spec_runBarrier_abort hA hactions)
  intro _
  exact (spec_flush_abort true).post fun _ _ hm => hm.steady

/-- The invariant between two calls. -/
structure AbortIdle (arrivals : Q → ℕ → Option (Message α)) (watched : Prop) (c : UUID)
    (log : List (Event β)) (m : Node Q F S E β) : Prop where
  disk : AbortDisk arrivals watched c log m
  forgets : m.rc.Forgets
  pending : ∀ tag ∈ m.pendingAcks, ∃ d, arrivals tag.1 tag.2 = some (.data d)
  steady : m.up = true → AbortSteady arrivals watched c log m

omit [DecidableEq Q] in
theorem AbortSteady.idle (h : AbortSteady arrivals watched c log m) :
    AbortIdle arrivals watched c log m :=
  ⟨h.1, h.2.forgets, h.2.pending, fun _ => h⟩

/-- A process that restarts emits no aborted client. -/
theorem spec_start_abort :
    Spec (fun m : Node Q F S E β => AbortDisk arrivals watched c log m ∧
        m.rc.Forgets ∧
        ∀ tag ∈ m.pendingAcks, ∃ d, arrivals tag.1 tag.2 = some (.data d))
      (start C) (fun _ => AbortSteady arrivals watched c log)
      (AbortDisk arrivals watched c log) := by
  apply Spec.bind (Q := fun _ m => AbortDisk arrivals watched c log m ∧
    m.rc.Forgets ∧
    ∀ tag ∈ m.pendingAcks, ∃ d, arrivals tag.1 tag.2 = some (.data d))
  · apply Spec.modify
    intro m ⟨hdisk, hforgets, hpending⟩
    refine ⟨⟨hdisk.forgets, hdisk.stored, ?_⟩, hforgets, hpending⟩
    intro hw
    obtain ⟨htomb, es, hes, hall⟩ := hdisk.watch hw
    refine ⟨htomb, .restarted :: es, congrArg (Event.restarted :: ·) hes, ?_⟩
    intro e he
    rcases List.mem_cons.mp he with rfl | he
    · rfl
    · exact hall e he
  intro _
  apply Spec.bind (Q := fun _ => AbortSteady arrivals watched c log)
  · apply Checkpointer.spec_restore
    · intro m hm
      exact hm.1
    · intro m ⟨hdisk, hforgets, hpending⟩ hnone
      refine ⟨⟨hdisk.forgets, hdisk.stored, hdisk.watch⟩, rfl, hforgets, ?_, hpending⟩
      intro b hb
      cases hnone.symm.trans hb
    · intro m b ⟨hdisk, _, hpending⟩ hb
      refine ⟨⟨hdisk.forgets, hdisk.stored, hdisk.watch⟩, rfl, hdisk.forgets b hb, ?_,
        hpending⟩
      intro b' hb'
      obtain rfl := Option.some.inj (hb.symm.trans hb')
      exact ⟨Finset.Subset.refl _, Finset.Subset.refl _⟩
  intro restored
  apply Spec.bind (Q := fun _ => AbortSteady arrivals watched c log)
  · apply Spec.when
    · intro _
      apply spec_steady
      intro A hA
      apply Spec.read_bind
      intro before
      apply Spec.bind (Q := fun _ => AbortLive arrivals watched c log A)
      · intro m ⟨heq, hm⟩
        subst heq
        apply spec_runEmits_abort hA _ m hm
        intro x hx
        exact hm.2.tombstones ▸ hm.2.forgets.not_mem_of_recheck hx
      intro _
      apply Spec.read_bind
      intro after
      apply Spec.bind (Q := fun _ => AbortLive arrivals watched c log A)
      · apply Spec.pre (P := AbortLive arrivals watched c log A)
        · apply Spec.forEach (I := fun _ => AbortLive arrivals watched c log A)
          intro _ _ _ _
          exact spec_free_abort
        · exact fun m hm => hm.2
      · intro _
        exact (spec_flush_abort true).post fun _ _ hm => hm.steady
    · exact fun _ _ hm => hm
  · intro _
    apply Spec.modify
    intro m hm
    exact ⟨⟨hm.1.forgets, hm.1.stored, hm.1.watch⟩, rfl, hm.2.forgets, hm.2.aborted,
      hm.2.pending⟩

variable {fifo : Bool} {crashable : Node Q F S E β → Prop}
  {m₀ : Node Q F S E β}

theorem spec_call_abort (call : Call Q) :
    Spec (fun m => AbortIdle arrivals watched c log m ∧
        (system C arrivals fifo crashable).enabled call m)
      ((system C arrivals fifo crashable).handler call)
      (fun _ => AbortSteady arrivals watched c log)
      (AbortDisk arrivals watched c log) := by
  cases call with
  | start =>
      apply spec_start_abort.pre
      intro m hm
      exact ⟨hm.1.disk, hm.1.forgets, hm.1.pending⟩
  | deliver tag =>
      apply (spec_receive_abort tag).pre
      intro m hm
      exact hm.1.steady hm.2.1
  | token t =>
      apply (spec_onRingMsg_abort t).pre
      intro m hm
      exact hm.1.steady hm.2

omit [DecidableEq Q] in
theorem AbortDisk.reboot (h : AbortDisk arrivals watched c log m)
    (k : UUID → ℕ → ℕ) :
    AbortIdle arrivals watched c log (m.reboot C.provider k) := by
  constructor
  · exact ⟨h.forgets, h.stored, h.watch⟩
  · exact RingCompletion.forgets_new
  · intro tag htag
    cases htag
  · intro hup
    cases hup

theorem abortIdle_reach (h₀ : AbortIdle arrivals watched c log m₀)
    (h : (system C arrivals fifo crashable).Reach m₀ m) :
    AbortIdle arrivals watched c log m := by
  apply h.invariant h₀
  · intro call
    apply (spec_call_abort call).conseq
    · exact fun _ hm => hm
    · exact fun _ _ hm => hm.idle
    · exact fun _ hm k _ => hm.reboot k
  · intro _ k m hm _
    exact hm.disk.reboot k

theorem abortDisk_visits (h₀ : AbortIdle arrivals watched c log m₀)
    (h : (system C arrivals fifo crashable).Visits m₀ m) :
    AbortDisk arrivals watched c log m := by
  apply h.property fun _ hm => abortIdle_reach h₀ hm
  · exact fun _ hm => hm.disk
  · intro call
    exact (spec_call_abort call).post fun _ _ _ => trivial

/-- Once an abort of a client is acknowledged, the node sends no data message, no token
and no end-of-file for the client any more, whatever arrives and wherever it crashes. -/
theorem abort_final (C : Controller Q F S E α β)
    (arrivals : Q → ℕ → Option (Message α)) (fifo : Bool)
    (crashable : Node Q F S E β → Prop) (f : F) {tag : Q × ℕ} {c : UUID}
    (htag : arrivals tag.1 tag.2 = some (.abort c)) {m₀ m : Node Q F S E β}
    (h₀ : (system C arrivals fifo crashable).Reach (.initial (C.fresh f)) m₀)
    (hacked : tag ∈ m₀.acked)
    (h : (system C arrivals fifo crashable).Visits m₀ m) :
    ∃ es, m.log = es ++ m₀.log ∧ ∀ e ∈ es, e.sends c = false := by
  have hfresh : AbortIdle (E := E) (S := S) (β := β) arrivals False c []
      (.initial (C.fresh f)) := by
    refine ⟨⟨?_, ?_, fun hw => hw.elim⟩, RingCompletion.forgets_new, ?_, ?_⟩
    · intro b hb
      cases hb
    · intro t x _ ht
      exact absurd ht (Finset.notMem_empty t)
    · intro t ht
      cases ht
    · intro hup
      cases hup
  have hidle := abortIdle_reach hfresh h₀
  have hdisk : AbortDisk arrivals True c m₀.log m₀ :=
    ⟨hidle.disk.forgets, hidle.disk.stored,
      fun _ => ⟨hidle.disk.stored tag c htag hacked, [], rfl, by simp⟩⟩
  have hwatched : AbortIdle arrivals True c m₀.log m₀ :=
    ⟨hdisk, hidle.forgets, hidle.pending, fun hup => ⟨hdisk, (hidle.steady hup).2⟩⟩
  exact ((abortDisk_visits hwatched h).watch trivial).2

/-- A filter that lets everything pass. -/
def passFilter : Controller Unit Unit Unit SentCounts ℕ ℕ :=
  ringFilter ⟨Peer.ofIds 0 [1], 1, fun _ => 9⟩ 1 DataMsg.body

/-- An abort between the messages of client `7`. -/
def abortArrivals : Unit → ℕ → Option (Message ℕ)
  | _, 0 => some (.data ⟨7, 3, 1, 40⟩)
  | _, 1 => some (.abort 7)
  | _, 2 => some (.data ⟨7, 3, 2, 41⟩)
  | _, 3 => some (.eof 7 2)
  | _, _ => none

/-- The runs of the filter. -/
abbrev filterRuns : System Effect (Node Unit Unit Unit SentCounts ℕ) (Call Unit)
    (UUID → ℕ → ℕ) :=
  system passFilter abortArrivals true fun _ => True

/-- A message and the abort. -/
def abortedRun : List (System.Move (Call Unit) (UUID → ℕ → ℕ)) :=
  [.finish .start, .finish (.deliver ((), 0)), .finish (.deliver ((), 1))]

/-- A crash, a message, the end-of-file and a token of the client. -/
def tombstoneRun : List (System.Move (Call Unit) (UUID → ℕ → ℕ)) :=
  [.idleCrash .start fun _ _ => 0, .finish .start, .finish (.deliver ((), 2)),
    .finish (.deliver ((), 3)), .finish (.token ⟨7, 0, Dict.empty⟩)]

theorem abort_final_tombstoneRun : ∃ m₀ m,
    filterRuns.Reach (.initial (passFilter.fresh ())) m₀ ∧
    m₀.log = [.abort 0 7, .data 0 (3, 1) 7 40, .restarted] ∧
    filterRuns.Reach m₀ m ∧ m.acked = {((), 0), ((), 1), ((), 2), ((), 3)} ∧
    ∃ es, m.log = es ++ m₀.log ∧ ∀ e ∈ es, e.sends 7 = false := by
  have hplays : (filterRuns.playAll abortedRun (.initial (passFilter.fresh ()))).any
      (fun m₀ => decide (m₀.log = [.abort 0 7, .data 0 (3, 1) 7 40, .restarted] ∧
        ((), 1) ∈ m₀.acked) && (filterRuns.playAll tombstoneRun m₀).any
          fun m => decide (m.acked = {((), 0), ((), 1), ((), 2), ((), 3)})) = true := by
    decide
  obtain ⟨m₀, hm₀, hboth⟩ := (Option.any_eq_true _ _).mp hplays
  obtain ⟨hlog, hsecond⟩ := (Bool.and_eq_true _ _).mp hboth
  obtain ⟨m, hm, hacked⟩ := (Option.any_eq_true _ _).mp hsecond
  have hreach := System.reach_of_playAll hm₀
  have hreach' := System.reach_of_playAll hm
  obtain ⟨hlog, habort⟩ := of_decide_eq_true hlog
  refine ⟨m₀, m, hreach, hlog, hreach', of_decide_eq_true hacked, ?_⟩
  exact abort_final passFilter abortArrivals true (fun _ => True) ()
    rfl hreach habort (.idle m hreach')

end RingNode
