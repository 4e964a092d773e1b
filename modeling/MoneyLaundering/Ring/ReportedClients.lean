import MoneyLaundering.Ring.EofsRead

/-!
# Reported clients

A node reports a client only when each of its input queues has handed over an end-of-file of
the client.  The announced counts in the completion state and the queues that the extra
provider remembers say so, in memory and in the checkpoint, and every emission starts from
an announced count.
-/

open Crash

namespace RingNode

variable {Q F S E α β : Type} {C : Controller Q F S E α β}
  {arrivals : Q → ℕ → Option (Message α)} {tracks : E → Q → UUID → Prop}
  {m : Node Q F S E β} {tag : Q × ℕ} {x : UUID} {k : ℤ}

/-! ## The invariant -/

/-- Every queue has an end-of-file of the client. -/
def EveryEof (arrivals : Q → ℕ → Option (Message α)) (x : UUID) : Prop :=
  ∀ q, ∃ i, EofAt arrivals (q, i) x

/-- What the providers remember of end-of-files is in the queues. -/
structure Remembered (arrivals : Q → ℕ → Option (Message α)) (tracks : E → Q → UUID → Prop)
    (extra : E) (rc : RingCompletion) : Prop where
  tracked : ∀ q x, tracks extra q x → ∃ i, EofAt arrivals (q, i) x
  expected : ∀ x, 0 ≤ (rc.client x).expected → EveryEof arrivals x

/-- The part that a crash preserves. -/
structure StoredNotes (C : Controller Q F S E α β) (arrivals : Q → ℕ → Option (Message α))
    (tracks : E → Q → UUID → Prop) (m : Node Q F S E β) : Prop where
  stored : Remembered arrivals tracks (m.storedExtra C) m.storedRc
  reported : ∀ x sent, .reported x sent ∈ m.log → EveryEof arrivals x

/-- Both parts. -/
structure Notes (C : Controller Q F S E α β) (arrivals : Q → ℕ → Option (Message α))
    (tracks : E → Q → UUID → Prop) (m : Node Q F S E β) : Prop
    extends StoredNotes C arrivals tracks m where
  live : Remembered arrivals tracks m.state.extra m.rc

/-- A ready client has an announced count. -/
theorem Remembered.everyEof {extra : E} {rc : RingCompletion}
    (h : Remembered arrivals tracks extra rc) (hready : (rc.client x).ready = true) :
    EveryEof arrivals x :=
  h.expected x (Client.ready_iff.mp hready).2.1

theorem Notes.frame (h : Notes C arrivals tracks m) {m' : Node Q F S E β}
    (hstore : m'.store = m.store) (hlog : m'.log = m.log)
    (hextra : m'.state.extra = m.state.extra) (hrc : m'.state.rc = m.state.rc) :
    Notes C arrivals tracks m' := by
  refine ⟨⟨?_, hlog ▸ h.reported⟩, ?_⟩
  · rw [Node.storedExtra, Node.storedRc, hstore]
    exact h.stored
  · rw [Node.rc, hextra, hrc]
    exact h.live

/-- The providers forget, and only clients with end-of-files are reported. -/
theorem Notes.change (h : Notes C arrivals tracks m) (s : NodeState F E) (log : List (Event β))
    (htracks : ∀ q y, tracks s.extra q y → tracks m.state.extra q y)
    (hexpected : ∀ y, 0 ≤ (s.rc.client y).expected → 0 ≤ (m.rc.client y).expected)
    (hlog : ∀ y sent, .reported y sent ∈ log →
      .reported y sent ∈ m.log ∨ EveryEof arrivals y) :
    Notes C arrivals tracks { m with state := s, log := log } where
  stored := h.stored
  reported y sent he := (hlog y sent he).elim (h.reported y sent) id
  live := ⟨fun q y ht => h.live.tracked q y (htracks q y ht),
    fun y he => h.live.expected y (hexpected y he)⟩

/-- Entries that are no reports. -/
theorem Notes.append (h : Notes C arrivals tracks m) (es : List (Event β))
    (hplain : ∀ e ∈ es, ∀ y sent, e ≠ .reported y sent) :
    Notes C arrivals tracks { m with log := es ++ m.log } :=
  h.change m.state _ (fun _ _ ht => ht) (fun _ he => he) fun y sent he =>
    Or.inl ((List.mem_append.mp he).resolve_left fun hmem => hplain _ hmem y sent rfl)

/-- The handled end-of-file is one of its queue, and completes a count only if the other
queues announced theirs. -/
theorem Notes.noteEof (h : Notes C arrivals tracks m) (laws : TracksEofs C tracks)
    (htag : arrivals tag.1 tag.2 = some (.eof x k)) :
    Notes C arrivals tracks (noteEof C tag.1 x k m).2 ∧
      ∀ y ∈ (noteEof C tag.1 x k m).1, EveryEof arrivals y := by
  have htracked : ∀ q y, tracks (C.noteEof tag.1 x k m.state.extra).2 q y →
      ∃ i, EofAt arrivals (q, i) y := by
    intro q y ht
    rcases laws.noted _ _ _ _ _ _ ht with ht | ⟨rfl, rfl⟩
    · exact h.live.tracked q y ht
    · exact ⟨tag.2, k, htag⟩
  cases htotal : (C.noteEof tag.1 x k m.state.extra).1 with
  | none =>
      rw [noteEof_none htotal]
      exact ⟨⟨⟨h.stored, h.reported⟩, htracked, h.live.expected⟩,
        fun y hy => absurd hy List.not_mem_nil⟩
  | some total =>
      rw [noteEof_some htotal]
      have hall : EveryEof arrivals x := by
        intro q
        by_cases hq : q = tag.1
        · exact hq ▸ ⟨tag.2, k, htag⟩
        · exact h.live.tracked q x (laws.complete _ _ _ _ _ htotal q hq)
      have hexpected : ∀ y, 0 ≤ ((m.rc.onUpstreamEof x total).1.client y).expected →
          EveryEof arrivals y := by
        intro y he
        rcases RingCompletion.expected_onUpstreamEof he with rfl | he
        · exact hall
        · exact h.live.expected y he
      refine ⟨⟨⟨h.stored, h.reported⟩, htracked, hexpected⟩, fun y hy => ?_⟩
      rw [((RingCompletion.counts_onUpstreamEof m.rc x total).emits.2 y hy).1]
      exact hall

/-! ## Handlers -/

section Handlers

/-- A client is emitted if its end-of-files are in the queues. -/
theorem spec_emit_notes (laws : TracksEofs C tracks) (hx : EveryEof arrivals x) :
    Spec (Notes C arrivals tracks) (emit C x) (fun _ => Notes C arrivals tracks)
      (StoredNotes C arrivals tracks) := by
  have hstamped : ∀ (m : Node Q F S E β) sent y counts,
      .reported y counts ∈ (C.stampAll x m.state.seqs sent).reverse ++ .emitting x :: m.log →
        .reported y counts ∈ m.log := by
    intro m sent y counts he
    rcases List.mem_append.mp he with hdata | he
    · obtain ⟨_, _, _, heq⟩ := Controller.eq_data_of_mem_stampAll (List.mem_reverse.mp hdata)
      cases heq
    · exact (List.mem_cons.mp he).resolve_left (by simp)
  refine spec_emit x (fun m hm sent rest _ => ?_) (fun m hm => ?_) (fun m hm => hm.toStoredNotes)
    fun m e he hm => ?_
  · exact (hm.change (sending C x sent m).state _ (fun _ _ ht => ht) (fun _ he => he)
      fun y counts he => Or.inl (hstamped m sent y counts he)).toStoredNotes
  · refine hm.change (emitted C x m).state _ (fun q y ht => laws.reported _ _ _ _ _ ht)
      (fun y he => ?_) fun y counts he => ?_
    · change 0 ≤ ((m.rc.reportSent C.self x (countsOf C x m)).1.client y).expected at he
      rwa [RingCompletion.expected_reportSent] at he
    · rcases List.mem_append.mp he with hclosing | he
      · exact absurd rfl ((Event.plain_of_mem_closings hclosing).2 y counts)
      · rcases List.mem_cons.mp he with heq | he
        · obtain ⟨rfl, -⟩ := Event.reported.inj heq
          exact Or.inr hx
        · exact Or.inl (hstamped m _ y counts he)
  · exact hm.append [e] (by simpa using (Event.plain_of_isBarrier he).2)

theorem spec_runEmits_notes (laws : TracksEofs C tracks) {xs : List UUID}
    (hxs : ∀ y ∈ xs, EveryEof arrivals y) :
    Spec (Notes C arrivals tracks) (runEmits C xs) (fun _ => Notes C arrivals tracks)
      (StoredNotes C arrivals tracks) :=
  Spec.forEach (I := fun _ => Notes C arrivals tracks) xs fun _ y _ hsplit =>
    spec_emit_notes laws (hxs y (hsplit ▸ by simp))

theorem spec_free_notes (laws : TracksEofs C tracks) (xs : List UUID) :
    Spec (Notes C arrivals tracks) (Prog.forEach xs (free C)) (fun _ => Notes C arrivals tracks)
      (StoredNotes C arrivals tracks) := by
  refine Spec.forEach (I := fun _ => Notes C arrivals tracks) xs fun _ y _ _ => ?_
  refine Spec.change (fun m hm => hm.toStoredNotes) fun m hm => ?_
  exact hm.change _ _ (fun q z ht => laws.freed _ _ _ _ _ ht) (fun _ he => he) fun z sent he =>
    Or.inl ((List.mem_cons.mp he).resolve_left (by simp))

variable [DecidableEq Q]

theorem spec_flush_notes (force : Bool) :
    Spec (Notes C arrivals tracks)
      (Checkpointer.flush C.provider force : NodeProg Q F S E β Unit)
      (fun _ => Notes C arrivals tracks) (StoredNotes C arrivals tracks) :=
  Checkpointer.spec_checkpointAndFlush (R := Notes C arrivals tracks)
    (fun _ hm _ => ⟨hm.toStoredNotes, ⟨hm.stored, hm.reported⟩,
      ⟨hm.live, hm.reported⟩, hm.live⟩)
    (fun _ hm _ _ => hm) (fun _ _ _ hm _ => ⟨hm.stored, hm.reported⟩)
    fun _ hm => hm.frame rfl rfl rfl rfl

omit [DecidableEq Q] in
theorem spec_onData_notes (laws : TracksEofs C tracks) (q : Q) (d : DataMsg α) :
    Spec (Notes C arrivals tracks) (onData C q d) (fun _ => Notes C arrivals tracks)
      (StoredNotes C arrivals tracks) := by
  refine Spec.bind (Q := fun _ => Notes C arrivals tracks)
    (Spec.modify fun m hm => hm.frame rfl rfl rfl rfl) fun _ => ?_
  refine Spec.bind (Q := fun _ => Notes C arrivals tracks) ?_ fun _ => ?_
  · refine Spec.forEach (I := fun _ => Notes C arrivals tracks) _ fun _ o _ _ => ?_
    refine Spec.bind (Q := fun _ => Notes C arrivals tracks)
      (Spec.change (fun m hm => hm.toStoredNotes) fun m hm => ?_) fun _ =>
        Spec.modify fun m hm => ?_
    · rw [published_eq]
      exact hm.change _ _ (fun _ _ ht => ht) (fun _ he => he) fun y sent he =>
        Or.inl ((List.mem_cons.mp he).resolve_left (by simp))
    · exact hm.change _ m.log (fun q y ht => laws.counted _ _ _ _ _ ht) (fun _ he => he)
        fun _ _ he => Or.inl he
  refine Spec.bind (Q := fun emits m => (∀ y ∈ emits, EveryEof arrivals y) ∧
    Notes C arrivals tracks m) (Spec.compute fun m hm => ?_) fun emits =>
      Spec.of_pre fun hemits => spec_runEmits_notes laws hemits
  have hnotes : Notes C arrivals tracks (onRing (fun rc => rc.onData d.clientId) m).2 := by
    refine hm.change _ m.log (fun _ _ ht => ht) (fun y he => ?_) fun _ _ he => Or.inl he
    simpa only [RingCompletion.expected_onData] using he
  refine ⟨fun y hy => hnotes.live.everyEof ?_, hnotes⟩
  exact ((RingCompletion.counts_onData m.rc d.clientId).emits.2 y hy).2

theorem spec_onEof_notes (laws : TracksEofs C tracks)
    (htag : arrivals tag.1 tag.2 = some (.eof x k)) :
    Spec (Notes C arrivals tracks) (onEof C tag.1 x k) (fun _ => Notes C arrivals tracks)
      (StoredNotes C arrivals tracks) := by
  refine Spec.bind (Q := fun emits m => (∀ y ∈ emits, EveryEof arrivals y) ∧
    Notes C arrivals tracks m) (Spec.compute fun m hm => (hm.noteEof laws htag).symm) fun emits =>
      Spec.of_pre fun hemits => ?_
  refine Spec.bind (Spec.when (fun _ => spec_flush_notes true) fun _ _ hm => hm) fun _ => ?_
  refine Spec.bind (spec_runEmits_notes laws hemits) fun _ => ?_
  exact Spec.bind (spec_flush_notes true) fun _ => spec_free_notes laws emits

theorem spec_onAbort_notes (laws : TracksEofs C tracks) (x : UUID) :
    Spec (Notes C arrivals tracks) (onAbort C x) (fun _ => Notes C arrivals tracks)
      (StoredNotes C arrivals tracks) := by
  refine Spec.bind (Q := fun _ => Notes C arrivals tracks) (Spec.modify fun m hm => ?_)
    fun _ => ?_
  · exact hm.change { m.state with rc := m.rc.drop x } m.log (fun _ _ ht => ht)
      (fun _ he => RingCompletion.expected_drop he) fun _ _ he => Or.inl he
  refine Spec.bind (Q := fun _ => Notes C arrivals tracks)
    (Spec.change (fun m hm => hm.toStoredNotes) fun m hm => ?_) fun _ => ?_
  · exact hm.change _ m.log (fun q y ht => laws.discarded _ _ _ _ _ ht) (fun _ he => he)
      fun _ _ he => Or.inl he
  refine Spec.bind (Q := fun _ => Notes C arrivals tracks)
    (Spec.modify fun m hm => hm.frame rfl rfl rfl rfl) fun _ => ?_
  refine Spec.bind (spec_flush_notes true) fun _ => ?_
  refine Spec.forEach (I := fun _ => Notes C arrivals tracks) _ fun _ shard _ _ => ?_
  exact Spec.change (fun m hm => hm.toStoredNotes) fun m hm =>
    hm.append [.abort shard x] (by simp)

theorem spec_onRingMsg_notes (t : BarrierToken) :
    Spec (Notes C arrivals tracks) (onRingMsg C t) (fun _ => Notes C arrivals tracks)
      (StoredNotes C arrivals tracks) := by
  refine Spec.bind (Q := fun _ => Notes C arrivals tracks) (Spec.compute fun m hm => ?_)
    fun actions => ?_
  · rw [receiveToken_eq]
    refine (hm.change { m.state with rc := (m.rc.onToken C.self t).1 } _ (fun _ _ ht => ht)
      (fun y he => ?_) fun _ _ he => ?_)
    · simpa only [RingCompletion.expected_onToken] using he
    · exact Or.inl ((List.mem_append.mp he).resolve_left fun hmem =>
        (Event.plain_of_mem_closings hmem).2 _ _ rfl)
  · refine Spec.bind (spec_runBarrier actions (fun m hm => hm.toStoredNotes)
      fun m e he hm => ?_) fun _ => spec_flush_notes true
    exact hm.append [e] (by simpa using (Event.plain_of_isBarrier he).2)

/-- A process takes the notes of its checkpoint over. -/
theorem spec_start_notes (laws : TracksEofs C tracks) :
    Spec (fun m => StoredNotes C arrivals tracks m ∧ Blank C m) (start C)
      (fun _ => Notes C arrivals tracks) (StoredNotes C arrivals tracks) := by
  refine Spec.bind (Q := fun _ m => StoredNotes C arrivals tracks m ∧ Blank C m)
    (Spec.modify fun m hm => ?_) fun _ => ?_
  · refine ⟨⟨hm.1.stored, fun y sent he => ?_⟩, hm.2.logged _⟩
    exact hm.1.reported y sent ((List.mem_cons.mp he).resolve_left (by simp))
  refine Spec.bind (Q := fun _ => Notes C arrivals tracks)
    (Checkpointer.spec_restore (fun m hm => hm.1) ?_ ?_) fun restored => ?_
  · rintro m ⟨hstored, hblank⟩ -
    refine ⟨⟨hstored.stored, hstored.reported⟩, ⟨fun q y ht => ?_, fun y he => ?_⟩⟩
    · have ht' : tracks m.state.extra q y := ht
      rw [hblank.extra] at ht'
      exact absurd ht' (laws.none q y)
    · have he' : 0 ≤ (m.state.rc.client y).expected := he
      simp [hblank.rc, Client.new] at he'
  · rintro m b ⟨hstored, -⟩ hstore
    have hextra : Node.storedExtra C m = b.state.extra := by simp [Node.storedExtra, hstore]
    have hrc : Node.storedRc m = b.state.rc := by simp [Node.storedRc, hstore]
    have hnoted := hstored.stored
    rw [hextra, hrc] at hnoted
    exact ⟨⟨hstored.stored, hstored.reported⟩, hnoted⟩
  refine Spec.bind (Q := fun _ => Notes C arrivals tracks)
    (Spec.when (fun _ => ?_) fun _ _ hm => hm) fun _ =>
      Spec.modify fun m hm => hm.frame rfl rfl rfl rfl
  refine Spec.read_bind fun m => ?_
  refine Spec.bind (Q := fun _ => Notes C arrivals tracks) ?_ fun _ => ?_
  · rintro _ ⟨rfl, hm⟩
    exact spec_runEmits_notes laws
      (fun y hy => hm.live.everyEof (RingCompletion.mem_recheck.mp hy)) _ hm
  · refine Spec.read_bind fun m' => ?_
    exact Spec.bind ((spec_free_notes laws _).pre fun _ hm => hm.2) fun _ => spec_flush_notes true

theorem spec_call_notes (laws : TracksEofs C tracks) {fifo : Bool} (call : Call Q) :
    Spec (fun m => NodeInv C (Notes C arrivals tracks) (StoredNotes C arrivals tracks) m ∧
        Enabled arrivals fifo call m)
      (handler C arrivals call) (fun _ => Notes C arrivals tracks)
      (StoredNotes C arrivals tracks) := by
  have hack : ∀ (m : Node Q F S E β) (tag : Q × ℕ), Notes C arrivals tracks m →
      Notes C arrivals tracks (m.ackTag tag) := fun m tag hm => hm.frame rfl rfl rfl rfl
  cases call with
  | start => exact (spec_start_notes laws).pre fun m hm => hm.1.stored hm.2
  | token t => exact (spec_onRingMsg_notes t).pre fun m hm => hm.1.live hm.2
  | deliver tag =>
      change Spec _ (receive C tag (arrivals tag.1 tag.2)) _ _
      cases htag : arrivals tag.1 tag.2 with
      | none => exact Spec.pure fun m hm => hm.1.live hm.2.1
      | some msg =>
          refine Spec.bind (Q := fun _ => Notes C arrivals tracks) (Spec.modify fun m hm =>
            (hm.1.live hm.2.1).frame rfl rfl rfl rfl) fun _ => ?_
          refine Checkpointer.spec_dispatch ?_ ?_ ?_
          · rintro x k rfl
            refine Spec.bind (spec_flush_notes false) fun _ => ?_
            exact Spec.bind (spec_onEof_notes laws htag) fun _ =>
              Checkpointer.spec_ack (fun m hm => hm.toStoredNotes) fun m hm => hack m tag hm
          · rintro x rfl
            exact Spec.bind (spec_onAbort_notes laws x) fun _ =>
              Checkpointer.spec_ack (fun m hm => hm.toStoredNotes) fun m hm => hack m tag hm
          · rintro d rfl
            refine Checkpointer.spec_handleData (R := Notes C arrivals tracks)
              (fun m hm _ => ⟨hm.toStoredNotes, hack m tag hm⟩)
              (fun m hm _ _ => ⟨hm.toStoredNotes, hack m tag hm⟩) ?_
              ((spec_flush_notes false).pre fun m hm => hm.1) fun m hm _ => hm
            exact ((spec_onData_notes laws tag.1 d).pre fun m hm => hm.1).post
              fun _ m hm => hm.frame rfl rfl rfl rfl

/-! ## Runs -/

/-- A node that has reported a client has an end-of-file of it in every queue. -/
theorem everyEof_of_reported (laws : TracksEofs C tracks) {fifo : Bool}
    {crashable : Node Q F S E β → Prop} {f₀ : F}
    (h : (system C arrivals fifo crashable).Visits (Machine.initial (C.fresh f₀)) m)
    {sent : ShardCounts} (hsent : .reported x sent ∈ m.log) : EveryEof arrivals x := by
  have hreboot : ∀ (m : Node Q F S E β) k, StoredNotes C arrivals tracks m →
      StoredNotes C arrivals tracks (m.reboot C.provider k) := fun m k hm =>
    ⟨hm.stored, hm.reported⟩
  have hstored : StoredNotes C arrivals tracks m := by
    refine node_visits (L := Notes C arrivals tracks) (D := StoredNotes C arrivals tracks)
      (fun m hm => nodeInv_reach ?_ (fun call => ?_) ?_ hm) (fun m hm => hm.toStoredNotes)
      (fun m hm => hm) (fun call => (spec_call_notes laws call).post fun _ _ _ => trivial) h
    · refine ⟨⟨fun q y ht => absurd ht (laws.none q y), fun y he => ?_⟩, fun y sent he => ?_⟩
      · simp [Node.storedRc, Machine.initial, Client.new] at he
      · exact absurd he List.not_mem_nil
    · exact (spec_call_notes laws call).conseq (fun _ hm => hm) (fun _ _ hm => hm)
        fun m hm _ k => hreboot m k hm
    · exact fun m hm _ k => hreboot m k (hm.elim (fun hm => hm.toStoredNotes) id)
  exact hstored.reported x sent hsent

end Handlers

end RingNode
