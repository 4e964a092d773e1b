import MoneyLaundering.Ring.Deliveries

/-!
# End-of-files that were read

A node that has read the end-of-file of a client knows how many messages to wait for, also
after a crash, and between two calls no client is complete and not emitted.  This is for
the classes of nodes that wait for one end-of-file.
-/

open Crash

namespace RingCompletion

variable {self : Peer} {rc : RingCompletion} {x y : UUID} {k : ℤ}

/-- The number of messages to wait for is known, or nothing is waited for any more. -/
def Expects (rc : RingCompletion) (x : UUID) : Prop :=
  0 ≤ (rc.client x).expected ∨ rc.isAborted x = true

theorem Expects.of_eq {rc' : RingCompletion} (h : rc.Expects x)
    (hexpected : (rc'.client x).expected = (rc.client x).expected)
    (haborted : rc'.isAborted x = rc.isAborted x) : rc'.Expects x := by
  rw [Expects, hexpected, haborted]
  exact h

theorem isAborted_counts {r : RingCompletion × List UUID} (h : rc.Counts x r) (y : UUID) :
    r.1.isAborted y = rc.isAborted y := by
  rcases h with rfl | ⟨-, cl, -, -, rfl⟩ <;> rfl

theorem Expects.onData (h : rc.Expects y) : (rc.onData x).1.Expects y :=
  h.of_eq expected_onData (isAborted_counts (counts_onData rc x) y)

theorem Expects.reportSent (h : rc.Expects y) (sent : ShardCounts) :
    (rc.reportSent self x sent).1.Expects y :=
  h.of_eq (expected_reportSent sent) ((reportSent_frame self rc x sent).2 y)

theorem Expects.onToken (h : rc.Expects y) (t : BarrierToken) :
    (rc.onToken self t).1.Expects y :=
  h.of_eq (expected_onToken t) ((onToken_spec self rc t).2 y)

theorem Expects.drop (h : rc.Expects y) : (rc.drop x).Expects y := by
  by_cases hy : y = x
  · exact Or.inr (by simp [isAborted_drop, hy])
  · exact h.of_eq (by simp [client_drop, hy]) (by simp [isAborted_drop, hy])

/-- The end-of-file of a client says what to wait for. -/
theorem expects_onUpstreamEof (hk : 0 ≤ k) : (rc.onUpstreamEof x k).1.Expects x := by
  unfold onUpstreamEof
  by_cases hab : rc.isAborted x = true
  · rw [if_pos hab]
    exact Or.inr hab
  · rw [if_neg hab]
    exact Or.inl (by simpa using hk)

theorem Expects.onUpstreamEof (h : rc.Expects y) (hk : 0 ≤ k) :
    (rc.onUpstreamEof x k).1.Expects y := by
  by_cases hy : y = x
  · rw [hy]
    exact expects_onUpstreamEof hk
  · refine h.of_eq ?_ (isAborted_counts (counts_onUpstreamEof rc x k) y)
    unfold RingCompletion.onUpstreamEof
    split
    · rfl
    · simp [hy]

/-- A token completes no client. -/
theorem ready_of_onToken {t : BarrierToken}
    (h : ((rc.onToken self t).1.client y).ready = true) : (rc.client y).ready = true := by
  rcases (onToken_spec self rc t).1 y with heq | hdone
  · rwa [heq] at h
  · have hphase := (Client.ready_iff.mp h).1
    rw [hdone] at hphase
    cases hphase

/-- A client that is reported is not complete any more. -/
theorem ready_of_reportSent {sent : ShardCounts}
    (h : ((rc.reportSent self x sent).1.client y).ready = true) :
    y ≠ x ∧ (rc.client y).ready = true := by
  have hne : y ≠ x := by
    rintro rfl
    have hphase := (Client.ready_iff.mp h).1
    by_cases hprocessing : (rc.client y).phase = .processing
    · exact phase_reportSent self sent hprocessing hphase
    · rw [RingCompletion.reportSent, if_pos hprocessing] at hphase
      exact hprocessing hphase
  refine ⟨hne, ?_⟩
  rwa [(reportSent_frame self rc x sent).1 y hne] at h

theorem ready_of_drop (h : ((rc.drop x).client y).ready = true) :
    (rc.client y).ready = true := by
  rw [client_drop] at h
  split at h
  · cases h
  · exact h

end RingCompletion

namespace RingNode

variable {Q F S E α β : Type} {C : Controller Q F S E α β}
  {arrivals : Q → ℕ → Option (Message α)} {m : Node Q F S E β} {x : UUID}
  {read taken : Finset (Q × ℕ)} {emits : List UUID} {tag : Q × ℕ}

/-- The queue position holds an end-of-file of the client. -/
def EofAt (arrivals : Q → ℕ → Option (Message α)) (tag : Q × ℕ) (x : UUID) : Prop :=
  ∃ k, arrivals tag.1 tag.2 = some (.eof x k)

theorem EofAt.not_carries (h : EofAt arrivals tag x) {d : DataMsg α} :
    ¬Carries arrivals tag d := by
  obtain ⟨k, hk⟩ := h
  intro hd
  rw [Carries, hk] at hd
  cases hd

/-- The checkpoint knows the acknowledged end-of-files. -/
def EofsStored (arrivals : Q → ℕ → Option (Message α)) (m : Node Q F S E β) : Prop :=
  ∀ tag x, EofAt arrivals tag x → tag ∈ m.acked → m.storedRc.Expects x

/-- What holds while a call is served: the positions in `taken` were handed over, the
end-of-files in `read` were noted, and only the clients in `emits` are complete. -/
structure EofsRead (arrivals : Q → ℕ → Option (Message α)) (taken read : Finset (Q × ℕ))
    (emits : List UUID) (m : Node Q F S E β) : Prop where
  stored : EofsStored arrivals m
  taken : m.taken = taken
  noted : ∀ tag x, EofAt arrivals tag x → tag ∈ m.acked ∨ tag ∈ read → m.rc.Expects x
  held : ∀ tag ∈ m.pendingAcks, ∃ d, Carries arrivals tag d
  quiet : ∀ x, (m.rc.client x).ready = true → x ∈ emits

/-- A change of the other parts. -/
theorem EofsRead.frame (h : EofsRead arrivals taken read emits m) {m' : Node Q F S E β}
    (hrc : m'.rc = m.rc) (hstored : m'.storedRc = m.storedRc) (hacked : m'.acked = m.acked)
    (htaken : m'.taken = m.taken) (hpending : m'.pendingAcks = m.pendingAcks) :
    EofsRead arrivals taken read emits m' where
  stored tag x heof hmem := by
    rw [hstored]
    exact h.stored tag x heof (hacked ▸ hmem)
  taken := htaken.trans h.taken
  noted tag x heof hmem := by
    rw [hacked] at hmem
    rw [hrc]
    exact h.noted tag x heof hmem
  held := hpending ▸ h.held
  quiet := hrc ▸ h.quiet

/-- A change of the completion state that withdraws no announcement. -/
theorem EofsRead.change (h : EofsRead arrivals taken read emits m) {m' : Node Q F S E β}
    {emits' : List UUID} (hstored : m'.storedRc = m.storedRc)
    (hacked : m'.acked = m.acked) (htaken : m'.taken = m.taken)
    (hpending : m'.pendingAcks = m.pendingAcks)
    (hexpects : ∀ y, m.rc.Expects y → m'.rc.Expects y)
    (hready : ∀ y, (m'.rc.client y).ready = true → y ∈ emits') :
    EofsRead arrivals taken read emits' m' where
  stored tag x heof hmem := by
    rw [hstored]
    exact h.stored tag x heof (hacked ▸ hmem)
  taken := htaken.trans h.taken
  noted tag x heof hmem := by
    rw [hacked] at hmem
    exact hexpects x (h.noted tag x heof hmem)
  held := hpending ▸ h.held
  quiet := hready

/-- One more position counts as read: it holds no end-of-file, or a noted one. -/
theorem EofsRead.extend [DecidableEq Q] (h : EofsRead arrivals taken read emits m)
    (htag : ∀ y, EofAt arrivals tag y → m.rc.Expects y) :
    EofsRead arrivals taken (insert tag read) emits m where
  stored := h.stored
  taken := h.taken
  noted tag' y heof hmem := by
    rcases hmem with hack | hread
    · exact h.noted tag' y heof (Or.inl hack)
    · rcases Finset.mem_insert.mp hread with rfl | hread
      · exact htag y heof
      · exact h.noted tag' y heof (Or.inr hread)
  held := h.held
  quiet := h.quiet

/-- Acknowledgements, of end-of-files that are noted in memory and on disk. -/
theorem EofsRead.acked (h : EofsRead arrivals taken read emits m) {m' : Node Q F S E β}
    (hrc : m'.rc = m.rc) (hstored : m'.storedRc = m.storedRc) (htaken : m'.taken = m.taken)
    (hpending : ∀ tag ∈ m'.pendingAcks, tag ∈ m.pendingAcks)
    (hacked : ∀ tag ∈ m'.acked, tag ∈ m.acked ∨ ∀ y, EofAt arrivals tag y →
      m.rc.Expects y ∧ m.storedRc.Expects y) :
    EofsRead arrivals taken read emits m' where
  stored tag y heof hmem := by
    rw [hstored]
    exact (hacked tag hmem).elim (h.stored tag y heof) fun hnew => (hnew y heof).2
  taken := htaken.trans h.taken
  noted tag y heof hmem := by
    rw [hrc]
    rcases hmem with hack | hread
    · exact (hacked tag hack).elim (fun hold => h.noted tag y heof (Or.inl hold))
        fun hnew => (hnew y heof).1
    · exact h.noted tag y heof (Or.inr hread)
  held tag hmem := h.held tag (hpending tag hmem)
  quiet := hrc ▸ h.quiet

section Emissions

/-- Sending part of a result changes nothing here. -/
theorem EofsRead.sending (h : EofsRead arrivals taken read emits m)
    (sent : List (Output β)) :
    EofsRead arrivals taken read emits (RingNode.sending C x sent m) :=
  h.frame rfl rfl rfl rfl rfl

/-- A client that is emitted is not complete any more. -/
theorem EofsRead.emitted (h : EofsRead arrivals taken read (x :: emits) m) :
    EofsRead arrivals taken read emits (RingNode.emitted C x m) := by
  refine h.change rfl rfl rfl rfl (fun y hy => hy.reportSent _) fun y hready => ?_
  obtain ⟨hne, hbefore⟩ := RingCompletion.ready_of_reportSent hready
  exact (List.mem_cons.mp (h.quiet y hbefore)).resolve_left hne

theorem spec_emit_eofs :
    Spec (EofsRead arrivals taken read (x :: emits)) (emit C x)
      (fun _ => EofsRead arrivals taken read emits) (EofsStored arrivals) := by
  refine spec_emit x (fun m hm sent rest _ => (hm.sending sent).stored)
    (fun m hm => hm.emitted) (fun m hm => hm.stored) fun m e _ hm => ?_
  exact hm.frame rfl rfl rfl rfl rfl

theorem spec_runEmits_eofs (xs : List UUID) :
    Spec (EofsRead arrivals taken read xs) (runEmits C xs)
      (fun _ => EofsRead arrivals taken read []) (EofsStored arrivals) := by
  refine ((Spec.forEach (I := fun before => EofsRead arrivals taken read
    (xs.drop before.length)) xs fun before x after hsplit => ?_).pre fun m hm => ?_).post
      fun _ m hm => ?_
  · have hdrop : xs.drop before.length = x :: after := by rw [hsplit, List.drop_left]
    have hnext : xs.drop (before ++ [x]).length = after := by
      rw [List.length_append, ← List.drop_drop, hdrop]
      rfl
    rw [hdrop, hnext]
    exact spec_emit_eofs
  · exact hm
  · rwa [List.drop_length] at hm

theorem spec_free_eofs (xs : List UUID) :
    Spec (EofsRead arrivals taken read []) (Prog.forEach xs (free C))
      (fun _ => EofsRead arrivals taken read []) (EofsStored arrivals) :=
  Spec.forEach (I := fun _ => EofsRead arrivals taken read []) xs fun _ _ _ _ =>
    Spec.change (fun _ hm => hm.stored) fun _ hm => hm.frame rfl rfl rfl rfl rfl

/-- If no client was complete, the counted one is the only one to emit. -/
theorem EofsRead.counted (h : EofsRead arrivals taken read [] m)
    {r : RingCompletion × List UUID} (hr : m.rc.Counts x r)
    (hexpects : ∀ y, m.rc.Expects y → r.1.Expects y) {m' : Node Q F S E β}
    (hrc : m'.rc = r.1) (hstored : m'.storedRc = m.storedRc)
    (hacked : m'.acked = m.acked) (htaken : m'.taken = m.taken)
    (hpending : m'.pendingAcks = m.pendingAcks) :
    EofsRead arrivals taken read r.2 m' := by
  have hnone : ∀ y, (m.rc.client y).ready = false := fun y =>
    Bool.not_eq_true _ ▸ fun hready => List.not_mem_nil (h.quiet y hready)
  refine h.change hstored hacked htaken hpending (fun y hy => ?_) fun y hready => ?_
  · rw [hrc]
    exact hexpects y hy
  · rw [hrc] at hready
    exact (hr.mem_iff hnone y).mpr hready

theorem spec_onData_eofs (q : Q) (msg : DataMsg α) :
    Spec (EofsRead arrivals taken read []) (onData C q msg)
      (fun _ => EofsRead arrivals taken read []) (EofsStored arrivals) := by
  refine Spec.bind (Q := fun _ => EofsRead arrivals taken read [])
    (Spec.modify fun m hm => hm.frame rfl rfl rfl rfl rfl) fun _ => ?_
  refine Spec.bind (Q := fun _ => EofsRead arrivals taken read []) ?_ fun _ => ?_
  · refine Spec.forEach (I := fun _ => EofsRead arrivals taken read []) _
      fun _ o _ _ => ?_
    refine Spec.bind (Q := fun _ => EofsRead arrivals taken read [])
      (Spec.change (fun m hm => hm.stored) fun m hm => ?_)
      fun _ => Spec.modify fun m hm => hm.frame rfl rfl rfl rfl rfl
    rw [published_eq]
    exact hm.frame rfl rfl rfl rfl rfl
  · refine Spec.bind (Q := fun xs => EofsRead arrivals taken read xs)
      (Spec.compute fun m hm => ?_) spec_runEmits_eofs
    exact hm.counted (RingCompletion.counts_onData m.rc msg.clientId)
      (fun y hy => hy.onData) rfl rfl rfl rfl rfl

end Emissions

section Handlers

variable [DecidableEq Q]

theorem spec_flush_eofs (force : Bool) :
    Spec (EofsRead arrivals taken read emits)
      (Checkpointer.flush C.provider force : NodeProg Q F S E β Unit)
      (fun _ m => EofsRead arrivals taken read emits m ∧
        (force = true → m.storedRc = m.rc)) (EofsStored arrivals) := by
  refine Checkpointer.spec_checkpointAndFlush (R := fun m : Node Q F S E β =>
    EofsRead arrivals taken read emits m ∧ (force = true → m.storedRc = m.rc))
    (fun m hm _ => ⟨hm.stored, hm.stored, ?_, fun _ => rfl⟩)
    (fun m hm _ hforce => ⟨hm, by simp [hforce]⟩) (fun m tags rest hm hsplit => ?_)
    fun m hm => ⟨?_, hm.2⟩
  · exact ⟨fun tag y heof hack => hm.noted tag y heof (Or.inl hack), hm.taken, hm.noted,
      hm.held, hm.quiet⟩
  · intro tag y heof hmem
    rcases Finset.mem_union.mp hmem with hack | hnew
    · exact hm.1.stored tag y heof hack
    · obtain ⟨d, hd⟩ := hm.1.held tag
        (hsplit ▸ List.mem_append_left _ (List.mem_toFinset.mp hnew))
      exact absurd hd heof.not_carries
  · refine hm.1.acked rfl rfl rfl (by simp [Machine.released]) fun tag hmem => ?_
    refine (Finset.mem_union.mp hmem).imp_right fun hnew y heof => ?_
    obtain ⟨d, hd⟩ := hm.1.held tag (List.mem_toFinset.mp hnew)
    exact absurd hd heof.not_carries

/-- A control message is acknowledged after the checkpoint. -/
theorem spec_ack_eofs (tag : Q × ℕ) :
    Spec (fun m : Node Q F S E β => EofsRead arrivals taken read [] m ∧
        ∀ y, EofAt arrivals tag y → m.rc.Expects y ∧ m.storedRc.Expects y)
      (Checkpointer.ack tag) (fun _ => EofsRead arrivals taken read [])
      (EofsStored arrivals) :=
  Checkpointer.spec_ack (fun _ hm => hm.1.stored) fun _ hm =>
    hm.1.acked rfl rfl rfl (fun _ hmem => hmem) fun _ hmem =>
      (Finset.mem_insert.mp hmem).elim (fun heq => Or.inr (heq ▸ hm.2)) Or.inl

/-- The client of an end-of-file is known once its handler is done. -/
theorem spec_onEof_eofs (hnotes : ∀ q x k e, C.noteEof q x k e = (some k, e)) {k : ℤ}
    (hk : 0 ≤ k) {tag : Q × ℕ} (htag : arrivals tag.1 tag.2 = some (.eof x k)) :
    Spec (EofsRead arrivals taken read []) (onEof C tag.1 x k)
      (fun _ m => EofsRead arrivals taken (insert tag read) [] m ∧
        m.rc.Expects x ∧ m.storedRc.Expects x) (EofsStored arrivals) := by
  have hself : EofAt arrivals tag x := ⟨k, htag⟩
  have hx : ∀ y, EofAt arrivals tag y → y = x := by
    rintro y ⟨k', hk'⟩
    have heq : (Message.eof y k' : Message α) = .eof x k :=
      Option.some.inj (hk'.symm.trans htag)
    exact (Message.eof.inj heq).1
  refine Spec.bind (Q := fun xs => EofsRead arrivals taken (insert tag read) xs)
    (Spec.compute fun m hm => ?_) fun xs => ?_
  · have hnoted : (C.noteEof tag.1 x k m.state.extra).1 = some k := by rw [hnotes]
    rw [noteEof_some hnoted]
    have hcounted : EofsRead arrivals taken read (m.rc.onUpstreamEof x k).2
        (m.withState fun s => { s with
          extra := (C.noteEof tag.1 x k m.state.extra).2
          rc := (m.rc.onUpstreamEof x k).1 }) :=
      hm.counted (RingCompletion.counts_onUpstreamEof m.rc x k)
        (fun y hy => hy.onUpstreamEof hk) rfl rfl rfl rfl rfl
    refine hcounted.extend fun y heof => ?_
    rw [hx y heof]
    exact RingCompletion.expects_onUpstreamEof hk
  refine Spec.bind (Q := fun _ => EofsRead arrivals taken (insert tag read) xs)
    (Spec.when (fun _ => (spec_flush_eofs true).post fun _ _ hm => hm.1)
      fun _ _ hm => hm) fun _ => ?_
  refine Spec.bind (spec_runEmits_eofs xs) fun _ => ?_
  refine Spec.bind (spec_flush_eofs true) fun _ => ?_
  have hfree : Spec (fun m : Node Q F S E β =>
      EofsRead arrivals taken (insert tag read) [] m ∧ m.storedRc = m.rc)
      (Prog.forEach xs (free C))
      (fun _ m => EofsRead arrivals taken (insert tag read) [] m ∧ m.storedRc = m.rc)
      (EofsStored arrivals) :=
    Spec.forEach (I := fun _ m => EofsRead arrivals taken (insert tag read) [] m ∧
      m.storedRc = m.rc) xs fun _ _ _ _ => Spec.change (fun _ hm => hm.1.stored)
        fun m hm => ⟨hm.1.frame rfl rfl rfl rfl rfl, hm.2⟩
  refine hfree.conseq (fun m hm => ⟨hm.1, hm.2 rfl⟩) (fun _ m hm => ?_) fun _ hm => hm
  have hnoted := hm.1.noted tag x hself (Or.inr (Finset.mem_insert_self _ _))
  exact ⟨hm.1, hnoted, hm.2 ▸ hnoted⟩

theorem spec_onAbort_eofs (x : UUID) :
    Spec (EofsRead arrivals taken read []) (onAbort C x)
      (fun _ => EofsRead arrivals taken read []) (EofsStored arrivals) := by
  refine Spec.bind (Q := fun _ => EofsRead arrivals taken read [])
    (Spec.modify fun m hm => ?_) fun _ => ?_
  · exact hm.change rfl rfl rfl rfl (fun y hy => hy.drop) fun y hready =>
      hm.quiet y (RingCompletion.ready_of_drop hready)
  refine Spec.bind (Q := fun _ => EofsRead arrivals taken read [])
    (Spec.change (fun m hm => hm.stored) fun m hm => hm.frame rfl rfl rfl rfl rfl)
    fun _ => ?_
  refine Spec.bind (Q := fun _ => EofsRead arrivals taken read [])
    (Spec.modify fun m hm => hm.frame rfl rfl rfl rfl rfl) fun _ => ?_
  refine Spec.bind ((spec_flush_eofs true).post fun _ _ hm => hm.1) fun _ => ?_
  exact Spec.forEach (I := fun _ => EofsRead arrivals taken read []) _ fun _ _ _ _ =>
    Spec.change (fun m hm => hm.stored) fun m hm => hm.frame rfl rfl rfl rfl rfl

theorem spec_onRingMsg_eofs (t : BarrierToken) :
    Spec (EofsRead arrivals taken read []) (onRingMsg C t)
      (fun _ => EofsRead arrivals taken read []) (EofsStored arrivals) := by
  refine Spec.bind (Q := fun _ => EofsRead arrivals taken read [])
    (Spec.compute fun m hm => ?_) fun actions => ?_
  · rw [receiveToken_eq]
    exact hm.change rfl rfl rfl rfl (fun y hy => hy.onToken t) fun y hready =>
      hm.quiet y (RingCompletion.ready_of_onToken hready)
  refine Spec.bind (spec_runBarrier actions (fun m hm => hm.stored) fun m e _ hm =>
    hm.frame rfl rfl rfl rfl rfl) fun _ => ?_
  exact (spec_flush_eofs true).post fun _ _ hm => hm.1

/-- A start emits every client that the checkpoint has complete. -/
theorem spec_start_eofs :
    Spec (fun m => EofsStored arrivals m ∧ Blank C m) (start C)
      (fun _ => EofsRead arrivals ∅ ∅ []) (EofsStored arrivals) := by
  refine Spec.bind (Q := fun _ m => EofsStored arrivals m ∧ Blank C m)
    (Spec.modify fun m hm => ⟨hm.1, hm.2.logged _⟩) fun _ => ?_
  refine Spec.bind (Q := fun restored m => EofsRead arrivals ∅ ∅ m.rc.recheck m ∧
      (restored = false → m.rc = .new))
    (Checkpointer.spec_restore (fun m hm => hm.1) ?_ ?_) fun restored => ?_
  · rintro m ⟨hstored, hblank⟩ hnone
    have hrc : Node.storedRc m = m.state.rc := by simp [Node.storedRc, hnone, hblank.rc]
    refine ⟨⟨hstored, hblank.taken, fun tag y heof hmem => ?_, ?_, fun y hready => ?_⟩,
      fun _ => hblank.rc⟩
    · have hknown := hstored tag y heof (hmem.resolve_right (Finset.notMem_empty _))
      rw [hrc] at hknown
      exact hknown
    · simp [hblank.pendingAcks]
    · exact RingCompletion.mem_recheck.mpr hready
  · rintro m b ⟨hstored, hblank⟩ hstore
    have hrc : Node.storedRc m = b.state.rc := by simp [Node.storedRc, hstore]
    refine ⟨⟨hstored, hblank.taken, fun tag y heof hmem => ?_, ?_, fun y hready => ?_⟩,
      fun h => Bool.noConfusion h⟩
    · have hknown := hstored tag y heof (hmem.resolve_right (Finset.notMem_empty _))
      rw [hrc] at hknown
      exact hknown
    · simp [Machine.restored, hblank.pendingAcks]
    · exact RingCompletion.mem_recheck.mpr hready
  refine Spec.bind (Q := fun _ => EofsRead arrivals ∅ ∅ [])
    (Spec.when (fun _ => ?_) fun hnot m hm => ?_)
    fun _ => Spec.modify fun m hm => hm.frame rfl rfl rfl rfl rfl
  · refine Spec.read_bind fun m => (Spec.bind (P := EofsRead arrivals ∅ ∅ m.rc.recheck)
      (spec_runEmits_eofs m.rc.recheck) fun _ => ?_).pre ?_
    · exact Spec.read_bind fun m' => (Spec.bind (spec_free_eofs _) fun _ =>
        (spec_flush_eofs true).post fun _ _ hm => hm.1).pre fun _ hm => hm.2
    · rintro _ ⟨rfl, hm⟩
      exact hm.1
  · have hnew := hm.2 (Bool.not_eq_true _ ▸ hnot)
    refine ⟨hm.1.stored, hm.1.taken, hm.1.noted, hm.1.held, fun y hready => ?_⟩
    rw [hnew] at hready
    cases hready

/-- Every call keeps it: whatever was handed over is read when the call is over. -/
theorem spec_call_eofs (hnotes : ∀ q x k e, C.noteEof q x k e = (some k, e))
    (hcounts : ∀ q i x k, arrivals q i = some (.eof x k) → 0 ≤ k) (fifo : Bool)
    (call : Call Q) :
    Spec (fun m => NodeInv C (fun m => EofsRead arrivals m.taken m.taken [] m)
        (EofsStored arrivals) m ∧ Enabled arrivals fifo call m)
      (handler C arrivals call) (fun _ m => EofsRead arrivals m.taken m.taken [] m)
      (EofsStored arrivals) := by
  have hown : ∀ {t : Finset (Q × ℕ)} {m : Node Q F S E β}, EofsRead arrivals t t [] m →
      EofsRead arrivals m.taken m.taken [] m := fun h => by
    rw [h.taken]
    exact h
  cases call with
  | start => exact (spec_start_eofs.pre fun m hm => hm.1.stored hm.2).post fun _ _ => hown
  | token t =>
      intro m hm
      exact ((spec_onRingMsg_eofs t).post fun _ _ => hown) m (hm.1.live hm.2)
  | deliver tag =>
      rintro m ⟨hm, hup, -⟩
      have hlive := hm.live hup
      refine (?_ : Spec (fun m' => m' = m) (receive C tag (arrivals tag.1 tag.2))
        (fun _ m => EofsRead arrivals m.taken m.taken [] m) (EofsStored arrivals)) m rfl
      cases htag : arrivals tag.1 tag.2 with
      | none => exact Spec.pure fun m' heq => heq ▸ hlive
      | some msg =>
          have hother : (∀ k y, msg ≠ .eof y k) → ∀ y, ¬EofAt arrivals tag y := by
            rintro hmsg y ⟨k, hk⟩
            exact hmsg k y (Option.some.inj (htag.symm.trans hk))
          have hdelivered : EofsRead arrivals (insert tag m.taken) m.taken []
              (m.deliver tag) :=
            ⟨hlive.stored, rfl, hlive.noted, hlive.held, hlive.quiet⟩
          refine Spec.bind (Q := fun _ => EofsRead arrivals (insert tag m.taken) m.taken [])
            (Spec.modify fun m' heq => heq ▸ hdelivered) fun _ => ?_
          refine Checkpointer.spec_dispatch (fun y k hmsg => ?_) (fun y hmsg => ?_)
            fun d hmsg => ?_
          · subst hmsg
            refine Spec.bind ((spec_flush_eofs false).post fun _ _ h => h.1) fun _ => ?_
            refine Spec.bind (spec_onEof_eofs hnotes (hcounts _ _ _ _ htag) htag)
              fun _ => ?_
            refine ((spec_ack_eofs tag).pre fun m' hm' => ⟨hm'.1, ?_⟩).post fun _ _ => hown
            rintro z ⟨k', hk'⟩
            have heq : (Message.eof z k' : Message α) = .eof y k :=
              Option.some.inj (hk'.symm.trans htag)
            rw [(Message.eof.inj heq).1]
            exact hm'.2
          · subst hmsg
            have hnone := hother (by simp)
            refine Spec.bind (spec_onAbort_eofs y) fun _ => ?_
            refine ((spec_ack_eofs tag).pre fun m' hm' => ⟨hm'.extend ?_, ?_⟩).post
              fun _ _ => hown
            · exact fun z heof => absurd heof (hnone z)
            · exact fun z heof => absurd heof (hnone z)
          · subst hmsg
            have hnone := hother (by simp)
            have hread : ∀ {m' : Node Q F S E β},
                EofsRead arrivals (insert tag m.taken) m.taken [] m' →
                  EofsRead arrivals (insert tag m.taken) (insert tag m.taken) [] m' :=
              fun h => h.extend fun z heof => absurd heof (hnone z)
            have hdrop : ∀ m' : Node Q F S E β,
                EofsRead arrivals (insert tag m.taken) m.taken [] m' →
                  EofsStored arrivals m' ∧ EofsRead arrivals (insert tag m.taken)
                    (insert tag m.taken) [] (m'.ackTag tag) := by
              refine fun m' h => ⟨h.stored, (hread h).acked rfl rfl rfl
                (fun _ hmem => hmem) fun tag' hmem => ?_⟩
              refine (Finset.mem_insert.mp hmem).symm.imp_right fun heq z heof => ?_
              exact absurd (heq ▸ heof) (hnone z)
            refine (Checkpointer.spec_handleData (R := EofsRead arrivals
              (insert tag m.taken) (insert tag m.taken) [])
              (fun m' h _ => hdrop m' h) (fun m' h _ _ => hdrop m' h)
              (((spec_onData_eofs tag.1 d).pre fun m' h => h.1).post fun _ m' h => ?_)
              (((spec_flush_eofs false).pre fun m' h => h.1).post fun _ _ h => h.1)
              fun m' h _ => h).post fun _ _ => hown
            refine ⟨h.stored, h.taken, (hread h).noted, fun tag' hmem => ?_, h.quiet⟩
            rcases List.mem_append.mp hmem with hold | hnew
            · exact h.held tag' hold
            · rw [List.mem_singleton.mp hnew]
              exact ⟨d, htag⟩

/-- Between two calls of any run, the end-of-files that were handed over or acknowledged
are known, and every complete client is emitted. -/
theorem eofsRead_reach (hnotes : ∀ q x k e, C.noteEof q x k e = (some k, e))
    (hcounts : ∀ q i x k, arrivals q i = some (.eof x k) → 0 ≤ k) {fifo : Bool}
    {crashable : Node Q F S E β → Prop} {f₀ : F}
    (h : (system C arrivals fifo crashable).Reach (Machine.initial (C.fresh f₀)) m) :
    NodeInv C (fun m => EofsRead arrivals m.taken m.taken [] m) (EofsStored arrivals) m := by
  have hreboot : ∀ (m : Node Q F S E β) (k : UUID → ℕ → ℕ), EofsStored arrivals m →
      EofsStored arrivals (m.reboot C.provider k) := fun m k hm => hm
  refine nodeInv_reach ?_ (fun call => ?_) ?_ h
  · exact fun tag y _ hmem => absurd hmem (Finset.notMem_empty _)
  · exact (spec_call_eofs hnotes hcounts fifo call).conseq (fun _ hm => hm)
      (fun _ _ hm => hm) fun m hm _ k => hreboot m k hm
  · rintro m (hm | hm) - k
    · exact hreboot m k hm.stored
    · exact hreboot m k hm

end Handlers

end RingNode
