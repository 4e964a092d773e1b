import MoneyLaundering.Ring.Deliveries

/-!
# One client at one merge

When a merge emits a client depends on the counters of its completion state, on
the counts that its two sides announced and on the messages of the client that
the dedup table has.  The module collects these in one record, for the memory
and for the checkpoint, and says what each part of a handler does to it.
-/

open Crash

/-- The entry begins an emission of the client. -/
def Event.emits {β : Type} (clientId : UUID) : Event β → Bool
  | .emitting x => decide (x = clientId)
  | _ => false

/-! ## Counters through the barrier -/

namespace RingCompletion

variable {self : Peer} {rc : RingCompletion} {x c : UUID}

/-- The barrier does not touch the counted messages. -/
theorem received_advance (t : BarrierToken) :
    ((rc.advance self t).1.client c).received = (rc.client c).received := by
  rcases RingNode.advance_cases self rc t with heq | heq | heq <;> rw [heq]
  rw [client_put]
  by_cases hc : c = t.clientId <;> simp [hc]

theorem received_onToken (t : BarrierToken) :
    ((rc.onToken self t).1.client c).received = (rc.client c).received := by
  unfold onToken
  split
  · rfl
  · rw [received_advance, client_touch]

theorem received_reportSent (sent : ShardCounts) :
    ((rc.reportSent self x sent).1.client c).received =
      (rc.client c).received := by
  have hmark : ((rc.markEmitted x sent).client c).received =
      (rc.client c).received := by
    rw [markEmitted, client_put]
    by_cases hc : c = x <;> simp [hc]
  unfold reportSent
  split
  · rfl
  · split
    · exact hmark
    · rw [received_advance, hmark]

/-- A counted message completes its client if the client is ready then. -/
theorem mem_onData (h : rc.isAborted c = false) :
    c ∈ (rc.onData c).2 ↔ ((rc.onData c).1.client c).ready = true := by
  simp [onData, h, mem_maybeLocalComplete]

theorem mem_onUpstreamEof (h : rc.isAborted c = false) (k : ℤ) :
    c ∈ (rc.onUpstreamEof c k).2 ↔
      ((rc.onUpstreamEof c k).1.client c).ready = true := by
  simp [onUpstreamEof, h, mem_maybeLocalComplete]

/-- The token would close the barrier of a client that the node still
processes: it has a slot of every peer, this one included. -/
def Premature (self : Peer) (rc : RingCompletion) (c : UUID)
    (t : BarrierToken) : Prop :=
  t.clientId = c ∧ (rc.client c).phase = .processing ∧
    self.nNodes ≤ t.sentBy.size ∧ t.origin = self.nodeId

instance (self : Peer) (rc : RingCompletion) (c : UUID) :
    DecidablePred (Premature self rc c) := fun _ =>
  inferInstanceAs (Decidable (_ ∧ _))

/-- Any other token leaves it open whether the client was emitted. -/
theorem processing_onToken {t : BarrierToken} (h : ¬Premature self rc c t) :
    ((rc.onToken self t).1.client c).phase = .processing ↔
      (rc.client c).phase = .processing := by
  unfold onToken
  split
  · exact Iff.rfl
  by_cases hphase : (rc.client c).phase = .processing
  · by_cases hc : t.clientId = c
    · have hstamp : stampToken self rc t = t := by
        rw [stampToken, if_pos (hc ▸ hphase)]
      have hopen : t.sentBy.size < self.nNodes ∨ t.origin ≠ self.nodeId := by
        by_contra hclosed
        rw [not_or, not_lt, ne_eq, not_not] at hclosed
        exact h ⟨hc, hphase, hclosed⟩
      have hforward : (rc.touch t.clientId).advance self t =
          (rc.touch t.clientId, [.forward t]) := by
        unfold advance
        rcases hopen with hsize | horigin
        · rw [if_pos hsize]
        · rw [if_pos horigin, ite_self]
      rw [hstamp, hforward, client_touch]
    · rcases (advance_spec self (rc.touch t.clientId)
        (stampToken self rc t)).1 c with heq | ⟨heq, -⟩
      · rw [heq, client_touch]
      · rw [clientId_stampToken] at heq
        exact absurd heq.symm hc
  · refine iff_of_false (fun hnext => ?_) hphase
    rcases (advance_spec self (rc.touch t.clientId)
      (stampToken self rc t)).1 c with heq | ⟨-, heq⟩
    · rw [heq, client_touch] at hnext
      exact hphase hnext
    · rw [hnext] at heq
      cases heq

end RingCompletion

/-! ## The announced counts -/

namespace MergeEofCounts

variable {counts : MergeEofCounts} {c x : UUID}

/-- The count that one side announced. -/
def announced (counts : MergeEofCounts) (clientId : UUID) : Side → Option ℤ
  | .left => counts.left.get? clientId
  | .right => counts.right.get? clientId

@[simp] theorem announced_empty : empty.announced c = fun _ => none := by
  funext side
  cases side <;> rfl

theorem announced_note (side : Side) (k : ℤ) :
    (counts.note side x k).announced c =
      if c = x then Function.update (counts.announced c) side (some k)
      else counts.announced c := by
  funext s
  by_cases hc : c = x
  · subst hc
    cases side <;> cases s <;> simp [announced, note]
  · cases side <;> cases s <;> simp [announced, note, hc, Dict.get?_set]

theorem announced_drop_of_ne (h : c ≠ x) :
    (counts.drop x).announced c = counts.announced c := by
  funext s
  cases s <;> simp [announced, drop, Dict.get?_erase, h]

theorem announced_drop_self :
    (counts.drop c).announced c = fun _ => none := by
  funext s
  cases s <;> simp [announced, drop]

/-- The combined count, in terms of the announced ones. -/
theorem combined_eq_some {total : ℤ} (h : counts.combined c = some total) :
    ∃ l r, counts.announced c .left = some l ∧
      counts.announced c .right = some r ∧ total = l + r := by
  unfold combined at h
  split at h
  · rename_i l r hl hr
    exact ⟨l, r, hl, hr, (Option.some.inj h).symm⟩
  · cases h

theorem combined_eq_none (h : counts.combined c = none) :
    ∃ side, counts.announced c side = none := by
  unfold combined at h
  split at h
  · cases h
  · rename_i hnot
    by_contra hall
    rw [not_exists] at hall
    obtain ⟨l, hl⟩ := Option.ne_none_iff_exists'.mp (hall .left)
    obtain ⟨r, hr⟩ := Option.ne_none_iff_exists'.mp (hall .right)
    exact hnot l r hl hr

end MergeEofCounts

/-! ## The record of a client -/

/-- What a merge keeps about one client. -/
structure MergeRecord where
  expected : ℤ
  received : ℕ
  /-- Whether the client is past processing. -/
  emitted : Bool
  aborted : Bool
  announced : Side → Option ℤ
  /-- The messages of the client that the dedup table has. -/
  processed : Finset (ProducerId × ℕ)

namespace MergeRecord

/-- The record of a client with the given messages. -/
def of (c : UUID) (ids : Finset (ProducerId × ℕ)) (rc : RingCompletion)
    (aborted : Finset UUID) (counts : MergeEofCounts) (dedup : Deduplicator) :
    MergeRecord where
  expected := (rc.client c).expected
  received := (rc.client c).received
  emitted := decide ((rc.client c).phase ≠ .processing)
  aborted := rc.isAborted c || decide (c ∈ aborted)
  announced := counts.announced c
  processed := ids.filter dedup.Recorded

/-- Nothing is known about the client. -/
def blank : MergeRecord := ⟨-1, 0, false, false, fun _ => none, ∅⟩

/-- One more message of the client was counted. -/
def counted (r : MergeRecord) : MergeRecord :=
  { r with received := r.received + 1 }

/-- One more message of the client is in the dedup table. -/
def mark (id : ProducerId × ℕ) (r : MergeRecord) : MergeRecord :=
  { r with processed := insert id r.processed }

/-- The client was emitted. -/
def emit (r : MergeRecord) : MergeRecord := { r with emitted := true }

/-- The announced counts of the client were dropped. -/
def free (r : MergeRecord) : MergeRecord :=
  { r with announced := fun _ => none }

/-- One side announced its count. -/
def note (side : Side) (k : ℤ) (r : MergeRecord) : MergeRecord :=
  { r with announced := Function.update r.announced side (some k) }

/-- The client is complete and not emitted yet. -/
def Ready (r : MergeRecord) : Prop :=
  r.emitted = false ∧ 0 ≤ r.expected ∧ r.expected ≤ r.received

variable {c : UUID} {ids : Finset (ProducerId × ℕ)}

theorem of_blank (c : UUID) (ids : Finset (ProducerId × ℕ)) :
    of c ids .new ∅ .empty .fresh = blank := by
  simp [of, blank, Client.new]

variable {rc : RingCompletion} {aborted : Finset UUID} {counts : MergeEofCounts}
  {dedup : Deduplicator} {x : UUID}

/-- A client is complete by its record as by its completion state. -/
theorem ready_of : (of c ids rc aborted counts dedup).Ready ↔
    (rc.client c).ready = true := by
  rw [Client.ready_iff]
  simp [Ready, of]

theorem isAborted_of (h : (of c ids rc aborted counts dedup).aborted = false) :
    rc.isAborted c = false ∧ c ∉ aborted := by
  simpa [of] using h

/-- Counting another client. -/
theorem of_counts_of_ne {r : RingCompletion × List UUID} (h : rc.Counts x r)
    (hx : c ≠ x) :
    of c ids r.1 aborted counts dedup = of c ids rc aborted counts dedup := by
  rcases h with rfl | ⟨-, cl, -, -, rfl⟩
  · rfl
  · simp [of, hx]

theorem of_onData (h : rc.isAborted c = false) :
    of c ids (rc.onData c).1 aborted counts dedup =
      (of c ids rc aborted counts dedup).counted := by
  simp [RingCompletion.onData, h, of, counted]

theorem of_onUpstreamEof (h : rc.isAborted c = false) (k : ℤ) :
    of c ids (rc.onUpstreamEof c k).1 aborted counts dedup =
      { of c ids rc aborted counts dedup with expected := k } := by
  simp [RingCompletion.onUpstreamEof, h, of]

theorem of_note (side : Side) (k : ℤ) :
    of c ids rc aborted (counts.note side c k) dedup =
      (of c ids rc aborted counts dedup).note side k := by
  simp only [of, MergeEofCounts.announced_note, if_true, note]

theorem of_note_of_ne (side : Side) (k : ℤ) (hx : c ≠ x) :
    of c ids rc aborted (counts.note side x k) dedup =
      of c ids rc aborted counts dedup := by
  simp only [of, MergeEofCounts.announced_note, if_neg hx]

theorem of_onToken {self : Peer} {t : BarrierToken}
    (h : ¬RingCompletion.Premature self rc c t) :
    of c ids (rc.onToken self t).1 aborted counts dedup =
      of c ids rc aborted counts dedup := by
  simp only [of, RingCompletion.expected_onToken,
    RingCompletion.received_onToken, RingCompletion.processing_onToken h,
    (RingCompletion.onToken_spec self rc t).2 c, ne_eq]

/-- Dropping another client. -/
theorem of_drop_of_ne (hx : c ≠ x) :
    of c ids (rc.drop x) aborted counts dedup =
      of c ids rc aborted counts dedup := by
  simp [of, RingCompletion.client_drop, RingCompletion.isAborted_drop, hx]

theorem of_insert_of_ne (hx : c ≠ x) :
    of c ids rc (insert x aborted) counts dedup =
      of c ids rc aborted counts dedup := by
  simp [of, hx]

theorem of_record_of_notMem {p : ProducerId} {n : ℕ} (h : (p, n) ∉ ids) :
    of c ids rc aborted counts (dedup.record p n) =
      of c ids rc aborted counts dedup := by
  have hsame : ids.filter (dedup.record p n).Recorded =
      ids.filter dedup.Recorded := by
    refine Finset.filter_congr fun id hid => ?_
    by_cases hn : n = 0
    · rw [Deduplicator.record, if_pos hn]
    · rw [Deduplicator.recorded_record hn]
      have hne : id ≠ (p, n) := by
        rintro rfl
        exact h hid
      simp [hne]
  simp only [of, hsame]

theorem of_record {p : ProducerId} {n : ℕ} (hn : n ≠ 0) (h : (p, n) ∈ ids) :
    of c ids rc aborted counts (dedup.record p n) =
      (of c ids rc aborted counts dedup).mark (p, n) := by
  have hsame : ids.filter (dedup.record p n).Recorded =
      insert (p, n) (ids.filter dedup.Recorded) := by
    ext id
    rw [Finset.mem_insert, Finset.mem_filter, Finset.mem_filter,
      Deduplicator.recorded_record hn]
    constructor
    · intro hid
      exact hid.2.imp_right fun hrec => ⟨hid.1, hrec⟩
    · intro hid
      rcases hid with rfl | hid
      · exact ⟨h, Or.inl rfl⟩
      · exact ⟨hid.1, Or.inr hid.2⟩
  simp only [of, mark, hsame]

/-- What a checkpoint keeps describes what it was taken of. -/
theorem of_restore (rc : RingCompletion) (aborted : Finset UUID)
    (counts : MergeEofCounts) (dedup : Deduplicator) :
    of c ids rc aborted counts (.restore dedup.snapshot) =
      of c ids rc aborted counts dedup := by
  have hsame : ids.filter (Deduplicator.restore dedup.snapshot).Recorded =
      ids.filter dedup.Recorded :=
    Finset.filter_congr fun id _ => Deduplicator.recorded_restore_snapshot _ id
  simp only [of, hsame]

end MergeRecord

/-- One client at one merge: in memory, in the checkpoint, and how often it was
emitted so far. -/
structure MergeClientView where
  mem : MergeRecord
  disk : MergeRecord
  emissions : ℕ
  up : Bool
  /-- The copies that were handed to the node. -/
  delivered : Finset (Side × ℕ)

namespace MergeClientView

/-- Change what the memory keeps about the client. -/
def withMem (f : MergeRecord → MergeRecord) (v : MergeClientView) : MergeClientView :=
  { v with mem := f v.mem }

/-- The client is checkpointed as it is in memory. -/
def saved (v : MergeClientView) : MergeClientView := { v with disk := v.mem }

/-- The client was emitted. -/
def emit (v : MergeClientView) : MergeClientView :=
  { v with mem := v.mem.emit, emissions := v.emissions + 1 }

end MergeClientView

namespace RingNode

variable {F S α β : Type} {cfg : NodeConfig} {nShards : ℕ}
  {fn : MergeFn F S α β} {c x : UUID} {ids : Finset (ProducerId × ℕ)}
  {m : Node Side F S MergeEofCounts β} {P R : MergeClientView → Prop}

/-- The record of the client in the checkpoint. -/
def storedRecord (c : UUID) (ids : Finset (ProducerId × ℕ))
    (m : Node Side F S MergeEofCounts β) : MergeRecord :=
  match m.store with
  | none => .blank
  | some b => .of c ids b.state.rc b.aborted b.state.extra (.restore b.dedup)

/-- How often the client was emitted. -/
def emissions (c : UUID) (m : Node Side F S MergeEofCounts β) : ℕ :=
  m.log.countP (Event.emits c)

/-- The client at the merge. -/
def mergeView (c : UUID) (ids : Finset (ProducerId × ℕ))
    (m : Node Side F S MergeEofCounts β) : MergeClientView :=
  ⟨.of c ids m.rc m.aborted m.state.extra m.dedup, storedRecord c ids m,
    emissions c m, m.up, m.delivered⟩

/-- A property of the client at the merge. -/
abbrev AtMerge (c : UUID) (ids : Finset (ProducerId × ℕ))
    (P : MergeClientView → Prop) (m : Node Side F S MergeEofCounts β) : Prop :=
  P (mergeView c ids m)

/-! ## What each part of a handler does -/

/-- Entries that begin no emission of the client change nothing. -/
theorem emissions_append {es : List (Event β)}
    (h : ∀ e ∈ es, e.emits c = false) (s : NodeState F MergeEofCounts) :
    emissions c { m with state := s, log := es ++ m.log } = emissions c m := by
  have hnone : es.countP (Event.emits c) = 0 := by
    rw [List.countP_eq_zero]
    intro e he
    simp [h e he]
  simp [emissions, List.countP_append, hnone]

theorem emits_of_mem_closings {rc : RingCompletion}
    {actions : List BarrierAction} {e : Event β}
    (h : e ∈ closings rc actions) : e.emits c = false := by
  obtain ⟨a, -, ha⟩ := List.mem_filterMap.mp h
  cases a with
  | forward t => simp at ha
  | downstreamEof x counts =>
      obtain rfl := Option.some.inj ha
      rfl

theorem emits_of_isBarrier {e : Event β} (h : e.isBarrier = true) :
    e.emits c = false := by
  cases e <;> first | rfl | cases h

theorem mergeView_checkpointed :
    mergeView c ids (m.checkpointed (ringMerge cfg nShards fn).provider) =
      (mergeView c ids m).saved := by
  have hdisk : storedRecord c ids
      (m.checkpointed (ringMerge cfg nShards fn).provider) =
        .of c ids m.rc m.aborted m.state.extra m.dedup :=
    MergeRecord.of_restore _ _ _ _
  rw [MergeClientView.saved, mergeView, hdisk]
  rfl

/-- The messages of an emission are no emission of their own. -/
theorem emissions_emitted (x c : UUID) (m : Node Side F S MergeEofCounts β) :
    emissions c (emitted (ringMerge cfg nShards fn) x m) =
      emissions c m + if x = c then 1 else 0 := by
  have hclosings : ∀ e ∈ closings (β := β)
      (m.rc.markEmitted x (countsOf (ringMerge cfg nShards fn) x m))
      (m.rc.reportSent (ringMerge cfg nShards fn).self x
        (countsOf (ringMerge cfg nShards fn) x m)).2, e.emits c = false :=
    fun e he => emits_of_mem_closings he
  have hdata : ∀ e ∈ (Controller.stampAll (ringMerge cfg nShards fn) x
      m.state.seqs (resultOf (ringMerge cfg nShards fn) x m)).reverse,
      e.emits c = false := by
    intro e he
    obtain ⟨s, id, pl, rfl⟩ :=
      Controller.eq_data_of_mem_stampAll (List.mem_reverse.mp he)
    rfl
  have hzero : ∀ {es : List (Event β)}, (∀ e ∈ es, e.emits c = false) →
      es.countP (Event.emits c) = 0 := by
    intro es h
    rw [List.countP_eq_zero]
    intro e he
    simp [h e he]
  change List.countP (Event.emits c) (_ ++ _ :: (_ ++ _ :: m.log)) = _
  rw [List.countP_append, hzero hclosings, List.countP_cons,
    List.countP_append, hzero hdata, List.countP_cons]
  simp [Event.emits, emissions]

theorem mergeView_emitted_other (hx : x ≠ c) :
    mergeView c ids (emitted (ringMerge cfg nShards fn) x m) =
      mergeView c ids m := by
  obtain ⟨hclient, haborted⟩ := RingCompletion.reportSent_frame cfg.self m.rc x
    (countsOf (ringMerge cfg nShards fn) x m)
  have hrecord : MergeRecord.of c ids (m.rc.reportSent cfg.self x
      (countsOf (ringMerge cfg nShards fn) x m)).1 m.aborted m.state.extra
      m.dedup = .of c ids m.rc m.aborted m.state.extra m.dedup := by
    simp only [MergeRecord.of, hclient c hx.symm, haborted c]
  have hcount : emissions c (emitted (ringMerge cfg nShards fn) x m) =
      emissions c m + if x = c then 1 else 0 := emissions_emitted x c m
  rw [if_neg hx, Nat.add_zero] at hcount
  rw [mergeView, hcount]
  exact congrArg (MergeClientView.mk · _ _ _ _) hrecord

theorem mergeView_emitted_self
    (hopen : (mergeView c ids m).mem.emitted = false) :
    mergeView c ids (emitted (ringMerge cfg nShards fn) c m) =
      (mergeView c ids m).emit := by
  have hphase : (m.rc.client c).phase = .processing := by
    by_contra hne
    simp [mergeView, MergeRecord.of, hne] at hopen
  have hclosed := RingCompletion.phase_reportSent cfg.self
    (countsOf (ringMerge cfg nShards fn) c m) hphase
  have hrecord : MergeRecord.of c ids (m.rc.reportSent cfg.self c
      (countsOf (ringMerge cfg nShards fn) c m)).1 m.aborted m.state.extra
      m.dedup = (mergeView c ids m).mem.emit := by
    simp only [MergeRecord.of, RingCompletion.expected_reportSent,
      RingCompletion.received_reportSent, (RingCompletion.reportSent_frame
        cfg.self m.rc c _).2 c, mergeView, MergeRecord.emit]
    simp [hclosed]
  have hcount : emissions c (emitted (ringMerge cfg nShards fn) c m) =
      emissions c m + if c = c then 1 else 0 := emissions_emitted c c m
  rw [if_pos rfl] at hcount
  rw [mergeView, hcount]
  exact congrArg (MergeClientView.mk · _ _ _ _) hrecord

/-- The announced counts after `_free` and `_discard`. -/
theorem mergeView_freed : mergeView c ids (m.withState fun s => { s with
      fn := ((ringMerge cfg nShards fn).free c s.fn s.extra).1
      extra := ((ringMerge cfg nShards fn).free c s.fn s.extra).2 }) =
    (mergeView c ids m).withMem .free := by
  have hrecord : MergeRecord.of c ids m.rc m.aborted (m.state.extra.drop c)
      m.dedup = (mergeView c ids m).mem.free := by
    simp only [MergeRecord.of, MergeEofCounts.announced_drop_self]
    rfl
  exact congrArg (MergeClientView.mk · _ _ _ _) hrecord

theorem mergeView_freed_of_ne (hx : c ≠ x) :
    mergeView c ids (m.withState fun s => { s with
      fn := ((ringMerge cfg nShards fn).free x s.fn s.extra).1
      extra := ((ringMerge cfg nShards fn).free x s.fn s.extra).2 }) =
    mergeView c ids m := by
  have hrecord : MergeRecord.of c ids m.rc m.aborted (m.state.extra.drop x)
      m.dedup = .of c ids m.rc m.aborted m.state.extra m.dedup := by
    simp only [MergeRecord.of, MergeEofCounts.announced_drop_of_ne hx]
  exact congrArg (MergeClientView.mk · _ _ _ _) hrecord

/-- The barrier of any client leaves the record alone. -/
theorem mergeView_logged {e : Event β} (he : e.emits c = false) :
    mergeView c ids (m.logged e) = mergeView c ids m := by
  have hquiet : ∀ e' ∈ [e], e'.emits c = false := by
    intro e' he'
    rw [List.mem_singleton.mp he', he]
  have hcount : emissions c (m.logged e) = emissions c m := emissions_append hquiet m.state
  exact congrArg (MergeClientView.mk _ _ · _ _) hcount

/-- A message of another client was recorded. -/
theorem mergeView_recorded_of_notMem {tag : Side × ℕ} {msg : DataMsg α}
    (h : msg.identity ∉ ids) :
    mergeView c ids (m.recorded tag msg) = mergeView c ids m :=
  congrArg (MergeClientView.mk · _ _ _ _) (MergeRecord.of_record_of_notMem h)

theorem mergeView_recorded {tag : Side × ℕ} {msg : DataMsg α}
    (hseq : msg.seq ≠ 0) (h : msg.identity ∈ ids) :
    mergeView c ids (m.recorded tag msg) =
      (mergeView c ids m).withMem (.mark msg.identity) :=
  congrArg (MergeClientView.mk · _ _ _ _) (MergeRecord.of_record hseq h)

/-- A token came in that does not close the barrier too early. -/
theorem mergeView_receiveToken {t : BarrierToken}
    (h : ¬RingCompletion.Premature cfg.self m.rc c t) :
    mergeView c ids (receiveToken (ringMerge cfg nShards fn) t m).2 =
      mergeView c ids m := by
  have hrecord : MergeRecord.of c ids (m.rc.onToken cfg.self t).1 m.aborted
      m.state.extra m.dedup = .of c ids m.rc m.aborted m.state.extra m.dedup :=
    MergeRecord.of_onToken h
  have hcount : emissions c { m with
      state := { m.state with rc := (m.rc.onToken cfg.self t).1 }
      log := closings m.rc (m.rc.onToken cfg.self t).2 ++ m.log } = emissions c m :=
    emissions_append (fun e he => emits_of_mem_closings he) _
  exact (congrArg (MergeClientView.mk · _ _ _ _) hrecord).trans
    (congrArg (MergeClientView.mk _ _ · _ _) hcount)

/-- A restarted process takes over what the checkpoint keeps. -/
theorem mergeView_restored {b : Blob (NodeSnapshot S MergeEofCounts)}
    (hb : m.store = some b) :
    mergeView c ids (m.restored (ringMerge cfg nShards fn).provider b) =
      (mergeView c ids m).withMem fun _ => (mergeView c ids m).disk := by
  have hdisk : storedRecord c ids m = .of c ids b.state.rc b.aborted
      b.state.extra (.restore b.dedup) := by
    simp [storedRecord, hb]
  exact congrArg (MergeClientView.mk · _ _ _ _) hdisk.symm

/-- An operation of the ring. -/
theorem mergeView_onRing {A : Type} (f : RingCompletion → RingCompletion × A) :
    mergeView c ids (onRing f m).2 =
      (mergeView c ids m).withMem fun _ =>
        .of c ids (f m.rc).1 m.aborted m.state.extra m.dedup := rfl

/-! ## Specifications -/

section Specs

theorem spec_flush_merge {force : Bool} (hsave : ∀ v, P v → R v.saved)
    (hskip : force = false → ∀ v, P v → R v) :
    Spec (AtMerge (F := F) (S := S) (β := β) c ids P)
      (Checkpointer.flush (ringMerge cfg nShards fn).provider force)
      (fun _ => AtMerge c ids R) (fun _ => True) := by
  refine Checkpointer.spec_checkpointAndFlush (R := AtMerge c ids R) ?_ ?_ ?_ ?_
  · intro m hm _
    refine ⟨trivial, trivial, ?_⟩
    rw [AtMerge, mergeView_checkpointed]
    exact hsave _ hm
  · exact fun m hm _ hforce => hskip hforce _ hm
  · exact fun _ _ _ _ _ => trivial
  · exact fun m hm => hm

/-- The emission of another client. -/
theorem spec_emit_other (hx : x ≠ c) :
    Spec (AtMerge (S := S) c ids P) (emit (ringMerge cfg nShards fn) x)
      (fun _ => AtMerge c ids P) (fun _ => True) := by
  refine spec_emit x (fun _ _ _ _ _ => trivial) ?_ (fun _ _ => trivial) ?_
  · intro m hm
    rw [AtMerge, mergeView_emitted_other hx]
    exact hm
  · intro m e he hm
    rw [AtMerge, mergeView_logged (emits_of_isBarrier he)]
    exact hm

/-- The emission of the client itself. -/
theorem spec_emit_client (hopen : ∀ v, P v → v.mem.emitted = false)
    (hemit : ∀ v, P v → R v.emit) :
    Spec (AtMerge (S := S) c ids P) (emit (ringMerge cfg nShards fn) c)
      (fun _ => AtMerge c ids R) (fun _ => True) := by
  refine spec_emit c (fun _ _ _ _ _ => trivial) ?_ (fun _ _ => trivial) ?_
  · intro m hm
    rw [AtMerge, mergeView_emitted_self (hopen _ hm)]
    exact hemit _ hm
  · intro m e he hm
    rw [AtMerge, mergeView_logged (emits_of_isBarrier he)]
    exact hm

theorem spec_runEmits_others {xs : List UUID} (hxs : c ∉ xs) :
    Spec (AtMerge (S := S) c ids P) (runEmits (ringMerge cfg nShards fn) xs)
      (fun _ => AtMerge c ids P) (fun _ => True) := by
  refine Spec.forEach (I := fun _ => AtMerge c ids P) xs ?_
  intro before x after hsplit
  refine spec_emit_other ?_
  rintro rfl
  exact hxs (by simp [hsplit])

/-- Freeing other clients. -/
theorem spec_free_others {xs : List UUID} (hxs : c ∉ xs) :
    Spec (AtMerge (S := S) c ids P)
      (Prog.forEach xs (free (ringMerge cfg nShards fn)))
      (fun _ => AtMerge c ids P) (fun _ => True) := by
  refine Spec.forEach (I := fun _ => AtMerge c ids P) xs ?_
  intro before x after hsplit
  have hx : c ≠ x := by
    rintro rfl
    exact hxs (by simp [hsplit])
  refine Spec.change (fun _ _ => trivial) fun m hm => ?_
  rw [AtMerge, mergeView_logged rfl, mergeView_freed_of_ne hx]
  exact hm

/-- Freeing the client, as often as it is in the list. -/
theorem spec_free_client (xs : List UUID)
    (hfree : ∀ v, P v → P (v.withMem .free)) :
    Spec (AtMerge (S := S) c ids P)
      (Prog.forEach xs (free (ringMerge cfg nShards fn)))
      (fun _ => AtMerge c ids P) (fun _ => True) := by
  refine Spec.forEach (I := fun _ => AtMerge c ids P) xs ?_
  intro before x after hsplit
  refine Spec.change (fun _ _ => trivial) fun m hm => ?_
  by_cases hx : c = x
  · subst hx
    rw [AtMerge, mergeView_logged rfl, mergeView_freed]
    exact hfree _ hm
  · rw [AtMerge, mergeView_logged rfl, mergeView_freed_of_ne hx]
    exact hm

/-- Reading a message of another client, or a copy of one. -/
theorem spec_onData_other {side : Side} {msg : DataMsg α}
    (hx : c ≠ msg.clientId) :
    Spec (AtMerge (S := S) c ids P)
      (onData (ringMerge cfg nShards fn) side msg)
      (fun _ => AtMerge c ids P) (fun _ => True) := by
  refine Spec.bind (Q := fun _ => AtMerge c ids P)
    (Spec.modify fun m hm => hm) fun _ => ?_
  refine Spec.bind (Q := fun _ => AtMerge c ids P)
    (Spec.pure fun m hm => hm) fun _ => ?_
  refine Spec.bind (Q := fun emits m => c ∉ emits ∧ AtMerge c ids P m)
    (Spec.compute fun m hm => ⟨fun hmem => ?_, ?_⟩) fun emits =>
      Spec.of_pre fun hout => spec_runEmits_others hout
  · exact hx ((m.rc.counts_onData msg.clientId).eq_of_mem hmem)
  · have hrecord : MergeRecord.of c ids (m.rc.onData msg.clientId).1 m.aborted
        m.state.extra m.dedup = .of c ids m.rc m.aborted m.state.extra m.dedup :=
      MergeRecord.of_counts_of_ne (m.rc.counts_onData msg.clientId) hx
    rw [AtMerge, mergeView_onRing, hrecord]
    exact hm

/-- Emitting the client if it is complete. -/
theorem spec_runEmits_client {emits : List UUID}
    (hquiet : ∀ v, P v → ¬v.mem.Ready → R v)
    (hready : ∀ v, P v → v.mem.Ready →
      R v.emit) :
    Spec (fun m => (emits.Nodup ∧ ∀ y ∈ emits, y = c) ∧
        (c ∈ emits ↔ (mergeView c ids m).mem.Ready) ∧ AtMerge (S := S) c ids P m)
      (runEmits (ringMerge cfg nShards fn) emits)
      (fun _ => AtMerge c ids R) (fun _ => True) := by
  refine Spec.of_pre fun hemits => ?_
  cases emits with
  | nil =>
      refine Spec.pure fun m hm => hquiet _ hm.2 fun hr => ?_
      simpa using hm.1.mpr hr
  | cons y ys =>
      obtain rfl : y = c := hemits.2 y List.mem_cons_self
      have hys : ys = [] := by
        refine List.eq_nil_iff_forall_not_mem.mpr fun z hz => ?_
        rw [List.nodup_cons] at hemits
        exact hemits.1.1 (hemits.2 z (List.mem_cons_of_mem _ hz) ▸ hz)
      subst hys
      refine Spec.bind ((spec_emit_client
        (P := fun v => P v ∧ v.mem.Ready) (R := R) ?_ ?_).pre ?_) fun _ =>
          Spec.pure fun _ hm => hm
      · exact fun v hv => hv.2.1
      · exact fun v hv => hready v hv.1 hv.2
      · exact fun m hm => ⟨hm.2, hm.1.mp List.mem_cons_self⟩

/-- Reading a message of the client itself. -/
theorem spec_onData_client {side : Side} {msg : DataMsg α}
    (hc : msg.clientId = c) (halive : ∀ v, P v → v.mem.aborted = false)
    (hquiet : ∀ v, P v → ¬v.mem.counted.Ready → R (v.withMem .counted))
    (hready : ∀ v, P v → v.mem.counted.Ready → R (v.withMem .counted).emit) :
    Spec (AtMerge (S := S) c ids P)
      (onData (ringMerge cfg nShards fn) side msg)
      (fun _ => AtMerge c ids R) (fun _ => True) := by
  subst hc
  refine Spec.bind (Q := fun _ => AtMerge msg.clientId ids P)
    (Spec.modify fun m hm => hm) fun _ => ?_
  refine Spec.bind (Q := fun _ => AtMerge msg.clientId ids P)
    (Spec.pure fun m hm => hm) fun _ => ?_
  refine Spec.bind (Spec.compute fun m hm => ?_) fun emits =>
    spec_runEmits_client
      (P := fun v => ∃ w, P w ∧ v = w.withMem .counted) ?_ ?_
  · have hopen := (MergeRecord.isAborted_of (halive _ hm)).1
    obtain ⟨hnodup, honly⟩ := (m.rc.counts_onData msg.clientId).emits
    refine ⟨⟨hnodup, fun y hy => (honly y hy).1⟩, ?_, ?_⟩
    · exact (RingCompletion.mem_onData hopen).trans MergeRecord.ready_of.symm
    · rw [AtMerge, mergeView_onRing, MergeRecord.of_onData hopen]
      exact ⟨mergeView msg.clientId ids m, hm, rfl⟩
  · rintro _ ⟨w, hw, rfl⟩ hnot
    exact hquiet w hw hnot
  · rintro _ ⟨w, hw, rfl⟩ hr
    exact hready w hw hr

/-! ### End-of-files -/

theorem noteEof_other {side : Side} {k : ℤ} (hx : c ≠ x) :
    c ∉ (noteEof (ringMerge cfg nShards fn) side x k m).1 ∧
      mergeView c ids (noteEof (ringMerge cfg nShards fn) side x k m).2 =
        mergeView c ids m := by
  cases htotal : (m.state.extra.note side x k).combined x with
  | none =>
      rw [noteEof_none htotal]
      exact ⟨List.not_mem_nil,
        congrArg (MergeClientView.mk · _ _ _ _) (MergeRecord.of_note_of_ne side k hx)⟩
  | some total =>
      rw [noteEof_some htotal]
      have hring := m.rc.counts_onUpstreamEof x total
      refine ⟨fun hmem => hx (hring.eq_of_mem hmem), ?_⟩
      exact congrArg (MergeClientView.mk · _ _ _ _)
        ((MergeRecord.of_note_of_ne side k hx).trans
          (MergeRecord.of_counts_of_ne hring hx))

/-- What the node does about an announcement of the client: it notes the count,
and once both sides announced theirs it waits for the sum. -/
theorem noteEof_client {side : Side} {k : ℤ}
    (halive : (mergeView c ids m).mem.aborted = false) :
    let r := (mergeView c ids m).mem.note side k
    let emits := (noteEof (ringMerge cfg nShards fn) side c k m).1
    let v := mergeView c ids (noteEof (ringMerge cfg nShards fn) side c k m).2
    (emits = [] ∧ v = (mergeView c ids m).withMem (fun _ => r) ∧
        ∃ s, r.announced s = none) ∨
      ∃ total, v = (mergeView c ids m).withMem
          (fun _ => { r with expected := total }) ∧
        (∃ l r', r.announced .left = some l ∧ r.announced .right = some r' ∧
          total = l + r') ∧
        (emits.Nodup ∧ ∀ y ∈ emits, y = c) ∧ (c ∈ emits ↔ v.mem.Ready) := by
  intro r emits v
  have hnote : ∀ rc : RingCompletion, MergeRecord.of c ids rc m.aborted
      (m.state.extra.note side c k) m.dedup =
        (MergeRecord.of c ids rc m.aborted m.state.extra m.dedup).note side k :=
    fun rc => MergeRecord.of_note side k
  have hcounts : (m.state.extra.note side c k).announced c = r.announced :=
    congrArg MergeRecord.announced (hnote m.rc)
  have hopen := (MergeRecord.isAborted_of halive).1
  cases htotal : (m.state.extra.note side c k).combined c with
  | none =>
      have heq := noteEof_none (C := ringMerge cfg nShards fn) (q := side)
        (m := m) htotal
      refine Or.inl ⟨congrArg Prod.fst heq, ?_, ?_⟩
      · refine (congrArg (fun n => mergeView c ids n.2) heq).trans ?_
        exact congrArg (MergeClientView.mk · _ _ _ _) (hnote m.rc)
      · obtain ⟨s, hs⟩ := MergeEofCounts.combined_eq_none htotal
        exact ⟨s, hcounts ▸ hs⟩
  | some total =>
      have heq := noteEof_some (C := ringMerge cfg nShards fn) (q := side)
        (m := m) htotal
      have hemits : emits = (m.rc.onUpstreamEof c total).2 :=
        congrArg Prod.fst heq
      have hmem : MergeRecord.of c ids (m.rc.onUpstreamEof c total).1 m.aborted
          (m.state.extra.note side c k) m.dedup =
            { r with expected := total } := by
        rw [MergeRecord.of_onUpstreamEof hopen, hnote]
        rfl
      have hv : v = (mergeView c ids m).withMem
          (fun _ => { r with expected := total }) := by
        refine (congrArg (fun n => mergeView c ids n.2) heq).trans ?_
        exact congrArg (MergeClientView.mk · _ _ _ _) hmem
      obtain ⟨hnodup, honly⟩ := (m.rc.counts_onUpstreamEof c total).emits
      obtain ⟨l, r', hl, hr, hsum⟩ := MergeEofCounts.combined_eq_some htotal
      refine Or.inr ⟨total, hv, ⟨l, r', hcounts ▸ hl, hcounts ▸ hr, hsum⟩, ?_, ?_⟩
      · rw [hemits]
        exact ⟨hnodup, fun y hy => (honly y hy).1⟩
      · rw [hemits, hv, ← hmem]
        exact (RingCompletion.mem_onUpstreamEof hopen total).trans
          MergeRecord.ready_of.symm

end Specs

end RingNode
