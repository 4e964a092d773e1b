import MoneyLaundering.Ring.BarrierSafety

/-!
# Retrying a failed token

`_on_ring_msg` answers an exception with a negative acknowledgement, so that the
token comes back.  What the first attempt changed in memory stays.  The module
compares what the two attempts send with what one successful attempt sends.
-/

open Crash

namespace RingCompletion

variable {self : Peer} {rc : RingCompletion} {t : BarrierToken}

/-- Handling a token a second time: a token that was passed on is passed on
again, but a barrier that was closed is not closed again. -/
theorem onToken_again (self : Peer) (rc : RingCompletion) (t : BarrierToken) :
    ((∃ counts, (rc.onToken self t).2 = [.downstreamEof t.clientId counts]) ∧
        ((rc.onToken self t).1.onToken self t).2 = []) ∨
      ((rc.onToken self t).2 = [] ∨
          ∃ t', (rc.onToken self t).2 = [.forward t']) ∧
        ((rc.onToken self t).1.onToken self t).2 = (rc.onToken self t).2 := by
  unfold onToken
  by_cases hab : rc.isAborted t.clientId = true
  · simp [hab]
  have hstamp : stampToken self (rc.touch t.clientId) t =
      stampToken self rc t := by
    simp [stampToken]
  have hafter : ∀ rc', rc'.isAborted t.clientId = false →
      (if rc'.isAborted t.clientId = true then (rc', []) else
        advance self (rc'.touch t.clientId) (stampToken self rc' t)).2 =
        (advance self (rc'.touch t.clientId) (stampToken self rc' t)).2 := by
    intro rc' h
    simp [h]
  have hab' : rc.isAborted t.clientId = false := by simpa using hab
  rw [if_neg hab]
  by_cases hsize : (stampToken self rc t).sentBy.size < self.nNodes
  · have hadv : ∀ rc', advance self rc' (stampToken self rc t) =
        (rc', [.forward (stampToken self rc t)]) := by
      intro rc'
      simp [advance, hsize]
    refine Or.inr ⟨Or.inr ⟨stampToken self rc t, by rw [hadv]⟩, ?_⟩
    rw [hadv, hafter _ (by simpa using hab'), hstamp, hadv]
  by_cases horigin : (stampToken self rc t).origin = self.nodeId
  · by_cases hdone : (rc.client t.clientId).phase = .done
    · have hadv : ∀ rc' : RingCompletion,
          (rc'.client t.clientId).phase = .done →
            advance self rc' (stampToken self rc t) = (rc', []) := by
        intro rc' h
        simp [advance, hsize, horigin, h]
      refine Or.inr ⟨Or.inl (by rw [hadv _ (by simpa using hdone)]), ?_⟩
      rw [hadv _ (by simpa using hdone), hafter _ (by simpa using hab'),
        hstamp, hadv _ (by simpa using hdone)]
    · refine Or.inl ⟨⟨sumSlots (stampToken self rc t).sentBy, ?_⟩, ?_⟩
      · simp [advance, hsize, horigin, hdone]
      · have hclosed : (advance self (rc.touch t.clientId)
            (stampToken self rc t)).1 = (rc.touch t.clientId).put t.clientId
              { rc.client t.clientId with phase := .done } := by
          simp [advance, hsize, horigin, hdone]
        rw [hclosed, hafter _ (by simpa using hab')]
        have hsize' : ¬(t.sentBy.set self.nodeId
            (rc.client t.clientId).sent).size < self.nNodes := by
          intro hlt
          refine hsize (lt_of_le_of_lt ?_ hlt)
          unfold stampToken
          split
          · exact Dict.size_le_size_set _ _ _
          · exact le_rfl
        have horigin' : t.origin = self.nodeId := by
          rw [← horigin]
          unfold stampToken
          split <;> rfl
        simp [advance, stampToken, hsize', horigin']
  · have hadv : ∀ rc', advance self rc' (stampToken self rc t) =
        (rc', [.forward (stampToken self rc t)]) := by
      intro rc'
      simp [advance, hsize, horigin]
    refine Or.inr ⟨Or.inr ⟨stampToken self rc t, by rw [hadv]⟩, ?_⟩
    rw [hadv, hafter _ (by simpa using hab'), hstamp, hadv]

end RingCompletion

namespace RingNode

variable {Q F S E α β : Type} [DecidableEq Q] {C : Controller Q F S E α β}
  {m m' : Node Q F S E β} {t : BarrierToken}

/-- The entries for what a token makes a node send. -/
def isBarrierMessage : Event β → Bool
  | .eof _ _ _ => true
  | .forward _ => true
  | _ => false

/-- The barrier messages sent between two states of a node. -/
def sentSince (m m' : Node Q F S E β) : List (Event β) :=
  (m'.log.take (m'.log.length - m.log.length)).filter isBarrierMessage

omit [DecidableEq Q] in
theorem sentSince_of_log {new : List (Event β)}
    (h : m'.log = new ++ m.log) :
    sentSince m m' = new.filter isBarrierMessage := by
  simp [sentSince, h]

/-- What the actions of the barrier send, in order. -/
def sends (C : Controller Q F S E α β) (actions : List BarrierAction) :
    List (Event β) :=
  actions.flatMap fun
    | .forward token => [.forward token]
    | .downstreamEof clientId expectedPerShard =>
      (List.range C.nShards).map fun shard =>
        .eof shard clientId (expectedPerShard.getD shard 0)

omit [DecidableEq Q] in
theorem foldl_logged {B : Type} (bs : List B) (e : B → Event β)
    (m : Node Q F S E β) :
    bs.foldl (fun m b => m.logged (e b)) m =
      { m with log := (bs.map e).reverse ++ m.log } := by
  induction bs generalizing m with
  | nil => rfl
  | cons b bs ih =>
      rw [List.foldl_cons, ih]
      simp [Machine.logged]

/-! ### A flush sends nothing -/

/-- A flush changes neither the ring in memory nor the history, and none of its
effects is a send. -/
theorem flush_silent (m : Node Q F S E β) :
    (∀ p ∈ (Checkpointer.flush C.provider true m).points,
      p.2.state.rc = m.state.rc ∧ p.2.log = m.log ∧ ∀ i, p.1 ≠ .send i) ∧
    ((Checkpointer.flush C.provider true m).final.state.rc = m.state.rc ∧
      (Checkpointer.flush C.provider true m).final.log = m.log) := by
  have hspec : Spec (fun m' : Node Q F S E β => m' = m)
      (Checkpointer.flush C.provider true)
      (fun _ m' => m'.state.rc = m.state.rc ∧ m'.log = m.log)
      (fun m' => m'.state.rc = m.state.rc ∧ m'.log = m.log) := by
    refine Checkpointer.spec_checkpointAndFlush
      (R := fun m' => m'.state.rc = m.state.rc ∧ m'.log = m.log) ?_ ?_ ?_ ?_
    · rintro _ rfl -
      exact ⟨⟨rfl, rfl⟩, ⟨rfl, rfl⟩, rfl, rfl⟩
    · rintro _ rfl - -
      exact ⟨rfl, rfl⟩
    · exact fun m' tags rest hm' _ => hm'
    · exact fun m' hm' => hm'
  obtain ⟨hpoints, hfinal⟩ := hspec m rfl
  refine ⟨fun p hp => ⟨(hpoints p hp).1, (hpoints p hp).2, ?_⟩, hfinal⟩
  simp only [Checkpointer.flush, Checkpointer.checkpointAndFlush,
    Checkpointer.releaseAcks, Checkpointer.save, Prog.when, Bool.or_true,
    if_true, Prog.bind_apply, Prog.read_apply, Prog.act_apply,
    Prog.change_apply, Prog.modify_apply, List.nil_append, List.append_nil,
    List.mem_append, List.mem_singleton] at hp
  intro i
  rcases hp with (rfl | rfl) | hp
  · simp
  · simp
  · obtain ⟨before, tag, after, -, rfl⟩ :=
      (Prog.mem_points_forEach_change _ (fun _ => Effect.ack)
        Machine.ackTag _ p).mp hp
    simp

/-! ### The effects of one attempt -/

omit [DecidableEq Q] in
/-- Where a barrier program can be cut, and where it ends. -/
theorem runBarrier_run {actions : List BarrierAction}
    (hlen : actions.length ≤ 1) (m : Node Q F S E β) :
    (∀ p ∈ (runBarrier C actions m).points, ∃ sent rest,
      sends C actions = sent ++ rest ∧ rest ≠ [] ∧
        p.2 = { m with log := sent.reverse ++ m.log } ∧
          ((∃ i, p.1 = .send i) ↔
            ∃ c counts, actions = [.downstreamEof c counts])) ∧
    (runBarrier C actions m).final =
      { m with log := (sends C actions).reverse ++ m.log } := by
  match actions, hlen with
  | [], _ => exact ⟨by simp [runBarrier, Prog.forEach], rfl⟩
  | [.forward t], _ =>
      refine ⟨fun p hp => ⟨[], [.forward t], rfl, by simp, ?_⟩, rfl⟩
      obtain rfl : p = (.forward, m) := by
        simpa [runBarrier, Prog.forEach, perform, forward, Prog.bind_apply]
          using hp
      simp
  | [.downstreamEof c counts], _ =>
      have hsends : sends C [.downstreamEof c counts] =
          (List.range C.nShards).map fun shard =>
            (.eof shard c (counts.getD shard 0) : Event β) := by
        simp [sends]
      have hpoints : (runBarrier C [.downstreamEof c counts] m).points =
          (downstreamEof C c counts m).points := by
        simp [runBarrier, Prog.forEach, perform, Prog.bind_apply]
      have hfinal : (runBarrier C [.downstreamEof c counts] m).final =
          (downstreamEof C c counts m).final := rfl
      rw [hpoints, hfinal, hsends]
      refine ⟨fun p hp => ?_, ?_⟩
      · obtain ⟨before, shard, after, hsplit, rfl⟩ :=
          (Prog.mem_points_forEach_change (List.range C.nShards)
            (fun shard => Effect.send shard)
            (fun shard (m : Node Q F S E β) =>
              m.logged (.eof shard c (counts.getD shard 0))) m p).mp hp
        refine ⟨before.map fun shard => .eof shard c (counts.getD shard 0),
          (shard :: after).map fun shard => .eof shard c (counts.getD shard 0),
          ?_, by simp, ?_, ?_⟩
        · rw [hsplit, List.map_append]
        · exact foldl_logged before _ m
        · simp
      · refine (Prog.forEach_change_final _ _ _ m).trans ?_
        exact foldl_logged _ _ m

omit [DecidableEq Q] in
theorem filter_closings (rc : RingCompletion) (actions : List BarrierAction) :
    (closings rc actions : List (Event β)).filter isBarrierMessage = [] := by
  rw [List.filter_eq_nil_iff]
  intro e he
  obtain ⟨a, -, ha⟩ := List.mem_filterMap.mp he
  cases a with
  | forward t => simp at ha
  | downstreamEof c counts =>
      obtain rfl := Option.some.inj ha
      simp [isBarrierMessage]

omit [DecidableEq Q] in
theorem filter_sends (actions : List BarrierAction) :
    (sends C actions).filter isBarrierMessage = sends C actions := by
  rw [List.filter_eq_self]
  intro e he
  obtain ⟨a, -, ha⟩ := List.mem_flatMap.mp he
  cases a with
  | forward t =>
      obtain rfl := List.mem_singleton.mp ha
      rfl
  | downstreamEof c counts =>
      obtain ⟨shard, -, rfl⟩ := List.mem_map.mp ha
      rfl

/-- What a successful attempt leaves and sends. -/
theorem onRingMsg_final (t : BarrierToken) (m : Node Q F S E β) :
    Node.rc (onRingMsg C t m).final = (m.rc.onToken C.self t).1 ∧
      (onRingMsg C t m).final.log =
        (sends C (m.rc.onToken C.self t).2).reverse ++
          (closings m.rc (m.rc.onToken C.self t).2 ++ m.log) := by
  have hrun := (runBarrier_run (C := C)
    (length_receiveToken_le (C := C) (m := m) t) (receiveToken C t m).2).2
  have hfinal : (onRingMsg C t m).final = (Checkpointer.flush C.provider true
      (runBarrier C (receiveToken C t m).1 (receiveToken C t m).2).final).final :=
    rfl
  obtain ⟨hrc, hlog⟩ := (flush_silent (C := C)
    (runBarrier C (receiveToken C t m).1 (receiveToken C t m).2).final).2
  rw [Node.rc, hfinal, hrc, hlog, hrun]
  exact ⟨rfl, rfl⟩

/-- Where an attempt can fail, and what it has sent by then. -/
theorem onRingMsg_points (t : BarrierToken) (m : Node Q F S E β) :
    ∀ p ∈ (onRingMsg C t m).points,
      Node.rc p.2 = (m.rc.onToken C.self t).1 ∧
      ∃ sent rest, sends C (m.rc.onToken C.self t).2 = sent ++ rest ∧
        p.2.log = sent.reverse ++
          (closings m.rc (m.rc.onToken C.self t).2 ++ m.log) ∧
        ((∃ i, p.1 = .send i) ↔ rest ≠ [] ∧
          ∃ c counts, (m.rc.onToken C.self t).2 =
            [.downstreamEof c counts]) := by
  intro p hp
  have hsplit : (onRingMsg C t m).points =
      (runBarrier C (receiveToken C t m).1 (receiveToken C t m).2).points ++
        (Checkpointer.flush C.provider true (runBarrier C
          (receiveToken C t m).1 (receiveToken C t m).2).final).points := rfl
  obtain ⟨hpoints, hfinal⟩ := runBarrier_run (C := C)
    (length_receiveToken_le (C := C) (m := m) t) (receiveToken C t m).2
  rw [hsplit, List.mem_append] at hp
  rcases hp with hp | hp
  · obtain ⟨sent, rest, hsends, hrest, hstate, hlabel⟩ := hpoints p hp
    rw [hstate]
    refine ⟨rfl, sent, rest, hsends, rfl, ?_⟩
    rw [hlabel]
    exact ⟨fun h => ⟨hrest, h⟩, fun h => h.2⟩
  · obtain ⟨hrc, hlog, hlabel⟩ := (flush_silent (C := C)
      (runBarrier C (receiveToken C t m).1 (receiveToken C t m).2).final).1 p hp
    rw [Node.rc, hrc, hlog, hfinal]
    refine ⟨rfl, sends C (m.rc.onToken C.self t).2, [], by simp, rfl, ?_⟩
    constructor
    · rintro ⟨i, hi⟩
      exact absurd hi (hlabel i)
    · rintro ⟨hnil, -⟩
      exact absurd rfl hnil

/-- What the failed attempt and its retry sent together, against what one
successful attempt sends: the same messages, up to duplicates. -/
def AsIfSucceeded (C : Controller Q F S E α β) (t : BarrierToken)
    (m failed : Node Q F S E β) : Prop :=
  ∀ e, e ∈ sentSince m (onRingMsg C t failed).final ↔
    e ∈ sentSince m (onRingMsg C t m).final

/-- A failed token step can be retried exactly when the exception was not raised
by the send to a downstream shard.  The phase is `done` before any of these sends,
so the retry sends no end-of-file at all. -/
theorem asIfSucceeded_iff (C : Controller Q F S E α β) (t : BarrierToken)
    (m : Node Q F S E β) (p : Effect × Node Q F S E β)
    (hp : p ∈ (onRingMsg C t m).points) :
    AsIfSucceeded C t m p.2 ↔ ∀ i, p.1 ≠ .send i := by
  obtain ⟨hrc, sent, rest, hsends, hlog, hlabel⟩ := onRingMsg_points t m p hp
  have hsuccess : ∀ e, e ∈ sentSince m (onRingMsg C t m).final ↔
      e ∈ sent ++ rest := by
    intro e
    have hfinal := (onRingMsg_final (C := C) t m).2
    rw [← List.append_assoc] at hfinal
    rw [sentSince_of_log hfinal, List.filter_append, filter_closings,
      List.append_nil, List.filter_reverse, filter_sends, List.mem_reverse,
      hsends]
  have hretry : ∀ e, e ∈ sentSince m (onRingMsg C t p.2).final ↔
      e ∈ sends C ((m.rc.onToken C.self t).1.onToken C.self t).2 ∨
        e ∈ sent := by
    intro e
    have hfinal := (onRingMsg_final (C := C) t p.2).2
    rw [hrc, hlog, ← List.append_assoc, ← List.append_assoc,
      ← List.append_assoc] at hfinal
    have hsent : sent.filter isBarrierMessage = sent := by
      rw [List.filter_eq_self]
      intro x hx
      have hall := filter_sends (C := C) (m.rc.onToken C.self t).2
      rw [hsends, List.filter_eq_self] at hall
      exact hall x (List.mem_append_left _ hx)
    rw [sentSince_of_log hfinal, List.filter_append, List.filter_append,
      List.filter_append, filter_closings, filter_closings, List.append_nil,
      List.append_nil, List.filter_reverse, List.filter_reverse, filter_sends,
      hsent, List.mem_append, List.mem_reverse, List.mem_reverse]
  have hiff : AsIfSucceeded C t m p.2 ↔ ∀ e,
      (e ∈ sends C ((m.rc.onToken C.self t).1.onToken C.self t).2 ∨
        e ∈ sent) ↔ e ∈ sent ++ rest := by
    refine forall_congr' fun e => ?_
    rw [hretry, hsuccess]
  have hsendless : (∀ i, p.1 ≠ .send i) ↔ ¬∃ i, p.1 = .send i := by
    simp
  rw [hiff, hsendless, hlabel]
  rcases RingCompletion.onToken_again C.self m.rc t with
    ⟨⟨counts, hclosed⟩, hagain⟩ | ⟨hpassed, hagain⟩
  · have hnone : sends C ((m.rc.onToken C.self t).1.onToken C.self t).2 =
        [] := by rw [hagain]; rfl
    rw [hnone]
    constructor
    · rintro hall ⟨hrest, -⟩
      obtain ⟨e, he⟩ := List.exists_mem_of_ne_nil rest hrest
      -- the shards are distinct, so a missing end-of-file was not sent before
      have hnodup : (sent ++ rest).Nodup := by
        rw [← hsends, hclosed]
        simp only [sends, List.flatMap_singleton]
        refine List.nodup_range.map ?_
        intro i j hij
        simp only [Event.eof.injEq] at hij
        exact hij.1
      have hsent := (hall e).mpr (List.mem_append_right _ he)
      exact List.disjoint_of_nodup_append hnodup (by simpa using hsent) he
    · intro hno e
      have hrest : rest = [] := by
        by_contra hne
        exact hno ⟨hne, _, _, hclosed⟩
      simp [hrest]
  · rw [hagain, hsends]
    have hnot : ¬∃ c counts, (m.rc.onToken C.self t).2 =
        [.downstreamEof c counts] := by
      rintro ⟨c, counts, heq⟩
      rcases hpassed with h | ⟨t', h⟩ <;> rw [h] at heq <;> simp at heq
    simp only [hnot, and_false, not_false_eq_true, iff_true]
    intro e
    rw [List.mem_append]
    constructor
    · rintro (h | h)
      · exact h
      · exact Or.inl h
    · exact Or.inl

/-- The leader of two filters when the full token arrives, and the point of its
handler just before the second end-of-file. -/
theorem leader_before_second_eof :
    ∃ s : ℕ → Node Unit Unit Unit SentCounts ℕ,
      AffinityRing.twoFilters.runs.playAll (AffinityRing.closingRun.take 7)
        AffinityRing.twoFilters.initial = some s ∧
      ∃ p ∈ (onRingMsg (AffinityRing.twoFilters.node 0)
          AffinityRing.fullToken (s 0)).points,
        p.1 = .send 1 ∧
        .eof 1 7 1 ∈ sentSince (s 0) (onRingMsg
          (AffinityRing.twoFilters.node 0) AffinityRing.fullToken
            (s 0)).final ∧
        .eof 1 7 1 ∉ sentSince (s 0) (onRingMsg
          (AffinityRing.twoFilters.node 0) AffinityRing.fullToken
            p.2).final := by
  have hplays : (AffinityRing.twoFilters.runs.playAll
      (AffinityRing.closingRun.take 7) AffinityRing.twoFilters.initial).map
      (fun s => ((onRingMsg (AffinityRing.twoFilters.node 0)
          AffinityRing.fullToken (s 0)).points[1]?).map fun p =>
        (p.1, decide (.eof 1 7 1 ∈ sentSince (s 0) (onRingMsg
            (AffinityRing.twoFilters.node 0) AffinityRing.fullToken
              (s 0)).final),
          decide (.eof 1 7 1 ∈ sentSince (s 0) (onRingMsg
            (AffinityRing.twoFilters.node 0) AffinityRing.fullToken
              p.2).final))) =
      some (some (.send 1, true, false)) := by decide
  obtain ⟨s, hs, hobs⟩ := Option.map_eq_some_iff.mp hplays
  obtain ⟨p, hp, hobs⟩ := Option.map_eq_some_iff.mp hobs
  simp only [Prod.mk.injEq, decide_eq_true_eq, decide_eq_false_iff_not] at hobs
  exact ⟨s, hs, p, List.mem_of_getElem? hp, hobs⟩

/-- The second shard never gets its end-of-file: the retry finds the client done
and sends nothing. -/
theorem retry_loses_eof :
    ∃ s : ℕ → Node Unit Unit Unit SentCounts ℕ,
      AffinityRing.twoFilters.runs.playAll (AffinityRing.closingRun.take 7)
        AffinityRing.twoFilters.initial = some s ∧
      ∃ p ∈ (onRingMsg (AffinityRing.twoFilters.node 0)
          AffinityRing.fullToken (s 0)).points,
        p.1 = .send 1 ∧ ¬AsIfSucceeded (AffinityRing.twoFilters.node 0)
          AffinityRing.fullToken (s 0) p.2 := by
  obtain ⟨s, hs, p, hp, hlabel, hsent, hlost⟩ := leader_before_second_eof
  exact ⟨s, hs, p, hp, hlabel, fun h => hlost ((h _).mpr hsent)⟩

/-- The same point, through the exact condition. -/
theorem asIfSucceeded_iff_second_eof :
    ∃ s : ℕ → Node Unit Unit Unit SentCounts ℕ,
      ∃ p ∈ (onRingMsg (AffinityRing.twoFilters.node 0)
          AffinityRing.fullToken (s 0)).points,
        p.1 = .send 1 ∧
        (AsIfSucceeded (AffinityRing.twoFilters.node 0)
          AffinityRing.fullToken (s 0) p.2 ↔ ∀ i, p.1 ≠ .send i) := by
  obtain ⟨s, -, p, hp, hlabel, -⟩ := leader_before_second_eof
  exact ⟨s, p, hp, hlabel, asIfSucceeded_iff _ _ _ p hp⟩

end RingNode
