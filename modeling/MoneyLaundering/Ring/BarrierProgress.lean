import Mathlib.Order.Filter.Finite
import MoneyLaundering.Ring.CompletionRules
import MoneyLaundering.Ring.CountConservation
import MoneyLaundering.Ring.RingRabbitMQ
import MoneyLaundering.Support.Courses

/-!
# Barrier progress

A barrier whose peers have all reported is closed at last, and its end-of-files are sent.
Crashes may fall anywhere: a token that was passed on is redelivered until it is handled to
the end, and the chain of these deliveries ends at the leader only.

On its way the token comes past every peer, because the nodes wire themselves into one
cycle.  After one round it has the slot of every peer, and after the rest of another one it
is at the leader.
-/

open Crash

/-! ## What the phase of the leader says -/

namespace RingNode

variable {Q F S E α β : Type} {C : Controller Q F S E α β} {c : UUID}

/-- The client was not aborted. -/
def Unaborted (c : UUID) (rc : RingCompletion) (_ : List (Event β)) : Prop :=
  rc.isAborted c = false

/-- An emitted client has a token under way, and that of a client that is done has got its
end-of-files out. -/
def Announced (C : Controller Q F S E α β) (c : UUID) (rc : RingCompletion)
    (log : List (Event β)) : Prop :=
  ((rc.client c).phase = .emitted → ∃ t, t.clientId = c ∧ .forward t ∈ log) ∧
    ((rc.client c).phase = .done → ∀ shard < C.nShards, ∃ k, .eof shard c k ∈ log)

theorem aborted_advance_rc (self : Peer) (rc : RingCompletion) (t : BarrierToken) (c : UUID) :
    (rc.advance self t).1.isAborted c = rc.isAborted c := by
  rcases advance_cases self rc t with heq | heq | heq <;> rw [heq]
  rfl

theorem unaborted_rules : CompletionRules C (· ≠ c) (Unaborted c) where
  logged _ _ _ h := h
  counted rc x r _ hcounts h := by
    rcases hcounts with rfl | ⟨-, cl, -, -, rfl⟩ <;> exact h
  dropped rc x _ hx h := by
    rw [Unaborted, RingCompletion.isAborted_drop, h, Bool.or_false,
      decide_eq_false_iff_not]
    exact fun heq => hx heq.symm
  reported rc x sent _ h := by
    unfold RingCompletion.reportSent
    split
    · exact h
    · split
      · exact h
      · exact (aborted_advance_rc _ _ _ _).trans h
  token rc t _ h := by
    unfold RingCompletion.onToken
    split
    · exact h
    · exact (aborted_advance_rc _ _ _ _).trans h

theorem Announced.append {rc : RingCompletion} {log : List (Event β)}
    (h : Announced C c rc log) (es : List (Event β)) : Announced C c rc (es ++ log) := by
  refine ⟨fun hemitted => ?_, fun hdone shard hshard => ?_⟩
  · obtain ⟨t, ht, hmem⟩ := h.1 hemitted
    exact ⟨t, ht, List.mem_append_right _ hmem⟩
  · obtain ⟨k, hmem⟩ := h.2 hdone shard hshard
    exact ⟨k, List.mem_append_right _ hmem⟩

theorem Announced.of_phase {rc rc' : RingCompletion} {log : List (Event β)}
    (h : Announced C c rc log) (hphase : (rc'.client c).phase = (rc.client c).phase) :
    Announced C c rc' log := by
  rw [Announced, hphase]
  exact h

theorem announced_of_processing {rc : RingCompletion} {log : List (Event β)}
    (h : (rc.client c).phase = .processing) : Announced C c rc log := by
  simp [Announced, h]

/-- The end-of-files of a closed barrier, among what is sent. -/
theorem mem_sends_downstreamEof {x : UUID} {per : ShardCounts} {shard : ℕ}
    (hshard : shard < C.nShards) :
    .eof shard x (per.getD shard 0) ∈ (sends C [.downstreamEof x per] : List (Event β)) := by
  simp only [sends, List.flatMap_singleton]
  exact List.mem_map.mpr ⟨shard, List.mem_range.mpr hshard, rfl⟩

/-- Passing a token on announces the client if it was emitted, and closing its barrier sends
the end-of-files. -/
theorem announced_advance {self : Peer} {rc : RingCompletion} {t : BarrierToken}
    {log : List (Event β)}
    (h : Announced C c rc log ∨ t.clientId = c ∧ (rc.client c).phase = .emitted) :
    Announced C c (rc.advance self t).1
      ((sends C (rc.advance self t).2).reverse ++ log) := by
  have hforward : Announced C c rc ((sends C [.forward t]).reverse ++ log) := by
    rcases h with h | ⟨ht, hphase⟩
    · exact h.append _
    · refine ⟨fun _ => ⟨t, ht, by simp [sends]⟩, fun hdone => ?_⟩
      rw [hphase] at hdone
      cases hdone
  unfold RingCompletion.advance
  by_cases hsize : t.sentBy.size < self.nNodes
  · simpa only [if_pos hsize] using hforward
  by_cases horigin : t.origin = self.nodeId
  · by_cases hdone : (rc.client t.clientId).phase = .done
    · simp only [if_neg hsize, horigin, ne_eq, not_true_eq_false, if_false, if_pos hdone]
      rcases h with h | ⟨ht, hphase⟩
      · exact h.append _
      · rw [ht, hphase] at hdone
        cases hdone
    · simp only [if_neg hsize, horigin, ne_eq, not_true_eq_false, if_false, if_neg hdone]
      by_cases hc : c = t.clientId
      · subst hc
        refine ⟨fun hemitted => by simp at hemitted, fun _ shard hshard => ?_⟩
        refine ⟨(RingCompletion.sumSlots t.sentBy).getD shard 0,
          List.mem_append_left _ (List.mem_reverse.mpr ?_)⟩
        exact mem_sends_downstreamEof hshard
      · rcases h with h | ⟨ht, -⟩
        · exact (h.append _).of_phase (by simp [hc])
        · exact absurd ht.symm hc
  · simpa only [if_neg hsize, ne_eq, horigin, not_false_eq_true, if_true] using hforward

/-- The leader announces what it emits. -/
theorem announced_rules (hleader : C.self.nodeId = C.self.leader) :
    CompletionRules C (fun _ => True) (Announced C c) where
  logged _ e _ h := h.append [e]
  counted rc x r _ hcounts h := h.of_phase (hcounts.phase_eq c)
  dropped rc x log _ h := by
    by_cases hc : c = x
    · exact announced_of_processing (by simp [RingCompletion.client_drop, hc])
    · exact h.of_phase (by simp [RingCompletion.client_drop, hc])
  reported rc x sent log h := by
    unfold RingCompletion.reportSent
    by_cases hphase : (rc.client x).phase = .processing
    · rw [if_neg (by simp [hphase]), if_neg (by simp [hleader])]
      refine announced_advance ?_
      by_cases hc : c = x
      · exact Or.inr ⟨hc.symm, by simp [RingCompletion.markEmitted, hc]⟩
      · exact Or.inl (h.of_phase (by simp [RingCompletion.markEmitted, hc]))
    · rw [if_pos (by simpa using hphase)]
      exact h.append _
  token rc t log h := by
    unfold RingCompletion.onToken
    by_cases hab : rc.isAborted t.clientId = true
    · rw [if_pos hab]
      exact h.append _
    · rw [if_neg hab]
      exact announced_advance (Or.inl (h.of_phase (by simp)))

end RingNode

/-! ## Wiring -/

namespace AffinityRing

variable {Q F S E α β : Type} {R : AffinityRing Q F S E α β} {p q : ℕ}

/-- Every node sends its tokens to the front that it finds for itself. -/
def Wired (R : AffinityRing Q F S E α β) : Prop :=
  ∀ p ∈ R.ids, ∃ backId, getFrontBackIds (p : ℤ) ((R.ids.erase p).map Nat.cast) =
    .ok ((R.next p : ℤ), backId)

/-- The ids as the nodes compare them. -/
def idSet (R : AffinityRing Q F S E α β) : Finset ℤ := (R.ids.map Nat.cast).toFinset

theorem mem_idSet : (p : ℤ) ∈ R.idSet ↔ p ∈ R.ids := by
  simp [idSet]

theorem card_idSet : R.idSet.card = R.ids.length := by
  rw [idSet, List.toFinset_card_of_nodup (R.nodup.map Nat.cast_injective), List.length_map]

theorem isPeersOf_erase (p : ℕ) :
    RingRabbitMQ.IsPeersOf R.idSet p ((R.ids.erase p).map Nat.cast) := by
  refine ⟨(R.nodup.erase p).map Nat.cast_injective, fun y => ?_⟩
  constructor
  · intro hy
    obtain ⟨q, hq, rfl⟩ := List.mem_map.mp hy
    obtain ⟨hne, hmem⟩ := R.nodup.mem_erase_iff.mp hq
    exact ⟨mem_idSet.mpr hmem, fun heq => hne (Nat.cast_injective heq)⟩
  · rintro ⟨hy, hne⟩
    obtain ⟨q, hq, rfl⟩ := List.mem_map.mp (List.mem_toFinset.mp hy)
    refine List.mem_map.mpr ⟨q, R.nodup.mem_erase_iff.mpr ⟨fun heq => hne ?_, hq⟩, rfl⟩
    rw [heq]

theorem cast_next (h : R.Wired) (hp : p ∈ R.ids) :
    (R.next p : ℤ) = RingRabbitMQ.ringCycle R.idSet p := by
  obtain ⟨backId, hback⟩ := h p hp
  have hcycle := RingRabbitMQ.getFrontBackIds_ringCycle (mem_idSet.mpr hp)
    (isPeersOf_erase p)
  exact congrArg Prod.fst (Except.ok.inj (hback.symm.trans hcycle))

theorem next_mem (h : R.Wired) (hp : p ∈ R.ids) : R.next p ∈ R.ids := by
  rw [← mem_idSet, cast_next h hp]
  exact (RingRabbitMQ.isCycleOn_ringCycle R.idSet).1.mapsTo (mem_idSet.mpr hp)

theorem iterate_mem (h : R.Wired) (hp : p ∈ R.ids) (n : ℕ) : R.next^[n] p ∈ R.ids := by
  induction n generalizing p with
  | zero => exact hp
  | succ n ih => exact ih (next_mem h hp)

theorem cast_iterate (h : R.Wired) (hp : p ∈ R.ids) (n : ℕ) :
    ((R.next^[n] p : ℕ) : ℤ) = (RingRabbitMQ.ringCycle R.idSet ^ n) p := by
  induction n with
  | zero => rfl
  | succ n ih =>
      rw [Function.iterate_succ_apply', cast_next h (iterate_mem h hp n), ih, pow_succ',
        Equiv.Perm.mul_apply]

/-- A token comes back to where it was after a round. -/
theorem iterate_round (h : R.Wired) (hp : p ∈ R.ids) : R.next^[R.ids.length] p = p := by
  have hback := (RingRabbitMQ.isCycleOn_ringCycle R.idSet).pow_card_apply (mem_idSet.mpr hp)
  rw [card_idSet, ← cast_iterate h hp] at hback
  exact Nat.cast_injective hback

/-- On its round it comes past every node. -/
theorem exists_iterate (h : R.Wired) (hp : p ∈ R.ids) (hq : q ∈ R.ids) :
    ∃ n, 0 < n ∧ n ≤ R.ids.length ∧ R.next^[n] p = q := by
  have hvisits := (Cycles.visits_of_isCycleOn
    (RingRabbitMQ.isCycleOn_ringCycle R.idSet) (mem_idSet.mpr hp)).2.1 q
  have hmem := hvisits.mpr (mem_idSet.mpr hq)
  rw [Cycles.visits_eq_map, card_idSet] at hmem
  obtain ⟨n, hn, heq⟩ := List.mem_map.mp hmem
  refine ⟨n + 1, Nat.succ_pos n, List.mem_range.mp hn, ?_⟩
  rw [← cast_iterate h hp] at heq
  exact Nat.cast_injective heq

/-- There is a number of hops that end at the leader, with every node on the way. -/
theorem exists_hops (h : R.Wired) (hp : p ∈ R.ids) :
    ∃ n, R.next^[n] p = R.leader ∧ ∀ q ∈ R.ids, ∃ j < n, R.next^[j] p = q := by
  obtain ⟨k, hk, -, hleader⟩ := exists_iterate h hp (leader_mem hp)
  refine ⟨k + R.ids.length, ?_, fun q hq => ?_⟩
  · rw [Function.iterate_add_apply, iterate_round h hp, hleader]
  · by_cases heq : q = p
    · exact ⟨0, by omega, heq ▸ rfl⟩
    · obtain ⟨j, -, hj, hjq⟩ := exists_iterate h hp hq
      exact ⟨j, by omega, hjq⟩

end AffinityRing

/-! ## One token -/

namespace RingCompletion

variable {self : Peer} {rc : RingCompletion} {t : BarrierToken} {q : ℕ}

@[simp] theorem origin_stampToken : (stampToken self rc t).origin = t.origin := by
  unfold stampToken
  split <;> rfl

/-- A token keeps its slots. -/
theorem mem_keys_stampToken (h : q ∈ t.sentBy.keys) :
    q ∈ (stampToken self rc t).sentBy.keys := by
  unfold stampToken
  split
  · exact h
  · exact Dict.mem_keys_set.mpr (Or.inr h)

/-- A peer that has emitted writes its own. -/
theorem self_mem_keys_stampToken (self : Peer)
    (h : (rc.client t.clientId).phase ≠ .processing) :
    self.nodeId ∈ (stampToken self rc t).sentBy.keys := by
  rw [stampToken, if_neg h]
  exact Dict.mem_keys_set.mpr (Or.inl rfl)

/-- What a token makes a peer do: pass it on, unless it is the leader's and full. -/
theorem onToken_actions (self : Peer) (hab : rc.isAborted t.clientId = false) :
    ((rc.onToken self t).2 = [.forward (stampToken self rc t)] ∧
        ((stampToken self rc t).sentBy.size < self.nNodes ∨ t.origin ≠ self.nodeId)) ∨
      t.origin = self.nodeId ∧ ((rc.client t.clientId).phase = .done ∨
        ∃ per, (rc.onToken self t).2 = [.downstreamEof t.clientId per]) := by
  rw [onToken, if_neg (by simp [hab]), advance, origin_stampToken]
  by_cases hsize : (stampToken self rc t).sentBy.size < self.nNodes
  · exact Or.inl ⟨by rw [if_pos hsize], Or.inl hsize⟩
  by_cases horigin : t.origin = self.nodeId
  · refine Or.inr ⟨horigin, ?_⟩
    by_cases hdone : (rc.client t.clientId).phase = .done
    · exact Or.inl hdone
    · refine Or.inr ⟨sumSlots (stampToken self rc t).sentBy, ?_⟩
      rw [if_neg hsize, if_neg (by simpa using horigin)]
      simp [hdone]
  · exact Or.inl ⟨by rw [if_neg hsize, if_pos horigin], Or.inr horigin⟩

end RingCompletion

/-! ## Courses of a ring -/

namespace RingNode

variable {Q F S E α β : Type} {C : Controller Q F S E α β}

/-- The history only grows. -/
theorem suffix_rules (log : List (Event β)) :
    CompletionRules C (fun _ => True) fun _ log' => log <:+ log' where
  logged _ e _ h := h.trans (List.suffix_cons e _)
  counted _ _ _ _ _ h := h
  dropped _ _ _ _ h := h
  reported _ _ _ _ h := h.trans (List.suffix_append _ _)
  token _ _ _ h := h.trans (List.suffix_append _ _)

theorem log_suffix_step [DecidableEq Q] {arrivals : Q → ℕ → Option (Message α)} {fifo : Bool}
    {crashable : Node Q F S E β → Prop} {m m' : Node Q F S E β}
    (h : (system C arrivals fifo crashable).Step m m') : m.log <:+ m'.log := by
  have hcall : ∀ call (m : Node Q F S E β),
      (∀ p ∈ (handler C arrivals call m).points, m.log <:+ p.2.log) ∧
        m.log <:+ (handler C arrivals call m).final.log := by
    intro call m
    obtain ⟨hpoints, hfinal⟩ := (suffix_rules m.log).spec_call arrivals
      (fun _ _ _ _ => trivial) call m ⟨List.suffix_rfl, List.suffix_rfl⟩
    exact ⟨hpoints, hfinal.1⟩
  cases h with
  | finish call m _ => exact (hcall call m).2
  | crash call k m p _ hp _ => exact (hcall call m).1 p hp
  | idleCrash _ k m _ => exact List.suffix_rfl

end RingNode

namespace AffinityRing

open RingNode

variable {Q F S E α β : Type} [DecidableEq Q] {R : AffinityRing Q F S E α β} {c : UUID}
  {n k p q : ℕ} {t : BarrierToken}

/-- A run of the ring without an end. -/
abbrev Course (R : AffinityRing Q F S E α β) : Type :=
  System.Course R.runs R.initial

/-- In this turn the node passes the token on. -/
def PassesOn (course : R.Course) (n q : ℕ) (t : BarrierToken) : Prop :=
  ∃ es, es ++ (course.state n q).log = (course.state (n + 1) q).log ∧ .forward t ∈ es

/-- Every token of the client that is passed on is handled to its end later.  Its queue
outlives the node and redelivers it until it is acknowledged. -/
def TokensArrive (course : R.Course) (c : UUID) : Prop :=
  ∀ n, ∀ q ∈ R.ids, ∀ t, t.clientId = c → PassesOn course n q t →
    ∃ k, n < k ∧ course.Serves k (R.next q, .token t)

/-- The leader has sent an end-of-file of the client to every shard. -/
def Ended (R : AffinityRing Q F S E α β) (c : UUID) (s : ℕ → Node Q F S E β) : Prop :=
  ∀ shard < (R.node R.leader).nShards, ∃ k, .eof shard c k ∈ (s R.leader).log

theorem log_suffix (q : ℕ) {s s' : ℕ → Node Q F S E β} (h : R.runs.Step s s') :
    (s q).log <:+ (s' q).log := by
  rcases h.component q with hstep | heq
  · exact log_suffix_step hstep
  · rw [heq]

theorem Ended.step {s s' : ℕ → Node Q F S E β} (hstep : R.runs.Step s s')
    (h : R.Ended c s) : R.Ended c s' := by
  intro shard hshard
  obtain ⟨k, hk⟩ := h shard hshard
  exact ⟨k, (log_suffix R.leader hstep).subset hk⟩

variable {course : R.Course}

/-- A token in the history was passed on in some turn. -/
theorem exists_passesOn (h : .forward t ∈ (course.state n q).log) :
    ∃ k < n, PassesOn course k q t := by
  obtain ⟨k, hk, hnot, hthen⟩ := course.exists_turn
    (P := fun s => .forward t ∈ (s q).log) (by simp [initial, Machine.initial]) h
  refine ⟨k, hk, ?_⟩
  have hsuffix : (course.state k q).log <:+ (course.state (k + 1) q).log := by
    rcases course.step k with hstep | heq
    · exact log_suffix q hstep
    · rw [heq]
  obtain ⟨es, hes⟩ := hsuffix
  refine ⟨es, hes, ?_⟩
  rw [← hes] at hthen
  exact (List.mem_append.mp hthen).resolve_right hnot

/-- What a token that is handled to its end leaves in the history. -/
theorem log_of_serves (h : course.Serves k (p, .token t)) :
    (course.state (k + 1) p).log =
      (sends (R.node p) ((course.state k p).rc.onToken (R.node p).self t).2).reverse ++
        (closings (course.state k p).rc
          ((course.state k p).rc.onToken (R.node p).self t).2 ++ (course.state k p).log) := by
  have hstate : course.state (k + 1) p =
      (onRingMsg (R.node p) t (course.state k p)).final := by
    rw [h.2]
    exact Function.update_self _ _ _
  rw [hstate]
  exact (onRingMsg_final t _).2

/-- A token under way is the leader's. -/
theorem tokenOk_of_serves (h : course.Serves k (p, .token t)) (ht : t.clientId = c) :
    p ∈ R.ids ∧ t.origin = R.leader := by
  obtain ⟨-, hp, q, hq, -, hlog⟩ := h.1
  refine ⟨hp, ?_⟩
  exact ((barrierInv_reach (c := c) (course.reach k)).globalOk.tokens q hq t
    ((Node.mem_view_log (by simp [Event.concerns, ht])).mpr hlog)).origin

/-! ### What holds at every node -/

theorem unaborted_of_course (course : R.Course)
    (hkept : ∀ q i, R.arrivals p q i ≠ some (.abort c)) (n : ℕ) :
    (course.state n p).rc.isAborted c = false := by
  refine (CompletionRules.reach unaborted_rules (fun _ => rfl) (fun q i x hx heq => ?_)
    ((course.reach n).component p)).1
  exact hkept q i (heq ▸ hx)

theorem announced_of_course (course : R.Course) (hne : R.leader ∈ R.ids) (n : ℕ) :
    Announced (R.node R.leader) c (course.state n R.leader).rc
      (course.state n R.leader).log := by
  have hself : (R.node R.leader).self.nodeId = (R.node R.leader).self.leader := by
    rw [self_nodeId hne, self_leader hne]
  exact (CompletionRules.reach (announced_rules hself)
    (fun _ => announced_of_processing rfl) (fun _ _ _ _ => trivial)
    ((course.reach n).component R.leader)).1

/-- A leader that is done has sent the end-of-files. -/
theorem ended_of_done (hne : R.leader ∈ R.ids)
    (h : ((course.state n R.leader).rc.client c).phase = .done) :
    R.Ended c (course.state n) :=
  (announced_of_course course hne n).2 h

/-! ### The way of a token -/

/-- One hop: the token is handled by the next node later on, with the slots it has by then,
unless the leader has all of them. -/
theorem hop (htokens : TokensArrive course c)
    (hkept : ∀ p ∈ R.ids, ∀ q i, R.arrivals p q i ≠ some (.abort c))
    (ht : t.clientId = c) (h : course.Serves k (p, .token t)) :
    R.Ended c (course.state (k + 1)) ∨ ∃ k' t', k < k' ∧ t'.clientId = c ∧
      course.Serves k' (R.next p, .token t') ∧
      (∀ q ∈ t.sentBy.keys, q ∈ t'.sentBy.keys) ∧
      (((course.state k p).rc.client c).phase ≠ .processing → p ∈ t'.sentBy.keys) ∧
      (t'.sentBy.size < R.ids.length ∨ p ≠ R.leader) := by
  obtain ⟨hp, horigin⟩ := tokenOk_of_serves h ht
  have hlog := log_of_serves h
  have hab : (course.state k p).rc.isAborted t.clientId = false := by
    rw [ht]
    exact unaborted_of_course course (hkept p hp) k
  rcases RingCompletion.onToken_actions (R.node p).self hab with
    ⟨hactions, hmore⟩ | ⟨hself, hdone | ⟨per, hactions⟩⟩
  · rw [hactions] at hlog
    have hpasses : PassesOn course k p
        (RingCompletion.stampToken (R.node p).self (course.state k p).rc t) :=
      ⟨[.forward _], hlog.symm, List.mem_singleton_self _⟩
    obtain ⟨k', hk', hserves⟩ := htokens k p hp _ (by simpa using ht) hpasses
    refine Or.inr ⟨k', _, hk', by simpa using ht, hserves, ?_, fun hphase => ?_, ?_⟩
    · exact fun q hq => RingCompletion.mem_keys_stampToken hq
    · have hmem : (R.node p).self.nodeId ∈ (RingCompletion.stampToken (R.node p).self
          (course.state k p).rc t).sentBy.keys :=
        RingCompletion.self_mem_keys_stampToken (R.node p).self (by rwa [ht])
      rwa [self_nodeId hp] at hmem
    · rw [self_nNodes hp, self_nodeId hp, horigin] at hmore
      exact hmore.imp_right Ne.symm
  · obtain rfl : R.leader = p := by rw [← horigin, hself, self_nodeId hp]
    refine Or.inl (course.keeps (fun _ _ => Ended.step) (Nat.le_succ k) ?_)
    exact ended_of_done hp (ht ▸ hdone)
  · obtain rfl : R.leader = p := by rw [← horigin, hself, self_nodeId hp]
    refine Or.inl fun shard hshard => ⟨per.getD shard 0, ?_⟩
    rw [hlog, hactions, ht]
    exact List.mem_append_left _ (List.mem_reverse.mpr (mem_sends_downstreamEof hshard))

/-- Some hops, one after the other. -/
theorem hops (htokens : TokensArrive course c)
    (hkept : ∀ p ∈ R.ids, ∀ q i, R.arrivals p q i ≠ some (.abort c))
    (ht : t.clientId = c) (h : course.Serves k (p, .token t)) (n : ℕ) :
    (∃ m, R.Ended c (course.state m)) ∨ ∃ k' t', k + n ≤ k' ∧ t'.clientId = c ∧
      course.Serves k' (R.next^[n] p, .token t') ∧
      ((∀ m, k ≤ m → ∀ q ∈ R.ids, ((course.state m q).rc.client c).phase ≠ .processing) →
        ∀ j < n, R.next^[j] p ∈ t'.sentBy.keys) := by
  induction n with
  | zero => exact Or.inr ⟨k, t, le_rfl, ht, h, fun _ j hj => absurd hj (Nat.not_lt_zero j)⟩
  | succ n ih =>
      obtain hended | ⟨k', t', hk', ht', hserves, hkeys⟩ := ih
      · exact Or.inl hended
      have hmem := (tokenOk_of_serves hserves ht').1
      obtain hended | ⟨k'', t'', hk'', ht'', hserves', hold, hown, -⟩ :=
        hop htokens hkept ht' hserves
      · exact Or.inl ⟨_, hended⟩
      rw [← Function.iterate_succ_apply' R.next] at hserves'
      refine Or.inr ⟨k'', t'', by omega, ht'', hserves', fun hsettled j hj => ?_⟩
      by_cases hjn : j = n
      · rw [hjn]
        exact hown (hsettled k' (by omega) _ hmem)
      · exact hold _ (hkeys hsettled j (by omega))

omit [DecidableEq Q] in
/-- A token with the slot of every node is full. -/
theorem length_le_size (h : ∀ q ∈ R.ids, q ∈ t.sentBy.keys) :
    R.ids.length ≤ t.sentBy.size := by
  rw [← Dict.length_keys]
  exact (List.subperm_of_subset R.nodup h).length_le

/-- Once every node has reported, a token that is under way ends the client. -/
theorem ended_of_serves (hwired : R.Wired) (htokens : TokensArrive course c)
    (hkept : ∀ p ∈ R.ids, ∀ q i, R.arrivals p q i ≠ some (.abort c))
    (hsettled : ∀ m, k ≤ m → ∀ q ∈ R.ids,
      ((course.state m q).rc.client c).phase ≠ .processing)
    (ht : t.clientId = c) (h : course.Serves k (p, .token t)) :
    ∃ m, R.Ended c (course.state m) := by
  have hp := (tokenOk_of_serves h ht).1
  obtain ⟨n, hleader, hall⟩ := exists_hops hwired hp
  obtain hended | ⟨k', t', hk', ht', hserves, hkeys⟩ := hops htokens hkept ht h n
  · exact hended
  rw [hleader] at hserves
  have hslots : ∀ q ∈ R.ids, q ∈ t'.sentBy.keys := by
    intro q hq
    obtain ⟨j, hj, rfl⟩ := hall q hq
    exact hkeys hsettled j hj
  obtain hended | ⟨-, t'', -, -, -, hold, -, hmore⟩ :=
    hop htokens hkept ht' hserves
  · exact ⟨_, hended⟩
  have hfull := length_le_size fun q hq => hold q (hslots q hq)
  exact absurd (hmore.resolve_right (by simp)) (not_lt.mpr hfull)

/-- If every node gets past processing for good, the end-of-files are sent. -/
theorem eventually_ended (hne : R.ids ≠ []) (hwired : R.Wired)
    (hkept : ∀ p ∈ R.ids, ∀ q i, R.arrivals p q i ≠ some (.abort c))
    (htokens : TokensArrive course c)
    (hsettled : ∀ p ∈ R.ids, ∀ᶠ n in Filter.atTop,
      ((course.state n p).rc.client c).phase ≠ .processing) :
    ∀ᶠ n in Filter.atTop, R.Ended c (course.state n) := by
  obtain ⟨x, hx⟩ := List.exists_mem_of_ne_nil R.ids hne
  have hleader := leader_mem hx
  have hall : ∀ᶠ n in Filter.atTop, ∀ p ∈ R.ids.toFinset,
      ((course.state n p).rc.client c).phase ≠ .processing :=
    (Filter.eventually_all_finset _).mpr fun p hp => hsettled p (List.mem_toFinset.mp hp)
  obtain ⟨n, hn⟩ := Filter.eventually_atTop.mp hall
  have hphase : ∀ m, n ≤ m → ∀ q ∈ R.ids,
      ((course.state m q).rc.client c).phase ≠ .processing :=
    fun m hm q hq => hn m hm q (List.mem_toFinset.mpr hq)
  obtain ⟨m, hm⟩ : ∃ m, R.Ended c (course.state m) := by
    by_cases hemitted : ((course.state n R.leader).rc.client c).phase = .emitted
    · obtain ⟨t, ht, hforward⟩ := (announced_of_course course hleader n).1 hemitted
      obtain ⟨k, -, hpasses⟩ := exists_passesOn hforward
      obtain ⟨k', -, hserves⟩ := htokens k R.leader hleader t ht hpasses
      -- by the time of so many hops every node is past processing
      obtain hended | ⟨k'', t', hk'', ht', hserves', -⟩ :=
        hops htokens hkept ht hserves n
      · exact hended
      · exact ended_of_serves hwired htokens hkept (fun m hm => hphase m (by omega)) ht'
          hserves'
    · refine ⟨n, ended_of_done hleader ?_⟩
      have hnot := hphase n le_rfl R.leader hleader
      cases hcase : ((course.state n R.leader).rc.client c).phase with
      | processing => exact absurd hcase hnot
      | emitted => exact absurd hcase hemitted
      | done => rfl
  exact course.eventually fun k hk => course.keeps (fun _ _ => Ended.step) hk hm

/-- Barrier progress.  In a ring that is wired by its nodes, whatever crashes fall: if every
token of a client that no one aborts is handled to its end after it was passed on, and every
node gets past processing for good, then every node reports its counts and the leader sends
to each shard an end-of-file with their sum. -/
theorem barrier_progress (R : AffinityRing Q F S E α β) (c : UUID) (hne : R.ids ≠ [])
    (hwired : R.Wired) (hkept : ∀ p ∈ R.ids, ∀ q i, R.arrivals p q i ≠ some (.abort c))
    (course : R.Course) (htokens : TokensArrive course c)
    (hsettled : ∀ p ∈ R.ids, ∀ᶠ n in Filter.atTop,
      ((course.state n p).rc.client c).phase ≠ .processing) :
    ∀ᶠ n in Filter.atTop, ∀ shard < (R.node R.leader).nShards, ∃ sent : ℕ → ShardCounts,
      (∀ q ∈ R.ids, .reported c (sent q) ∈ (course.state n q).log) ∧
        .eof shard c (R.ids.map fun q => (sent q).getD shard 0).sum ∈
          (course.state n R.leader).log := by
  refine (eventually_ended hne hwired hkept htokens hsettled).mono
    fun n hended shard hshard => ?_
  obtain ⟨x, hx⟩ := List.exists_mem_of_ne_nil R.ids hne
  obtain ⟨k, hk⟩ := hended shard hshard
  obtain ⟨sent, hsent, rfl⟩ := eof_eq_sum (.idle _ (course.reach n)) (leader_mem hx) hk
  exact ⟨sent, hsent, hk⟩

/-- The tokens that a node passed on, newest first. -/
def tokensIn {β : Type} (log : List (Event β)) : List BarrierToken :=
  log.filterMap fun
    | .forward t => some t
    | _ => none

/-- A node that passes a token on has more of them in its history than before. -/
theorem PassesOn.more_tokens {course : R.Course} (h : PassesOn course n q t) :
    tokensIn (course.state (n + 1) q).log ≠ tokensIn (course.state n q).log ∧
      ∀ t', tokensIn (course.state (n + 1) q).log =
        t' :: tokensIn (course.state n q).log → t = t' := by
  obtain ⟨es, hes, hmem⟩ := h
  have hnew : t ∈ tokensIn es := List.mem_filterMap.mpr ⟨_, hmem, rfl⟩
  have happend : tokensIn (course.state (n + 1) q).log =
      tokensIn es ++ tokensIn (course.state n q).log := by
    rw [← hes]
    exact List.filterMap_append ..
  refine ⟨fun heq => ?_, fun t' heq => ?_⟩
  · rw [heq, List.self_eq_append_left] at happend
    rw [happend] at hnew
    cases hnew
  · rw [heq, ← List.singleton_append] at happend
    rw [← List.append_cancel_right happend] at hnew
    exact List.mem_singleton.mp hnew

/-- A token that is passed on in one turn of a script and handled in a later one. -/
structure ScriptedHop where
  turn : ℕ
  node : ℕ
  token : BarrierToken
  handled : ℕ

/-- In a script that handles each token after it is passed on, all tokens arrive. -/
theorem tokensArrive_ofMoves [DecidableEq β]
    {moves : List (System.Move (ℕ × Call Q) (UUID → ℕ → ℕ))} {s : ℕ → Node Q F S E β}
    (hs : R.runs.playAll moves R.initial = some s) (hops : List ScriptedHop)
    (hpassed : ∀ n < moves.length, ∀ q ∈ R.ids,
      tokensIn (R.runs.stateAfter moves R.initial (n + 1) q).log =
          tokensIn (R.runs.stateAfter moves R.initial n q).log ∨
        ∃ h ∈ hops, h.turn = n ∧ h.node = q ∧
          tokensIn (R.runs.stateAfter moves R.initial (n + 1) q).log =
            h.token :: tokensIn (R.runs.stateAfter moves R.initial n q).log)
    (hserved : ∀ h ∈ hops, h.turn < h.handled ∧
      moves[h.handled]? = some (.finish (R.next h.node, .token h.token))) :
    TokensArrive (System.Course.ofMoves R.runs moves R.initial) c := by
  intro n q hq t _ hpasses
  obtain ⟨hmore, hnew⟩ := hpasses.more_tokens
  have hn : n < moves.length := by
    by_contra hge
    have hnow := System.stateAfter_of_le hs (not_lt.mp hge)
    have hthen := System.stateAfter_of_le hs (Nat.le_succ_of_le (not_lt.mp hge))
    exact hmore (by simp only [System.Course.ofMoves, hnow, hthen])
  obtain ⟨h, hmem, rfl, rfl, heq⟩ := (hpassed n hn q hq).resolve_left hmore
  obtain ⟨hlt, hmove⟩ := hserved h hmem
  rw [hnew _ heq]
  exact ⟨h.handled, hlt, System.serves_ofMoves hs hmove⟩

/-- Two filters whose leader crashes while it closes the barrier. -/
def closingCourse : twoFilters.Course :=
  System.Course.ofMoves twoFilters.runs closingRun twoFilters.initial

/-- The script ends with the barrier closed. -/
theorem closingRun_plays : ∃ s,
    twoFilters.runs.playAll closingRun twoFilters.initial = some s ∧
      ((s 0).rc.client 7).phase = .done ∧ ((s 1).rc.client 7).phase = .emitted := by
  have hplays : (twoFilters.runs.playAll closingRun twoFilters.initial).map
      (fun s => (((s 0).rc.client 7).phase, ((s 1).rc.client 7).phase)) =
        some (.done, .emitted) := by decide
  obtain ⟨s, hs, hobs⟩ := Option.map_eq_some_iff.mp hplays
  exact ⟨s, hs, congrArg Prod.fst hobs, congrArg Prod.snd hobs⟩

theorem tokensArrive_closingCourse : TokensArrive closingCourse 7 := by
  obtain ⟨s, hs, -⟩ := closingRun_plays
  refine tokensArrive_ofMoves hs [⟨5, 0, startedToken, 6⟩, ⟨6, 1, fullToken, 9⟩]
    (by decide) fun h hmem => ?_
  rcases List.mem_cons.mp hmem with rfl | hmem
  · exact ⟨by decide, rfl⟩
  · rw [List.mem_singleton.mp hmem]
    exact ⟨by decide, rfl⟩

omit [DecidableEq Q] in
/-- In a ring of two, each node is the next of the other. -/
theorem wired_of_pair (hids : R.ids = [0, 1]) (hnext : ∀ p, R.next p = 1 - p) : R.Wired := by
  intro p hp
  rw [hids] at hp
  rw [hids, hnext]
  rcases List.mem_cons.mp hp with rfl | hp
  · exact ⟨1, rfl⟩
  · obtain rfl := List.mem_singleton.mp hp
    exact ⟨0, rfl⟩

/-- The leader crashes after the first of two end-of-files, and sends both in the end. -/
theorem barrier_progress_closingCourse :
    ∀ᶠ n in Filter.atTop, ∀ shard < (twoFilters.node twoFilters.leader).nShards,
      ∃ sent : ℕ → ShardCounts,
        (∀ q ∈ twoFilters.ids, .reported 7 (sent q) ∈ (closingCourse.state n q).log) ∧
          .eof shard 7 (twoFilters.ids.map fun q => (sent q).getD shard 0).sum ∈
            (closingCourse.state n twoFilters.leader).log := by
  obtain ⟨s, hs, hzero, hone⟩ := closingRun_plays
  have hlater : ∀ k, 10 ≤ k → closingCourse.state k = s := fun k hk =>
    System.stateAfter_of_le hs hk
  refine barrier_progress twoFilters 7 (List.cons_ne_nil _ _)
    (wired_of_pair rfl fun _ => rfl) ?_
    closingCourse tokensArrive_closingCourse fun p hp => ?_
  · intro p _ q i heq
    match i with
    | 0 => cases heq
    | 1 => cases heq
    | _ + 2 => cases heq
  · refine closingCourse.eventually (n := 10)
      (P := fun s => ((s p).rc.client 7).phase ≠ .processing) fun k hk => ?_
    rw [hlater k hk]
    rcases List.mem_cons.mp hp with rfl | hp
    · rw [hzero]
      decide
    · obtain rfl := List.mem_singleton.mp hp
      rw [hone]
      decide

end AffinityRing
