import MoneyLaundering.Ring.StatelessRun

/-!
# Replay of stateless nodes

A stateless node publishes while it processes, and a crash takes it back to its
last checkpoint with messages on the wire that the checkpoint does not know of.
The module shows that between two messages the node is where a node without
crashes is after some prefix of its queue: identities, output counters and sent
counts are those of that prefix.  So what it publishes again is what it published
before, and the counts it reports are right.
-/

open Crash

/-- A node that emits each input as it processes it, counts what it sends, and
reports the counts at the end. -/
structure Stateless {F S α β : Type} (C : Controller Unit F S SentCounts α β) :
    Prop where
  stamps : Controller.Stamps C.outputs
  silent : ∀ x f, (C.getResult x f).1 = []
  counts : ∀ x shard e, C.countSent x shard e = SentCounts.add x shard e
  reports : ∀ x outs e, C.sentCounts x outs e = SentCounts.pop x e
  starts : C.extra₀ = Dict.empty
  notes : ∀ x k e, C.noteEof () x k e = (some k, e)
  discards : ∀ x f e, (C.discard x f e).2 = (SentCounts.pop x e).2
  frees : ∀ x f e, (C.free x f e).2 = e

namespace StatelessReplay

open RingNode

variable {F S α β : Type} {C : Controller Unit F S SentCounts α β}
  {arrivals : Unit → ℕ → Option (Message α)} {m : Node Unit F S SentCounts β}
  {s : Applied α} {k n : ℕ} {c x : UUID} {d : DataMsg α}

/-- The node without crashes after the first positions of the queue. -/
abbrev read (arrivals : Unit → ℕ → Option (Message α)) (n : ℕ) : Applied α :=
  (Applied.reader α).after (arrivals ()) n

/-- The applied messages of a client. -/
def ofClient (c : UUID) (ds : List (DataMsg α)) : List (DataMsg α) :=
  ds.filter fun d => d.clientId = c

/-- How many messages they make for a shard. -/
def sentFor (C : Controller Unit F S SentCounts α β) (c : UUID) (shard : ℕ)
    (ds : List (DataMsg α)) : ℕ :=
  (sentTo shard ((ofClient c ds).flatMap C.outputs)).length

/-- Every message of the client is applied. -/
def Complete (arrivals : Unit → ℕ → Option (Message α)) (c : UUID)
    (ds : List (DataMsg α)) : Prop :=
  ∀ j d, Carries arrivals ((), j) d → d.clientId = c →
    ∃ d' ∈ ds, d'.identity = d.identity

/-- What the queue has to promise: numbers from `1` on, one message for each
identity, and end-of-files that carry the number of the client's messages. -/
structure CountedQueue (arrivals : Unit → ℕ → Option (Message α)) : Prop where
  seq : ∀ j d, Carries arrivals ((), j) d → 1 ≤ d.seq
  same : SameMessage arrivals
  counted : ∀ i c k, arrivals () i = some (.eof c k) →
    ∃ ids : Finset (ProducerId × ℕ), k = ids.card ∧
      ∀ id, id ∈ ids ↔ ∃ j d, Carries arrivals ((), j) d ∧ d.clientId = c ∧
        d.identity = id

/-! ## States that a prefix of the queue explains -/

/-- Identities, counters and completion state are those of the applied messages.
What a client past processing has counted does not matter any more. -/
structure Reflects (C : Controller Unit F S SentCounts α β)
    (arrivals : Unit → ℕ → Option (Message α)) (s : Applied α)
    (recorded : ProducerId × ℕ → Prop) (aborted : Finset UUID)
    (extra : SentCounts) (seqs : ProducerId → ℕ) (rc : RingCompletion) :
    Prop where
  seen : ∀ id, recorded id ↔ ∃ d ∈ s.msgs, d.identity = id
  aborted : aborted = s.aborted
  seqs : seqs = C.seqsOf (fun _ => 0) s.msgs
  tombs : ∀ y, rc.isAborted y = true ↔ y ∈ s.aborted
  forgotten : ∀ y, rc.isAborted y = true → rc.client y = .new
  received : ∀ y, rc.Owed y → (rc.client y).received = (ofClient y s.msgs).length
  counts : ∀ y, rc.Owed y → ∀ shard,
    (extra.getD y Dict.empty).getD shard 0 = sentFor C y shard s.msgs
  announced : ∀ y, 0 ≤ (rc.client y).expected →
    ∃ i, arrivals () i = some (.eof y (rc.client y).expected)

section Reflects

variable {recorded : ProducerId × ℕ → Prop} {aborted : Finset UUID}
  {extra extra' : SentCounts} {seqs : ProducerId → ℕ} {rc rc' : RingCompletion}

theorem Reflects.owed_of_ready
    (h : Reflects C arrivals s recorded aborted extra seqs rc)
    (hready : (rc.client x).ready = true) : rc.Owed x := by
  refine ⟨(Client.ready_iff.mp hready).1, ?_⟩
  by_contra hab
  rw [h.forgotten x (by simpa using hab)] at hready
  simp at hready

/-- A change of the completion state that opens no client. -/
theorem Reflects.narrow
    (h : Reflects C arrivals s recorded aborted extra seqs rc)
    (hab : ∀ y, rc'.isAborted y = rc.isAborted y)
    (hforgotten : ∀ y, rc'.isAborted y = true → rc'.client y = .new)
    (howed : ∀ y, rc'.Owed y → rc.Owed y ∧
      (rc'.client y).received = (rc.client y).received ∧
        extra'.getD y Dict.empty = extra.getD y Dict.empty)
    (hexpected : ∀ y, 0 ≤ (rc'.client y).expected →
      ∃ i, arrivals () i = some (.eof y (rc'.client y).expected)) :
    Reflects C arrivals s recorded aborted extra' seqs rc' where
  seen := h.seen
  aborted := h.aborted
  seqs := h.seqs
  tombs y := by rw [hab, h.tombs]
  forgotten := hforgotten
  received y ho := by
    obtain ⟨ho', hreceived, -⟩ := howed y ho
    rw [hreceived, h.received y ho']
  counts y ho shard := by
    obtain ⟨ho', -, hextra⟩ := howed y ho
    rw [hextra, h.counts y ho' shard]
  announced := hexpected

/-- A token arrived. -/
theorem Reflects.onToken
    (h : Reflects C arrivals s recorded aborted extra seqs rc) (self : Peer)
    (t : BarrierToken) :
    Reflects C arrivals s recorded aborted extra seqs (rc.onToken self t).1 := by
  obtain ⟨hclient, hab⟩ := RingCompletion.onToken_spec self rc t
  refine h.narrow hab (RingCompletion.forgotten_onToken self t h.forgotten)
    (fun y ho => ?_) fun y he => ?_
  · rcases hclient y with heq | hdone
    · refine ⟨⟨heq ▸ ho.1, (hab y).symm.trans ho.2⟩, ?_, rfl⟩
      rw [heq]
    · have hphase := ho.1
      rw [hdone] at hphase
      cases hphase
  · rw [RingCompletion.expected_onToken] at he ⊢
    exact h.announced y he

/-- A client was emitted and reported. -/
theorem Reflects.reportSent
    (h : Reflects C arrivals s recorded aborted extra seqs rc) (self : Peer)
    (howed : rc.Owed x) (sent : ShardCounts) :
    Reflects C arrivals s recorded aborted (SentCounts.pop x extra).2 seqs
      (rc.reportSent self x sent).1 := by
  obtain ⟨hothers, hab⟩ := RingCompletion.reportSent_frame self rc x sent
  have hself := RingCompletion.phase_reportSent self sent howed.1
  have hne : ∀ y, (rc.reportSent self x sent).1.Owed y → y ≠ x := by
    rintro y ho rfl
    exact hself ho.1
  refine h.narrow hab (fun y hy => ?_) (fun y ho => ?_) fun y he => ?_
  · rw [hab y] at hy
    have hyx : y ≠ x := by
      rintro rfl
      simp [howed.2] at hy
    rw [hothers y hyx]
    exact h.forgotten y hy
  · have hyx := hne y ho
    refine ⟨⟨hothers y hyx ▸ ho.1, (hab y).symm.trans ho.2⟩, ?_, ?_⟩
    · rw [hothers y hyx]
    · rw [SentCounts.pop, Dict.getD_erase, if_neg hyx]
  · rw [RingCompletion.expected_reportSent] at he ⊢
    exact h.announced y he

/-- The end-of-file of a client was noted. -/
theorem Reflects.onUpstreamEof
    (h : Reflects C arrivals s recorded aborted extra seqs rc) {i : ℕ} {e : ℤ}
    (hmsg : arrivals () i = some (.eof x e)) :
    Reflects C arrivals s recorded aborted extra seqs
      (rc.onUpstreamEof x e).1 := by
  have hcounts := RingCompletion.counts_onUpstreamEof rc x e
  by_cases hx : rc.isAborted x = true
  · have hsame : (rc.onUpstreamEof x e).1 = rc := by
      simp [RingCompletion.onUpstreamEof, hx]
    rw [hsame]
    exact h
  have hrc : (rc.onUpstreamEof x e).1 =
      rc.put x { rc.client x with expected := e } := by
    simp [RingCompletion.onUpstreamEof, hx]
  refine h.narrow (fun y => by rw [hrc, RingCompletion.isAborted_put])
    (hcounts.forgotten h.forgotten) (fun y ho => ?_) fun y he => ?_
  · refine ⟨(hcounts.owed_iff y).mp ho, ?_, rfl⟩
    rw [hrc, RingCompletion.client_put]
    split <;> simp_all
  · rw [hrc, RingCompletion.client_put] at he ⊢
    by_cases hy : y = x
    · subst hy
      rw [if_pos rfl]
      exact ⟨i, hmsg⟩
    · rw [if_neg hy] at he ⊢
      exact h.announced y he

theorem getD_foldl_add (outs : List (Output β)) (extra : SentCounts) (x y : UUID)
    (shard : ℕ) :
    ((outs.foldl (fun e o => SentCounts.add x o.shard e) extra).getD y
        Dict.empty).getD shard 0 =
      (extra.getD y Dict.empty).getD shard 0 +
        if x = y then (sentTo shard outs).length else 0 := by
  induction outs generalizing extra with
  | nil => simp [sentTo]
  | cons o outs ih =>
      rw [List.foldl_cons, ih, SentCounts.add, Dict.getD_set]
      by_cases hxy : x = y
      · subst hxy
        rw [if_pos rfl, if_pos rfl, Dict.getD_set]
        by_cases hs : o.shard = shard
        · subst hs
          simp only [if_true, sentTo, List.filter_cons, decide_true, List.map_cons,
            List.length_cons]
          omega
        · rw [if_neg fun h => hs h.symm, sentTo_cons_of_ne hs]
          simp
      · rw [if_neg hxy, if_neg hxy, if_neg fun h => hxy h.symm]

theorem ofClient_append_singleton (y : UUID) (ds : List (DataMsg α)) (d : DataMsg α) :
    ofClient y (ds ++ [d]) =
      ofClient y ds ++ if d.clientId = y then [d] else [] := by
  rw [ofClient, List.filter_append, ofClient]
  by_cases hy : d.clientId = y <;> simp [hy]

theorem sentFor_append_singleton (y : UUID) (shard : ℕ) (ds : List (DataMsg α))
    (d : DataMsg α) :
    sentFor C y shard (ds ++ [d]) = sentFor C y shard ds +
      if d.clientId = y then (sentTo shard (C.outputs d)).length else 0 := by
  rw [sentFor, ofClient_append_singleton, List.flatMap_append, sentTo,
    List.filter_append, List.map_append, List.length_append]
  by_cases hy : d.clientId = y <;> simp [hy, sentFor, sentTo]

/-- A new message was processed and counted. -/
theorem Reflects.onData (hC : Stateless C)
    (h : Reflects C arrivals s recorded aborted extra seqs rc)
    (hlive : d.clientId ∉ s.aborted) :
    Reflects C arrivals { s with msgs := s.msgs ++ [d] }
      (fun id => id = d.identity ∨ recorded id) aborted
      ((C.outputs d).foldl (fun e o => C.countSent d.clientId o.shard e) extra)
      (C.seqsAfter seqs (C.outputs d)) (rc.onData d.clientId).1 := by
  have hcounts := RingCompletion.counts_onData rc d.clientId
  have hab : rc.isAborted d.clientId = false := by
    rw [← Bool.not_eq_true, h.tombs]
    exact hlive
  have hrc : (rc.onData d.clientId).1 = rc.put d.clientId
      { rc.client d.clientId with
        received := (rc.client d.clientId).received + 1 } := by
    simp [RingCompletion.onData, hab]
  refine ⟨fun id => ?_, h.aborted, ?_, fun y => ?_, hcounts.forgotten h.forgotten,
    fun y ho => ?_, fun y ho shard => ?_, fun y he => ?_⟩
  · rw [h.seen]
    constructor
    · rintro (rfl | ⟨d', hd', hid⟩)
      · exact ⟨d, by simp, rfl⟩
      · exact ⟨d', List.mem_append_left _ hd', hid⟩
    · rintro ⟨d', hd', rfl⟩
      rcases List.mem_append.mp hd' with hold | hnew
      · exact Or.inr ⟨d', hold, rfl⟩
      · exact Or.inl (by rw [List.mem_singleton.mp hnew])
  · rw [h.seqs, Controller.seqsOf, Controller.seqsOf, List.flatMap_append,
      Controller.seqsAfter_append, List.flatMap_singleton]
  · rw [hrc, RingCompletion.isAborted_put]
    exact h.tombs y
  · have ho' := (hcounts.owed_iff y).mp ho
    rw [hrc, RingCompletion.client_put, ofClient_append_singleton,
      List.length_append, ← h.received y ho']
    by_cases hy : y = d.clientId
    · subst hy
      simp
    · rw [if_neg hy, if_neg fun heq => hy heq.symm]
      simp
  · have ho' := (hcounts.owed_iff y).mp ho
    simp only [hC.counts]
    rw [getD_foldl_add, sentFor_append_singleton, h.counts y ho' shard]
  · rw [RingCompletion.expected_onData] at he ⊢
    exact h.announced y he

/-- A client was aborted. -/
theorem Reflects.drop
    (h : Reflects C arrivals s recorded aborted extra seqs rc) (x : UUID) :
    Reflects C arrivals (Applied.next (.abort x) s) recorded (insert x aborted)
      (SentCounts.pop x extra).2 seqs (rc.drop x) := by
  have hclient : ∀ y, (rc.drop x).client y =
      if y = x then .new else rc.client y :=
    fun y => RingCompletion.client_drop rc x y
  have hab : ∀ y, (rc.drop x).isAborted y = true ↔
      y = x ∨ rc.isAborted y = true := fun y => by
    rw [RingCompletion.isAborted_drop, Bool.or_eq_true, decide_eq_true_eq]
  have howed : ∀ y, (rc.drop x).Owed y → y ≠ x ∧ rc.Owed y := by
    rintro y ⟨hphase, hlive⟩
    have hnot : ¬(y = x ∨ rc.isAborted y = true) := by
      rw [← hab]
      simpa using hlive
    rw [not_or] at hnot
    rw [hclient, if_neg hnot.1] at hphase
    exact ⟨hnot.1, hphase, by simpa using hnot.2⟩
  refine ⟨h.seen, ?_, h.seqs, fun y => ?_, fun y hy => ?_, fun y ho => ?_,
    fun y ho shard => ?_, fun y he => ?_⟩
  · rw [h.aborted]
    rfl
  · rw [hab, h.tombs]
    exact (Finset.mem_insert (s := s.aborted)).symm
  · rw [hclient]
    split
    · rfl
    · rename_i hne
      exact h.forgotten y (((hab y).mp hy).resolve_left hne)
  · obtain ⟨hne, ho'⟩ := howed y ho
    rw [hclient, if_neg hne]
    exact h.received y ho'
  · obtain ⟨hne, ho'⟩ := howed y ho
    rw [SentCounts.pop, Dict.getD_erase, if_neg hne]
    exact h.counts y ho' shard
  · rw [hclient] at he ⊢
    split at he
    · simp [Client.new] at he
    · rename_i hne
      rw [if_neg hne]
      exact h.announced y he

/-- A process that never read anything. -/
theorem Reflects.blank (C : Controller Unit F S SentCounts α β)
    (arrivals : Unit → ℕ → Option (Message α)) :
    Reflects C arrivals ⟨[], ∅⟩ Deduplicator.fresh.Recorded ∅ Dict.empty
      (fun _ => 0) .new := by
  refine ⟨fun id => ?_, rfl, rfl, fun y => ?_, fun y hy => rfl, fun y _ => rfl,
    fun y _ shard => ?_, fun y he => ?_⟩
  · simp
  · simp
  · simp [sentFor, sentTo, ofClient]
  · simp [Client.new] at he

/-- A client that is ready has all its messages applied. -/
theorem Reflects.complete (hqueue : CountedQueue arrivals)
    (h : Reflects C arrivals (read arrivals n) recorded aborted extra seqs rc)
    (hready : (rc.client x).ready = true) :
    Complete arrivals x (read arrivals n).msgs := by
  obtain ⟨-, hnonneg, hle⟩ := Client.ready_iff.mp hready
  obtain ⟨i, hmsg⟩ := h.announced x hnonneg
  obtain ⟨ids, hcard, hids⟩ := hqueue.counted i x _ hmsg
  rw [h.received x (h.owed_of_ready hready), hcard, Int.ofNat_le] at hle
  have hnodup : ((ofClient x (read arrivals n).msgs).map DataMsg.identity).Nodup :=
    (Applied.nodup_identities _ _).sublist (List.filter_sublist.map _)
  have hsub : ((ofClient x (read arrivals n).msgs).map DataMsg.identity).toFinset ⊆
      ids := by
    intro id hid
    obtain ⟨d, hd, rfl⟩ := List.mem_map.mp (List.mem_toFinset.mp hid)
    obtain ⟨hmem, hc⟩ := List.mem_filter.mp hd
    obtain ⟨j, -, hj⟩ := Applied.mem_arrivals hmem
    exact (hids _).mpr ⟨j, d, hj, by simpa using hc, rfl⟩
  have heq : ((ofClient x (read arrivals n).msgs).map DataMsg.identity).toFinset =
      ids := by
    refine Finset.eq_of_subset_of_card_le hsub ?_
    rw [List.toFinset_card_of_nodup hnodup, List.length_map]
    exact hle
  intro j d hd hc
  have hid : d.identity ∈ ids := (hids _).mpr ⟨j, d, hd, hc, rfl⟩
  rw [← heq, List.mem_toFinset, List.mem_map] at hid
  obtain ⟨d', hd', hid⟩ := hid
  exact ⟨d', (List.mem_filter.mp hd').1, hid⟩

end Reflects

/-! ## The invariant -/

/-- What a node without crashes has published after the first positions. -/
abbrev publishedBy (C : Controller Unit F S SentCounts α β)
    (arrivals : Unit → ℕ → Option (Message α)) (n : ℕ) : List (Event β) :=
  C.publishes (fun _ => 0) (read arrivals n).msgs

/-- Every published message is one that a node without crashes publishes, and
every report comes after all messages of its client and counts them. -/
structure Justified (C : Controller Unit F S SentCounts α β)
    (arrivals : Unit → ℕ → Option (Message α)) (log : List (Event β)) : Prop where
  published : ∀ shard id y pl, .data shard id y pl ∈ log →
    ∃ n, .data shard id y pl ∈ publishedBy C arrivals n
  reported : ∀ y sent, .reported y sent ∈ log →
    ∃ n, Complete arrivals y (read arrivals n).msgs ∧
      (∀ e ∈ publishedBy C arrivals n, e ∈ log) ∧
        ∀ shard, sent.getD shard 0 = sentFor C y shard (read arrivals n).msgs

/-- The checkpoint is that of a node without crashes. -/
def Stored (C : Controller Unit F S SentCounts α β)
    (arrivals : Unit → ℕ → Option (Message α)) (s : Applied α)
    (store : Option (Blob (NodeSnapshot S SentCounts))) : Prop :=
  match store with
  | none => s = ⟨[], ∅⟩
  | some b => Reflects C arrivals s b.Recorded b.aborted b.state.extra
      b.state.outSeq b.state.rc

/-- What a crash leaves: the checkpoint is the one after `k` positions. -/
structure Durable (C : Controller Unit F S SentCounts α β)
    (arrivals : Unit → ℕ → Option (Message α)) (k : ℕ)
    (m : Node Unit F S SentCounts β) : Prop where
  covered : (Applied.reader α).Covered (arrivals ()) (fun i => ((), i) ∈ m.acked) k
  stored : Stored C arrivals (read arrivals k) m.store
  logged : ∀ e ∈ publishedBy C arrivals k, e ∈ m.log
  justified : Justified C arrivals m.log

/-- What holds while a process runs: it saved the state after `k` positions and
has the one after `n`.  `p` is the identity of a message that is processed and
not recorded yet. -/
structure Live (C : Controller Unit F S SentCounts α β)
    (arrivals : Unit → ℕ → Option (Message α)) (p : ProducerId × ℕ → Prop)
    (k n : ℕ) (m : Node Unit F S SentCounts β) : Prop where
  cursor : Reader.Cursor (Applied.reader α) (arrivals ())
    (fun i => ((), i) ∈ m.acked) (fun i => ((), i) ∈ m.taken) k n
  stored : Stored C arrivals (read arrivals k) m.store
  memory : Reflects C arrivals (read arrivals n)
    (fun id => p id ∨ m.dedup.Recorded id) m.aborted m.state.extra m.state.seqs
    m.rc
  logged : ∀ e ∈ publishedBy C arrivals n, e ∈ m.log
  justified : Justified C arrivals m.log
  held : ∀ tag ∈ m.pendingAcks, tag.2 < n ∨
    (Applied.reader α).Idle (arrivals ()) tag.2
  clean : m.dirty = false → m.pendingAcks = []

/-- No message is in the middle of its processing. -/
abbrev Steady (C : Controller Unit F S SentCounts α β)
    (arrivals : Unit → ℕ → Option (Message α)) (k n : ℕ)
    (m : Node Unit F S SentCounts β) : Prop :=
  Live C arrivals (fun _ => False) k n m

/-- What every crash leaves. -/
def Recoverable (C : Controller Unit F S SentCounts α β)
    (arrivals : Unit → ℕ → Option (Message α)) (m : Node Unit F S SentCounts β) :
    Prop :=
  ∃ k, Durable C arrivals k m

section Logs

variable {log l : List (Event β)}

theorem publishedBy_mono (C : Controller Unit F S SentCounts α β) (h : k ≤ n) :
    publishedBy C arrivals k <+: publishedBy C arrivals n := by
  obtain ⟨ds, hds⟩ := Applied.msgs_prefix (arrivals ()) h
  rw [publishedBy, publishedBy, ← hds, Controller.publishes_append]
  exact List.prefix_append _ _

/-- Entries that are no reports, and messages that belong to some prefix. -/
theorem Justified.append (h : Justified C arrivals log)
    (hreports : ∀ y sent, .reported y sent ∉ l)
    (hdata : ∀ shard id y pl, .data shard id y pl ∈ l →
      ∃ n, .data shard id y pl ∈ publishedBy C arrivals n) :
    Justified C arrivals (l ++ log) where
  published shard id y pl he :=
    (List.mem_append.mp he).elim (hdata shard id y pl) (h.published shard id y pl)
  reported y sent he := by
    obtain ⟨n, hcomplete, hlogged, hsent⟩ := h.reported y sent
      ((List.mem_append.mp he).resolve_left (hreports y sent))
    exact ⟨n, hcomplete, fun e he => List.mem_append_right _ (hlogged e he), hsent⟩

theorem Justified.append_plain (h : Justified C arrivals log)
    (hplain : ∀ e ∈ l, e.Plain) : Justified C arrivals (l ++ log) :=
  h.append (fun y sent he => (hplain _ he).2 y sent rfl)
    fun shard id y pl he => absurd rfl ((hplain _ he).1 shard id y pl)

/-- The counts of a client were reported, after all of its messages. -/
theorem Justified.report (h : Justified C arrivals log) {sent : ShardCounts}
    (hcomplete : Complete arrivals x (read arrivals n).msgs)
    (hlogged : ∀ e ∈ publishedBy C arrivals n, e ∈ log)
    (hsent : ∀ shard, sent.getD shard 0 = sentFor C x shard (read arrivals n).msgs) :
    Justified C arrivals (.reported x sent :: log) where
  published shard id y pl he :=
    h.published shard id y pl ((List.mem_cons.mp he).resolve_left (by simp))
  reported y sent' he := by
    rcases List.mem_cons.mp he with heq | hold
    · cases heq
      exact ⟨n, hcomplete, fun e he => List.mem_cons_of_mem _ (hlogged e he), hsent⟩
    · obtain ⟨n', hcomplete', hlogged', hsent'⟩ := h.reported y sent' hold
      exact ⟨n', hcomplete', fun e he => List.mem_cons_of_mem _ (hlogged' e he),
        hsent'⟩

end Logs

variable {p : ProducerId × ℕ → Prop}

theorem Live.recoverable (h : Live C arrivals p k n m) : Recoverable C arrivals m :=
  ⟨k, h.cursor.covered, h.stored,
    fun e he => h.logged e ((publishedBy_mono C h.cursor.le).subset he), h.justified⟩

/-- Only acknowledgements, the checkpoint and the history matter to a crash. -/
theorem Recoverable.frame {m' : Node Unit F S SentCounts β}
    (h : Recoverable C arrivals m) (hacked : m'.acked = m.acked)
    (hstore : m'.store = m.store) (hlog : m'.log = m.log) :
    Recoverable C arrivals m' := by
  obtain ⟨k, hk⟩ := h
  refine ⟨k, ?_, ?_, ?_, ?_⟩
  · rw [hacked]
    exact hk.covered
  · rw [hstore]
    exact hk.stored
  · rw [hlog]
    exact hk.logged
  · rw [hlog]
    exact hk.justified

theorem Recoverable.append (h : Recoverable C arrivals m) {l : List (Event β)}
    (hjustified : Justified C arrivals (l ++ m.log)) (s : NodeState F SentCounts) :
    Recoverable C arrivals { m with state := s, log := l ++ m.log } := by
  obtain ⟨k, hk⟩ := h
  exact ⟨k, hk.covered, hk.stored,
    fun e he => List.mem_append_right _ (hk.logged e he), hjustified⟩

/-- A change of the providers and more history. -/
theorem Live.change (h : Live C arrivals p k n m) (s : NodeState F SentCounts)
    (hmemory : Reflects C arrivals (read arrivals n)
      (fun id => p id ∨ m.dedup.Recorded id) m.aborted s.extra s.seqs s.rc)
    {l : List (Event β)} (hjustified : Justified C arrivals (l ++ m.log)) :
    Live C arrivals p k n { m with state := s, log := l ++ m.log } where
  cursor := h.cursor
  stored := h.stored
  memory := hmemory
  logged e he := List.mem_append_right _ (h.logged e he)
  justified := hjustified
  held := h.held
  clean := h.clean

theorem Live.append (h : Live C arrivals p k n m) {l : List (Event β)}
    (hplain : ∀ e ∈ l, e.Plain) :
    Live C arrivals p k n { m with log := l ++ m.log } :=
  h.change m.state h.memory (h.justified.append_plain hplain)

theorem Live.ready_owed (h : Live C arrivals p k n m)
    (hready : (m.rc.client x).ready = true) : m.rc.Owed x :=
  h.memory.owed_of_ready hready

/-! ## Emissions -/

/-- Nothing is sent when a client is emitted. -/
theorem Live.emitting (h : Live C arrivals p k n m) (x : UUID) :
    Live C arrivals p k n (sending C x [] m) :=
  h.change (sending C x [] m).state h.memory
    (l := [.emitting x]) (h.justified.append_plain (by simp [Event.Plain]))

/-- A ready client is emitted and reported, and no other client is touched. -/
theorem Live.emitted (h : Live C arrivals p k n m) (hC : Stateless C)
    (hqueue : CountedQueue arrivals) (hready : (m.rc.client x).ready = true) :
    Live C arrivals p k n (RingNode.emitted C x m) := by
  have howed := h.ready_owed hready
  have hnone : resultOf C x m = [] := hC.silent x m.state.fn
  have hsent : countsOf C x m = m.state.extra.getD x Dict.empty := by
    rw [countsOf, hC.reports]
    rfl
  have hjustified : Justified C arrivals
      (.reported x (countsOf C x m) :: .emitting x :: m.log) := by
    refine (h.justified.append_plain (l := [.emitting x])
      (by simp [Event.Plain])).report (n := n) (h.memory.complete hqueue hready) ?_ ?_
    · exact fun e he => List.mem_cons_of_mem _ (h.logged e he)
    · intro shard
      rw [hsent]
      exact h.memory.counts x howed shard
  have hclosed := hjustified.append_plain (l := closings
    (m.rc.markEmitted x (countsOf C x m))
    (m.rc.reportSent C.self x (countsOf C x m)).2)
    fun e he => Event.plain_of_mem_closings he
  have hmemory := h.memory.reportSent C.self howed (countsOf C x m)
  have hlive := h.change (RingNode.emitted C x m).state (l := closings
      (m.rc.markEmitted x (countsOf C x m))
      (m.rc.reportSent C.self x (countsOf C x m)).2 ++
        [.reported x (countsOf C x m), .emitting x]) ?_ ?_
  · simpa [RingNode.emitted, hnone, Controller.stampAll] using hlive
  · simpa [RingNode.emitted, hnone, Controller.seqsAfter, hC.reports]
      using hmemory
  · simpa using hclosed

theorem spec_emit_live (hC : Stateless C) (hqueue : CountedQueue arrivals)
    (xs : List UUID) (hx : x ∉ xs) :
    Spec (fun m => Live C arrivals p k n m ∧
        ∀ y ∈ x :: xs, (m.rc.client y).ready = true)
      (emit C x)
      (fun _ m => Live C arrivals p k n m ∧ ∀ y ∈ xs, (m.rc.client y).ready = true)
      (Recoverable C arrivals) := by
  refine spec_emit x ?_ ?_ (fun m hm => hm.1.recoverable) ?_
  · intro m hm sent rest hsplit
    have hnil : sent = [] := by
      have hnone : resultOf C x m = [] := hC.silent x m.state.fn
      exact (List.append_eq_nil_iff.mp (hsplit.symm.trans hnone)).1
    rw [hnil]
    exact (hm.1.emitting x).recoverable
  · intro m hm
    refine ⟨hm.1.emitted hC hqueue (hm.2 x List.mem_cons_self), fun y hy => ?_⟩
    have hyx : y ≠ x := fun heq => hx (heq ▸ hy)
    have hothers := (RingCompletion.reportSent_frame C.self m.rc x
      (countsOf C x m)).1 y hyx
    change ((m.rc.reportSent C.self x (countsOf C x m)).1.client y).ready = true
    rw [hothers]
    exact hm.2 y (List.mem_cons_of_mem _ hy)
  · intro m e he hm
    exact ⟨hm.1.append (l := [e]) (by simpa using Event.plain_of_isBarrier he), hm.2⟩

theorem spec_runEmits_live (hC : Stateless C) (hqueue : CountedQueue arrivals)
    (xs : List UUID) (hnodup : xs.Nodup) :
    Spec (fun m => Live C arrivals p k n m ∧ ∀ y ∈ xs, (m.rc.client y).ready = true)
      (runEmits C xs) (fun _ => Live C arrivals p k n) (Recoverable C arrivals) := by
  induction xs with
  | nil => exact Spec.pure fun _ hm => hm.1
  | cons x xs ih =>
      rw [List.nodup_cons] at hnodup
      exact Spec.bind (spec_emit_live hC hqueue xs hnodup.1) fun _ => ih hnodup.2

/-! ## Checkpoints -/

theorem Live.checkpointed (h : Steady C arrivals k n m) :
    Stored C arrivals (read arrivals n) (m.checkpointed C.provider).store := by
  have hmemory := h.memory
  simp only [false_or] at hmemory
  refine ⟨fun id => ?_, hmemory.aborted, hmemory.seqs, hmemory.tombs,
    hmemory.forgotten, hmemory.received, hmemory.counts, hmemory.announced⟩
  rw [Blob.Recorded]
  rw [← hmemory.seen id]
  exact Deduplicator.recorded_restore_snapshot m.dedup id

/-- A flush saves the memory, or there was nothing to save. -/
theorem spec_flush_live (force : Bool) (P : RingCompletion → Prop) :
    Spec (fun m => Steady C arrivals k n m ∧ P m.rc)
      (Checkpointer.flush C.provider force : NodeProg Unit F S SentCounts β Unit)
      (fun _ m => ∃ k', (force = true → k' = n) ∧ Steady C arrivals k' n m ∧ P m.rc)
      (Recoverable C arrivals) := by
  refine Checkpointer.spec_checkpointAndFlush
    (R := fun m : Node Unit F S SentCounts β => (∃ k', (force = true → k' = n) ∧
      Reader.Cursor (Applied.reader α) (arrivals ()) (fun i => ((), i) ∈ m.acked)
        (fun i => ((), i) ∈ m.taken) k' n ∧
      Stored C arrivals (read arrivals k') m.store ∧
        (∀ tag ∈ m.pendingAcks, tag.2 < k' ∨
          (Applied.reader α).Idle (arrivals ()) tag.2)) ∧
      Reflects C arrivals (read arrivals n)
        (fun id => False ∨ m.dedup.Recorded id) m.aborted m.state.extra
          m.state.seqs m.rc ∧
      (∀ e ∈ publishedBy C arrivals n, e ∈ m.log) ∧
        Justified C arrivals m.log ∧ P m.rc) ?_ ?_ ?_ ?_
  · rintro m ⟨hm, hP⟩ -
    refine ⟨hm.recoverable, hm.recoverable.frame rfl rfl rfl, ?_, hm.memory,
      hm.logged, hm.justified, hP⟩
    exact ⟨n, fun _ => rfl, hm.cursor.checkpointed, hm.checkpointed, hm.held⟩
  · rintro m ⟨hm, hP⟩ hdirty hforce
    refine ⟨⟨k, by simp [hforce], hm.cursor, hm.stored, ?_⟩, hm.memory, hm.logged,
      hm.justified, hP⟩
    simp [hm.clean hdirty]
  · rintro m tags rest ⟨⟨k', -, hcursor, hstored, hheld⟩, -, hlogged, hjustified, -⟩
      hsplit
    have hacks := hcursor.acknowledge
      (A := fun i => ((), i) ∈ (m.ackAll tags).acked)
      (fun i hi => Finset.mem_union_left _ hi) fun i hi => by
        rcases Finset.mem_union.mp hi with hold | hnew
        · exact Or.inl hold
        · exact Or.inr (hheld ((), i) (by simp [hsplit, List.mem_toFinset.mp hnew]))
    refine ⟨k', hacks.covered, hstored, fun e he => ?_, hjustified⟩
    exact hlogged e ((publishedBy_mono C hcursor.le).subset he)
  · rintro m ⟨⟨k', hk', hcursor, hstored, hheld⟩, hmemory, hlogged, hjustified, hP⟩
    refine ⟨k', hk', ⟨?_, hstored, hmemory, hlogged, hjustified, by simp
      [Machine.released], fun _ => rfl⟩, hP⟩
    exact hcursor.acknowledge (fun i hi => Finset.mem_union_left _ hi) fun i hi => by
      rcases Finset.mem_union.mp hi with hold | hnew
      · exact Or.inl hold
      · exact Or.inr (hheld ((), i) (List.mem_toFinset.mp hnew))

/-- A copy that left no trace is acknowledged. -/
theorem Live.ack (h : Live C arrivals p k n m) {j : ℕ}
    (hsafe : j < k ∨ (Applied.reader α).Idle (arrivals ()) j) :
    Live C arrivals p k n (m.ackTag ((), j)) where
  cursor := h.cursor.acknowledge (fun i hi => Finset.mem_insert_of_mem hi)
    fun i hi => by
      rcases Finset.mem_insert.mp hi with heq | hold
      · obtain rfl : i = j := congrArg Prod.snd heq
        exact Or.inr hsafe
      · exact Or.inl hold
  stored := h.stored
  memory := h.memory
  logged := h.logged
  justified := h.justified
  held := h.held
  clean := h.clean

/-- A copy was handed over that changes nothing. -/
theorem Live.deliver_absorbed (h : Live C arrivals p k n m) {j : ℕ}
    {msg : Message α} (hmsg : arrivals () j = some msg) (hack : ((), j) ∉ m.acked)
    (htaken : ((), j) ∉ m.taken) (horder : InOrder arrivals ((), j) m)
    (hsame : Applied.next msg (read arrivals n) = read arrivals n) :
    Live C arrivals p k n (m.deliver ((), j)) ∧
      (j < k ∨ (Applied.reader α).Idle (arrivals ()) j) := by
  obtain ⟨hcursor, hsafe⟩ := h.cursor.absorb
    (T := fun i => ((), i) ∈ (m.deliver ((), j)).taken) hack htaken horder hmsg
    hsame fun i => by simp [Machine.deliver, or_comm]
  exact ⟨⟨hcursor, h.stored, h.memory, h.logged, h.justified, h.held, h.clean⟩, hsafe⟩

/-! ## Data messages -/

/-- The node after it processed a message and sent part of its outputs. -/
def feeding (C : Controller Unit F S SentCounts α β) (d : DataMsg α)
    (sent : List (Output β)) (m : Node Unit F S SentCounts β) :
    Node Unit F S SentCounts β :=
  { m with
    state := { m.state with
      fn := C.process () d m.state.fn
      extra := sent.foldl (fun e o => C.countSent d.clientId o.shard e) m.state.extra
      seqs := C.seqsAfter m.state.seqs sent }
    log := (C.stampAll d.clientId m.state.seqs sent).reverse ++ m.log }

theorem feeding_concat (sent : List (Output β)) (o : Output β) :
    (published C d.clientId o (feeding C d sent m)).withState
        (fun s => { s with extra := C.countSent d.clientId o.shard s.extra }) =
      feeding C d (sent ++ [o]) m := by
  rw [published_eq]
  simp only [feeding, Node.withState, Machine.logged, Controller.stampAll_append,
    Controller.stampAll, List.reverse_append, List.reverse_cons, List.reverse_nil,
    List.nil_append, List.cons_append, Controller.seqsAfter, List.foldl_append,
    List.foldl_cons, List.foldl_nil]

/-- The new message `d` at position `j` was handed over. -/
structure Arrived (C : Controller Unit F S SentCounts α β)
    (arrivals : Unit → ℕ → Option (Message α)) (d : DataMsg α) (k n j : ℕ)
    (m : Node Unit F S SentCounts β) : Prop where
  cursor : Reader.Cursor (Applied.reader α) (arrivals ())
    (fun i => ((), i) ∈ m.acked) (fun i => ((), i) ∈ m.taken) k (j + 1)
  stored : Stored C arrivals (read arrivals k) m.store
  memory : Reflects C arrivals (read arrivals n) m.dedup.Recorded m.aborted
    m.state.extra m.state.seqs m.rc
  le : k ≤ n
  before : n ≤ j
  next : read arrivals (j + 1) =
    { read arrivals n with msgs := (read arrivals n).msgs ++ [d] }
  live : d.clientId ∉ (read arrivals n).aborted
  logged : ∀ e ∈ publishedBy C arrivals n, e ∈ m.log
  justified : Justified C arrivals m.log
  held : ∀ tag ∈ m.pendingAcks, tag.2 < n ∨
    (Applied.reader α).Idle (arrivals ()) tag.2
  clean : m.dirty = false → m.pendingAcks = []

variable {j : ℕ}

/-- What the message makes the node publish. -/
theorem Arrived.published_succ (h : Arrived C arrivals d k n j m) :
    publishedBy C arrivals (j + 1) = publishedBy C arrivals n ++
      C.stampAll d.clientId m.state.seqs (C.outputs d) := by
  rw [publishedBy, h.next, Controller.publishes_append, h.memory.seqs]
  simp [Controller.publishes]

theorem Arrived.justified_feeding (h : Arrived C arrivals d k n j m)
    {sent rest : List (Output β)} (hsplit : C.outputs d = sent ++ rest) :
    Justified C arrivals ((C.stampAll d.clientId m.state.seqs sent).reverse ++ m.log) := by
  refine h.justified.append (fun y counts he => ?_) fun shard id y pl he => ?_
  · obtain ⟨shard, id, pl, heq⟩ :=
      Controller.eq_data_of_mem_stampAll (List.mem_reverse.mp he)
    cases heq
  · refine ⟨j + 1, ?_⟩
    rw [h.published_succ, hsplit, Controller.stampAll_append]
    exact List.mem_append_right _
      (List.mem_append_left _ (List.mem_reverse.mp he))

/-- Wherever the outputs are cut, the history agrees with the checkpoint. -/
theorem Arrived.recoverable_feeding (h : Arrived C arrivals d k n j m)
    {sent rest : List (Output β)} (hsplit : C.outputs d = sent ++ rest) :
    Recoverable C arrivals (feeding C d sent m) := by
  have hm : Recoverable C arrivals m :=
    ⟨k, h.cursor.covered, h.stored,
      fun e he => h.logged e ((publishedBy_mono C h.le).subset he), h.justified⟩
  exact hm.append (h.justified_feeding hsplit) (feeding C d sent m).state

/-- The message was processed and counted. -/
theorem Arrived.live_counted (h : Arrived C arrivals d k n j m) (hC : Stateless C) :
    Live C arrivals (fun id => id = d.identity) k (j + 1)
      (onRing (fun rc => rc.onData d.clientId)
        (feeding C d (C.outputs d) m)).2 where
  cursor := h.cursor
  stored := h.stored
  memory := by
    rw [h.next]
    exact h.memory.onData hC h.live
  logged e he := by
    rw [h.published_succ] at he
    rcases List.mem_append.mp he with hold | hnew
    · exact List.mem_append_right _ (h.logged e hold)
    · exact List.mem_append_left _ (List.mem_reverse.mpr hnew)
  justified := h.justified_feeding (List.append_nil _).symm
  held tag htag :=
    (h.held tag htag).imp_left fun hlt =>
      hlt.trans (Nat.lt_succ_of_le h.before)
  clean := h.clean

theorem spec_onData_live (hC : Stateless C) (hqueue : CountedQueue arrivals) :
    Spec (Arrived C arrivals d k n j) (onData C () d)
      (fun _ => Live C arrivals (fun id => id = d.identity) k (j + 1))
      (Recoverable C arrivals) := by
  refine Spec.bind (Q := fun _ t => ∃ m, Arrived C arrivals d k n j m ∧
    t = feeding C d [] m) (Spec.modify fun m hm => ⟨m, hm, rfl⟩) fun _ => ?_
  refine Spec.bind (Q := fun _ t => ∃ m, Arrived C arrivals d k n j m ∧
    t = feeding C d (C.outputs d) m) ?_ fun _ => ?_
  · refine Spec.forEach (I := fun sent t => ∃ m, Arrived C arrivals d k n j m ∧
      t = feeding C d sent m) (C.outputs d) ?_
    intro sent o rest hsplit
    refine Spec.bind (Q := fun _ t => ∃ m, Arrived C arrivals d k n j m ∧
      t = published C d.clientId o (feeding C d sent m)) (Spec.change ?_ ?_)
      fun _ => Spec.modify ?_
    · rintro _ ⟨m, hm, rfl⟩
      exact hm.recoverable_feeding hsplit
    · rintro _ ⟨m, hm, rfl⟩
      exact ⟨m, hm, rfl⟩
    · rintro _ ⟨m, hm, rfl⟩
      exact ⟨m, hm, feeding_concat sent o⟩
  refine Spec.bind (Q := fun emits m => emits.Nodup ∧
    (Live C arrivals (fun id => id = d.identity) k (j + 1) m ∧
      ∀ y ∈ emits, (m.rc.client y).ready = true)) (Spec.compute ?_)
    fun emits => Spec.of_pre fun hnodup => spec_runEmits_live hC hqueue emits hnodup
  rintro _ ⟨m, hm, rfl⟩
  obtain ⟨hnodup, hready⟩ := (RingCompletion.counts_onData m.rc d.clientId).emits
  exact ⟨hnodup, hm.live_counted hC, fun y hy => (hready y hy).2⟩

/-- The message was recorded, and its acknowledgement is held back. -/
theorem Live.recorded (h : Live C arrivals (fun id => id = d.identity) k (j + 1) m)
    (hseq : 1 ≤ d.seq) :
    Steady C arrivals k (j + 1) (m.recorded ((), j) d) where
  cursor := h.cursor
  stored := h.stored
  memory := by
    have hids : (fun id => False ∨ (m.recorded ((), j) d).dedup.Recorded id) =
        fun id => id = d.identity ∨ m.dedup.Recorded id := by
      funext id
      rw [false_or]
      exact propext (Deduplicator.recorded_record (by omega) id)
    have hmemory := h.memory
    rw [← hids] at hmemory
    exact hmemory
  logged := h.logged
  justified := h.justified
  held tag htag := by
    rcases List.mem_append.mp htag with hold | hnew
    · exact h.held tag hold
    · rw [List.mem_singleton.mp hnew]
      exact Or.inl (Nat.lt_succ_self j)
  clean hdirty := by simp [Machine.recorded] at hdirty

/-- A new message was handed over. -/
theorem Live.deliver_new (h : Steady C arrivals k n m)
    (hmsg : arrivals () j = some (.data d)) (hack : ((), j) ∉ m.acked)
    (htaken : ((), j) ∉ m.taken) (horder : InOrder arrivals ((), j) m)
    (hab : d.clientId ∉ m.aborted) (hdup : ¬m.dedup.Recorded d.identity) :
    Arrived C arrivals d k n j (m.deliver ((), j)) := by
  have hmemory := h.memory
  simp only [false_or] at hmemory
  have hnew : ¬(read arrivals n).Knows d := by
    rintro (hmem | hseen)
    · exact hab (hmemory.aborted ▸ hmem)
    · exact hdup ((hmemory.seen _).mpr hseen)
  have hnext : Applied.next (.data d) (read arrivals n) =
      { read arrivals n with msgs := (read arrivals n).msgs ++ [d] } := by
    simp only [Applied.next, if_neg hnew]
  obtain ⟨hbefore, hafter, hcursor⟩ := h.cursor.read
    (T := fun i => ((), i) ∈ (m.deliver ((), j)).taken) hack htaken horder hmsg
    (fun hsame => hnew (Applied.knows_of_next hsame))
    fun i => by simp [Machine.deliver, or_comm]
  exact ⟨hcursor, h.stored, hmemory, h.cursor.le, hbefore, hafter.trans hnext,
    fun hmem => hab (hmemory.aborted ▸ hmem), h.logged, h.justified, h.held, h.clean⟩

/-! ## Handlers -/

/-- A flush in the middle of a run keeps what holds. -/
theorem spec_flush_steady (force : Bool) :
    Spec (fun m => ∃ k n, Steady C arrivals k n m)
      (Checkpointer.flush C.provider force : NodeProg Unit F S SentCounts β Unit)
      (fun _ m => ∃ k n, Steady C arrivals k n m) (Recoverable C arrivals) := by
  refine Spec.of_exists fun k => Spec.of_exists fun n => ?_
  refine (spec_flush_live force fun _ => True).conseq
    (fun m hm => ⟨hm, trivial⟩) ?_ fun _ hm => hm
  rintro - m ⟨k', -, hm, -⟩
  exact ⟨k', n, hm⟩

theorem spec_free_live (hC : Stateless C) (xs : List UUID) :
    Spec (fun m => ∃ k n, Steady C arrivals k n m) (Prog.forEach xs (free C))
      (fun _ m => ∃ k n, Steady C arrivals k n m) (Recoverable C arrivals) := by
  refine Spec.forEach (I := fun _ m => ∃ k n, Steady C arrivals k n m) xs
    fun _ y _ _ => Spec.change ?_ ?_
  · rintro m ⟨k, n, hm⟩
    exact hm.recoverable
  · rintro m ⟨k, n, hm⟩
    refine ⟨k, n, hm.change { m.state with
      fn := (C.free y m.state.fn m.state.extra).1
      extra := (C.free y m.state.fn m.state.extra).2 } ?_ (l := [.freed y])
      (hm.justified.append_plain (by simp [Event.Plain]))⟩
    rw [hC.frees]
    exact hm.memory

theorem noteEof_eq (hC : Stateless C) (e : ℤ) :
    noteEof C () x e m = onRing (fun rc => rc.onUpstreamEof x e) m := by
  have hnoted := hC.notes x e m.state.extra
  rw [noteEof_some (by rw [hnoted])]
  simp only [hnoted]
  rfl

theorem spec_onEof_live (hC : Stateless C) (hqueue : CountedQueue arrivals) {e : ℤ}
    (hmsg : arrivals () j = some (.eof x e)) :
    Spec (fun m => ∃ k n, Steady C arrivals k n m) (onEof C () x e)
      (fun _ m => ∃ k n, Steady C arrivals k n m) (Recoverable C arrivals) := by
  refine Spec.bind (Q := fun emits m => emits.Nodup ∧ ∃ k n,
    Steady C arrivals k n m ∧ ∀ y ∈ emits, (m.rc.client y).ready = true)
    (Spec.compute ?_) fun emits => Spec.of_pre fun hnodup => ?_
  · rintro m ⟨k, n, hm⟩
    rw [noteEof_eq hC]
    obtain ⟨hnodup, hready⟩ := (RingCompletion.counts_onUpstreamEof m.rc x e).emits
    exact ⟨hnodup, k, n, hm.change _ (hm.memory.onUpstreamEof hmsg) (l := [])
      hm.justified, fun y hy => (hready y hy).2⟩
  refine Spec.bind (Q := fun _ m => ∃ k n, Steady C arrivals k n m ∧
    ∀ y ∈ emits, (m.rc.client y).ready = true)
    (Spec.when (fun _ => ?_) fun _ _ hm => hm) fun _ => ?_
  · refine Spec.of_exists fun k => Spec.of_exists fun n => ?_
    refine (spec_flush_live true
      fun rc => ∀ y ∈ emits, (rc.client y).ready = true).post ?_
    rintro - m ⟨k', -, hm⟩
    exact ⟨k', n, hm⟩
  refine Spec.bind (Q := fun _ m => ∃ k n, Steady C arrivals k n m) ?_ fun _ => ?_
  · refine Spec.of_exists fun k => Spec.of_exists fun n => ?_
    exact (spec_runEmits_live hC hqueue emits hnodup).post
      fun _ m hm => ⟨k, n, hm⟩
  exact Spec.bind (spec_flush_steady true) fun _ => spec_free_live hC emits

theorem spec_onRingMsg_live (t : BarrierToken) :
    Spec (fun m => ∃ k n, Steady C arrivals k n m) (onRingMsg C t)
      (fun _ m => ∃ k n, Steady C arrivals k n m) (Recoverable C arrivals) := by
  refine Spec.bind (Q := fun _ m => ∃ k n, Steady C arrivals k n m)
    (Spec.compute ?_) fun actions => ?_
  · rintro m ⟨k, n, hm⟩
    rw [receiveToken_eq]
    exact ⟨k, n, hm.change { m.state with rc := (m.rc.onToken C.self t).1 }
      (hm.memory.onToken C.self t)
      (hm.justified.append_plain fun e he => Event.plain_of_mem_closings he)⟩
  refine Spec.bind (spec_runBarrier actions ?_ ?_) fun _ => spec_flush_steady true
  · rintro m ⟨k, n, hm⟩
    exact hm.recoverable
  · rintro m e he ⟨k, n, hm⟩
    exact ⟨k, n, hm.append (l := [e]) (by simpa using Event.plain_of_isBarrier he)⟩

/-- The abort of a client moves the process past it, or is absorbed. -/
theorem Live.aborts (h : Steady C arrivals k n m)
    (hmsg : arrivals () j = some (.abort x)) (hack : ((), j) ∉ m.acked)
    (htaken : ((), j) ∉ m.taken) (horder : InOrder arrivals ((), j) m)
    (s : NodeState F SentCounts) (hseqs : s.seqs = m.state.seqs)
    (hextra : s.extra = (SentCounts.pop x m.state.extra).2)
    (hrc : s.rc = m.rc.drop x) :
    ∃ n', (j < n' ∨ (Applied.reader α).Idle (arrivals ()) j) ∧
      Steady C arrivals k n' { m.deliver ((), j) with
        state := s, aborted := insert x m.aborted, dirty := true } := by
  have hnew : ∀ i, ((), i) ∈ (m.deliver ((), j)).taken ↔ ((), i) ∈ m.taken ∨ i = j :=
    fun i => by simp [Machine.deliver, or_comm]
  have hmemory : Reflects C arrivals (Applied.next (.abort x) (read arrivals n))
      (fun id => False ∨ m.dedup.Recorded id) (insert x m.aborted) s.extra s.seqs
      s.rc := by
    rw [hseqs, hextra, hrc]
    exact h.memory.drop x
  have hpublished : ∀ n', read arrivals n' =
      Applied.next (.abort x) (read arrivals n) →
        publishedBy C arrivals n' = publishedBy C arrivals n := by
    intro n' heq
    rw [publishedBy, heq]
    rfl
  by_cases hsame : Applied.next (.abort x) (read arrivals n) = read arrivals n
  · obtain ⟨hcursor, hsafe⟩ := h.cursor.absorb
      (T := fun i => ((), i) ∈ (m.deliver ((), j)).taken) hack htaken horder hmsg
      hsame hnew
    refine ⟨n, hsafe.imp_left fun hlt => lt_of_lt_of_le hlt h.cursor.le, hcursor,
      h.stored, ?_, h.logged, h.justified, h.held, fun hdirty => by cases hdirty⟩
    rw [← hsame]
    exact hmemory
  · obtain ⟨hbefore, hafter, hcursor⟩ := h.cursor.read
      (T := fun i => ((), i) ∈ (m.deliver ((), j)).taken) hack htaken horder hmsg
      hsame hnew
    refine ⟨j + 1, Or.inl (Nat.lt_succ_self j), hcursor, h.stored, ?_, ?_,
      h.justified, fun tag htag => ?_, fun hdirty => by cases hdirty⟩
    · rw [read, hafter]
      exact hmemory
    · rw [hpublished _ hafter]
      exact h.logged
    · exact (h.held tag htag).imp_left fun hlt =>
        hlt.trans (Nat.lt_succ_of_le hbefore)

theorem spec_onAbort_live (hC : Stateless C)
    (hmsg : arrivals () j = some (.abort x)) :
    Spec (fun t => ∃ m, (∃ k n, Steady C arrivals k n m) ∧ ((), j) ∉ m.acked ∧
        ((), j) ∉ m.taken ∧ InOrder arrivals ((), j) m ∧ t = m.deliver ((), j))
      (do onAbort C x; Checkpointer.ack ((), j))
      (fun _ m => ∃ k n, Steady C arrivals k n m) (Recoverable C arrivals) := by
  refine Spec.bind (Q := fun _ m => ∃ n, (j < n ∨
    (Applied.reader α).Idle (arrivals ()) j) ∧ Steady C arrivals n n m) ?_ fun _ => ?_
  · refine Spec.bind (Q := fun _ t => ∃ m, ((∃ k n, Steady C arrivals k n m) ∧
      ((), j) ∉ m.acked ∧ ((), j) ∉ m.taken ∧ InOrder arrivals ((), j) m) ∧
        t = Node.withState (fun s => { s with rc := s.rc.drop x })
          (m.deliver ((), j)))
      (Spec.modify ?_) fun _ => ?_
    · rintro _ ⟨m, hm, hack, htaken, horder, rfl⟩
      exact ⟨m, ⟨hm, hack, htaken, horder⟩, rfl⟩
    refine Spec.bind (Q := fun _ t => ∃ m, ((∃ k n, Steady C arrivals k n m) ∧
      ((), j) ∉ m.acked ∧ ((), j) ∉ m.taken ∧ InOrder arrivals ((), j) m) ∧
        ∃ s : NodeState F SentCounts, s.seqs = m.state.seqs ∧
          s.extra = (SentCounts.pop x m.state.extra).2 ∧ s.rc = m.rc.drop x ∧
            t = { m.deliver ((), j) with state := s })
      (Spec.change ?_ ?_) fun _ => ?_
    · rintro _ ⟨m, ⟨⟨k, n, hm⟩, -⟩, rfl⟩
      exact hm.recoverable.frame rfl rfl rfl
    · rintro _ ⟨m, hm, rfl⟩
      exact ⟨m, hm, ⟨(C.discard x m.state.fn m.state.extra).1,
        (C.discard x m.state.fn m.state.extra).2, m.state.seqs, m.rc.drop x⟩, rfl,
        hC.discards x _ _, rfl, rfl⟩
    refine Spec.bind (Q := fun _ m => ∃ n, (j < n ∨
      (Applied.reader α).Idle (arrivals ()) j) ∧ ∃ k, Steady C arrivals k n m)
      (Spec.modify ?_) fun _ => ?_
    · rintro _ ⟨m, ⟨⟨k, n, hm⟩, hack, htaken, horder⟩, s, hseqs, hextra, hrc, rfl⟩
      obtain ⟨n', hsafe, hlive⟩ :=
        hm.aborts hmsg hack htaken horder s hseqs hextra hrc
      exact ⟨n', hsafe, k, hlive⟩
    refine Spec.of_exists fun n => Spec.of_pre fun hsafe => Spec.of_exists fun k => ?_
    refine Spec.bind (Q := fun _ => Steady C arrivals n n)
      ((spec_flush_live true fun _ => True).conseq (fun m hm => ⟨hm, trivial⟩) ?_
        fun _ hm => hm) fun _ => ?_
    · rintro - m ⟨k', hk', hm, -⟩
      rwa [hk' rfl] at hm
    refine (Spec.forEach (I := fun _ => Steady C arrivals n n) _
      fun _ shard _ _ => Spec.change (fun m hm => hm.recoverable)
        fun m hm => ?_).post fun _ m hm => ⟨n, hsafe, hm⟩
    exact hm.append (l := [.abort shard x]) (by simp [Event.Plain])
  · refine Checkpointer.spec_ack ?_ ?_
    · rintro m ⟨n, -, hm⟩
      exact hm.recoverable
    · rintro m ⟨n, hsafe, hm⟩
      exact ⟨n, n, hm.ack hsafe⟩

/-- One copy is handed over in order and handled. -/
theorem spec_onDataMsg_live (hC : Stateless C) (hqueue : CountedQueue arrivals)
    {msg : Message α} (hmsg : arrivals () j = some msg) :
    Spec (fun t => ∃ m, (∃ k n, Steady C arrivals k n m) ∧ ((), j) ∉ m.acked ∧
        ((), j) ∉ m.taken ∧ InOrder arrivals ((), j) m ∧ t = m.deliver ((), j))
      (onDataMsg C ((), j) msg) (fun _ m => ∃ k n, Steady C arrivals k n m)
      (Recoverable C arrivals) := by
  refine Checkpointer.spec_dispatch ?_ ?_ ?_
  · rintro y e rfl
    have hidle : (Applied.reader α).Idle (arrivals ()) j :=
      (Reader.idle_iff hmsg).mpr rfl
    refine Spec.bind ((spec_flush_steady false).pre ?_) fun _ => ?_
    · rintro _ ⟨m, ⟨k, n, hm⟩, hack, htaken, horder, rfl⟩
      exact ⟨k, n, (hm.deliver_absorbed hmsg hack htaken horder rfl).1⟩
    refine Spec.bind (spec_onEof_live hC hqueue hmsg) fun _ => ?_
    refine Checkpointer.spec_ack ?_ ?_
    · rintro m ⟨k, n, hm⟩
      exact hm.recoverable
    · rintro m ⟨k, n, hm⟩
      exact ⟨k, n, hm.ack (Or.inr hidle)⟩
  · rintro y rfl
    exact spec_onAbort_live hC hmsg
  · rintro d rfl
    refine Checkpointer.spec_handleData
      (R := fun m => ∃ k n, Steady C arrivals k n m) ?_ ?_ ?_ ?_ fun _ hm _ => hm
    · rintro _ ⟨m, ⟨k, n, hm⟩, hack, htaken, horder, rfl⟩ hab
      have hknown : (read arrivals n).Knows d := Or.inl (hm.memory.aborted ▸ hab)
      obtain ⟨hlive, hsafe⟩ := hm.deliver_absorbed hmsg hack htaken horder
        (Applied.next_of_knows hknown)
      exact ⟨hlive.recoverable, k, n, hlive.ack hsafe⟩
    · rintro _ ⟨m, ⟨k, n, hm⟩, hack, htaken, horder, rfl⟩ - hdup
      have hknown : (read arrivals n).Knows d :=
        Or.inr ((hm.memory.seen _).mp (Or.inr hdup))
      obtain ⟨hlive, hsafe⟩ := hm.deliver_absorbed hmsg hack htaken horder
        (Applied.next_of_knows hknown)
      exact ⟨hlive.recoverable, k, n, hlive.ack hsafe⟩
    · refine Spec.pre (P := fun m => ∃ k n, Arrived C arrivals d k n j m) ?_ ?_
      · refine Spec.of_exists fun k => Spec.of_exists fun n => ?_
        refine (spec_onData_live hC hqueue).post fun _ m hm => ⟨k, j + 1, ?_⟩
        exact hm.recorded (hqueue.seq j d hmsg)
      · rintro _ ⟨⟨m, ⟨k, n, hm⟩, hack, htaken, horder, rfl⟩, hab, hdup⟩
        exact ⟨k, n, hm.deliver_new hmsg hack htaken horder hab hdup⟩
    · exact (spec_flush_steady false).pre fun m hm => hm.1

theorem spec_start_live (hC : Stateless C) (hqueue : CountedQueue arrivals) :
    Spec (fun m => Recoverable C arrivals m ∧ Blank C m) (start C)
      (fun _ m => ∃ k n, Steady C arrivals k n m) (Recoverable C arrivals) := by
  refine Spec.bind (Q := fun _ m => Recoverable C arrivals m ∧ Blank C m)
    (Spec.modify ?_) fun _ => ?_
  · rintro m ⟨⟨k, hk⟩, hblank⟩
    refine ⟨Recoverable.append ⟨k, hk⟩ (l := [.restarted])
      (hk.justified.append_plain (by simp [Event.Plain])) m.state, hblank.logged _⟩
  refine Spec.bind (Q := fun _ m => ∃ k n, Steady C arrivals k n m)
    (Checkpointer.spec_restore (fun m hm => hm.1) ?_ ?_) fun restored => ?_
  · rintro m ⟨⟨k, hk⟩, hblank⟩ hnone
    have hstored : read arrivals k = ⟨[], ∅⟩ := by
      have hs := hk.stored
      rwa [hnone] at hs
    refine ⟨k, k, hk.covered.restarted (by simp [hblank.taken]), hk.stored, ?_,
      hk.logged, hk.justified, by simp [hblank.pendingAcks],
      fun _ => hblank.pendingAcks⟩
    have hmemory := Reflects.blank C arrivals
    rw [hstored]
    simp only [false_or]
    rw [hblank.dedup, hblank.aborted]
    have hextra : m.state.extra = Dict.empty := hblank.extra.trans hC.starts
    have hseqs : m.state.seqs = fun _ => 0 := hblank.seqs
    have hrc : m.state.rc = .new := hblank.rc
    change Reflects C arrivals _ _ _ m.state.extra m.state.seqs m.state.rc
    rw [hextra, hseqs, hrc]
    exact hmemory
  · rintro m b ⟨⟨k, hk⟩, hblank⟩ hstore
    refine ⟨k, k, hk.covered.restarted (by simp [Machine.restored, hblank.taken]),
      hk.stored, ?_, hk.logged, hk.justified,
      by simp [Machine.restored, hblank.pendingAcks], fun _ => hblank.pendingAcks⟩
    have hs := hk.stored
    rw [hstore] at hs
    simp only [false_or]
    exact hs
  refine Spec.bind (Q := fun _ m => ∃ k n, Steady C arrivals k n m)
    (Spec.when (fun _ => ?_) fun _ _ hm => hm) fun _ => Spec.modify ?_
  · refine Spec.read_bind fun m => ?_
    refine Spec.bind (Q := fun _ m => ∃ k n, Steady C arrivals k n m) ?_ fun _ => ?_
    · refine Spec.pre (P := fun t => ∃ k n, Steady C arrivals k n t ∧
        ∀ y ∈ m.rc.recheck, (t.rc.client y).ready = true) ?_ ?_
      · refine Spec.of_exists fun k => Spec.of_exists fun n => ?_
        exact (spec_runEmits_live hC hqueue m.rc.recheck
          (RingCompletion.nodup_recheck m.rc)).post fun _ t ht => ⟨k, n, ht⟩
      · rintro _ ⟨rfl, k, n, hm⟩
        exact ⟨k, n, hm, fun y hy => RingCompletion.mem_recheck.mp hy⟩
    refine Spec.read_bind fun m' => ?_
    exact Spec.bind ((spec_free_live hC _).pre fun m hm => hm.2)
      fun _ => spec_flush_steady true
  · rintro m ⟨k, n, hm⟩
    exact ⟨k, n, hm.cursor, hm.stored, hm.memory, hm.logged, hm.justified, hm.held,
      hm.clean⟩

/-! ## Runs -/

/-- What holds between two calls, and what a crash leaves. -/
abbrev Inv (C : Controller Unit F S SentCounts α β)
    (arrivals : Unit → ℕ → Option (Message α)) :
    Node Unit F S SentCounts β → Prop :=
  NodeInv C (fun m => ∃ k n, Steady C arrivals k n m) (Recoverable C arrivals)

theorem spec_call_live (hC : Stateless C) (hqueue : CountedQueue arrivals)
    (call : Call Unit) :
    Spec (fun m => Inv C arrivals m ∧ Enabled arrivals true call m)
      (handler C arrivals call) (fun _ m => ∃ k n, Steady C arrivals k n m)
      (Recoverable C arrivals) := by
  cases call with
  | start =>
      exact (spec_start_live hC hqueue).pre fun m hm => hm.1.stored hm.2
  | token t =>
      exact (spec_onRingMsg_live t).pre fun m hm => hm.1.live hm.2
  | deliver tag =>
      obtain ⟨⟨⟩, j⟩ := tag
      change Spec _ (receive C ((), j) (arrivals () j)) _ _
      cases hmsg : arrivals () j with
      | none =>
          refine Spec.pure fun m hm => ?_
          have hsome := hm.2.2.1
          simp [hmsg] at hsome
      | some msg =>
          refine Spec.bind (Spec.modify ?_) fun _ => spec_onDataMsg_live hC hqueue hmsg
          rintro m ⟨hm, hup, -, hack, htaken, horder⟩
          exact ⟨m, hm.live hup, hack, htaken, horder rfl, rfl⟩

theorem inv_reach (hC : Stateless C) (hqueue : CountedQueue arrivals)
    {crashable : Node Unit F S SentCounts β → Prop} {f₀ : F}
    (h : (system C arrivals true crashable).Reach
      (Machine.initial (C.fresh f₀)) m) : Inv C arrivals m := by
  have hreboot : ∀ (m : Node Unit F S SentCounts β) r, Recoverable C arrivals m →
      Recoverable C arrivals (m.reboot C.provider r) :=
    fun m r hm => hm.frame rfl rfl rfl
  refine nodeInv_reach ⟨0, ?_, rfl, ?_, ?_, ?_⟩ (fun call => ?_) ?_ h
  · intro i _ hack
    simp [Machine.initial] at hack
  · intro e he
    exact absurd he List.not_mem_nil
  · simp [Machine.initial]
  · simp [Machine.initial]
  · exact (spec_call_live hC hqueue call).conseq (fun _ hm => hm)
      (fun _ _ hm => hm) fun m hm _ r => hreboot m r hm
  · rintro m (⟨k, n, hm⟩ | hm) - r
    · exact hreboot m r hm.recoverable
    · exact hreboot m r hm

/-- In every state a node passes through, its history is that of a node without
crashes. -/
theorem justified_visits (hC : Stateless C) (hqueue : CountedQueue arrivals)
    {crashable : Node Unit F S SentCounts β → Prop} {f₀ : F}
    (h : (system C arrivals true crashable).Visits
      (Machine.initial (C.fresh f₀)) m) : Justified C arrivals m.log := by
  have hrec : Recoverable C arrivals m := by
    refine node_visits (fun m hm => inv_reach hC hqueue hm) ?_ (fun m hm => hm)
      (fun call => (spec_call_live hC hqueue call).post fun _ _ _ => trivial) h
    rintro m ⟨k, n, hm⟩
    exact hm.recoverable
  obtain ⟨k, hk⟩ := hrec
  exact hk.justified

end StatelessReplay
