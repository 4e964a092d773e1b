import MoneyLaundering.Ring.Emission
import MoneyLaundering.Ring.Runs

/-!
# Deliveries of ordered queues

When every input queue hands over its messages in order and the end-of-file of a
client is the last message of that client, a node that knows the count to wait
for has seen every message of the client.  So no data message ever completes a
client, whatever the crashes and redeliveries before it.
-/

open Crash

/-! ## Messages that leave no further effect -/

namespace Machine

variable {C S τ ω α : Type}

/-- A further copy of the message would be dropped. -/
def Knows (m : Machine C S τ ω) (d : DataMsg α) : Prop :=
  m.dedup.Recorded d.identity ∨ d.clientId ∈ m.aborted

/-- A process that restores the checkpoint would drop a copy of the message. -/
def StoreKnows (m : Machine C S τ ω) (d : DataMsg α) : Prop :=
  ∃ b, m.store = some b ∧ (b.Recorded d.identity ∨ d.clientId ∈ b.aborted)

theorem storeKnows_checkpointed {K : Snapshotable C S} {m : Machine C S τ ω}
    {d : DataMsg α} : (m.checkpointed K).StoreKnows d ↔ m.Knows d := by
  simp [StoreKnows, Knows, checkpointed, saved, snapshotted, Blob.Recorded]

end Machine

namespace Node

variable {Q F S E α β : Type}

/-- The extra provider of the last checkpoint. -/
def storedExtra (C : Controller Q F S E α β) (m : Node Q F S E β) : E :=
  match m.store with
  | none => C.extra₀
  | some b => b.state.extra

end Node

/-- The queues whose end-of-file the extra provider remembers: a count is
complete only when every other queue has announced its own. -/
structure TracksEofs {Q F S E α β : Type} (C : Controller Q F S E α β)
    (tracks : E → Q → UUID → Prop) : Prop where
  none : ∀ q x, ¬tracks C.extra₀ q x
  noted : ∀ q x k e q' x', tracks (C.noteEof q x k e).2 q' x' →
    tracks e q' x' ∨ (q' = q ∧ x' = x)
  complete : ∀ q x k e total, (C.noteEof q x k e).1 = some total →
    ∀ q', q' ≠ q → tracks e q' x
  counted : ∀ x s e q' x', tracks (C.countSent x s e) q' x' → tracks e q' x'
  reported : ∀ x outs e q' x', tracks (C.sentCounts x outs e).2 q' x' →
    tracks e q' x'
  discarded : ∀ x f e q' x', tracks (C.discard x f e).2 q' x' → tracks e q' x'
  freed : ∀ x f e q' x', tracks (C.free x f e).2 q' x' → tracks e q' x'

namespace RingCompletion

variable {self : Peer} {rc : RingCompletion} {x c : UUID}

/-- The barrier does not touch the announced counts. -/
theorem expected_advance (t : BarrierToken) :
    ((rc.advance self t).1.client c).expected = (rc.client c).expected := by
  rcases RingNode.advance_cases self rc t with heq | heq | heq <;> rw [heq]
  rw [client_put]
  by_cases hc : c = t.clientId <;> simp [hc]

theorem expected_onToken (t : BarrierToken) :
    ((rc.onToken self t).1.client c).expected = (rc.client c).expected := by
  unfold onToken
  split
  · rfl
  · rw [expected_advance, client_touch]

theorem expected_markEmitted (sent : ShardCounts) :
    ((rc.markEmitted x sent).client c).expected = (rc.client c).expected := by
  rw [markEmitted, client_put]
  by_cases hc : c = x <;> simp [hc]

theorem expected_reportSent (sent : ShardCounts) :
    ((rc.reportSent self x sent).1.client c).expected =
      (rc.client c).expected := by
  unfold reportSent
  split
  · rfl
  · split
    · exact expected_markEmitted sent
    · rw [expected_advance, expected_markEmitted]

theorem expected_onData :
    ((rc.onData x).1.client c).expected = (rc.client c).expected := by
  unfold onData
  split
  · rfl
  · rw [client_put]
    by_cases hc : c = x <;> simp [hc]

/-- Dropping a client withdraws its announcement. -/
theorem expected_drop (h : 0 ≤ ((rc.drop x).client c).expected) :
    0 ≤ (rc.client c).expected := by
  rw [client_drop] at h
  by_cases hc : c = x
  · simp [hc, Client.new] at h
  · simpa [hc] using h

theorem expected_onUpstreamEof {k : ℤ}
    (h : 0 ≤ ((rc.onUpstreamEof x k).1.client c).expected) :
    c = x ∨ 0 ≤ (rc.client c).expected := by
  unfold onUpstreamEof at h
  split at h
  · exact Or.inr h
  · rw [client_put] at h
    by_cases hc : c = x
    · exact Or.inl hc
    · exact Or.inr (by simpa [hc] using h)

end RingCompletion

namespace RingNode

variable {Q F S E α β : Type}

/-- The queue position holds the data message. -/
def Carries (arrivals : Q → ℕ → Option (Message α)) (tag : Q × ℕ)
    (d : DataMsg α) : Prop :=
  arrivals tag.1 tag.2 = some (.data d)

/-- In each queue the end-of-file of a client comes after its data. -/
def EofLast (arrivals : Q → ℕ → Option (Message α)) : Prop :=
  ∀ q i j c k d, arrivals q i = some (.eof c k) → Carries arrivals (q, j) d →
    d.clientId = c → j < i

variable {C : Controller Q F S E α β} {m : Node Q F S E β} {q : Q} {x : UUID}
  {k : ℤ}

/-- Some queue has not announced its count yet. -/
theorem noteEof_none (h : (C.noteEof q x k m.state.extra).1 = none) :
    noteEof C q x k m = ([], m.withState fun s =>
      { s with extra := (C.noteEof q x k m.state.extra).2 }) := by
  unfold noteEof
  simp only [h]

/-- All queues have announced their counts. -/
theorem noteEof_some {total : ℤ}
    (h : (C.noteEof q x k m.state.extra).1 = some total) :
    noteEof C q x k m = onRing (fun rc => rc.onUpstreamEof x total)
      (m.withState fun s =>
        { s with extra := (C.noteEof q x k m.state.extra).2 }) := by
  unfold noteEof
  simp only [h]

/-! ## The invariant -/

section Invariant

variable (C : Controller Q F S E α β)
  (arrivals : Q → ℕ → Option (Message α)) (tracks : E → Q → UUID → Prop)

/-- The part that a crash preserves. -/
structure StoredDeliveries (m : Node Q F S E β) : Prop where
  acked : ∀ tag d, Carries arrivals tag d → tag ∈ m.acked →
    m.StoreKnows d ∨ ∃ tag', Carries arrivals tag' d ∧ tag' ∉ m.acked
  tracked : ∀ q c, tracks (m.storedExtra C) q c → ∀ j d,
    Carries arrivals (q, j) d → d.clientId = c →
      m.StoreKnows d ∨ (q, j) ∈ m.acked
  announced : ∀ tag d, Carries arrivals tag d →
    0 ≤ (m.storedRc.client d.clientId).expected → m.StoreKnows d

/-- The part about memory that a checkpoint needs. -/
structure Reading (m : Node Q F S E β) : Prop where
  known : ∀ d : DataMsg α, m.StoreKnows d → m.Knows d
  taken : ∀ tag d, Carries arrivals tag d → tag ∈ m.taken → m.Knows d
  held : ∀ tag ∈ m.pendingAcks,
    tag ∈ m.taken ∧ ∃ d, Carries arrivals tag d ∧ m.Knows d
  tracked : ∀ q c, tracks m.state.extra q c → ∀ j d,
    Carries arrivals (q, j) d → d.clientId = c → m.Knows d ∨ (q, j) ∈ m.acked
  announced : ∀ tag d, Carries arrivals tag d →
    0 ≤ (m.rc.client d.clientId).expected → m.Knows d

/-- The part about memory between two messages. -/
structure LiveDeliveries (m : Node Q F S E β) : Prop
    extends Reading arrivals tracks m where
  pending : ∀ tag d, Carries arrivals tag d → m.Knows d → m.StoreKnows d ∨
    ∃ tag' ∈ m.pendingAcks, Carries arrivals tag' d ∧ tag' ∉ m.acked
  clean : m.dirty = false → ∀ d : DataMsg α, m.Knows d → m.StoreKnows d

/-- Both parts. -/
def Delivered (m : Node Q F S E β) : Prop :=
  StoredDeliveries C arrivals tracks m ∧ LiveDeliveries arrivals tracks m

end Invariant

variable {arrivals : Q → ℕ → Option (Message α)}
  {tracks : E → Q → UUID → Prop} {tag : Q × ℕ}

/-- A change of the providers that tracks and announces nothing new. -/
theorem Delivered.change (h : Delivered C arrivals tracks m)
    (s : NodeState F E) (log : List (Event β))
    (htracks : ∀ q c, tracks s.extra q c → tracks m.state.extra q c)
    (hannounced : ∀ c, 0 ≤ (s.rc.client c).expected →
      0 ≤ (m.rc.client c).expected) :
    Delivered C arrivals tracks { m with state := s, log := log } :=
  ⟨⟨h.1.acked, h.1.tracked, h.1.announced⟩,
    ⟨⟨h.2.known, h.2.taken, h.2.held,
      fun q c ht => h.2.tracked q c (htracks q c ht),
      fun tag d hd he => h.2.announced tag d hd (hannounced _ he)⟩,
    h.2.pending, h.2.clean⟩⟩

/-- Everything in memory is durable. -/
def Saved (α : Type) (m : Node Q F S E β) : Prop :=
  ∀ d : DataMsg α, m.Knows d → m.StoreKnows d

theorem saved_checkpointed : Saved α (m.checkpointed C.provider) :=
  fun _ hd => Machine.storeKnows_checkpointed.mpr hd

theorem Reading.checkpointed (h : Reading arrivals tracks m)
    (hs : StoredDeliveries C arrivals tracks m) :
    Delivered C arrivals tracks (m.checkpointed C.provider) := by
  refine ⟨⟨?_, ?_, ?_⟩, ⟨⟨?_, h.taken, h.held, h.tracked, h.announced⟩, ?_, ?_⟩⟩
  · intro tag d hd hack
    refine (hs.acked tag d hd hack).imp_left fun hk => ?_
    exact Machine.storeKnows_checkpointed.mpr (h.known d hk)
  · intro q c ht j d hd hc
    refine (h.tracked q c ht j d hd hc).imp_left fun hk => ?_
    exact Machine.storeKnows_checkpointed.mpr hk
  · intro tag d hd he
    exact Machine.storeKnows_checkpointed.mpr (h.announced tag d hd he)
  · exact fun d => Machine.storeKnows_checkpointed.mp
  · exact fun tag d _ hk => Or.inl (Machine.storeKnows_checkpointed.mpr hk)
  · exact fun _ d hk => Machine.storeKnows_checkpointed.mpr hk

section Acks

variable [DecidableEq Q]

/-- Acknowledging copies whose effects are durable. -/
theorem StoredDeliveries.ackAll (h : StoredDeliveries C arrivals tracks m)
    (tags : List (Q × ℕ))
    (hsafe : ∀ tag ∈ tags, ∃ d, Carries arrivals tag d ∧ m.StoreKnows d) :
    StoredDeliveries C arrivals tracks (m.ackAll tags) := by
  have hdurable : ∀ tag ∈ tags, ∀ d, Carries arrivals tag d →
      m.StoreKnows d := by
    intro tag htag d hd
    obtain ⟨d', hd', hk⟩ := hsafe tag htag
    have heq : (Message.data d : Message α) = .data d' :=
      Option.some.inj (hd.symm.trans hd')
    rwa [Message.data.inj heq]
  refine ⟨?_, ?_, h.announced⟩
  · intro tag d hd hack
    rcases Finset.mem_union.mp hack with hack | hnew
    · rcases h.acked tag d hd hack with hk | ⟨tag', hd', hack'⟩
      · exact Or.inl hk
      · by_cases hmem : tag' ∈ tags
        · exact Or.inl (hdurable tag' hmem d hd')
        · refine Or.inr ⟨tag', hd', ?_⟩
          simp [Machine.ackAll, hmem, hack']
    · exact Or.inl (hdurable tag (List.mem_toFinset.mp hnew) d hd)
  · intro q c ht j d hd hc
    exact (h.tracked q c ht j d hd hc).imp_right fun hack =>
      Finset.mem_union_left _ hack

/-- Once the memory is durable, all held acknowledgements may go. -/
theorem Delivered.released (h : Delivered C arrivals tracks m)
    (hsaved : Saved α m) :
    Delivered C arrivals tracks m.released ∧ Saved α m.released := by
  have hack := h.1.ackAll m.pendingAcks fun tag htag => by
    obtain ⟨-, d, hd, hk⟩ := h.2.held tag htag
    exact ⟨d, hd, hsaved d hk⟩
  refine ⟨⟨⟨hack.acked, hack.tracked, hack.announced⟩,
    ⟨⟨h.2.known, h.2.taken, ?_, ?_, h.2.announced⟩, ?_, fun _ => hsaved⟩⟩,
    hsaved⟩
  · simp [Machine.released]
  · intro q c ht j d hd hc
    exact (h.2.tracked q c ht j d hd hc).imp_right fun hmem =>
      Finset.mem_union_left _ hmem
  · exact fun tag d _ hk => Or.inl (hsaved d hk)

/-- A flush makes the memory durable. -/
theorem spec_flush_delivered {P : Node Q F S E β → Prop} {force : Bool}
    (hP : ∀ m, P m → StoredDeliveries C arrivals tracks m ∧
      Reading arrivals tracks m ∧
        (force = false → LiveDeliveries arrivals tracks m)) :
    Spec P (Checkpointer.flush C.provider force)
      (fun _ m => Delivered C arrivals tracks m ∧ Saved α m)
      (StoredDeliveries C arrivals tracks) := by
  refine Checkpointer.spec_checkpointAndFlush
    (R := fun m => Delivered C arrivals tracks m ∧ Saved α m) ?_ ?_ ?_ ?_
  · intro m hm _
    obtain ⟨hstored, hreading, -⟩ := hP m hm
    exact ⟨hstored, ⟨hstored.acked, hstored.tracked, hstored.announced⟩,
      hreading.checkpointed hstored, saved_checkpointed⟩
  · intro m hm hdirty hforce
    obtain ⟨hstored, -, hlive⟩ := hP m hm
    exact ⟨⟨hstored, hlive hforce⟩, (hlive hforce).clean hdirty⟩
  · rintro m tags rest ⟨hm, hsaved⟩ hsplit
    refine hm.1.ackAll tags fun tag htag => ?_
    obtain ⟨-, d, hd, hk⟩ := hm.2.held tag (by simp [hsplit, htag])
    exact ⟨d, hd, hsaved d hk⟩
  · exact fun m hm => hm.1.released hm.2

/-! ## One message -/

/-- Every copy of the queue before this one was read or is acknowledged. -/
theorem inOrder_deliver {tag' : Q × ℕ} (h : InOrder arrivals tag m) :
    InOrder arrivals tag (m.deliver tag') := by
  intro i hi hsome
  exact (h i hi hsome).imp_right fun hmem => Finset.mem_insert_of_mem hmem

/-- A control message was handed over. -/
theorem Delivered.deliver_control (h : Delivered C arrivals tracks m)
    (htag : ∀ d, ¬Carries arrivals tag d) :
    Delivered C arrivals tracks (m.deliver tag) := by
  refine ⟨⟨h.1.acked, h.1.tracked, h.1.announced⟩,
    ⟨⟨h.2.known, ?_, ?_, h.2.tracked, h.2.announced⟩, h.2.pending, h.2.clean⟩⟩
  · intro tag' d hd hmem
    rcases Finset.mem_insert.mp hmem with rfl | hmem
    · exact absurd hd (htag d)
    · exact h.2.taken tag' d hd hmem
  · intro tag' hmem
    obtain ⟨htaken, hd⟩ := h.2.held tag' hmem
    exact ⟨Finset.mem_insert_of_mem htaken, hd⟩

/-- A control message is acknowledged. -/
theorem Delivered.ack_control (h : Delivered C arrivals tracks m)
    (htag : ∀ d, ¬Carries arrivals tag d) :
    Delivered C arrivals tracks (m.ackTag tag) := by
  have hne : ∀ tag' d, Carries arrivals tag' d → tag' ≠ tag :=
    fun tag' d hd heq => htag d (heq ▸ hd)
  refine ⟨⟨?_, ?_, h.1.announced⟩,
    ⟨⟨h.2.known, h.2.taken, h.2.held, ?_, h.2.announced⟩, ?_, h.2.clean⟩⟩
  · intro tag' d hd hack
    have hack' := (Finset.mem_insert.mp hack).resolve_left (hne tag' d hd)
    refine (h.1.acked tag' d hd hack').imp_right ?_
    rintro ⟨t, ht, hout⟩
    exact ⟨t, ht, by simp [Machine.ackTag, hne t d ht, hout]⟩
  · intro q c ht j d hd hc
    exact (h.1.tracked q c ht j d hd hc).imp_right fun hmem =>
      Finset.mem_insert_of_mem hmem
  · intro q c ht j d hd hc
    exact (h.2.tracked q c ht j d hd hc).imp_right fun hmem =>
      Finset.mem_insert_of_mem hmem
  · intro tag' d hd hk
    refine (h.2.pending tag' d hd hk).imp_right ?_
    rintro ⟨t, hmem, ht, hout⟩
    exact ⟨t, hmem, ht, by simp [Machine.ackTag, hne t d ht, hout]⟩

/-- A data message was handed over and is not processed yet. -/
def Handling (C : Controller Q F S E α β)
    (arrivals : Q → ℕ → Option (Message α)) (tracks : E → Q → UUID → Prop)
    (tag : Q × ℕ) (m : Node Q F S E β) : Prop :=
  ∃ m₀, Delivered C arrivals tracks m₀ ∧ tag ∉ m₀.acked ∧ tag ∉ m₀.taken ∧
    m = m₀.deliver tag

theorem Handling.stored (h : Handling C arrivals tracks tag m) :
    StoredDeliveries C arrivals tracks m := by
  obtain ⟨m₀, hm₀, -, -, rfl⟩ := h
  exact ⟨hm₀.1.acked, hm₀.1.tracked, hm₀.1.announced⟩

theorem Handling.change (h : Handling C arrivals tracks tag m)
    (s : NodeState F E) (log : List (Event β))
    (htracks : ∀ q c, tracks s.extra q c → tracks m.state.extra q c)
    (hannounced : ∀ c, 0 ≤ (s.rc.client c).expected →
      0 ≤ (m.rc.client c).expected) :
    Handling C arrivals tracks tag { m with state := s, log := log } := by
  obtain ⟨m₀, hm₀, hack, htaken, rfl⟩ := h
  exact ⟨{ m₀ with state := s, log := log },
    hm₀.change s log htracks hannounced, hack, htaken, rfl⟩

/-- A duplicate, or a message of an aborted client, is acknowledged at once. -/
theorem Handling.drop (h : Handling C arrivals tracks tag m) {d : DataMsg α}
    (hd : Carries arrivals tag d) (hk : m.Knows d) :
    Delivered C arrivals tracks (m.ackTag tag) := by
  obtain ⟨m₀, ⟨hs, hl⟩, -, htaken, rfl⟩ := h
  have hother : ∀ t ∈ m₀.pendingAcks, t ≠ tag := fun t ht heq =>
    htaken (heq ▸ (hl.held t ht).1)
  have hsame : ∀ {d'}, Carries arrivals tag d' → d' = d := fun hd' =>
    Message.data.inj (Option.some.inj (hd'.symm.trans hd))
  have hcopy : m₀.StoreKnows d ∨ ∃ t, Carries arrivals t d ∧
      t ∉ (insert tag m₀.acked : Finset (Q × ℕ)) := by
    refine (hl.pending tag d hd hk).imp_right ?_
    rintro ⟨t, ht, hcar, hout⟩
    exact ⟨t, hcar, by simp [hother t ht, hout]⟩
  refine ⟨⟨?_, ?_, hs.announced⟩,
    ⟨⟨hl.known, ?_, ?_, ?_, hl.announced⟩, ?_, hl.clean⟩⟩
  · intro t d' hd' hack
    rcases Finset.mem_insert.mp hack with rfl | hack
    · rw [hsame hd']
      exact hcopy
    · rcases hs.acked t d' hd' hack with hk' | ⟨t', hcar, hout⟩
      · exact Or.inl hk'
      · by_cases heq : t' = tag
        · rw [heq] at hcar
          rw [hsame hcar]
          exact hcopy
        · refine Or.inr ⟨t', hcar, ?_⟩
          change t' ∉ (insert tag m₀.acked : Finset (Q × ℕ))
          simp [heq, hout]
  · intro q c ht j d' hd' hc
    exact (hs.tracked q c ht j d' hd' hc).imp_right fun hmem =>
      Finset.mem_insert_of_mem hmem
  · intro t d' hd' hmem
    rcases Finset.mem_insert.mp hmem with rfl | hmem
    · rw [hsame hd']
      exact hk
    · exact hl.taken t d' hd' hmem
  · intro t ht
    obtain ⟨hmem, hrest⟩ := hl.held t ht
    exact ⟨Finset.mem_insert_of_mem hmem, hrest⟩
  · intro q c ht j d' hd' hc
    exact (hl.tracked q c ht j d' hd' hc).imp_right fun hmem =>
      Finset.mem_insert_of_mem hmem
  · intro t d' hd' hk'
    refine (hl.pending t d' hd' hk').imp_right ?_
    rintro ⟨t', hmem, hcar, hout⟩
    refine ⟨t', hmem, hcar, ?_⟩
    change t' ∉ (insert tag m₀.acked : Finset (Q × ℕ))
    simp [hother t' hmem, hout]

/-- Copies with one identity are copies of one message. -/
def SameMessage (arrivals : Q → ℕ → Option (Message α)) : Prop :=
  ∀ tag tag' d d', Carries arrivals tag d → Carries arrivals tag' d' →
    d.identity = d'.identity → d = d'

/-- A new message was applied. -/
theorem Handling.recorded (h : Handling C arrivals tracks tag m)
    (hsame : SameMessage arrivals) {d : DataMsg α}
    (hd : Carries arrivals tag d) (hseq : d.seq ≠ 0) :
    Delivered C arrivals tracks (m.recorded tag d) := by
  obtain ⟨m₀, ⟨hs, hl⟩, hack, htaken, rfl⟩ := h
  have hknows : ∀ d' : DataMsg α, ((m₀.deliver tag).recorded tag d).Knows d' ↔
      d'.identity = d.identity ∨ m₀.Knows d' := by
    intro d'
    have hrec := Deduplicator.recorded_record (d := m₀.dedup)
      (p := d.producerId) hseq d'.identity
    simp only [Machine.Knows, Machine.recorded, Machine.deliver, hrec,
      or_assoc]
    rfl
  have hold : ∀ d' : DataMsg α, m₀.Knows d' →
      ((m₀.deliver tag).recorded tag d).Knows d' :=
    fun d' hk => (hknows d').mpr (Or.inr hk)
  have hnew : ((m₀.deliver tag).recorded tag d).Knows d :=
    (hknows d).mpr (Or.inl rfl)
  refine ⟨⟨hs.acked, hs.tracked, hs.announced⟩,
    ⟨⟨fun d' hk => hold d' (hl.known d' hk), ?_, ?_, ?_, ?_⟩, ?_, ?_⟩⟩
  · intro t d' hd' hmem
    rcases Finset.mem_insert.mp hmem with rfl | hmem
    · obtain rfl := Message.data.inj (Option.some.inj (hd'.symm.trans hd))
      exact hnew
    · exact hold d' (hl.taken t d' hd' hmem)
  · intro t ht
    rcases List.mem_append.mp ht with ht | ht
    · obtain ⟨hmem, d', hd', hk⟩ := hl.held t ht
      exact ⟨Finset.mem_insert_of_mem hmem, d', hd', hold d' hk⟩
    · obtain rfl := List.mem_singleton.mp ht
      exact ⟨Finset.mem_insert_self _ _, d, hd, hnew⟩
  · intro q c ht j d' hd' hc
    exact (hl.tracked q c ht j d' hd' hc).imp_left (hold d')
  · exact fun t d' hd' he => hold d' (hl.announced t d' hd' he)
  · intro t d' hd' hk
    rcases (hknows d').mp hk with heq | hk
    · obtain rfl := hsame t tag d' d hd' hd heq
      exact Or.inr ⟨tag, by simp [Machine.recorded], hd, hack⟩
    · refine (hl.pending t d' hd' hk).imp_right ?_
      rintro ⟨t', hmem, hrest⟩
      exact ⟨t', List.mem_append_left _ hmem, hrest⟩
  · intro hdirty
    simp [Machine.recorded] at hdirty

/-- The end-of-file of the client was noted: the queue is tracked, and the count
is known only if every queue was read up to its own end-of-file. -/
theorem Delivered.noteEof (h : Delivered C arrivals tracks m)
    (laws : TracksEofs C tracks) (hlast : EofLast arrivals) {x : UUID} {k : ℤ}
    (htag : arrivals tag.1 tag.2 = some (.eof x k))
    (horder : InOrder arrivals tag m) :
    Delivered C arrivals tracks (noteEof C tag.1 x k m).2 := by
  have hread : ∀ j d, Carries arrivals (tag.1, j) d → d.clientId = x →
      m.Knows d ∨ (tag.1, j) ∈ m.acked := by
    intro j d hd hc
    have hlt := hlast tag.1 tag.2 j x k d htag hd hc
    rcases horder j hlt (Option.isSome_of_eq_some hd) with hack | htaken
    · exact Or.inr hack
    · exact Or.inl (h.2.taken _ d hd htaken)
  have hnoted : Delivered C arrivals tracks (m.withState fun s =>
      { s with extra := (C.noteEof tag.1 x k m.state.extra).2 }) := by
    refine ⟨⟨h.1.acked, h.1.tracked, h.1.announced⟩,
      ⟨⟨h.2.known, h.2.taken, h.2.held, ?_, h.2.announced⟩, h.2.pending,
        h.2.clean⟩⟩
    intro q c ht j d hd hc
    rcases laws.noted _ _ _ _ _ _ ht with ht | ⟨rfl, rfl⟩
    · exact h.2.tracked q c ht j d hd hc
    · exact hread j d hd hc
  cases htotal : (C.noteEof tag.1 x k m.state.extra).1 with
  | none =>
      rw [noteEof_none htotal]
      exact hnoted
  | some total =>
      rw [noteEof_some htotal]
      -- every copy was read, or acknowledged and then its effect is durable
      have hcopy : ∀ t d, Carries arrivals t d → d.clientId = x →
          m.Knows d ∨ t ∈ m.acked := by
        rintro ⟨q, j⟩ d hd hc
        by_cases hq : q = tag.1
        · subst hq
          exact hread j d hd hc
        · exact h.2.tracked q x
            (laws.complete _ _ _ _ _ htotal q hq) j d hd hc
      refine ⟨⟨h.1.acked, h.1.tracked, h.1.announced⟩,
        ⟨⟨h.2.known, h.2.taken, h.2.held, hnoted.2.tracked, ?_⟩, h.2.pending,
          h.2.clean⟩⟩
      intro t d hd he
      rcases RingCompletion.expected_onUpstreamEof he with hc | he
      · rcases hcopy t d hd hc with hk | hack
        · exact hk
        · rcases h.1.acked t d hd hack with hk | ⟨t', hd', hout⟩
          · exact h.2.known d hk
          · exact (hcopy t' d hd' hc).resolve_right hout
      · exact h.2.announced t d hd he

end Acks

/-! ## Handlers -/

/-- A property of the queues and of what the providers remember about them. -/
def Stable (tracks : E → Q → UUID → Prop) (P : Node Q F S E β → Prop) : Prop :=
  ∀ m (s : NodeState F E) log, P m →
    (∀ q c, tracks s.extra q c → tracks m.state.extra q c) →
    (∀ c, 0 ≤ (s.rc.client c).expected → 0 ≤ (m.rc.client c).expected) →
      P { m with state := s, log := log }

theorem stable_delivered : Stable tracks (Delivered (β := β) (S := S) (F := F)
    C arrivals tracks) :=
  fun _ s log hm ht he => hm.change s log ht he

section Handlers

variable {P I : Node Q F S E β → Prop}

theorem spec_emit_stable (laws : TracksEofs C tracks) (hP : Stable tracks P)
    (hI : ∀ m, P m → I m) (x : UUID) :
    Spec P (emit C x) (fun _ => P) I := by
  refine spec_emit x ?_ ?_ hI ?_
  · intro m hm sent rest _
    exact hI _ (hP m _ _ hm (fun _ _ h => h) fun _ h => h)
  · intro m hm
    refine hP m _ _ hm (fun q c ht => laws.reported _ _ _ _ _ ht) ?_
    intro c he
    simpa only [RingCompletion.expected_reportSent] using he
  · intro m e _ hm
    exact hP m m.state _ hm (fun _ _ h => h) fun _ h => h

theorem spec_onData_stable (laws : TracksEofs C tracks) (hP : Stable tracks P)
    (hI : ∀ m, P m → I m) (q : Q) (msg : DataMsg α) :
    Spec P (onData C q msg) (fun _ => P) I := by
  refine Spec.bind (Q := fun _ => P) (Spec.modify fun m hm => ?_) fun _ => ?_
  · exact hP m _ m.log hm (fun _ _ h => h) fun _ h => h
  refine Spec.bind (Q := fun _ => P) ?_ fun _ => ?_
  · refine Spec.forEach (I := fun _ => P) _ fun _ o _ _ => ?_
    refine Spec.bind (Q := fun _ => P) (Spec.change hI fun m hm => ?_)
      fun _ => Spec.modify fun m hm => ?_
    · rw [published_eq]
      exact hP m _ _ hm (fun _ _ h => h) fun _ h => h
    · exact hP m _ m.log hm (fun q c ht => laws.counted _ _ _ _ _ ht)
        fun _ h => h
  refine Spec.bind (Q := fun _ => P) (Spec.compute fun m hm => ?_)
    fun emits => ?_
  · refine hP m _ m.log hm (fun _ _ h => h) fun c he => ?_
    simpa only [RingCompletion.expected_onData] using he
  · exact Spec.forEach (I := fun _ => P) _ fun _ x _ _ =>
      spec_emit_stable laws hP hI x

variable [DecidableEq Q]

/-- Flushing keeps the earlier copies of the queue read or acknowledged. -/
theorem spec_flush_inOrder (force : Bool) :
    Spec (InOrder arrivals tag)
      (Checkpointer.flush C.provider force : NodeProg Q F S E β Unit)
      (fun _ => InOrder arrivals tag) (fun _ => True) := by
  refine Checkpointer.spec_checkpointAndFlush (R := InOrder arrivals tag)
    (fun m hm _ => ⟨trivial, trivial, hm⟩) (fun m hm _ _ => hm)
    (fun _ _ _ _ _ => trivial) fun m hm i hi hsome => ?_
  exact (hm i hi hsome).imp_left fun hmem => Finset.mem_union_left _ hmem

theorem spec_flush_keeps {force : Bool} :
    Spec (Delivered C arrivals tracks)
      (Checkpointer.flush C.provider force : NodeProg Q F S E β Unit)
      (fun _ => Delivered C arrivals tracks)
      (StoredDeliveries C arrivals tracks) :=
  (spec_flush_delivered fun _ hm => ⟨hm.1, hm.2.toReading, fun _ => hm.2⟩).post
    fun _ _ hm => hm.1

theorem spec_onEof_delivered (laws : TracksEofs C tracks)
    (hlast : EofLast arrivals) {x : UUID} {k : ℤ}
    (htag : arrivals tag.1 tag.2 = some (.eof x k)) :
    Spec (fun m => Delivered C arrivals tracks m ∧ InOrder arrivals tag m)
      (onEof C tag.1 x k) (fun _ => Delivered C arrivals tracks)
      (StoredDeliveries C arrivals tracks) := by
  have hI : ∀ m, Delivered C arrivals tracks m →
      StoredDeliveries C arrivals tracks m := fun m hm => hm.1
  refine Spec.bind (Q := fun _ => Delivered C arrivals tracks)
    (Spec.compute fun _ hm => hm.1.noteEof laws hlast htag hm.2)
    fun emits => ?_
  refine Spec.bind (Q := fun _ => Delivered C arrivals tracks)
    (Spec.when (fun _ => spec_flush_keeps) fun _ _ hm => hm) fun _ => ?_
  refine Spec.bind (Q := fun _ => Delivered C arrivals tracks)
    (Spec.forEach (I := fun _ => Delivered C arrivals tracks) _
      fun _ y _ _ => spec_emit_stable laws stable_delivered hI y) fun _ => ?_
  refine Spec.bind spec_flush_keeps fun _ => ?_
  refine Spec.forEach (I := fun _ => Delivered C arrivals tracks) _
    fun _ y _ _ => Spec.change hI fun m hm => ?_
  exact hm.change _ _ (fun q c ht => laws.freed _ _ _ _ _ ht) fun _ h => h

theorem spec_onAbort_delivered (laws : TracksEofs C tracks) (x : UUID) :
    Spec (Delivered C arrivals tracks) (onAbort C x)
      (fun _ => Delivered C arrivals tracks)
      (StoredDeliveries C arrivals tracks) := by
  have hI : ∀ m, Delivered C arrivals tracks m →
      StoredDeliveries C arrivals tracks m := fun m hm => hm.1
  refine Spec.bind (Q := fun _ => Delivered C arrivals tracks)
    (Spec.modify fun m hm => ?_) fun _ => ?_
  · exact hm.change _ m.log (fun _ _ h => h)
      fun c he => RingCompletion.expected_drop he
  refine Spec.bind (Q := fun _ => Delivered C arrivals tracks)
    (Spec.change hI fun m hm => ?_) fun _ => ?_
  · exact hm.change _ m.log (fun q c ht => laws.discarded _ _ _ _ _ ht)
      fun _ h => h
  refine Spec.bind (Q := fun _ m => StoredDeliveries C arrivals tracks m ∧
    Reading arrivals tracks m) (Spec.modify fun m hm => ?_) fun _ => ?_
  · -- the messages of the client are dropped from here on
    have hmore : ∀ d : DataMsg α, m.Knows d → Machine.Knows { m with
        aborted := insert x m.aborted, dirty := true } d :=
      fun d hk => hk.imp_right fun hmem => Finset.mem_insert_of_mem hmem
    refine ⟨⟨hm.1.acked, hm.1.tracked, hm.1.announced⟩,
      fun d hk => hmore d (hm.2.known d hk),
      fun t d hd ht => hmore d (hm.2.taken t d hd ht), ?_, ?_,
      fun t d hd he => hmore d (hm.2.announced t d hd he)⟩
    · intro t ht
      obtain ⟨hmem, d, hd, hk⟩ := hm.2.held t ht
      exact ⟨hmem, d, hd, hmore d hk⟩
    · intro q c ht j d hd hc
      exact (hm.2.tracked q c ht j d hd hc).imp_left (hmore d)
  refine Spec.bind ((spec_flush_delivered fun m hm =>
    ⟨hm.1, hm.2, by simp⟩).post fun _ _ hm => hm.1) fun _ => ?_
  refine Spec.forEach (I := fun _ => Delivered C arrivals tracks) _
    fun _ shard _ _ => Spec.change hI fun m hm => ?_
  exact hm.change m.state _ (fun _ _ h => h) fun _ h => h

theorem spec_onRingMsg_delivered (t : BarrierToken) :
    Spec (Delivered C arrivals tracks) (onRingMsg C t)
      (fun _ => Delivered C arrivals tracks)
      (StoredDeliveries C arrivals tracks) := by
  refine Spec.bind (Q := fun _ => Delivered C arrivals tracks)
    (Spec.compute fun m hm => ?_) fun actions => ?_
  · rw [receiveToken_eq]
    refine hm.change _ _ (fun _ _ h => h) fun c he => ?_
    simpa only [RingCompletion.expected_onToken] using he
  refine Spec.bind (spec_runBarrier actions (fun m hm => hm.1) ?_)
    fun _ => spec_flush_keeps
  intro m e _ hm
  exact hm.change m.state _ (fun _ _ h => h) fun _ h => h

theorem spec_start_delivered (laws : TracksEofs C tracks) :
    Spec (fun m => StoredDeliveries C arrivals tracks m ∧ Blank C m) (start C)
      (fun _ => Delivered C arrivals tracks)
      (StoredDeliveries C arrivals tracks) := by
  have hI : ∀ m, Delivered C arrivals tracks m →
      StoredDeliveries C arrivals tracks m := fun m hm => hm.1
  refine Spec.bind (Q := fun _ m => StoredDeliveries C arrivals tracks m ∧
    Blank C m) (Spec.modify fun m hm => ?_) fun _ => ?_
  · exact ⟨⟨hm.1.acked, hm.1.tracked, hm.1.announced⟩, hm.2.logged _⟩
  refine Spec.bind (Q := fun _ => Delivered C arrivals tracks)
    (Checkpointer.spec_restore (fun m hm => hm.1) ?_ ?_) fun restored => ?_
  · rintro m ⟨hs, hb⟩ hnone
    have hunknown : ∀ d : DataMsg α, ¬m.Knows d := by
      intro d
      simp [Machine.Knows, hb.dedup, hb.aborted]
    have hunstored : ∀ d : DataMsg α, ¬m.StoreKnows d := by
      rintro d ⟨b, hstore, -⟩
      simp [hnone] at hstore
    refine ⟨⟨hs.acked, hs.tracked, hs.announced⟩,
      ⟨⟨fun d hk => absurd hk (hunstored d), ?_, ?_, ?_, ?_⟩,
      fun _ d _ hk => absurd hk (hunknown d),
      fun _ d hk => absurd hk (hunknown d)⟩⟩
    · simp [hb.taken]
    · simp [hb.pendingAcks]
    · intro q c ht
      have ht' : tracks m.state.extra q c := ht
      rw [hb.extra] at ht'
      exact absurd ht' (laws.none q c)
    · intro t d _ he
      have he' : 0 ≤ (m.state.rc.client d.clientId).expected := he
      simp [hb.rc, Client.new] at he'
  · rintro m b ⟨hs, hb⟩ hstore
    have hknows : ∀ d : DataMsg α,
        (m.restored C.provider b).Knows d ↔ m.StoreKnows d := by
      intro d
      simp [Machine.Knows, Machine.StoreKnows, Machine.restored, hstore,
        Blob.Recorded]
    have hextra : (m.restored C.provider b).state.extra =
        Node.storedExtra C m := by
      simp [Machine.restored, Controller.provider, Node.storedExtra, hstore]
    have hrc : (m.restored C.provider b).state.rc = Node.storedRc m := by
      simp [Machine.restored, Controller.provider, Node.storedRc, hstore]
    refine ⟨⟨hs.acked, hs.tracked, hs.announced⟩,
      ⟨⟨fun d hk => (hknows d).mpr hk, ?_, ?_, ?_, ?_⟩,
      fun _ d _ hk => Or.inl ((hknows d).mp hk),
      fun _ d hk => (hknows d).mp hk⟩⟩
    · simp [Machine.restored, hb.taken]
    · simp [Machine.restored, hb.pendingAcks]
    · intro q c ht j d hd hc
      rw [hextra] at ht
      exact (hs.tracked q c ht j d hd hc).imp_left (hknows d).mpr
    · intro t d hd he
      rw [Node.rc, hrc] at he
      exact (hknows d).mpr (hs.announced t d hd he)
  refine Spec.bind (Q := fun _ => Delivered C arrivals tracks)
    (Spec.when (fun _ => ?_) fun _ _ hm => hm) fun _ => Spec.modify fun m hm =>
      ⟨⟨hm.1.acked, hm.1.tracked, hm.1.announced⟩,
        ⟨⟨hm.2.known, hm.2.taken, hm.2.held, hm.2.tracked, hm.2.announced⟩,
          hm.2.pending, hm.2.clean⟩⟩
  refine Spec.read_bind fun m => ?_
  refine Spec.bind (Q := fun _ => Delivered C arrivals tracks)
    ((Spec.forEach (I := fun _ => Delivered C arrivals tracks) _
      fun _ y _ _ => spec_emit_stable laws stable_delivered hI y).pre
        fun m hm => hm.2) fun _ => ?_
  refine Spec.read_bind fun m' => ?_
  refine Spec.bind (Q := fun _ => Delivered C arrivals tracks)
    ((Spec.forEach (I := fun _ => Delivered C arrivals tracks) _
      fun _ y _ _ => Spec.change hI fun m hm => ?_).pre fun m hm => hm.2)
    fun _ => spec_flush_keeps
  exact hm.change _ _ (fun q c ht => laws.freed _ _ _ _ _ ht) fun _ h => h

/-! ### Whole calls -/

/-- What the queues have to promise. -/
structure OrderedQueues (arrivals : Q → ℕ → Option (Message α)) : Prop where
  seq : ∀ tag d, Carries arrivals tag d → 1 ≤ d.seq
  same : SameMessage arrivals
  eofLast : EofLast arrivals

omit [DecidableEq Q] in
theorem not_carries_of_control {msg : Message α}
    (htag : arrivals tag.1 tag.2 = some msg) (hmsg : ∀ d, msg ≠ .data d) :
    ∀ d, ¬Carries arrivals tag d :=
  fun d hd => hmsg d (Option.some.inj (htag.symm.trans hd))

theorem spec_onDataMsg_delivered (laws : TracksEofs C tracks)
    (hqueues : OrderedQueues arrivals) {msg : Message α}
    (htag : arrivals tag.1 tag.2 = some msg) :
    Spec (fun m => ∃ m₀, Delivered C arrivals tracks m₀ ∧ tag ∉ m₀.acked ∧
        tag ∉ m₀.taken ∧ InOrder arrivals tag m₀ ∧ m = m₀.deliver tag)
      (onDataMsg C tag msg) (fun _ => Delivered C arrivals tracks)
      (StoredDeliveries C arrivals tracks) := by
  refine Checkpointer.spec_dispatch ?_ ?_ ?_
  · rintro x k rfl
    have hctl := not_carries_of_control htag (by simp)
    refine Spec.bind (Q := fun _ m => Delivered C arrivals tracks m ∧
      InOrder arrivals tag m) ?_ fun _ => ?_
    · refine (spec_flush_keeps.and (spec_flush_inOrder false)).conseq ?_
        (fun _ _ hm => hm) fun m hm => hm.1
      rintro _ ⟨m₀, hm₀, -, -, horder, rfl⟩
      exact ⟨hm₀.deliver_control hctl, inOrder_deliver horder⟩
    refine Spec.bind (spec_onEof_delivered laws hqueues.eofLast htag)
      fun _ => ?_
    exact Checkpointer.spec_ack (fun m hm => hm.1)
      fun m hm => hm.ack_control hctl
  · rintro x rfl
    have hctl := not_carries_of_control htag (by simp)
    refine Spec.bind ((spec_onAbort_delivered laws x).pre ?_) fun _ => ?_
    · rintro _ ⟨m₀, hm₀, -, -, -, rfl⟩
      exact hm₀.deliver_control hctl
    exact Checkpointer.spec_ack (fun m hm => hm.1)
      fun m hm => hm.ack_control hctl
  · rintro d rfl
    refine (Checkpointer.spec_handleData
      (P := Handling C arrivals tracks tag)
      (R := Delivered C arrivals tracks) ?_ ?_ ?_ ?_ fun _ hm _ => hm).pre ?_
    · exact fun m hm hab => ⟨hm.stored, hm.drop htag (Or.inr hab)⟩
    · exact fun m hm _ hdup => ⟨hm.stored, hm.drop htag (Or.inl hdup)⟩
    · refine ((spec_onData_stable laws
        (fun m s log hm ht he => hm.change s log ht he)
        (fun m hm => Handling.stored hm) tag.1 d).pre fun m hm => hm.1).post ?_
      intro _ m hm
      exact hm.recorded hqueues.same htag
        (Nat.one_le_iff_ne_zero.mp (hqueues.seq tag d htag))
    · exact spec_flush_keeps.pre fun m hm => hm.1
    · rintro _ ⟨m₀, hm₀, hack, htaken, -, rfl⟩
      exact ⟨m₀, hm₀, hack, htaken, rfl⟩

theorem spec_call_delivered (laws : TracksEofs C tracks)
    (hqueues : OrderedQueues arrivals) (call : Call Q) :
    Spec (fun m => NodeInv C (Delivered C arrivals tracks)
        (StoredDeliveries C arrivals tracks) m ∧ Enabled arrivals true call m)
      (handler C arrivals call) (fun _ => Delivered C arrivals tracks)
      (StoredDeliveries C arrivals tracks) := by
  cases call with
  | start =>
      refine (spec_start_delivered laws).pre ?_
      exact fun m hm => hm.1.stored hm.2
  | token t =>
      refine (spec_onRingMsg_delivered t).pre ?_
      exact fun m hm => hm.1.live hm.2
  | deliver tag =>
      change Spec _ (receive C tag (arrivals tag.1 tag.2)) _ _
      cases htag : arrivals tag.1 tag.2 with
      | none =>
          refine Spec.pure fun m hm => ?_
          have := hm.2.2.1
          simp [htag] at this
      | some msg =>
          refine Spec.bind (Spec.modify ?_) fun _ =>
            spec_onDataMsg_delivered laws hqueues htag
          rintro m ⟨hm, hup, -, hack, htaken, horder⟩
          exact ⟨m, hm.live hup, hack, htaken, horder rfl, rfl⟩

omit [DecidableEq Q] in
/-- A node that knows the count of a client has seen all of its messages: a new
message is of a client whose count is not known. -/
theorem expected_neg_of_new {m : Node Q F S E β} {d : DataMsg α}
    (h : LiveDeliveries arrivals tracks m) (hd : Carries arrivals tag d)
    (hnew : ¬m.Knows d) : (m.rc.client d.clientId).expected < 0 := by
  by_contra hge
  exact hnew (h.announced tag d hd (not_lt.mp hge))

end Handlers

end RingNode
