import MoneyLaundering.Ring.EofsRead
import MoneyLaundering.Ring.StatefulHistory

/-!
# Copies behind the end-of-file

A publisher that crashes after it sent the end-of-file of a client may send its result again,
so copies of the client's messages arrive behind the end-of-file.  The module shows that a
stateful node drops them: once it has acknowledged the end-of-file, its checkpoint knows every
message before it.  What holds with ordered queues therefore holds with queues that have such
copies.
-/

open Crash

namespace RingNode

variable {Q F S E α β V : Type} {C : Controller Q F S E α β}
  {arrivals : Q → ℕ → Option (Message α)} {tracks : E → Q → UUID → Prop}
  {m : Node Q F S E β} {tag : Q × ℕ} {c x : UUID} {d : DataMsg α}
  {handed : Option (Q × ℕ)} {before : Set (Q × ℕ)}

/-! ## Acknowledged end-of-files -/

/-- With an end-of-file every copy before it is acknowledged. -/
def EofsInOrder (arrivals : Q → ℕ → Option (Message α)) (m : Node Q F S E β) : Prop :=
  ∀ q i x, EofAt arrivals (q, i) x → (q, i) ∈ m.acked →
    ∀ j < i, (arrivals q j).isSome → (q, j) ∈ m.acked

/-- What holds while a call is served: every copy that was handed over is acknowledged or will
be, apart from `handed`, and the copies of `before` are acknowledged. -/
structure Acking (arrivals : Q → ℕ → Option (Message α)) (handed : Option (Q × ℕ))
    (before : Set (Q × ℕ)) (m : Node Q F S E β) : Prop where
  inOrder : EofsInOrder arrivals m
  taken : ∀ t ∈ m.taken, handed = some t ∨ t ∈ m.acked ∨ t ∈ m.pendingAcks
  held : ∀ t ∈ m.pendingAcks, ∀ x, ¬EofAt arrivals t x
  before : ∀ t ∈ before, t ∈ m.acked

/-- What holds between two calls. -/
abbrev AcksKept (arrivals : Q → ℕ → Option (Message α)) (m : Node Q F S E β) : Prop :=
  Acking arrivals none ∅ m

theorem Acking.frame (h : Acking arrivals handed before m) {m' : Node Q F S E β}
    (hacked : m'.acked = m.acked) (htaken : m'.taken = m.taken)
    (hpending : m'.pendingAcks = m.pendingAcks) : Acking arrivals handed before m' where
  inOrder q i x heof hmem j hj hsome := by
    rw [hacked] at hmem ⊢
    exact h.inOrder q i x heof hmem j hj hsome
  taken t ht := by
    rw [hacked, hpending]
    exact h.taken t (htaken ▸ ht)
  held := hpending ▸ h.held
  before t ht := hacked ▸ h.before t ht

theorem stable_acking : Stable tracks (Acking (β := β) (S := S) (F := F) arrivals handed before) :=
  fun _ _ _ hm _ _ => hm.frame rfl rfl rfl

section Acks

variable [DecidableEq Q]

/-- Acknowledging other messages than end-of-files. -/
theorem EofsInOrder.ackAll (h : EofsInOrder arrivals m) (tags : List (Q × ℕ))
    (hheld : ∀ t ∈ tags, ∀ x, ¬EofAt arrivals t x) : EofsInOrder arrivals (m.ackAll tags) := by
  intro q i x heof hmem j hj hsome
  rcases Finset.mem_union.mp hmem with hack | hnew
  · exact Finset.mem_union_left _ (h q i x heof hack j hj hsome)
  · exact absurd heof (hheld _ (List.mem_toFinset.mp hnew) x)

theorem Acking.released (h : Acking arrivals handed before m) :
    Acking arrivals handed before m.released ∧ m.released.pendingAcks = [] := by
  have hacks := h.inOrder.ackAll m.pendingAcks h.held
  refine ⟨⟨hacks, fun t ht => ?_, ?_, fun t ht => Finset.mem_union_left _ (h.before t ht)⟩, rfl⟩
  · refine (h.taken t ht).imp_right fun hdone => Or.inl ?_
    exact hdone.elim (Finset.mem_union_left _)
      fun hmem => Finset.mem_union_right _ (List.mem_toFinset.mpr hmem)
  · simp [Machine.released]

/-- The processed copy is acknowledged. -/
theorem Acking.ackTag (h : Acking arrivals (some tag) before m)
    (hbefore : ∀ x, EofAt arrivals tag x → ∀ j < tag.2, (arrivals tag.1 j).isSome →
      (tag.1, j) ∈ m.acked) : AcksKept arrivals (m.ackTag tag) := by
  refine ⟨fun q i x heof hmem j hj hsome => Finset.mem_insert_of_mem ?_, fun t ht => Or.inr ?_,
    h.held, fun t ht => ht.elim⟩
  · rcases Finset.mem_insert.mp hmem with rfl | hack
    · exact hbefore x heof j hj hsome
    · exact h.inOrder q i x heof hack j hj hsome
  · rcases h.taken t ht with heq | hack | hpending
    · rw [Option.some.inj heq]
      exact Or.inl (Finset.mem_insert_self t _)
    · exact Or.inl (Finset.mem_insert_of_mem hack)
    · exact Or.inr hpending

/-- A copy was handed over. -/
theorem Acking.deliver (h : AcksKept arrivals m) :
    Acking arrivals (some tag) ∅ (m.deliver tag) := by
  refine ⟨h.inOrder, fun t ht => ?_, h.held, h.before⟩
  rcases Finset.mem_insert.mp ht with rfl | hold
  · exact Or.inl rfl
  · exact Or.inr ((h.taken t hold).resolve_left (by simp))

omit [DecidableEq Q] in
/-- The processed copy is held until the next checkpoint. -/
theorem Acking.recorded (h : Acking arrivals (some tag) ∅ m)
    (htag : ∀ x, ¬EofAt arrivals tag x) : AcksKept arrivals (m.recorded tag d) := by
  refine ⟨h.inOrder, fun t ht => Or.inr ?_, fun t ht => ?_, h.before⟩
  · rcases h.taken t ht with heq | hack | hpending
    · rw [Option.some.inj heq]
      exact Or.inr (List.mem_append_right _ (List.mem_singleton_self t))
    · exact Or.inl hack
    · exact Or.inr (List.mem_append_left _ hpending)
  · rcases List.mem_append.mp ht with hold | hnew
    · exact h.held t hold
    · rw [List.mem_singleton.mp hnew]
      exact htag

theorem spec_flush_acking (force : Bool) :
    Spec (Acking arrivals handed before)
      (Checkpointer.flush C.provider force : NodeProg Q F S E β Unit)
      (fun _ m => Acking arrivals handed before m ∧ m.pendingAcks = []) (EofsInOrder arrivals) :=
  Checkpointer.spec_checkpointAndFlush (R := Acking arrivals handed before)
    (fun _ hm _ => ⟨hm.inOrder, hm.inOrder, hm.inOrder, hm.taken, hm.held, hm.before⟩)
    (fun _ hm _ _ => hm)
    (fun _ tags _ hm hsplit => hm.inOrder.ackAll tags fun t ht =>
      hm.held t (hsplit ▸ List.mem_append_left _ ht))
    fun _ hm => hm.released

theorem spec_flush_acks (force : Bool) :
    Spec (Acking arrivals handed before)
      (Checkpointer.flush C.provider force : NodeProg Q F S E β Unit)
      (fun _ => Acking arrivals handed before) (EofsInOrder arrivals) :=
  (spec_flush_acking force).post fun _ _ hm => hm.1

end Acks

/-! ### Handlers -/

section Handlers

variable [DecidableEq Q] (laws : TracksEofs C tracks)
include laws

omit [DecidableEq Q] in
theorem spec_runEmits_acking (xs : List UUID) :
    Spec (Acking arrivals handed before) (runEmits C xs)
      (fun _ => Acking arrivals handed before) (EofsInOrder arrivals) :=
  Spec.forEach (I := fun _ => Acking arrivals handed before) xs fun _ y _ _ =>
    spec_emit_stable laws stable_acking (fun _ hm => hm.inOrder) y

omit laws [DecidableEq Q] in
theorem spec_free_acking (xs : List UUID) :
    Spec (Acking arrivals handed before) (Prog.forEach xs (free C))
      (fun _ => Acking arrivals handed before) (EofsInOrder arrivals) :=
  Spec.forEach (I := fun _ => Acking arrivals handed before) xs fun _ _ _ _ =>
    Spec.change (fun _ hm => hm.inOrder) fun _ hm => hm.frame rfl rfl rfl

theorem spec_onEof_acking (q : Q) (x : UUID) (k : ℤ) :
    Spec (Acking arrivals handed before) (onEof C q x k)
      (fun _ => Acking arrivals handed before) (EofsInOrder arrivals) := by
  refine Spec.bind (Q := fun _ => Acking arrivals handed before) (Spec.compute fun m hm => ?_)
    fun emits => ?_
  · cases htotal : (C.noteEof q x k m.state.extra).1 with
    | none =>
        rw [noteEof_none htotal]
        exact hm.frame rfl rfl rfl
    | some total =>
        rw [noteEof_some htotal]
        exact hm.frame rfl rfl rfl
  refine Spec.bind (Spec.when (fun _ => spec_flush_acks true) fun _ _ hm => hm) fun _ => ?_
  refine Spec.bind (spec_runEmits_acking laws emits) fun _ => ?_
  exact Spec.bind (spec_flush_acks true) fun _ => spec_free_acking emits

omit laws in
theorem spec_onAbort_acking (x : UUID) :
    Spec (Acking arrivals handed before) (onAbort C x)
      (fun _ => Acking arrivals handed before) (EofsInOrder arrivals) := by
  refine Spec.bind (Q := fun _ => Acking arrivals handed before)
    (Spec.modify fun _ hm => hm.frame rfl rfl rfl) fun _ => ?_
  refine Spec.bind (Q := fun _ => Acking arrivals handed before)
    (Spec.change (fun _ hm => hm.inOrder)
      fun _ hm => hm.frame rfl rfl rfl) fun _ => ?_
  refine Spec.bind (Q := fun _ => Acking arrivals handed before)
    (Spec.modify fun _ hm => hm.frame rfl rfl rfl) fun _ => ?_
  refine Spec.bind (spec_flush_acks true) fun _ => ?_
  exact Spec.forEach (I := fun _ => Acking arrivals handed before) _ fun _ _ _ _ =>
    Spec.change (fun _ hm => hm.inOrder) fun _ hm => hm.frame rfl rfl rfl

omit laws in
theorem spec_onRingMsg_acking (t : BarrierToken) :
    Spec (Acking arrivals handed before) (onRingMsg C t)
      (fun _ => Acking arrivals handed before) (EofsInOrder arrivals) := by
  refine Spec.bind (Q := fun _ => Acking arrivals handed before) (Spec.compute fun m hm => ?_)
    fun actions => ?_
  · rw [receiveToken_eq]
    exact hm.frame rfl rfl rfl
  · exact Spec.bind (spec_runBarrier actions (fun _ hm => hm.inOrder)
      fun _ _ _ hm => hm.frame rfl rfl rfl) fun _ => spec_flush_acks true

theorem spec_start_acking :
    Spec (fun m => EofsInOrder arrivals m ∧ Blank C m) (start C) (fun _ => AcksKept arrivals)
      (EofsInOrder arrivals) := by
  have hblank : ∀ m : Node Q F S E β, EofsInOrder arrivals m → m.taken = ∅ →
      m.pendingAcks = [] → AcksKept arrivals m := fun m hm htaken hpending =>
    ⟨hm, by simp [htaken], by simp [hpending], fun t ht => ht.elim⟩
  refine Spec.bind (Q := fun _ m => EofsInOrder arrivals m ∧ Blank C m)
    (Spec.modify fun m hm => ⟨hm.1, hm.2.logged _⟩) fun _ => ?_
  refine Spec.bind (Q := fun _ => AcksKept arrivals) (Checkpointer.spec_restore
    (fun _ hm => hm.1) (fun m hm _ => hblank _ hm.1 hm.2.taken hm.2.pendingAcks)
    fun m b hm _ => hblank _ hm.1 hm.2.taken hm.2.pendingAcks) fun restored => ?_
  refine Spec.bind (Q := fun _ => AcksKept arrivals) (Spec.when (fun _ => ?_) fun _ _ hm => hm)
    fun _ => Spec.modify fun _ hm => hm.frame rfl rfl rfl
  refine Spec.read_bind fun m => ?_
  refine Spec.bind ((spec_runEmits_acking laws _).pre fun _ hm => hm.2) fun _ => ?_
  refine Spec.read_bind fun m' => ?_
  exact Spec.bind ((spec_free_acking _).pre fun _ hm => hm.2) fun _ => spec_flush_acks true

/-- When an end-of-file is acknowledged, all copies before it were. -/
theorem spec_onDataMsg_acking {msg : Message α} (htag : arrivals tag.1 tag.2 = some msg) :
    Spec (fun m => Acking arrivals (some tag) ∅ m ∧ InOrder arrivals tag m)
      (onDataMsg C tag msg) (fun _ => AcksKept arrivals) (EofsInOrder arrivals) := by
  have hother : ∀ {x}, EofAt arrivals tag x → ∃ k, msg = .eof x k := by
    rintro x ⟨k, hk⟩
    exact ⟨k, Option.some.inj (htag.symm.trans hk)⟩
  refine Checkpointer.spec_dispatch ?_ ?_ ?_
  · rintro x k rfl
    let earlier : Set (Q × ℕ) := { t | t.1 = tag.1 ∧ t.2 < tag.2 ∧ (arrivals t.1 t.2).isSome }
    refine Spec.bind (Q := fun _ => Acking arrivals (some tag) earlier)
      (((spec_flush_acking false).and (spec_flush_inOrder false)).conseq (fun _ hm => hm) ?_
        fun _ hm => hm.1) fun _ => ?_
    · rintro - m ⟨⟨hm, hnone⟩, horder⟩
      refine ⟨hm.inOrder, hm.taken, hm.held, ?_⟩
      rintro ⟨q, j⟩ ⟨rfl, hj, hsome⟩
      refine (horder j hj hsome).elim id fun htaken => ?_
      rcases hm.taken _ htaken with heq | hack | hpending
      · rw [← Option.some.inj heq] at hj
        exact absurd hj (lt_irrefl _)
      · exact hack
      · rw [hnone] at hpending
        exact absurd hpending List.not_mem_nil
    · refine Spec.bind (spec_onEof_acking laws tag.1 x k) fun _ => ?_
      exact Checkpointer.spec_ack (fun _ hm => hm.inOrder) fun _ hm =>
        hm.ackTag fun _ _ j hj hsome => hm.before (tag.1, j) ⟨rfl, hj, hsome⟩
  · rintro x rfl
    refine Spec.bind ((spec_onAbort_acking x).pre fun _ hm => hm.1) fun _ => ?_
    refine Checkpointer.spec_ack (fun _ hm => hm.inOrder) fun _ hm => hm.ackTag fun y hy => ?_
    obtain ⟨k, hk⟩ := hother hy
    cases hk
  · rintro d rfl
    have hdata : ∀ y, ¬EofAt arrivals tag y := fun y hy => by
      obtain ⟨k, hk⟩ := hother hy
      cases hk
    refine Checkpointer.spec_handleData (R := AcksKept arrivals) ?_ ?_ ?_ ?_ fun _ hm _ => hm
    · exact fun _ hm _ => ⟨hm.1.inOrder, hm.1.ackTag fun y hy => absurd hy (hdata y)⟩
    · exact fun _ hm _ _ => ⟨hm.1.inOrder, hm.1.ackTag fun y hy => absurd hy (hdata y)⟩
    · refine ((spec_onData_stable laws stable_acking (fun _ hm => hm.inOrder) tag.1 d).pre
        fun _ hm => hm.1.1).post fun _ _ hm => hm.recorded hdata
    · exact (spec_flush_acks false).pre fun _ hm => hm.1

theorem spec_call_acking {L D : Node Q F S E β → Prop} (hL : ∀ m, L m → AcksKept arrivals m)
    (hD : ∀ m, D m → EofsInOrder arrivals m) (call : Call Q) :
    Spec (fun m => NodeInv C L D m ∧ Enabled arrivals true call m) (handler C arrivals call)
      (fun _ => AcksKept arrivals) (EofsInOrder arrivals) := by
  cases call with
  | start =>
      refine (spec_start_acking laws).pre fun m hm => ?_
      obtain ⟨hstored, hblank⟩ := hm.1.stored hm.2
      exact ⟨hD m hstored, hblank⟩
  | token t => exact (spec_onRingMsg_acking t).pre fun m hm => hL m (hm.1.live hm.2)
  | deliver tag =>
      change Spec _ (receive C tag (arrivals tag.1 tag.2)) _ _
      cases htag : arrivals tag.1 tag.2 with
      | none =>
          refine Spec.pure fun m hm => ?_
          have hsome := hm.2.2.1
          simp [htag] at hsome
      | some msg =>
          refine Spec.bind (Spec.modify fun m hm => ?_) fun _ => spec_onDataMsg_acking laws htag
          exact ⟨(hL m (hm.1.live hm.2.1)).deliver, inOrder_deliver (hm.2.2.2.2.2 rfl)⟩

end Handlers

/-! ## Queues with late copies -/

/-- An end-of-file of the client comes before the copy. -/
def Late (arrivals : Q → ℕ → Option (Message α)) (tag : Q × ℕ) : Prop :=
  ∃ d, Carries arrivals tag d ∧ ∃ i < tag.2, EofAt arrivals (tag.1, i) d.clientId

open Classical in
/-- The queues without the late copies. -/
noncomputable def firsts (arrivals : Q → ℕ → Option (Message α)) :
    Q → ℕ → Option (Message α) :=
  fun q j => if Late arrivals (q, j) then none else arrivals q j

/-- No message comes in two queues. -/
def OneQueue (arrivals : Q → ℕ → Option (Message α)) : Prop :=
  ∀ tag tag' d d', Carries arrivals tag d → Carries arrivals tag' d' →
    d.identity = d'.identity → tag.1 = tag'.1

/-- In each queue a copy of every message comes before the end-of-files of its client. -/
def FirstBeforeEof (arrivals : Q → ℕ → Option (Message α)) : Prop :=
  ∀ q i j d, Carries arrivals (q, j) d → EofAt arrivals (q, i) d.clientId →
    ∃ j' < i, Carries arrivals (q, j') d

/-- What queues with late copies have to promise. -/
structure FirstQueues (arrivals : Q → ℕ → Option (Message α)) : Prop where
  seq : ∀ tag d, Carries arrivals tag d → 1 ≤ d.seq
  same : SameMessage arrivals
  one : OneQueue arrivals
  first : FirstBeforeEof arrivals

theorem firsts_of_late (h : Late arrivals tag) : firsts arrivals tag.1 tag.2 = none :=
  if_pos h

theorem firsts_of_not_late (h : ¬Late arrivals tag) :
    firsts arrivals tag.1 tag.2 = arrivals tag.1 tag.2 :=
  if_neg h

theorem carries_firsts :
    Carries (firsts arrivals) tag d ↔ Carries arrivals tag d ∧ ¬Late arrivals tag := by
  unfold Carries
  by_cases hlate : Late arrivals tag
  · simp [firsts_of_late hlate, hlate]
  · simp [firsts_of_not_late hlate, hlate]

/-- A copy that is not late comes before the end-of-files of its client. -/
theorem lt_of_not_late {q : Q} {i j : ℕ} (hd : Carries arrivals (q, j) d)
    (hnot : ¬Late arrivals (q, j)) (heof : EofAt arrivals (q, i) d.clientId) : j < i := by
  rcases Nat.lt_trichotomy j i with hlt | rfl | hlt
  · exact hlt
  · exact absurd hd heof.not_carries
  · exact absurd ⟨d, hd, i, hlt, heof⟩ hnot

theorem eq_of_firsts {q : Q} {i : ℕ} {msg : Message α} (h : firsts arrivals q i = some msg) :
    arrivals q i = some msg := by
  by_cases hlate : Late arrivals (q, i)
  · rw [firsts_of_late hlate] at h
    cases h
  · rwa [firsts_of_not_late hlate] at h

/-- A copy in front of the first end-of-file is not late. -/
theorem FirstQueues.exists_first (h : FirstQueues arrivals) {q : Q} {j : ℕ}
    (hd : Carries arrivals (q, j) d) : ∃ j', Carries (firsts arrivals) (q, j') d := by
  classical
  by_cases hlate : Late arrivals (q, j)
  · obtain ⟨d', hd', i, -, heof⟩ := hlate
    have hexists : ∃ i, EofAt arrivals (q, i) d.clientId := by
      obtain rfl := Message.data.inj (Option.some.inj (hd.symm.trans hd'))
      exact ⟨i, heof⟩
    obtain ⟨j', hj', hcopy⟩ := h.first q _ j d hd (Nat.find_spec hexists)
    refine ⟨j', carries_firsts.mpr ⟨hcopy, ?_⟩⟩
    rintro ⟨d'', hd'', i', hi', heof'⟩
    obtain rfl := Message.data.inj (Option.some.inj (hcopy.symm.trans hd''))
    exact Nat.find_min hexists (hi'.trans hj') heof'
  · exact ⟨j, carries_firsts.mpr ⟨hd, hlate⟩⟩

/-- Without the late copies the queues are ordered. -/
theorem FirstQueues.ordered (h : FirstQueues arrivals) : OrderedQueues (firsts arrivals) where
  seq tag d hd := h.seq tag d (carries_firsts.mp hd).1
  same tag tag' d d' hd hd' :=
    h.same tag tag' d d' (carries_firsts.mp hd).1 (carries_firsts.mp hd').1
  eofLast q i j x k d heof hd hx := by
    obtain ⟨hcarries, hnot⟩ := carries_firsts.mp hd
    exact lt_of_not_late hcarries hnot ⟨k, hx ▸ eq_of_firsts heof⟩

/-- They have the same messages. -/
theorem FirstQueues.queueInputs (h : FirstQueues arrivals) {ds : List (Q × DataMsg α)}
    (hds : QueueInputs (firsts arrivals) x ds) : QueueInputs arrivals x ds where
  nodup := hds.nodup
  carried a ha := by
    obtain ⟨hx, j, hj⟩ := hds.carried a ha
    exact ⟨hx, j, (carries_firsts.mp hj).1⟩
  all tag d hd hx := by
    obtain ⟨j, hj⟩ := h.exists_first hd
    exact hds.all _ d hj hx

/-- The checkpoint knows the message of a late copy that may be handed over. -/
theorem FirstQueues.storeKnows_of_late (h : FirstQueues arrivals)
    (hdel : Delivered C (firsts arrivals) tracks m) (hm : AcksKept arrivals m)
    (hd : Carries arrivals tag d) (hlate : Late arrivals tag) (horder : InOrder arrivals tag m) :
    m.StoreKnows d := by
  obtain ⟨q, j⟩ := tag
  obtain ⟨d', hd', i, hi, heof⟩ := hlate
  obtain rfl := Message.data.inj (Option.some.inj (hd.symm.trans hd'))
  obtain ⟨k, hk⟩ := heof
  have hack : (q, i) ∈ m.acked := by
    refine (horder i hi (Option.isSome_of_eq_some hk)).elim id fun htaken => ?_
    rcases (hm.taken _ htaken).resolve_left (by simp) with hack | hpending
    · exact hack
    · exact absurd ⟨k, hk⟩ (hm.held _ hpending d.clientId)
  -- every copy that is not late comes before the end-of-file
  have hcopies : ∀ {t}, Carries (firsts arrivals) t d → t ∈ m.acked := by
    rintro ⟨q', j'⟩ hcopy
    obtain ⟨hcarries, hnot⟩ := carries_firsts.mp hcopy
    obtain rfl : q' = q := h.one _ _ d d hcarries hd rfl
    exact hm.inOrder q' i _ ⟨k, hk⟩ hack j' (lt_of_not_late hcarries hnot ⟨k, hk⟩)
      (Option.isSome_of_eq_some hcarries)
  obtain ⟨j', hcopy⟩ := h.exists_first hd
  rcases hdel.1.acked _ d hcopy (hcopies hcopy) with hknown | ⟨t, ht, hout⟩
  · exact hknown
  · exact absurd (hcopies ht) hout

/-! ## Runs -/

section Runs

variable [DecidableEq Q]

/-- What calls keep on the queues without the late copies, they keep on the queues. -/
theorem spec_call_firsts {L D D' : Node Q F S E β → Prop} (h : FirstQueues arrivals)
    (laws : TracksEofs C tracks)
    (hcall : ∀ call, Spec (fun m => NodeInv C L D' m ∧ Enabled (firsts arrivals) true call m)
      (handler C (firsts arrivals) call) (fun _ => L) D)
    (hdelivered : ∀ m, L m → Delivered C (firsts arrivals) tracks m)
    (hdrop : ∀ m tag, L m → (∀ d, ¬Carries (firsts arrivals) tag d) →
      D (m.deliver tag) ∧ L ((m.deliver tag).ackTag tag)) (call : Call Q) :
    Spec (fun m => NodeInv C (fun m => L m ∧ AcksKept arrivals m)
        (fun m => D' m ∧ EofsInOrder arrivals m) m ∧ Enabled arrivals true call m)
      (handler C arrivals call) (fun _ m => L m ∧ AcksKept arrivals m)
      (fun m => D m ∧ EofsInOrder arrivals m) := by
  refine (Spec.and ?_ (spec_call_acking laws (fun _ hm => hm.2) (fun _ hm => hm.2) call)).pre
    fun _ hm => ⟨hm, hm⟩
  have hinv : ∀ {m : Node Q F S E β}, NodeInv C (fun m => L m ∧ AcksKept arrivals m)
      (fun m => D' m ∧ EofsInOrder arrivals m) m → NodeInv C L D' m :=
    fun hm => hm.mono (fun _ hm => hm.1) fun _ hm => hm.1
  cases call with
  | start => exact (hcall .start).pre fun _ hm => ⟨hinv hm.1, hm.2⟩
  | token t => exact (hcall (.token t)).pre fun _ hm => ⟨hinv hm.1, hm.2⟩
  | deliver tag =>
      by_cases hlate : Late arrivals tag
      · have hnone : ∀ d, ¬Carries (firsts arrivals) tag d := fun d hd =>
          (carries_firsts.mp hd).2 hlate
        obtain ⟨d, hd, -⟩ := id hlate
        change Spec _ (receive C tag (arrivals tag.1 tag.2)) _ _
        rw [show arrivals tag.1 tag.2 = some (.data d) from hd]
        refine Spec.bind (Q := fun _ m => ∃ m₀, L m₀ ∧ m₀.StoreKnows d ∧ m = m₀.deliver tag)
          (Spec.modify fun m hm => ?_) fun _ => ?_
        · obtain ⟨hL, hsettled⟩ := hm.1.live hm.2.1
          exact ⟨m, hL, h.storeKnows_of_late (hdelivered m hL) hsettled hd hlate
            (hm.2.2.2.2.2 rfl), rfl⟩
        · have hdropped : ∀ m : Node Q F S E β, (∃ m₀, L m₀ ∧ m₀.StoreKnows d ∧
              m = m₀.deliver tag) → D m ∧ L (m.ackTag tag) := by
            rintro _ ⟨m₀, hL, -, rfl⟩
            exact hdrop m₀ tag hL hnone
          refine Checkpointer.spec_handleData (R := fun _ => False)
            (fun m hm _ => hdropped m hm) (fun m hm _ _ => hdropped m hm) ?_
            (fun _ hm => hm.1.elim) fun _ hm _ => hm.elim
          rintro _ ⟨⟨m₀, hL, hknown, rfl⟩, haborted, hnew⟩
          exact (((hdelivered m₀ hL).2.known d hknown).elim hnew haborted).elim
      · change Spec _ (receive C tag (arrivals tag.1 tag.2)) _ _
        rw [← firsts_of_not_late hlate]
        refine (hcall (.deliver tag)).pre fun m hm => ⟨hinv hm.1, ?_⟩
        obtain ⟨hup, hsome, hack, htaken, horder⟩ := hm.2
        refine ⟨hup, ?_, hack, htaken, fun hfifo i hi hfirst => horder hfifo i hi ?_⟩
        · rwa [firsts_of_not_late hlate]
        · obtain ⟨msg, hmsg⟩ := Option.isSome_iff_exists.mp hfirst
          exact Option.isSome_of_eq_some (eq_of_firsts hmsg)

/-- What holds between two calls and what a crash leaves. -/
def LateInv (C : Controller Q F S E α β) (view : UUID → F → V) (f₀ : F)
    (arrivals : Q → ℕ → Option (Message α)) (tracks : E → Q → UUID → Prop) :
    Node Q F S E β → Prop :=
  NodeInv C
    (fun m => ((Delivered C (firsts arrivals) tracks m ∧ Steady C m) ∧
      Remembers C view f₀ (firsts arrivals) m ∧ Exact C view f₀ (firsts arrivals) m) ∧
        AcksKept arrivals m)
    (fun m => ((StoredDeliveries C (firsts arrivals) tracks m ∧ Recoverable C m) ∧
      Exact C view f₀ (firsts arrivals) m ∧ Unrestored C view f₀ m) ∧ EofsInOrder arrivals m)

variable {view : UUID → F → V} {f₀ : F}

theorem spec_call_late (hC : Stateful C) (hview : C.Apportioned view) (laws : TracksEofs C tracks)
    (h : FirstQueues arrivals) (call : Call Q) :
    Spec (fun m => LateInv C view f₀ arrivals tracks m ∧ Enabled arrivals true call m)
      (handler C arrivals call)
      (fun _ m => ((Delivered C (firsts arrivals) tracks m ∧ Steady C m) ∧
        Remembers C view f₀ (firsts arrivals) m ∧ Exact C view f₀ (firsts arrivals) m) ∧
          AcksKept arrivals m)
      (fun m => ((StoredDeliveries C (firsts arrivals) tracks m ∧ Recoverable C m) ∧
        Exact C view f₀ (firsts arrivals) m) ∧ EofsInOrder arrivals m) := by
  refine spec_call_firsts h laws (fun call => ?_) (fun m hm => hm.1.1) (fun m tag hm htag => ?_)
    call
  · exact ((spec_call_replay hC laws h.ordered call).and
      (spec_call_exact hC hview laws h.ordered call)).pre fun m hm =>
        ⟨⟨ExactInv.replay hm.1, hm.2⟩, hm⟩
  · obtain ⟨⟨hdel, hsteady⟩, hmem, hexact⟩ := hm
    have hdel' := hdel.deliver_control htag
    have hsteady' : Steady C (m.deliver tag) := hsteady.frame rfl rfl rfl
    refine ⟨⟨⟨hdel'.1, hsteady'.1⟩, hexact.frame rfl rfl⟩, ⟨?_, ?_⟩, ?_, ?_⟩
    · exact hdel'.ack_control htag
    · exact hsteady.frame rfl rfl rfl
    · exact ⟨hmem.aborted, hmem.consumed⟩
    · exact hexact.frame rfl rfl

theorem lateInv_reach (hC : Stateful C) (hview : C.Apportioned view)
    (hstarts : C.StartsFrom view f₀) (laws : TracksEofs C tracks) (h : FirstQueues arrivals)
    {crashable : Node Q F S E β → Prop}
    (hm : (system C arrivals true crashable).Reach (Machine.initial (C.fresh f₀)) m) :
    LateInv C view f₀ arrivals tracks m := by
  have hreboot : ∀ (m : Node Q F S E β) k,
      ((StoredDeliveries C (firsts arrivals) tracks m ∧ Recoverable C m) ∧
        Exact C view f₀ (firsts arrivals) m) ∧ EofsInOrder arrivals m →
        ((StoredDeliveries C (firsts arrivals) tracks (m.reboot C.provider k) ∧
          Recoverable C (m.reboot C.provider k)) ∧
            Exact C view f₀ (firsts arrivals) (m.reboot C.provider k) ∧
              Unrestored C view f₀ (m.reboot C.provider k)) ∧
                EofsInOrder arrivals (m.reboot C.provider k) := by
    rintro m k ⟨⟨⟨hstored, g, hg⟩, hexact⟩, horder⟩
    exact ⟨⟨⟨⟨hstored.acked, hstored.tracked, hstored.announced⟩, g, hg.frame rfl rfl⟩,
      hexact.frame rfl rfl, fun x => hstarts.again x k m.state.fn⟩, horder⟩
  refine nodeInv_reach ⟨?_, ?_⟩ (fun call => ?_) ?_ hm
  · exact ((exactInv_reach hC hview hstarts laws h.ordered (.refl : (system C (firsts arrivals)
      true crashable).Reach (Machine.initial (C.fresh f₀)) _)).stored rfl).1
  · exact fun q i x _ hack => absurd hack (Finset.notMem_empty _)
  · exact (spec_call_late hC hview laws h call).conseq (fun _ hm => hm) (fun _ _ hm => hm)
      fun m hm _ k => hreboot m k hm
  · rintro m (⟨⟨⟨hdel, hsteady⟩, -, hexact⟩, hsettled⟩ | ⟨⟨hstored, hexact, -⟩, horder⟩) - k
    · exact hreboot m k ⟨⟨⟨hdel.1, hsteady.1⟩, hexact⟩, hsettled.inOrder⟩
    · exact hreboot m k ⟨⟨hstored, hexact⟩, horder⟩

/-- With late copies, too, a stateful node is replay-safe and sends the results of the clients
that it reports. -/
theorem late_visits (hC : Stateful C) (hview : C.Apportioned view)
    (hstarts : C.StartsFrom view f₀) (laws : TracksEofs C tracks) (h : FirstQueues arrivals)
    {crashable : Node Q F S E β → Prop}
    (hm : (system C arrivals true crashable).Visits (Machine.initial (C.fresh f₀)) m) :
    ReplaySafe m.log ∧ Exact C view f₀ (firsts arrivals) m := by
  have hboth : Recoverable C m ∧ Exact C view f₀ (firsts arrivals) m := by
    refine node_visits (O := fun m => Recoverable C m ∧ Exact C view f₀ (firsts arrivals) m)
      (fun m hm => lateInv_reach hC hview hstarts laws h hm) (fun m hm => ⟨hm.1.1.2.1, hm.1.2.2⟩)
      (fun m hm => ⟨hm.1.1.2, hm.1.2.1⟩) (fun call => ?_) hm
    exact (spec_call_late hC hview laws h call).conseq (fun _ hm => hm) (fun _ _ _ => trivial)
      fun m hm => ⟨hm.1.1.2, hm.1.2⟩
  obtain ⟨⟨g, hg⟩, hexact⟩ := hboth
  exact ⟨⟨hg.same, fun x sent he => (hg.reported x sent he).1⟩, hexact⟩

end Runs

end RingNode
