import MoneyLaundering.Checkpoint.Checkpointer

/-!
# Exactly-once effect of a checkpointed node

A checkpointer over any business function whose `restoreState` undoes its
`snapshotState`.  In every state a run passes through, the durable business state
is the result of applying the messages of the durable dedup table once each, and
a delivered message leaves no trace there only while one of its copies is still
unacknowledged.
-/

open Crash

/-- A business function that its snapshots describe completely. -/
structure BusinessFn (α C S : Type) where
  init : C
  apply : DataMsg α → C → C
  snapshotState : C → S
  restoreState : S → C → C
  undoes : ∀ c, restoreState (snapshotState c) init = c

namespace BusinessFn

variable {α C S τ : Type}

/-- The function as the checkpointer sees it: all of its state is volatile. -/
def provider (F : BusinessFn α C S) : Snapshotable C S where
  fresh _ _ := F.init
  snapshotState c := (F.snapshotState c, c)
  restoreState := F.restoreState
  clearStaleSpill c := c

/-- The state after a list of messages. -/
def applyAll (F : BusinessFn α C S) (msgs : List (DataMsg α)) : C :=
  msgs.foldl (fun c msg => F.apply msg c) F.init

/-- The business state that the durable checkpoint describes. -/
def durableState {ω : Type} (F : BusinessFn α C S) (m : Machine C S τ ω) : C :=
  match m.store with
  | none => F.init
  | some b => F.restoreState b.state F.init

end BusinessFn

namespace Checkpointer

/-- What can happen to a consuming process. -/
inductive Call (τ : Type) where
  | start
  | deliver (tag : τ)
  | markAborted (clientId : UUID)
  | flush (force : Bool)

section Contract

variable {α C S τ : Type} [DecidableEq τ]

/-- A process calling one checkpointer.  A copy is redelivered as long as it is
unacknowledged, but not twice to the same process; the history collects the
clients that were marked aborted. -/
def contract (F : BusinessFn α C S) (every : ℕ) (content : τ → DataMsg α) :
    System Effect (Machine C S τ UUID) (Call τ) (UUID → ℕ → ℕ) where
  enabled
    | .start, m => m.up = false
    | .deliver tag, m => m.up = true ∧ tag ∉ m.acked ∧ tag ∉ m.taken
    | .markAborted _, m => m.up = true
    | .flush _, m => m.up = true
  handler
    | .start => do
      let _ ← restore F.provider
      Prog.modify fun m => { m with up := true }
    | .deliver tag => do
      Prog.modify (Machine.deliver tag)
      handleData F.provider every tag (content tag)
        (Prog.modify fun m => { m with state := F.apply (content tag) m.state })
    | .markAborted clientId => do
      markAborted clientId
      Prog.modify fun m => m.logged clientId
    | .flush force => flush F.provider force
  crashable _ _ _ := True
  reboot _ := Machine.reboot F.provider

/-! ## The invariant -/

/-- A state and a dedup table are explained by one list of messages. -/
def Explains (F : BusinessFn α C S) (content : τ → DataMsg α)
    (recorded : ProducerId × ℕ → Prop) (c : C) (msgs : List (DataMsg α)) :
    Prop :=
  c = F.applyAll msgs ∧ (msgs.map DataMsg.identity).Nodup ∧
    (∀ id, recorded id ↔ id ∈ msgs.map DataMsg.identity) ∧
      ∀ msg ∈ msgs, ∃ tag, content tag = msg

/-- The part of the invariant that a crash preserves. -/
structure Durable (F : BusinessFn α C S) (content : τ → DataMsg α)
    (m : Machine C S τ UUID) : Prop where
  explained : ∃ msgs,
    Explains F content m.StoreRecorded (F.durableState m) msgs
  aborted : ∀ b, m.store = some b → ∀ c ∈ b.aborted, c ∈ m.log
  /-- No acknowledged effect is lost. -/
  kept : ∀ tag ∈ m.delivered, (content tag).clientId ∉ m.log →
    m.StoreRecorded (content tag).identity ∨
      ∃ tag' ∈ m.delivered, tag' ∉ m.acked ∧ content tag' = content tag

/-- The part of the invariant about a consuming process. -/
structure Live (F : BusinessFn α C S) (content : τ → DataMsg α)
    (m : Machine C S τ UUID) : Prop where
  explained : ∃ msgs, Explains F content m.dedup.Recorded m.state msgs
  aborted : ∀ c ∈ m.aborted, c ∈ m.log
  extends_store : ∀ id, m.StoreRecorded id → m.dedup.Recorded id
  /-- What is not durable yet has a held acknowledgement. -/
  pending : ∀ id, m.dedup.Recorded id → m.StoreRecorded id ∨
    ∃ tag ∈ m.pendingAcks, (content tag).identity = id
  clean : m.dirty = false → ∀ id, m.dedup.Recorded id → m.StoreRecorded id
  held : ∀ tag ∈ m.pendingAcks, tag ∉ m.acked ∧ tag ∈ m.taken ∧
    m.dedup.Recorded (content tag).identity
  taken : m.taken ⊆ m.delivered

/-- A process that has not restored anything yet. -/
structure Blank (F : BusinessFn α C S) (m : Machine C S τ UUID) : Prop where
  state : m.state = F.init
  dedup : m.dedup = .fresh
  pendingAcks : m.pendingAcks = []
  aborted : m.aborted = ∅
  taken : m.taken = ∅

/-- The invariant between two calls. -/
def Consistent (F : BusinessFn α C S) (content : τ → DataMsg α)
    (m : Machine C S τ UUID) : Prop :=
  Durable F content m ∧ (m.up = true → Live F content m) ∧
    (m.up = false → Blank F m)

variable {F : BusinessFn α C S} {content : τ → DataMsg α} {every : ℕ}
  {m : Machine C S τ UUID}

omit [DecidableEq τ] in
theorem consistent_initial :
    Consistent F content (Machine.initial F.init) := by
  refine ⟨⟨⟨[], ?_⟩, ?_, ?_⟩, ?_, fun _ => ⟨rfl, rfl, rfl, rfl, rfl⟩⟩
  · refine ⟨rfl, List.nodup_nil, ?_, by simp⟩
    simp [Machine.StoreRecorded, Machine.initial]
  · simp [Machine.initial]
  · simp [Machine.initial]
  · simp [Machine.initial]

omit [DecidableEq τ] in
theorem Durable.reboot (h : Durable F content m) (k : UUID → ℕ → ℕ) :
    Consistent F content (m.reboot F.provider k) := by
  refine ⟨⟨h.explained, h.aborted, h.kept⟩, ?_,
    fun _ => ⟨rfl, rfl, rfl, rfl, rfl⟩⟩
  simp [Machine.reboot]

/-- Acknowledging a copy is safe when its effect is durable, when another copy
is still unacknowledged, or when its client was aborted. -/
theorem Durable.ackTag (h : Durable F content m) {tag : τ}
    (hsafe : (content tag).clientId ∈ m.log ∨
      m.StoreRecorded (content tag).identity ∨
        ∃ tag' ∈ m.delivered, tag' ∉ m.acked ∧ tag' ≠ tag ∧
          content tag' = content tag) :
    Durable F content (m.ackTag tag) := by
  refine ⟨h.explained, h.aborted, ?_⟩
  intro t ht hlog
  rcases h.kept t ht hlog with hrec | ⟨t', ht', hack, heq⟩
  · exact Or.inl hrec
  · by_cases htag : t' = tag
    · subst htag
      rcases hsafe with hab | hrec | ⟨s, hs, hsack, hne, hseq⟩
      · rw [heq] at hab
        exact absurd hab hlog
      · rw [heq] at hrec
        exact Or.inl hrec
      · refine Or.inr ⟨s, hs, ?_, hseq.trans heq⟩
        simp [Machine.ackTag, hne, hsack]
    · refine Or.inr ⟨t', ht', ?_, heq⟩
      simp [Machine.ackTag, htag, hack]

/-- Acknowledging copies whose effects are durable is safe. -/
theorem Durable.ackAll (h : Durable F content m) (tags : List τ)
    (hsafe : ∀ tag ∈ tags, m.StoreRecorded (content tag).identity) :
    Durable F content (m.ackAll tags) := by
  refine ⟨h.explained, h.aborted, ?_⟩
  intro t ht hlog
  rcases h.kept t ht hlog with hrec | ⟨t', ht', hack, heq⟩
  · exact Or.inl hrec
  · by_cases hmem : t' ∈ tags
    · have hrec := hsafe t' hmem
      rw [heq] at hrec
      exact Or.inl hrec
    · refine Or.inr ⟨t', ht', ?_, heq⟩
      simp [Machine.ackAll, hmem, hack]

theorem Live.ackTag (h : Live F content m) {tag : τ}
    (htag : tag ∉ m.pendingAcks) : Live F content (m.ackTag tag) := by
  refine ⟨h.explained, h.aborted, h.extends_store, h.pending, h.clean, ?_,
    h.taken⟩
  intro t ht
  obtain ⟨hack, htaken, hrec⟩ := h.held t ht
  refine ⟨?_, htaken, hrec⟩
  have hne : t ≠ tag := fun heq => htag (heq ▸ ht)
  simp [Machine.ackTag, hne, hack]

/-! ## One step of each operation -/

omit [DecidableEq τ] in
/-- After a save the durable table is the table in memory. -/
theorem storeRecorded_checkpointed (id : ProducerId × ℕ) :
    (m.checkpointed F.provider).StoreRecorded id ↔ m.dedup.Recorded id := by
  simp [Machine.StoreRecorded, Machine.checkpointed, Machine.saved,
    Machine.snapshotted, Blob.Recorded]

omit [DecidableEq τ] in
theorem Live.checkpointed_explained (h : Live F content m) : ∃ msgs,
    Explains F content (m.checkpointed F.provider).StoreRecorded
      (F.durableState (m.checkpointed F.provider)) msgs := by
  obtain ⟨msgs, hstate, hnodup, hiff, hreal⟩ := h.explained
  refine ⟨msgs, ?_, hnodup, ?_, hreal⟩
  · exact (F.undoes m.state).trans hstate
  · intro id
    rw [storeRecorded_checkpointed]
    exact hiff id

omit [DecidableEq τ] in
theorem Durable.checkpointed (h : Durable F content m)
    (hlive : Live F content m) :
    Durable F content (m.checkpointed F.provider) := by
  refine ⟨hlive.checkpointed_explained, ?_, ?_⟩
  · intro b hb c hc
    obtain rfl := Option.some.inj hb
    exact hlive.aborted c hc
  · intro tag htag hlog
    refine (h.kept tag htag hlog).imp_left fun hrec => ?_
    rw [storeRecorded_checkpointed]
    exact hlive.extends_store _ hrec

omit [DecidableEq τ] in
theorem Live.checkpointed (h : Live F content m) :
    Live F content (m.checkpointed F.provider) := by
  refine ⟨h.explained, h.aborted, ?_, ?_, ?_, h.held, h.taken⟩
  · intro id hid
    exact (storeRecorded_checkpointed id).mp hid
  · intro id hid
    exact Or.inl ((storeRecorded_checkpointed id).mpr hid)
  · intro _ id hid
    exact (storeRecorded_checkpointed id).mpr hid

/-- Once the table in memory is durable, all held acknowledgements may go. -/
theorem Consistent.released (h : Durable F content m)
    (hlive : Live F content m)
    (hsaved : ∀ id, m.dedup.Recorded id → m.StoreRecorded id) :
    Durable F content m.released ∧ Live F content m.released := by
  have hack := h.ackAll m.pendingAcks fun tag htag =>
    hsaved _ (hlive.held tag htag).2.2
  refine ⟨⟨hack.explained, hack.aborted, hack.kept⟩,
    hlive.explained, hlive.aborted, hlive.extends_store, ?_, fun _ => hsaved,
    ?_, hlive.taken⟩
  · exact fun id hid => Or.inl (hsaved id hid)
  · simp [Machine.released]

/-- The precondition of every call on a consuming process. -/
def Running (F : BusinessFn α C S) (content : τ → DataMsg α)
    (m : Machine C S τ UUID) : Prop :=
  m.up = true ∧ Durable F content m ∧ Live F content m

omit [DecidableEq τ] in
theorem Running.consistent (h : Running F content m) :
    Consistent F content m := by
  refine ⟨h.2.1, fun _ => h.2.2, fun hdown => ?_⟩
  exact absurd (h.1.symm.trans hdown) (by simp)

theorem spec_flush_running (force : Bool) :
    Spec (Running F content) (checkpointAndFlush F.provider force)
      (fun _ => Running F content) (Durable F content) := by
  refine spec_checkpointAndFlush
    (R := fun m => Running F content m ∧
      ∀ id, m.dedup.Recorded id → m.StoreRecorded id) ?_ ?_ ?_ ?_
  · rintro m ⟨hup, hdur, hlive⟩ -
    refine ⟨hdur, hdur, ⟨hup, hdur.checkpointed hlive, hlive.checkpointed⟩, ?_⟩
    exact fun id hid => (storeRecorded_checkpointed id).mpr hid
  · rintro m ⟨hup, hdur, hlive⟩ hdirty -
    exact ⟨⟨hup, hdur, hlive⟩, hlive.clean hdirty⟩
  · rintro m tags rest ⟨⟨-, hdur, hlive⟩, hsaved⟩ hsplit
    refine hdur.ackAll tags fun tag htag => hsaved _ (hlive.held tag ?_).2.2
    rw [hsplit]
    exact List.mem_append_left _ htag
  · rintro m ⟨⟨hup, hdur, hlive⟩, hsaved⟩
    exact ⟨hup, Consistent.released hdur hlive hsaved⟩

/-- A delivery that was handed over and is not handled yet. -/
def Handling (F : BusinessFn α C S) (content : τ → DataMsg α) (tag : τ)
    (m : Machine C S τ UUID) : Prop :=
  Running F content m ∧ tag ∈ m.taken ∧ tag ∉ m.acked ∧ tag ∉ m.pendingAcks

theorem Running.deliver (h : Running F content m) {tag : τ}
    (hack : tag ∉ m.acked) (htaken : tag ∉ m.taken) :
    Handling F content tag (m.deliver tag) := by
  obtain ⟨hup, hdur, hlive⟩ := h
  refine ⟨⟨hup, ⟨hdur.explained, hdur.aborted, ?_⟩, ?_⟩, ?_, hack, ?_⟩
  · intro t ht hlog
    rcases Finset.mem_insert.mp ht with rfl | ht
    · exact Or.inr ⟨t, ht, hack, rfl⟩
    · refine (hdur.kept t ht hlog).imp_right ?_
      rintro ⟨t', ht', hrest⟩
      exact ⟨t', Finset.mem_insert_of_mem ht', hrest⟩
  · refine ⟨hlive.explained, hlive.aborted, hlive.extends_store, hlive.pending,
      hlive.clean, ?_, Finset.insert_subset_insert tag hlive.taken⟩
    intro t ht
    obtain ⟨hack', htaken', hrec⟩ := hlive.held t ht
    exact ⟨hack', Finset.mem_insert_of_mem htaken', hrec⟩
  · exact Finset.mem_insert_self tag m.taken
  · exact fun hmem => htaken (hlive.held tag hmem).2.1

omit [DecidableEq τ] in
/-- Applying a new message and recording it. -/
theorem Handling.recorded {tag : τ} (h : Handling F content tag m)
    (hseq : (content tag).seq ≠ 0)
    (hnew : ¬m.dedup.Recorded (content tag).identity) :
    Running F content (Machine.recorded tag (content tag)
      { m with state := F.apply (content tag) m.state }) := by
  obtain ⟨⟨hup, hdur, hlive⟩, htaken, hack, -⟩ := h
  refine ⟨hup, ⟨hdur.explained, hdur.aborted, hdur.kept⟩, ?_⟩
  obtain ⟨msgs, hstate, hnodup, hiff, hreal⟩ := hlive.explained
  have hrecord : ∀ id, (m.dedup.record (content tag).producerId
      (content tag).seq).Recorded id ↔
        id = (content tag).identity ∨ m.dedup.Recorded id :=
    fun id => Deduplicator.recorded_record hseq id
  refine ⟨⟨msgs ++ [content tag], ?_, ?_, ?_, ?_⟩, hlive.aborted, ?_, ?_, ?_,
    ?_, hlive.taken⟩
  · simp [BusinessFn.applyAll, hstate, Machine.recorded]
  · rw [List.map_append, List.map_singleton]
    refine hnodup.append (List.nodup_singleton _) ?_
    intro id hid hid'
    rw [List.mem_singleton.mp hid'] at hid
    exact hnew ((hiff _).mpr hid)
  · intro id
    rw [Machine.recorded, hrecord, hiff, List.map_append, List.mem_append,
      List.map_singleton, List.mem_singleton, or_comm]
  · intro msg hmsg
    rcases List.mem_append.mp hmsg with hmsg | hmsg
    · exact hreal msg hmsg
    · exact ⟨tag, (List.mem_singleton.mp hmsg).symm⟩
  · intro id hid
    exact (hrecord id).mpr (Or.inr (hlive.extends_store id hid))
  · intro id hid
    rcases (hrecord id).mp hid with rfl | hid
    · exact Or.inr ⟨tag, by simp [Machine.recorded], rfl⟩
    · refine (hlive.pending id hid).imp_right ?_
      rintro ⟨t, ht, hid⟩
      exact ⟨t, List.mem_append_left _ ht, hid⟩
  · intro hdirty
    exact absurd hdirty (by simp [Machine.recorded])
  · intro t ht
    rcases List.mem_append.mp ht with ht | ht
    · obtain ⟨hack', htaken', hrec⟩ := hlive.held t ht
      exact ⟨hack', htaken', (hrecord _).mpr (Or.inr hrec)⟩
    · obtain rfl := List.mem_singleton.mp ht
      exact ⟨hack, htaken, (hrecord _).mpr (Or.inl rfl)⟩

/-- Acknowledging a duplicate: its first copy is durable or still pending. -/
theorem Handling.ackTag {tag : τ} (h : Handling F content tag m)
    (hsame : ∀ t t', (content t).identity = (content t').identity →
      content t = content t')
    (hdrop : (content tag).clientId ∈ m.aborted ∨
      m.dedup.Recorded (content tag).identity) :
    Running F content (m.ackTag tag) := by
  obtain ⟨⟨hup, hdur, hlive⟩, -, hack, hpend⟩ := h
  refine ⟨hup, hdur.ackTag ?_, hlive.ackTag hpend⟩
  rcases hdrop with hab | hrec
  · exact Or.inl (hlive.aborted _ hab)
  · refine Or.inr ((hlive.pending _ hrec).imp_right ?_)
    rintro ⟨t, ht, hid⟩
    obtain ⟨hack', htaken', -⟩ := hlive.held t ht
    have hne : t ≠ tag := fun heq => hpend (heq ▸ ht)
    exact ⟨t, hlive.taken htaken', hack', hne, hsame _ _ hid⟩

theorem spec_deliver (hseq : ∀ tag, (content tag).seq ≠ 0)
    (hsame : ∀ t t', (content t).identity = (content t').identity →
      content t = content t') (tag : τ) :
    Spec (fun m => Running F content m ∧ tag ∉ m.acked ∧ tag ∉ m.taken)
      ((contract F every content).handler (.deliver tag))
      (fun _ => Running F content) (Durable F content) := by
  refine Spec.bind (Q := fun _ => Handling F content tag)
    (Spec.modify ?_) fun _ => ?_
  · rintro m ⟨hrun, hack, htaken⟩
    exact hrun.deliver hack htaken
  · refine spec_handleData (R := Running F content) ?_ ?_ ?_ ?_ ?_
    · intro m hm hab
      exact ⟨hm.1.2.1, hm.ackTag hsame (Or.inl hab)⟩
    · intro m hm _ hdup
      exact ⟨hm.1.2.1, hm.ackTag hsame (Or.inr hdup)⟩
    · refine Spec.modify ?_
      rintro m ⟨hm, -, hnew⟩
      exact hm.recorded (hseq tag) hnew
    · exact (spec_flush_running false).pre fun _ hm => hm.1
    · exact fun _ hm _ => hm

theorem spec_markAborted (every : ℕ) (clientId : UUID) :
    Spec (Running F content)
      ((contract F every content).handler (.markAborted clientId))
      (fun _ => Running F content) (Durable F content) := by
  refine Spec.bind (Q := fun _ t => ∃ m, Running F content m ∧ t =
    { m with aborted := insert clientId m.aborted, dirty := true })
    (Spec.modify fun m hm => ⟨m, hm, rfl⟩) fun _ => Spec.modify ?_
  rintro _ ⟨m, ⟨hup, hdur, hlive⟩, rfl⟩
  refine ⟨hup, ⟨hdur.explained, ?_, ?_⟩, hlive.explained, ?_,
    hlive.extends_store, hlive.pending, ?_, hlive.held, hlive.taken⟩
  · exact fun b hb c hc => List.mem_cons_of_mem _ (hdur.aborted b hb c hc)
  · intro tag htag hlog
    exact hdur.kept tag htag fun hmem => hlog (List.mem_cons_of_mem _ hmem)
  · intro c hc
    rcases Finset.mem_insert.mp hc with rfl | hc
    · exact List.mem_cons_self
    · exact List.mem_cons_of_mem _ (hlive.aborted c hc)
  · intro hdirty
    exact absurd hdirty (by simp [Machine.logged])

omit [DecidableEq τ] in
/-- A restarted process takes over exactly what the checkpoint describes. -/
theorem Durable.live_restored {b : Blob S} (h : Durable F content m)
    (hblank : Blank F m) (hb : m.store = some b) :
    Live F content (m.restored F.provider b) := by
  have hrec : ∀ id, m.StoreRecorded id ↔
      (Deduplicator.restore b.dedup).Recorded id := by
    intro id
    constructor
    · rintro ⟨b', hb', hid⟩
      obtain rfl : b = b' := Option.some.inj (hb.symm.trans hb')
      exact hid
    · exact fun hid => ⟨b, hb, hid⟩
  obtain ⟨msgs, hdurable, hnodup, hiff, hreal⟩ := h.explained
  refine ⟨⟨msgs, ?_, hnodup, fun id => (hrec id).symm.trans (hiff id), hreal⟩,
    h.aborted b hb, fun id => (hrec id).mp,
    fun id hid => Or.inl ((hrec id).mpr hid), fun _ id => (hrec id).mpr, ?_, ?_⟩
  · simp only [BusinessFn.durableState, hb] at hdurable
    simpa [Machine.restored, BusinessFn.provider, hblank.state] using hdurable
  · simp [Machine.restored, hblank.pendingAcks]
  · simp [Machine.restored, hblank.taken]

omit [DecidableEq τ] in
/-- Without a checkpoint a process starts from nothing. -/
theorem Blank.live (hblank : Blank F m) (hnone : m.store = none) :
    Live F content m := by
  have hrec : ∀ id, ¬m.StoreRecorded id := by
    rintro id ⟨b, hb, -⟩
    simp [hnone] at hb
  refine ⟨⟨[], ?_⟩, ?_, fun id hid => absurd hid (hrec id), ?_, ?_, ?_, ?_⟩
  · exact ⟨hblank.state, List.nodup_nil, by simp [hblank.dedup], by simp⟩
  · simp [hblank.aborted]
  · simp [hblank.dedup]
  · simp [hblank.dedup]
  · simp [hblank.pendingAcks]
  · simp [hblank.taken]

theorem spec_start :
    Spec (fun m => Durable F content m ∧ Blank F m)
      ((contract F every content).handler .start)
      (fun _ => Running F content) (Durable F content) := by
  refine Spec.bind (Q := fun _ m => Durable F content m ∧ Live F content m)
    (spec_restore (fun _ hm => hm.1) ?_ ?_) fun _ => Spec.modify ?_
  · rintro m ⟨hdur, hblank⟩ hnone
    exact ⟨hdur, hblank.live hnone⟩
  · rintro m b ⟨hdur, hblank⟩ hb
    exact ⟨⟨hdur.explained, hdur.aborted, hdur.kept⟩,
      hdur.live_restored hblank hb⟩
  · rintro m ⟨hdur, hlive⟩
    exact ⟨rfl, ⟨hdur.explained, hdur.aborted, hdur.kept⟩,
      ⟨hlive.explained, hlive.aborted, hlive.extends_store, hlive.pending,
        hlive.clean, hlive.held, hlive.taken⟩⟩

/-! ## The contract -/

/-- Every call restores the invariant and keeps its durable part wherever it is
cut. -/
theorem spec_call (every : ℕ) (hseq : ∀ tag, (content tag).seq ≠ 0)
    (hsame : ∀ t t', (content t).identity = (content t').identity →
      content t = content t') (call : Call τ) :
    Spec (fun m => Consistent F content m ∧
        (contract F every content).enabled call m)
      ((contract F every content).handler call)
      (fun _ => Running F content) (Durable F content) := by
  have hrun : ∀ m, Consistent F content m → m.up = true →
      Running F content m := fun m hm hup => ⟨hup, hm.1, hm.2.1 hup⟩
  cases call with
  | start =>
      refine spec_start.pre ?_
      rintro m ⟨hm, hdown⟩
      exact ⟨hm.1, hm.2.2 hdown⟩
  | deliver tag =>
      refine (spec_deliver hseq hsame tag).pre ?_
      rintro m ⟨hm, hup, hack, htaken⟩
      exact ⟨hrun m hm hup, hack, htaken⟩
  | markAborted clientId =>
      refine (spec_markAborted every clientId).pre ?_
      rintro m ⟨hm, hup⟩
      exact hrun m hm hup
  | flush force =>
      refine (spec_flush_running force).pre ?_
      rintro m ⟨hm, hup⟩
      exact hrun m hm hup

/-- Exactly-once effect.  In every visited state the durable business state is
the result of applying, once each, exactly the messages of the durable dedup
table, and every delivered message of a client never marked aborted is among
them once no delivered copy of it is unacknowledged. -/
theorem exactly_once (F : BusinessFn α C S) (every : ℕ)
    (content : τ → DataMsg α) (hseq : ∀ tag, 1 ≤ (content tag).seq)
    (hsame : ∀ t t', (content t).identity = (content t').identity →
      content t = content t')
    (m : Machine C S τ UUID)
    (h : (contract F every content).Visits (Machine.initial F.init) m) :
    ∃ msgs : List (DataMsg α),
      (msgs.map DataMsg.identity).Nodup ∧
      F.durableState m = F.applyAll msgs ∧
      (∀ id, m.StoreRecorded id ↔ id ∈ msgs.map DataMsg.identity) ∧
      (∀ msg ∈ msgs, ∃ tag, content tag = msg) ∧
      ∀ tag ∈ m.delivered, (content tag).clientId ∉ m.log →
        (∀ tag' ∈ m.delivered, content tag' = content tag → tag' ∈ m.acked) →
          content tag ∈ msgs := by
  have hseq' : ∀ tag, (content tag).seq ≠ 0 := fun tag =>
    Nat.one_le_iff_ne_zero.mp (hseq tag)
  have hcall := spec_call (F := F) every hseq' hsame
  have hreach : ∀ s, (contract F every content).Reach
      (Machine.initial F.init) s → Consistent F content s := by
    intro s hs
    refine hs.invariant consistent_initial ?_ ?_
    · intro call
      exact (hcall call).conseq (fun _ hm => hm) (fun _ _ hm => hm.consistent)
        fun m hm k _ => hm.reboot k
    · exact fun call k s hs _ => hs.1.reboot k
  have hdur : Durable F content m :=
    h.property hreach (fun s hs => hs.1) fun call =>
      (hcall call).post fun _ _ _ => trivial
  obtain ⟨msgs, hstate, hnodup, hiff, hreal⟩ := hdur.explained
  refine ⟨msgs, hnodup, hstate, hiff, hreal, ?_⟩
  intro tag htag hlog hacked
  rcases hdur.kept tag htag hlog with hrec | ⟨t, ht, hack, heq⟩
  · obtain ⟨msg, hmsg, hid⟩ := List.mem_map.mp ((hiff _).mp hrec)
    obtain ⟨t, rfl⟩ := hreal msg hmsg
    exact hsame t tag hid ▸ hmsg
  · exact absurd (hacked t ht heq) hack

instance (F : BusinessFn α C S) (every : ℕ) (content : τ → DataMsg α)
    (call : Call τ) : DecidablePred ((contract F every content).enabled call) :=
  fun m => match call with
    | .start => inferInstanceAs (Decidable (m.up = false))
    | .deliver tag => inferInstanceAs
        (Decidable (m.up = true ∧ tag ∉ m.acked ∧ tag ∉ m.taken))
    | .markAborted _ => inferInstanceAs (Decidable (m.up = true))
    | .flush _ => inferInstanceAs (Decidable (m.up = true))

instance (F : BusinessFn α C S) (every : ℕ) (content : τ → DataMsg α)
    (call : Call τ) (k : UUID → ℕ → ℕ) :
    DecidablePred ((contract F every content).crashable call k) :=
  fun _ => inferInstanceAs (Decidable True)

end Contract

/-- A business function that adds up what it reads. -/
def totalFn : BusinessFn ℕ ℕ ℕ where
  init := 0
  apply msg n := n + msg.body
  snapshotState n := n
  restoreState n _ := n
  undoes _ := rfl

/-- Three deliveries of which the third is a further copy of the first. -/
def threeCopies (tag : ℕ) : DataMsg ℕ := ⟨7, 1, tag % 2 + 1, tag % 2 + 10⟩

/-- A crash between the checkpoint and the acknowledgements, then redelivery of
everything in another order. -/
def crashedRun : List (System.Move (Call ℕ) (UUID → ℕ → ℕ)) :=
  [.finish .start, .finish (.deliver 0), .crash (.deliver 1) (fun _ n => n) 2,
    .finish .start, .finish (.deliver 2), .finish (.deliver 1),
    .finish (.deliver 0)]

/-- After the crash and the redelivery both messages count once. -/
theorem exactly_once_crashedRun : ∃ m,
    (contract totalFn 2 threeCopies).playAll crashedRun
      (Machine.initial totalFn.init) = some m ∧
    (m.delivered = {0, 1, 2} ∧ m.acked = {0, 1, 2} ∧
      totalFn.durableState m = 21) ∧
    ∃ msgs : List (DataMsg ℕ),
      (msgs.map DataMsg.identity).Nodup ∧
      totalFn.durableState m = totalFn.applyAll msgs ∧
      (∀ id, m.StoreRecorded id ↔ id ∈ msgs.map DataMsg.identity) ∧
      (∀ msg ∈ msgs, ∃ tag, threeCopies tag = msg) ∧
      ∀ tag ∈ m.delivered, (threeCopies tag).clientId ∉ m.log →
        (∀ tag' ∈ m.delivered, threeCopies tag' = threeCopies tag →
          tag' ∈ m.acked) → threeCopies tag ∈ msgs := by
  have hplays : ((contract totalFn 2 threeCopies).playAll crashedRun
      (Machine.initial totalFn.init)).map (fun m =>
        (m.delivered, m.acked, totalFn.durableState m)) =
      some ({0, 1, 2}, {0, 1, 2}, 21) := by decide
  obtain ⟨m, hm, hobs⟩ := Option.map_eq_some_iff.mp hplays
  simp only [Prod.mk.injEq] at hobs
  refine ⟨m, hm, hobs, exactly_once totalFn 2 threeCopies (fun tag => ?_)
    (fun t t' h => ?_) m (.idle m (System.reach_of_playAll hm))⟩
  · exact Nat.le_add_left 1 _
  · have hseq : t % 2 + 1 = t' % 2 + 1 := congrArg Prod.snd h
    simp only [threeCopies, Nat.add_right_cancel hseq]

end Checkpointer
