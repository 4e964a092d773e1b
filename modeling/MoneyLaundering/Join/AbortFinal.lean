import MoneyLaundering.Join.Specs

/-!
# After an abort

An abort drops the counts of its client and marks the client in the checkpointer, which
then ignores the client's data.  End-of-files take another path: one that announces no
message completes a client of which nothing is known.
-/

open Crash LockProg

namespace JoinCounts

/-- Nothing was received for the aborted clients. -/
def Forgets (aborted : Finset UUID) (counts : JoinCounts) : Prop :=
  ∀ c ∈ aborted, counts.received.get? c = none

variable {aborted : Finset UUID} {counts : JoinCounts} {x : UUID}

theorem Forgets.incReceived (h : counts.Forgets aborted) (hx : x ∉ aborted) :
    (counts.incReceived x).Forgets aborted := by
  intro c hc
  have hne : c ≠ x := fun heq => hx (heq ▸ hc)
  rw [JoinCounts.incReceived, Dict.get?_set_of_ne _ _ hne]
  exact h c hc

theorem Forgets.erase (h : counts.Forgets aborted) {c : UUID} (hc : c ∈ aborted) :
    (counts.received.erase x).get? c = none := by
  rw [Dict.get?_erase]
  split
  · rfl
  · exact h c hc

theorem Forgets.drop (h : counts.Forgets aborted) :
    (counts.drop x).Forgets (insert x aborted) := by
  intro c hc
  rcases Finset.mem_insert.mp hc with rfl | hc
  · exact Dict.get?_erase_self _ _
  · exact h.erase hc

/-- A client of which nothing was received is complete only without an expected
message. -/
theorem not_isComplete_setExpected {k : ℤ} (hk : 0 < k)
    (h : counts.received.get? x = none) :
    (counts.setExpected x k).isComplete x = false := by
  simp [isComplete, setExpected, Dict.getD, h, hk]

end JoinCounts

namespace JoinRouteHandler

variable {F S α : Type} {J : JoinRouteHandler F S α}
  {arrivals : ℕ → Option (Message α)} {up : Bool} {m : JoinNode F S} {c : UUID}

/-! ## The invariant -/

/-- What a crash preserves: the checkpoint has every acknowledged abort, and nothing that
was received for an aborted client. -/
structure AbortDisk (arrivals : ℕ → Option (Message α)) (m : JoinNode F S) :
    Prop where
  forgets : ∀ b, m.store = some b → b.state.counts.Forgets b.aborted
  stored : ∀ tag c, arrivals tag = some (.abort c) → tag ∈ m.acked →
    ∃ b, m.store = some b ∧ c ∈ b.aborted

/-- What a process that took over the checkpoint adds; `up` says whether it
consumes. -/
structure AbortMem (arrivals : ℕ → Option (Message α)) (up : Bool)
    (m : JoinNode F S) : Prop where
  forgets : m.state.counts.Forgets m.aborted
  aborted : ∀ b, m.store = some b → b.aborted ⊆ m.aborted
  pending : ∀ tag ∈ m.pendingAcks, ∃ d, arrivals tag = some (.data d)
  up_eq : m.up = up

/-- The invariant of such a process. -/
def AbortLive (arrivals : ℕ → Option (Message α)) (up : Bool)
    (m : JoinNode F S) : Prop :=
  AbortDisk arrivals m ∧ AbortMem arrivals up m

theorem AbortDisk.ackTag (h : AbortDisk arrivals m) {tag : ℕ}
    (hsafe : ∀ c, arrivals tag = some (.abort c) →
      ∃ b, m.store = some b ∧ c ∈ b.aborted) :
    AbortDisk arrivals (m.ackTag tag) := by
  constructor
  · exact h.forgets
  · intro t c ht hacked
    rcases Finset.mem_insert.mp hacked with rfl | hacked
    · exact hsafe c ht
    · exact h.stored t c ht hacked

theorem AbortDisk.ackAll (h : AbortDisk arrivals m) {tags : List ℕ}
    (hdata : ∀ tag ∈ tags, ∃ d, arrivals tag = some (.data d)) :
    AbortDisk arrivals (m.ackAll tags) := by
  constructor
  · exact h.forgets
  · intro t c ht hacked
    rcases Finset.mem_union.mp hacked with hacked | hmem
    · exact h.stored t c ht hacked
    · obtain ⟨d, hd⟩ := hdata t (List.mem_toFinset.mp hmem)
      rw [hd] at ht
      cases ht

/-- A checkpoint of a consuming handler. -/
theorem AbortLive.checkpointed (h : AbortLive arrivals up m) :
    AbortLive arrivals up (m.checkpointed J.provider) := by
  obtain ⟨hdisk, hmem⟩ := h
  refine ⟨⟨?_, ?_⟩, hmem.forgets, ?_, hmem.pending, hmem.up_eq⟩
  · intro b hb
    obtain rfl := Option.some.inj hb
    exact hmem.forgets
  · intro tag c htag hacked
    obtain ⟨b, hb, hc⟩ := hdisk.stored tag c htag hacked
    exact ⟨_, rfl, hmem.aborted b hb hc⟩
  · intro b hb
    obtain rfl := Option.some.inj hb
    exact Finset.Subset.refl _

theorem AbortLive.released (h : AbortLive arrivals up m) :
    AbortLive arrivals up m.released := by
  obtain ⟨hdisk, hmem⟩ := h
  have hacked := hdisk.ackAll hmem.pending
  exact ⟨⟨hacked.forgets, hacked.stored⟩, hmem.forgets, hmem.aborted, by
    simp [Machine.released], hmem.up_eq⟩

/-! ## A watched client -/

/-- Where the client is watched, its abort is in the checkpoint and the history grew by
responses of other clients only. -/
def Watch (watched : Prop) (c : UUID) (log : List Response) (m : JoinNode F S) :
    Prop :=
  watched → (∃ b, m.store = some b ∧ c ∈ b.aborted) ∧
    ∃ es, m.log = es ++ log ∧ ∀ r ∈ es, r.clientId ≠ c

variable {watched : Prop} {log : List Response}

theorem Watch.of_eq {m' : JoinNode F S} (h : Watch watched c log m)
    (hstore : m'.store = m.store) (hlog : m'.log = m.log) :
    Watch watched c log m' := by
  intro hw
  rw [hstore, hlog]
  exact h hw

/-- Chunks for another client. -/
theorem Watch.sent (h : Watch watched c log m) {x : UUID} (hx : watched → x ≠ c)
    (chunks : List (String × Bool)) :
    Watch watched c log (J.sent x chunks (J.taken x m)) := by
  intro hw
  obtain ⟨hstore, es, hes, hall⟩ := h hw
  refine ⟨hstore, (chunks.map fun chunk =>
    (⟨x, J.ucId, chunk.1, chunk.2⟩ : Response)).reverse ++ es, ?_, ?_⟩
  · change _ ++ m.log = _
    rw [hes, List.append_assoc]
  · intro r hr
    rcases List.mem_append.mp hr with hr | hr
    · obtain ⟨chunk, -, rfl⟩ := List.mem_map.mp (List.mem_reverse.mp hr)
      exact hx hw
    · exact hall r hr

/-- The condition at every point of a handler. -/
def Cut (arrivals : ℕ → Option (Message α)) (watched : Prop) (c : UUID)
    (log : List Response) (m : JoinNode F S) : Prop :=
  AbortDisk arrivals m ∧ Watch watched c log m

/-- The condition of a consuming handler. -/
def Alive (arrivals : ℕ → Option (Message α)) (up : Bool) (watched : Prop)
    (c : UUID) (log : List Response) (m : JoinNode F S) : Prop :=
  AbortLive arrivals up m ∧ Watch watched c log m

theorem Alive.cut (h : Alive arrivals up watched c log m) :
    Cut arrivals watched c log m :=
  ⟨h.1.1, h.2⟩

theorem Alive.mem_aborted (h : Alive arrivals up watched c log m) (hw : watched) :
    c ∈ m.aborted := by
  obtain ⟨b, hb, hc⟩ := (h.2 hw).1
  exact h.1.2.aborted b hb hc

/-- A change of the business state only. -/
theorem Alive.withFn (h : Alive arrivals up watched c log m) (f : F → F) :
    Alive arrivals up watched c log (withFn f m) :=
  ⟨⟨⟨h.1.1.forgets, h.1.1.stored⟩,
      h.1.2.forgets, h.1.2.aborted, h.1.2.pending, h.1.2.up_eq⟩,
    h.2.of_eq rfl rfl⟩

/-- A change of the counts that forgets the aborted clients. -/
theorem Alive.withCounts (h : Alive arrivals up watched c log m)
    {f : JoinCounts → JoinCounts} (hf : (f m.state.counts).Forgets m.aborted) :
    Alive arrivals up watched c log (withCounts f m) :=
  ⟨⟨⟨h.1.1.forgets, h.1.1.stored⟩, hf, h.1.2.aborted, h.1.2.pending, h.1.2.up_eq⟩,
    h.2.of_eq rfl rfl⟩

theorem Alive.sent (h : Alive arrivals up watched c log m) {x : UUID}
    (hx : watched → x ≠ c) (chunks : List (String × Bool)) :
    Alive arrivals up watched c log (J.sent x chunks (J.taken x m)) :=
  ⟨⟨⟨h.1.1.forgets, h.1.1.stored⟩,
      h.1.2.forgets, h.1.2.aborted, h.1.2.pending, h.1.2.up_eq⟩,
    h.2.sent hx chunks⟩

theorem Alive.resulted (h : Alive arrivals up watched c log m) {x : UUID}
    (hx : watched → x ≠ c) : Alive arrivals up watched c log (J.resulted x m) := by
  apply (h.sent hx _).withCounts
  intro y hy
  exact h.1.2.forgets.erase hy

theorem Alive.checkpointed (h : Alive arrivals up watched c log m) :
    Alive arrivals up watched c log (m.checkpointed J.provider) := by
  refine ⟨h.1.checkpointed, fun hw => ⟨⟨_, rfl, h.mem_aborted hw⟩, ?_⟩⟩
  exact (h.2 hw).2

theorem Alive.released (h : Alive arrivals up watched c log m) :
    Alive arrivals up watched c log m.released :=
  ⟨h.1.released, h.2.of_eq rfl rfl⟩

theorem Alive.snapshotted (h : Alive arrivals up watched c log m) :
    Cut arrivals watched c log (m.snapshotted J.provider) :=
  (h.withFn fun _ => (J.fn.provider.snapshotState m.state.fn).2).cut

theorem Alive.ackTag (h : Alive arrivals up watched c log m) {tag : ℕ}
    (hsafe : ∀ c, arrivals tag = some (.abort c) →
      ∃ b, m.store = some b ∧ c ∈ b.aborted) :
    Alive arrivals up watched c log (m.ackTag tag) := by
  have hdisk := h.1.1.ackTag hsafe
  exact ⟨⟨⟨hdisk.forgets, hdisk.stored⟩, h.1.2.forgets, h.1.2.aborted,
    h.1.2.pending, h.1.2.up_eq⟩, h.2.of_eq rfl rfl⟩

/-! ## The handlers -/

theorem spec_flush_alive (force : Bool) :
    Spec (Alive arrivals up watched c log)
      (Checkpointer.checkpointAndFlush J.provider force)
      (fun _ => Alive arrivals up watched c log) (Cut arrivals watched c log) := by
  apply Checkpointer.spec_checkpointAndFlush
    (R := Alive arrivals up watched c log)
  · intro m hm _
    exact ⟨hm.cut, hm.snapshotted, hm.checkpointed⟩
  · intro m hm _ _
    exact hm
  · intro m tags rest hm hsplit
    constructor
    · apply hm.1.1.ackAll
      intro tag htag
      apply hm.1.2.pending
      rw [hsplit]
      exact List.mem_append_left _ htag
    · exact hm.2.of_eq rfl rfl
  · intro m hm
    exact hm.released

/-- The forced flush of an abort puts the client into the checkpoint. -/
theorem spec_flush_aborted (x : UUID) :
    Spec (fun m => Alive arrivals up watched c log m ∧ x ∈ m.aborted)
      (Checkpointer.checkpointAndFlush J.provider true)
      (fun _ m => Alive arrivals up watched c log m ∧
        ∃ b, m.store = some b ∧ x ∈ b.aborted)
      (Cut arrivals watched c log) := by
  apply Checkpointer.spec_checkpointAndFlush
    (R := fun m => Alive arrivals up watched c log m ∧
      ∃ b, m.store = some b ∧ x ∈ b.aborted)
  · intro m hm _
    exact ⟨hm.1.cut, hm.1.snapshotted, hm.1.checkpointed, _, rfl, hm.2⟩
  · intro m _ _ hforce
    cases hforce
  · intro m tags rest hm hsplit
    constructor
    · apply hm.1.1.1.ackAll
      intro tag htag
      apply hm.1.1.2.pending
      rw [hsplit]
      exact List.mem_append_left _ htag
    · exact hm.1.2.of_eq rfl rfl
  · intro m hm
    exact ⟨hm.1.released, hm.2⟩

theorem spec_maybeFinalize_alive (x : UUID) :
    LockSpec false
      (fun m => Alive arrivals up watched c log m ∧ (watched → Ready x m → x ≠ c))
      (J.maybeFinalize x) (fun _ => Alive arrivals up watched c log)
      (Cut arrivals watched c log) (Cut arrivals watched c log) := by
  apply spec_maybeFinalize
  · intro m hm _
    exact hm.1
  · intro m done rest hm hready _
    exact (hm.1.sent (fun hw => hm.2 hw hready) done).cut
  · apply spec_afterResult (R := Alive arrivals up watched c log)
    · apply (spec_flush_alive true).pre
      intro _ ⟨m, hm, hready, heq⟩
      rw [heq]
      exact hm.1.resulted fun hw => hm.2 hw hready
    · intro m hm
      exact ⟨hm.cut, hm.withFn _⟩

theorem spec_maybeFinalize_alive_held (x : UUID) (hx : watched → x ≠ c) :
    LockSpec true (Alive arrivals up watched c log)
      (J.maybeFinalize x) (fun _ => Alive arrivals up watched c log)
      (Cut arrivals watched c log) (Cut arrivals watched c log) := by
  apply spec_maybeFinalize
  · intro m hm _
    exact hm
  · intro m done rest hm _ _
    exact (hm.sent hx done).cut
  · apply spec_afterResult_held
    intro _ ⟨m, hm, _, heq⟩
    rw [heq]
    exact (hm.resulted hx).cut

variable {tag : ℕ} {x : UUID} {k : ℤ}

theorem spec_eof_alive (htag : arrivals tag = some (.eof x k))
    (hguard : watched → x = c → 0 < k) :
    LockSpec false (Alive arrivals up watched c log)
      (J.handleMessage tag (.eof x k)) (fun _ => Alive arrivals up watched c log)
      (Cut arrivals watched c log) (Cut arrivals watched c log) := by
  apply LockSpec.bind (LockedCheckpointer.spec_flush (spec_flush_alive false))
  intro _
  apply LockSpec.bind (Q := fun _ => Alive arrivals up watched c log)
  · apply LockSpec.bind
      (Q := fun _ m => Alive arrivals up watched c log m ∧
        (watched → Ready x m → x ≠ c))
    · apply LockSpec.lift
      apply Spec.modify
      intro m hm
      refine ⟨hm.withCounts hm.1.2.forgets, ?_⟩
      rintro hw hready rfl
      have hnone := hm.1.2.forgets x (hm.mem_aborted hw)
      have hfalse := JoinCounts.not_isComplete_setExpected (hguard hw rfl) hnone
      exact Bool.false_ne_true (hfalse.symm.trans hready.2)
    · intro _
      exact spec_maybeFinalize_alive x
  · intro _
    apply LockSpec.lift
    apply Checkpointer.spec_ack
    · intro m hm
      exact hm.cut
    · intro m hm
      apply hm.ackTag
      intro y hy
      rw [htag] at hy
      cases hy

theorem spec_abort_alive (htag : arrivals tag = some (.abort x)) :
    LockSpec false (Alive arrivals up watched c log)
      (J.handleMessage tag (.abort x)) (fun _ => Alive arrivals up watched c log)
      (Cut arrivals watched c log) (Cut arrivals watched c log) := by
  apply LockSpec.bind
    (Q := fun _ m => Alive arrivals up watched c log m ∧
      ∃ b, m.store = some b ∧ x ∈ b.aborted)
  · apply LockSpec.bind (Q := fun _ => Alive arrivals up watched c log)
    · apply LockSpec.lift
      apply Spec.change
      · intro m hm
        exact hm.cut
      · intro m hm
        exact hm.withFn _
    intro _
    apply LockSpec.bind (Q := fun _ m => Alive arrivals up watched c log m ∧
      m.state.counts.Forgets (insert x m.aborted))
    · apply LockSpec.lift
      apply Spec.modify
      intro m hm
      have hdrop := hm.1.2.forgets.drop (x := x)
      refine ⟨hm.withCounts ?_, hdrop⟩
      intro y hy
      exact hdrop y (Finset.mem_insert_of_mem hy)
    intro _
    apply LockSpec.bind
      (Q := fun _ m => Alive arrivals up watched c log m ∧ x ∈ m.aborted)
    · apply LockedCheckpointer.spec_markAborted
      intro m hm
      obtain ⟨⟨⟨hdisk, hmem⟩, hwatch⟩, hforgets⟩ := hm
      refine ⟨⟨⟨⟨hdisk.forgets, hdisk.stored⟩, hforgets, ?_, hmem.pending, hmem.up_eq⟩,
        hwatch.of_eq rfl rfl⟩, Finset.mem_insert_self x _⟩
      intro b hb
      exact (hmem.aborted b hb).trans (Finset.subset_insert x _)
    · intro _
      exact LockedCheckpointer.spec_flush (spec_flush_aborted x)
  · intro _
    apply LockSpec.lift
    apply Checkpointer.spec_ack
    · intro m hm
      exact hm.1.cut
    · intro m hm
      apply hm.1.ackTag
      intro y hy
      rw [htag] at hy
      cases hy
      exact hm.2

theorem spec_data_alive {d : DataMsg α} (htag : arrivals tag = some (.data d)) :
    LockSpec false (Alive arrivals up watched c log)
      (J.handleMessage tag (.data d)) (fun _ => Alive arrivals up watched c log)
      (Cut arrivals watched c log) (Cut arrivals watched c log) := by
  have hsafe : ∀ (m : JoinNode F S) (y : UUID), arrivals tag = some (.abort y) →
      ∃ b, m.store = some b ∧ y ∈ b.aborted := by
    intro m y hy
    rw [htag] at hy
    cases hy
  apply LockedCheckpointer.spec_handleData (R := Alive arrivals up watched c log)
  · intro m hm _
    exact ⟨hm.cut, hm.ackTag (hsafe m)⟩
  · intro m hm _ _
    exact ⟨hm.cut, hm.ackTag (hsafe m)⟩
  · intro m hm
    have hx : watched → d.clientId ≠ c := by
      intro hw heq
      exact hm.2.1 (heq ▸ hm.1.mem_aborted hw)
    have hspec : LockSpec true (fun t => t = m) (J.onData d)
        (fun _ m => Alive arrivals up watched c log (m.recorded tag d))
        (Cut arrivals watched c log) (Cut arrivals watched c log) := by
      apply LockSpec.bind (Q := fun _ => Alive arrivals up watched c log)
      · apply LockSpec.lift
        apply Spec.modify
        rintro _ rfl
        apply (hm.1.withFn _).withCounts
        exact hm.1.1.2.forgets.incReceived hm.2.1
      intro _
      apply (spec_maybeFinalize_alive_held d.clientId hx).conseq
      · exact fun _ h => h
      · intro _ t ht
        refine ⟨⟨⟨ht.1.1.forgets, ht.1.1.stored⟩, ht.1.2.forgets,
          ht.1.2.aborted, ?_, ht.1.2.up_eq⟩, ht.2.of_eq rfl rfl⟩
        intro t' ht'
        rcases List.mem_append.mp ht' with ht' | ht'
        · exact ht.1.2.pending t' ht'
        · rw [List.mem_singleton.mp ht']
          exact ⟨d, htag⟩
      · exact fun _ h => h
      · exact fun _ h => h
    exact hspec m rfl
  · exact (spec_flush_alive false).pre fun _ hm => hm.1
  · exact fun _ hm _ => hm

/-- One delivery. -/
theorem spec_receive_alive (tag : ℕ)
    (hguard : watched → ∀ k, arrivals tag = some (.eof c k) → 0 < k) :
    LockSpec false (Alive arrivals up watched c log)
      (J.receive tag (arrivals tag)) (fun _ => Alive arrivals up watched c log)
      (Cut arrivals watched c log) (Cut arrivals watched c log) := by
  cases htag : arrivals tag with
  | none => exact LockSpec.pure fun _ hm => hm
  | some msg =>
      apply LockSpec.bind (Q := fun _ => Alive arrivals up watched c log)
      · apply LockSpec.lift
        apply Spec.modify
        intro m hm
        exact ⟨⟨⟨hm.1.1.forgets, hm.1.1.stored⟩, hm.1.2.forgets, hm.1.2.aborted,
          hm.1.2.pending, hm.1.2.up_eq⟩, hm.2.of_eq rfl rfl⟩
      intro _
      cases msg with
      | eof x k =>
          apply spec_eof_alive htag
          rintro hw rfl
          exact hguard hw k htag
      | abort x => exact spec_abort_alive htag
      | data d => exact spec_data_alive htag

/-- A process that restarts takes over a checkpoint that has the abort. -/
theorem spec_start_alive :
    LockSpec false
      (fun m => Cut arrivals watched c log m ∧ Blank m ∧ m.up = false)
      J.start (fun _ => Alive arrivals true watched c log)
      (Cut arrivals watched c log) (Cut arrivals watched c log) := by
  apply LockSpec.bind (Q := fun _ => Alive arrivals false watched c log)
  · apply LockSpec.lift
    apply Checkpointer.spec_restore
    · intro m hm
      exact hm.1
    · intro m hm hnone
      obtain ⟨⟨hdisk, hwatch⟩, ⟨-, hempty, hpending⟩, hup⟩ := hm
      refine ⟨⟨⟨hdisk.forgets, hdisk.stored⟩, ?_, ?_, ?_, hup⟩,
        hwatch.of_eq rfl rfl⟩
      · intro y hy
        simp [hempty] at hy
      · intro b hb
        rw [hnone] at hb
        cases hb
      · simp [hpending]
    · intro m b hm hb
      obtain ⟨⟨hdisk, hwatch⟩, ⟨-, -, hpending⟩, hup⟩ := hm
      refine ⟨⟨⟨hdisk.forgets, hdisk.stored⟩, hdisk.forgets b hb, ?_, ?_, hup⟩,
        hwatch.of_eq rfl rfl⟩
      · intro b' hb'
        obtain rfl := Option.some.inj (hb.symm.trans hb')
        exact Finset.Subset.refl _
      · simp [Machine.restored, hpending]
  intro restored
  apply LockSpec.bind (Q := fun _ => Alive arrivals false watched c log)
  · apply LockSpec.when
    · intro _
      apply LockSpec.bind (Q := fun _ => Alive arrivals false watched c log)
      · apply LockSpec.lift
        apply Spec.read_bind
        intro before
        apply Spec.pre (P := Alive arrivals false watched c log)
        · apply Spec.forEach (I := fun _ => Alive arrivals false watched c log)
          intro _ x _ _
          apply Spec.change
          · intro m hm
            exact hm.cut
          · intro m hm
            exact hm.withFn _
        · intro m hm
          exact hm.2
      · intro _
        exact LockedCheckpointer.spec_flush (spec_flush_alive true)
    · intro _ m hm
      exact hm
  · intro _
    apply LockSpec.lift
    apply Spec.modify
    intro m hm
    exact ⟨⟨⟨hm.1.1.forgets, hm.1.1.stored⟩, hm.1.2.forgets, hm.1.2.aborted,
      hm.1.2.pending, rfl⟩, hm.2.of_eq rfl rfl⟩

/-! ## Runs -/

/-- A delivery that is no end-of-file of the client which announces nothing. -/
def NotEmptyEof (arrivals : ℕ → Option (Message α)) (c : UUID) (call : Call)
    (_ : JoinNode F S) : Prop :=
  ∀ tag k, call = .deliver tag → arrivals tag = some (.eof c k) → 0 < k

theorem Cut.reboot (h : Cut arrivals watched c log m) (k : UUID → ℕ → ℕ) :
    Cut arrivals watched c log (m.reboot J.provider k) :=
  ⟨⟨h.1.forgets, h.1.stored⟩, h.2.of_eq rfl rfl⟩

/-- The rules of runs whose guard keeps the end-of-files that announce nothing from the
watched client. -/
theorem abortRules {guard : Call → JoinNode F S → Prop}
    (crashable : (UUID → ℕ → ℕ) → JoinNode F S → Prop)
    (hguard : watched → ∀ call m, guard call m → NotEmptyEof arrivals c call m) :
    RunRules J arrivals guard crashable
      (.ofCut (Alive arrivals true watched c log) (Cut arrivals watched c log)) := by
  constructor
  · intro m hm
    exact ⟨hm.cut, hm.1.2.up_eq⟩
  · exact fun _ hm => hm.1
  · exact fun _ hm => hm
  · intro m k hm _
    exact ⟨hm.reboot k, rfl, rfl, rfl⟩
  · exact spec_start_alive.pre fun _ hm => ⟨hm.1.1, hm.1.2, hm.2⟩
  · intro tag s ⟨hs, _, hallowed⟩
    apply spec_receive_alive tag _ s hs
    intro hw k htag
    exact hguard hw _ _ hallowed tag k rfl htag

theorem cut_fresh (f : F) :
    Cut (α := α) arrivals False c [] (fresh f : Locked (JoinNode F S)).inner := by
  constructor
  · constructor
    · intro b hb
      cases hb
    · intro tag x _ hacked
      exact absurd hacked (Finset.notMem_empty tag)
  · exact fun hw => hw.elim

/-- From an acknowledged abort on, its client may be watched. -/
theorem watch_of_acked {s : Locked (JoinNode F S)}
    (h : Between (.ofCut (Alive arrivals true False c log) (Cut arrivals False c log)) s)
    (hcut : Cut arrivals False c log s.inner) {tag : ℕ}
    (htag : arrivals tag = some (.abort c)) (hacked : tag ∈ s.inner.acked) :
    Between (.ofCut (Alive arrivals true True c s.inner.log)
      (Cut arrivals True c s.inner.log)) s := by
  have hwatch : Watch True c s.inner.log s.inner := by
    intro _
    exact ⟨hcut.1.stored tag c htag hacked, [], rfl, by simp⟩
  constructor
  · intro hheld hup
    exact ⟨(h.live hheld hup).1, hwatch⟩
  · intro hheld hdown
    exact ⟨⟨hcut.1, hwatch⟩, (h.down hheld hdown).2⟩
  · intro _
    exact ⟨hcut.1, hwatch⟩

/-- Once an abort of a client is acknowledged, no response goes to the client, in every
run in which each end-of-file of the client that is handled after it announces a
message. -/
theorem join_abort_final (J : JoinRouteHandler F S α)
    (arrivals : ℕ → Option (Message α))
    (crashable : (UUID → ℕ → ℕ) → JoinNode F S → Prop) (f : F)
    {tag : ℕ} {c : UUID} (htag : arrivals tag = some (.abort c))
    {s₀ s : Locked (JoinNode F S)}
    (h₀ : (J.system arrivals (fun _ _ => True) crashable).Reach (fresh f) s₀)
    (hacked : tag ∈ s₀.inner.acked)
    (h : (J.system arrivals (NotEmptyEof arrivals c) crashable).Visits s₀ s) :
    ∃ es, s.inner.log = es ++ s₀.inner.log ∧ ∀ r ∈ es, r.clientId ≠ c := by
  have hrules : RunRules J arrivals (fun _ _ => True) crashable
      (.ofCut (Alive arrivals true False c []) (Cut arrivals False c [])) :=
    abortRules crashable fun hw => hw.elim
  have hbetween := hrules.reach (between_fresh f ⟨cut_fresh f, blank_fresh f⟩) h₀
  have hwatched := watch_of_acked hbetween (hrules.cut hbetween) htag hacked
  exact (((abortRules crashable fun _ _ _ h => h).visits hwatched h).2 trivial).2

/-- An abort between two end-of-files, of which the last announces nothing. -/
def abortedArrivals : ℕ → Option (Message ℕ)
  | 0 => some (.data ⟨7, 3, 1, 40⟩)
  | 1 => some (.abort 7)
  | 2 => some (.eof 7 1)
  | 3 => some (.data ⟨7, 3, 2, 41⟩)
  | 4 => some (.eof 7 0)
  | _ => none

/-- The runs of the handler that counts. -/
def abortedRuns (guard : Call → JoinNode (Dict UUID ℕ) (Dict UUID ℕ) → Prop) :
    System Effect (Locked (JoinNode (Dict UUID ℕ) (Dict UUID ℕ))) Call
      (UUID → ℕ → ℕ) :=
  uc5Handler.system abortedArrivals guard fun _ _ => True

instance (call : Call) :
    DecidablePred (NotEmptyEof (F := F) (S := S) abortedArrivals 7 call) := fun _ =>
  match call with
  | .start => isTrue fun _ _ h => nomatch h
  | .deliver tag =>
    decidable_of_iff (abortedArrivals tag ≠ some (.eof 7 0)) (by
      constructor
      · rintro hne _ k ⟨⟩ heof
        match tag, heof with
        | 2, h => cases h; decide
        | 4, _ => exact absurd rfl hne
      · intro h heq
        exact absurd (h tag 0 rfl heq) (by decide))

instance (guard : Call → JoinNode (Dict UUID ℕ) (Dict UUID ℕ) → Prop)
    [∀ call, DecidablePred (guard call)] (call : Call) :
    DecidablePred ((abortedRuns guard).enabled call) := fun s =>
  inferInstanceAs (Decidable (Enabled abortedArrivals call s ∧ guard call s.inner))

instance (guard : Call → JoinNode (Dict UUID ℕ) (Dict UUID ℕ) → Prop) (call : Call)
    (k : UUID → ℕ → ℕ) : DecidablePred ((abortedRuns guard).crashable call k) := fun _ =>
  inferInstanceAs (Decidable True)

/-- The message and the abort are handled. -/
def abortRun : List (System.Move Call (UUID → ℕ → ℕ)) :=
  [.finish .start, .finish (.deliver 0), .finish (.deliver 1)]

/-- A crash, and an end-of-file that announces a message. -/
def laterRun : List (System.Move Call (UUID → ℕ → ℕ)) :=
  [.idleCrash .start fun _ _ => 0, .finish .start, .finish (.deliver 2),
    .finish (.deliver 3)]

/-- An end-of-file that announces nothing. -/
def emptyEofRun : List (System.Move Call (UUID → ℕ → ℕ)) :=
  laterRun ++ [.finish (.deliver 4)]

/-- Play two scripts, the first in all runs. -/
def playBoth (guard : Call → JoinNode (Dict UUID ℕ) (Dict UUID ℕ) → Prop)
    [∀ call, DecidablePred (guard call)]
    (first second : List (System.Move Call (UUID → ℕ → ℕ))) :
    Option (Locked (JoinNode (Dict UUID ℕ) (Dict UUID ℕ)) ×
      Locked (JoinNode (Dict UUID ℕ) (Dict UUID ℕ))) :=
  ((abortedRuns fun _ _ => True).playAll first (fresh Dict.empty)).bind fun s₀ =>
    ((abortedRuns guard).playAll second s₀).map fun s => (s₀, s)

/-- What was acknowledged and what was sent. -/
def progress (s : Locked (JoinNode (Dict UUID ℕ) (Dict UUID ℕ))) :
    Finset ℕ × List Response :=
  (s.inner.acked, s.inner.log)

theorem reach_of_playBoth
    {guard : Call → JoinNode (Dict UUID ℕ) (Dict UUID ℕ) → Prop}
    [∀ call, DecidablePred (guard call)]
    {first second : List (System.Move Call (UUID → ℕ → ℕ))}
    {obs : (Finset ℕ × List Response) × Finset ℕ × List Response}
    (h : (playBoth guard first second).map
      (fun p => (progress p.1, progress p.2)) = some obs) :
    ∃ s₀ s, (abortedRuns fun _ _ => True).Reach (fresh Dict.empty) s₀ ∧
      (abortedRuns guard).Reach s₀ s ∧ progress s₀ = obs.1 ∧ progress s = obs.2 := by
  obtain ⟨⟨s₀, s⟩, hboth, rfl⟩ := Option.map_eq_some_iff.mp h
  obtain ⟨t, hfirst, hsecond⟩ := Option.bind_eq_some_iff.mp hboth
  obtain ⟨u, hu, heq⟩ := Option.map_eq_some_iff.mp hsecond
  cases heq
  exact ⟨s₀, s, System.reach_of_playAll hfirst, System.reach_of_playAll hu, rfl, rfl⟩

/-- After the abort, and a crash, an end-of-file that announces a message is
handled. -/
theorem join_abort_final_laterRun : ∃ s₀ s,
    (abortedRuns fun _ _ => True).Reach (fresh Dict.empty) s₀ ∧
    (abortedRuns (NotEmptyEof abortedArrivals 7)).Reach s₀ s ∧
    progress s = ({0, 1, 2, 3}, []) ∧
    ∃ es, s.inner.log = es ++ s₀.inner.log ∧ ∀ r ∈ es, r.clientId ≠ 7 := by
  have hplays : (playBoth (NotEmptyEof abortedArrivals 7) abortRun laterRun).map
      (fun p => (progress p.1, progress p.2)) =
        some (({0, 1}, []), {0, 1, 2, 3}, []) := by decide
  obtain ⟨s₀, s, hs₀, hs, hobs₀, hobs⟩ := reach_of_playBoth hplays
  have hacked : s₀.inner.acked = {0, 1} := congrArg Prod.fst hobs₀
  have htag : 1 ∈ s₀.inner.acked := by
    rw [hacked]
    decide
  refine ⟨s₀, s, hs₀, hs, hobs, ?_⟩
  exact join_abort_final uc5Handler abortedArrivals (fun _ _ => True) Dict.empty rfl hs₀
    htag (.idle s hs)

/-- After the abort an end-of-file that announces nothing is handled: the client is sent
a result. -/
theorem not_final_emptyEofRun : ∃ s₀ s,
    (abortedRuns fun _ _ => True).Reach (fresh Dict.empty) s₀ ∧
    (abortedRuns fun _ _ => True).Reach s₀ s ∧
    progress s₀ = ({0, 1}, []) ∧
    progress s = ({0, 1, 2, 3, 4}, [⟨7, 5, "--- UC5 ---\ncount: 0\n", true⟩]) := by
  have hplays : (playBoth (fun _ _ => True) abortRun emptyEofRun).map
      (fun p => (progress p.1, progress p.2)) = some (({0, 1}, []),
        {0, 1, 2, 3, 4}, [⟨7, 5, "--- UC5 ---\ncount: 0\n", true⟩]) := by decide
  exact reach_of_playBoth hplays

end JoinRouteHandler
