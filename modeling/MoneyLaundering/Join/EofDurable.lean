import MoneyLaundering.Join.Specs

/-!
# What the join remembers of an end-of-file

An end-of-file is acknowledged when its handler ends, but the handler writes a checkpoint
only if it completes its client.  Otherwise the expected count is in memory until a later
message causes a checkpoint.
-/

open Crash LockProg

namespace JoinCounts

variable {c x : UUID} {counts counts' : JoinCounts}

/-- The end-of-file of a client is not lost: its count is there, or the client is
finalized. -/
def Knows (c : UUID) (counts : JoinCounts) : Prop :=
  counts.expected.get? c ≠ none ∨ c ∈ counts.finalized

instance (c : UUID) : DecidablePred (Knows c) := fun counts =>
  inferInstanceAs (Decidable (counts.expected.get? c ≠ none ∨ c ∈ counts.finalized))

/-- A client that is not finalized waits for no count. -/
def Settled (c : UUID) (counts : JoinCounts) : Prop :=
  c ∈ counts.finalized ∨ counts.expected.get? c = none

/-- Nothing changed for a client but what was received. -/
def SameAt (c : UUID) (counts counts' : JoinCounts) : Prop :=
  (c ∈ counts'.finalized ↔ c ∈ counts.finalized) ∧
    counts'.expected.get? c = counts.expected.get? c

theorem SameAt.settled (h : SameAt c counts counts') (hs : counts.Settled c) :
    counts'.Settled c := by
  rcases hs with hs | hs
  · exact Or.inl (h.1.mpr hs)
  · exact Or.inr (h.2.trans hs)

theorem sameAt_incReceived : SameAt c counts (counts.incReceived x) :=
  ⟨Iff.rfl, rfl⟩

theorem sameAt_setExpected {k : ℤ} (hx : x ≠ c) :
    SameAt c counts (counts.setExpected x k) :=
  ⟨Iff.rfl, Dict.get?_set_of_ne _ _ hx.symm⟩

theorem mem_markFinalized : x ∈ (counts.markFinalized x).finalized := by
  rw [markFinalized]
  split
  · assumption
  · simp

theorem sameAt_markFinalized (hx : x ≠ c) :
    SameAt c counts (counts.markFinalized x) := by
  constructor
  · rw [markFinalized]
    split
    · exact Iff.rfl
    · simp [hx.symm]
  · exact (Dict.get?_erase _ _ _).trans (if_neg hx.symm)

theorem sameAt_drop (hx : x ≠ c) : SameAt c counts (counts.drop x) := by
  constructor
  · simp [drop, hx.symm]
  · exact (Dict.get?_erase _ _ _).trans (if_neg hx.symm)

theorem isComplete_setExpected {k : ℤ} :
    (counts.setExpected x k).isComplete x = true ↔
      k ≤ (counts.received.getD x 0 : ℤ) := by
  rw [isComplete, setExpected, Dict.get?_set_self]
  exact decide_eq_true_iff

end JoinCounts

namespace JoinRouteHandler

variable {F S α : Type} {J : JoinRouteHandler F S α}
  {arrivals : ℕ → Option (Message α)} {up : Bool} {m : JoinNode F S} {c x : UUID}

/-- The counts that a restart takes over. -/
def restoredCounts (m : JoinNode F S) : JoinCounts :=
  match m.store with
  | none => .empty
  | some b => b.state.counts

/-! ## The invariant -/

/-- What a crash preserves. -/
structure EofDisk (arrivals : ℕ → Option (Message α)) (c : UUID)
    (m : JoinNode F S) : Prop where
  settled : ∀ b, m.store = some b → b.state.counts.Settled c
  stored : ∀ tag k, arrivals tag = some (.eof c k) → tag ∈ m.acked → Stored c m

/-- What a process adds that took over the checkpoint. -/
structure EofMem (arrivals : ℕ → Option (Message α)) (c : UUID) (up : Bool)
    (m : JoinNode F S) : Prop where
  kept : Stored c m → c ∈ m.state.counts.finalized
  pending : ∀ tag ∈ m.pendingAcks, ∃ d, arrivals tag = some (.data d)
  up_eq : m.up = up

/-- The invariant of a handler whose checkpoint may lag behind. -/
def Behind (arrivals : ℕ → Option (Message α)) (c : UUID) (up : Bool)
    (m : JoinNode F S) : Prop :=
  EofDisk arrivals c m ∧ EofMem arrivals c up m

/-- The invariant of a handler between two operations. -/
def Level (arrivals : ℕ → Option (Message α)) (c : UUID) (up : Bool)
    (m : JoinNode F S) : Prop :=
  Behind arrivals c up m ∧ m.state.counts.Settled c ∧
    (c ∈ m.state.counts.finalized → Stored c m)

theorem EofDisk.ackTag (h : EofDisk arrivals c m) {tag : ℕ}
    (hsafe : ∀ k, arrivals tag = some (.eof c k) → Stored c m) :
    EofDisk arrivals c (m.ackTag tag) := by
  constructor
  · exact h.settled
  · intro t k ht hacked
    rcases Finset.mem_insert.mp hacked with rfl | hacked
    · exact hsafe k ht
    · exact h.stored t k ht hacked

theorem EofDisk.ackAll (h : EofDisk arrivals c m) {tags : List ℕ}
    (hdata : ∀ tag ∈ tags, ∃ d, arrivals tag = some (.data d)) :
    EofDisk arrivals c (m.ackAll tags) := by
  constructor
  · exact h.settled
  · intro t k ht hacked
    rcases Finset.mem_union.mp hacked with hacked | hmem
    · exact h.stored t k ht hacked
    · obtain ⟨d, hd⟩ := hdata t (List.mem_toFinset.mp hmem)
      rw [hd] at ht
      cases ht

theorem Behind.withFn (h : Behind arrivals c up m) (f : F → F) :
    Behind arrivals c up (withFn f m) :=
  ⟨⟨h.1.settled, h.1.stored⟩, h.2.kept, h.2.pending, h.2.up_eq⟩

theorem Behind.withCounts (h : Behind arrivals c up m)
    {f : JoinCounts → JoinCounts}
    (hf : c ∈ m.state.counts.finalized → c ∈ (f m.state.counts).finalized) :
    Behind arrivals c up (withCounts f m) :=
  ⟨⟨h.1.settled, h.1.stored⟩, fun hs => hf (h.2.kept hs), h.2.pending, h.2.up_eq⟩

theorem Behind.sent (h : Behind arrivals c up m) (x : UUID)
    (chunks : List (String × Bool)) :
    Behind arrivals c up (J.sent x chunks (J.taken x m)) :=
  ⟨⟨h.1.settled, h.1.stored⟩, h.2.kept, h.2.pending, h.2.up_eq⟩

/-- A checkpoint catches up. -/
theorem Behind.checkpointed (h : Behind arrivals c up m)
    (hs : m.state.counts.Settled c) :
    Level arrivals c up (m.checkpointed J.provider) := by
  refine ⟨⟨⟨?_, ?_⟩, ?_, h.2.pending, h.2.up_eq⟩, hs, ?_⟩
  · intro b hb
    obtain rfl := Option.some.inj hb
    exact hs
  · intro tag k htag hacked
    exact ⟨_, rfl, h.2.kept (h.1.stored tag k htag hacked)⟩
  · rintro ⟨b, hb, hc⟩
    obtain rfl := Option.some.inj hb
    exact hc
  · intro hc
    exact ⟨_, rfl, hc⟩

theorem Level.released (h : Level arrivals c up m) :
    Level arrivals c up m.released := by
  obtain ⟨⟨hdisk, hmem⟩, hsettled, hstored⟩ := h
  have hacked := hdisk.ackAll hmem.pending
  exact ⟨⟨⟨hacked.settled, hacked.stored⟩, hmem.kept, by simp [Machine.released],
    hmem.up_eq⟩, hsettled, hstored⟩

theorem Level.withFn (h : Level arrivals c up m) (f : F → F) :
    Level arrivals c up (withFn f m) :=
  ⟨h.1.withFn f, h.2⟩

/-- A change of the counts that leaves the client alone. -/
theorem Level.withCounts (h : Level arrivals c up m) {f : JoinCounts → JoinCounts}
    (hf : JoinCounts.SameAt c m.state.counts (f m.state.counts)) :
    Level arrivals c up (withCounts f m) :=
  ⟨h.1.withCounts hf.1.mpr, hf.settled h.2.1, fun hc => h.2.2 (hf.1.mp hc)⟩

theorem Level.ackTag (h : Level arrivals c up m) {tag : ℕ}
    (hsafe : ∀ k, arrivals tag = some (.eof c k) → c ∈ m.state.counts.finalized) :
    Level arrivals c up (m.ackTag tag) := by
  have hdisk := h.1.1.ackTag fun k hk => h.2.2 (hsafe k hk)
  exact ⟨⟨⟨hdisk.settled, hdisk.stored⟩, h.1.2.kept, h.1.2.pending, h.1.2.up_eq⟩,
    h.2⟩

/-! ## The handlers -/

/-- A flush, forced where the checkpoint lags behind. -/
theorem spec_flush_level (force : Bool) (N : JoinCounts → Prop) :
    Spec (fun m => (Behind arrivals c up m ∧ m.state.counts.Settled c ∧
        (force = false → c ∈ m.state.counts.finalized → Stored c m)) ∧
          N m.state.counts)
      (Checkpointer.checkpointAndFlush J.provider force)
      (fun _ m => Level arrivals c up m ∧ N m.state.counts)
      (EofDisk arrivals c) := by
  apply Checkpointer.spec_checkpointAndFlush
    (R := fun m => Level arrivals c up m ∧ N m.state.counts)
  · intro m ⟨⟨hbehind, hsettled, _⟩, hN⟩ _
    refine ⟨hbehind.1, ?_, hbehind.checkpointed hsettled, hN⟩
    exact (hbehind.withFn fun _ => (J.fn.provider.snapshotState m.state.fn).2).1
  · intro m ⟨⟨hbehind, hsettled, hstored⟩, hN⟩ _ hforce
    exact ⟨⟨hbehind, hsettled, hstored hforce⟩, hN⟩
  · intro m tags rest hm hsplit
    apply hm.1.1.1.ackAll
    intro tag htag
    apply hm.1.1.2.pending
    rw [hsplit]
    exact List.mem_append_left _ htag
  · intro m hm
    exact ⟨hm.1.released, hm.2⟩

/-- Finalizing, with the lock free, where the watched client is finalized or has all it
waits for. -/
theorem spec_maybeFinalize_level (x : UUID) :
    LockSpec false
      (fun m => Behind arrivals c up m ∧
        (c ∈ m.state.counts.finalized → Stored c m) ∧
        (x ≠ c → m.state.counts.Settled c) ∧
        (x = c → c ∈ m.state.counts.finalized ∨ Ready c m))
      (J.maybeFinalize x)
      (fun _ m => Level arrivals c up m ∧ (x = c → c ∈ m.state.counts.finalized))
      (EofDisk arrivals c) (EofDisk arrivals c) := by
  apply spec_maybeFinalize
  · intro m ⟨hbehind, hstored, hother, hself⟩ hidle
    have hfinal : x = c → c ∈ m.state.counts.finalized := by
      rintro rfl
      exact (hself rfl).resolve_right hidle
    refine ⟨⟨hbehind, ?_, hstored⟩, hfinal⟩
    by_cases hx : x = c
    · exact Or.inl (hfinal hx)
    · exact hother hx
  · intro m done rest hm _ _
    exact (hm.1.sent x done).1
  · apply spec_afterResult
      (R := fun m => Level arrivals c up m ∧ (x = c → c ∈ m.state.counts.finalized))
    · apply (spec_flush_level true fun counts => x = c → c ∈ counts.finalized).pre
      intro _ ⟨m, ⟨hbehind, _, hother, _⟩, _, heq⟩
      rw [heq]
      have hsent := hbehind.sent (J := J) x (J.chunks x m)
      by_cases hx : x = c
      · subst hx
        exact ⟨⟨hsent.withCounts fun _ => JoinCounts.mem_markFinalized,
          Or.inl JoinCounts.mem_markFinalized, by simp⟩,
          fun _ => JoinCounts.mem_markFinalized⟩
      · have hsame : JoinCounts.SameAt c m.state.counts
            (m.state.counts.markFinalized x) := JoinCounts.sameAt_markFinalized hx
        exact ⟨⟨hsent.withCounts hsame.1.mpr, hsame.settled (hother hx), by simp⟩,
          fun h => absurd h hx⟩
    · intro m hm
      exact ⟨hm.1.1.1, hm.1.withFn _, hm.2⟩

/-- Finalizing, with the lock held: the watched client is settled, so nothing happens to
it. -/
theorem spec_maybeFinalize_level_held (x : UUID) :
    LockSpec true (Level arrivals c up) (J.maybeFinalize x)
      (fun _ => Level arrivals c up) (EofDisk arrivals c) (EofDisk arrivals c) := by
  apply spec_maybeFinalize
  · intro m hm _
    exact hm
  · intro m done rest hm _ _
    exact (hm.1.sent x done).1
  · apply spec_afterResult_held
    intro _ ⟨m, hm, _, heq⟩
    rw [heq]
    exact ⟨hm.1.1.settled, hm.1.1.stored⟩

variable {tag : ℕ} {k : ℤ}

theorem spec_eof_level (htag : arrivals tag = some (.eof x k)) :
    LockSpec false
      (fun m => Level arrivals c up m ∧ (x = c → c ∈ m.state.counts.finalized ∨
        k ≤ (m.state.counts.received.getD c 0 : ℤ)))
      (J.handleMessage tag (.eof x k)) (fun _ => Level arrivals c up)
      (EofDisk arrivals c) (EofDisk arrivals c) := by
  apply LockSpec.bind
    (Q := fun _ m => Level arrivals c up m ∧ (x = c →
      c ∈ m.state.counts.finalized ∨ k ≤ (m.state.counts.received.getD c 0 : ℤ)))
  · apply LockedCheckpointer.spec_flush
    apply (spec_flush_level false fun counts => x = c →
      c ∈ counts.finalized ∨ k ≤ (counts.received.getD c 0 : ℤ)).pre
    intro m hm
    exact ⟨⟨hm.1.1, hm.1.2.1, fun _ => hm.1.2.2⟩, hm.2⟩
  intro _
  apply LockSpec.bind
    (Q := fun _ m => Level arrivals c up m ∧ (x = c → c ∈ m.state.counts.finalized))
  · apply LockSpec.bind _ fun _ => spec_maybeFinalize_level x
    apply LockSpec.lift
    apply Spec.modify
    intro m ⟨hlevel, hguard⟩
    refine ⟨hlevel.1.withCounts fun h => h, hlevel.2.2, ?_, ?_⟩
    · intro hx
      exact (JoinCounts.sameAt_setExpected hx).settled hlevel.2.1
    · rintro rfl
      by_cases hfinal : x ∈ m.state.counts.finalized
      · exact Or.inl hfinal
      · refine Or.inr ⟨hfinal, ?_⟩
        exact JoinCounts.isComplete_setExpected.mpr ((hguard rfl).resolve_left hfinal)
  · intro _
    apply LockSpec.lift
    apply Checkpointer.spec_ack
    · intro m hm
      exact hm.1.1.1
    · intro m hm
      apply hm.1.ackTag
      intro k' hk'
      rw [htag] at hk'
      cases hk'
      exact hm.2 rfl

theorem spec_abort_level (htag : arrivals tag = some (.abort x)) (hx : x ≠ c) :
    LockSpec false (Level arrivals c up) (J.handleMessage tag (.abort x))
      (fun _ => Level arrivals c up) (EofDisk arrivals c) (EofDisk arrivals c) := by
  apply LockSpec.bind (Q := fun _ => Level arrivals c up)
  · apply LockSpec.bind (Q := fun _ => Level arrivals c up)
    · apply LockSpec.lift
      apply Spec.change
      · intro m hm
        exact hm.1.1
      · intro m hm
        exact hm.withFn _
    intro _
    apply LockSpec.bind (Q := fun _ => Level arrivals c up)
    · apply LockSpec.lift
      apply Spec.modify
      intro m hm
      exact hm.withCounts (JoinCounts.sameAt_drop hx)
    intro _
    apply LockSpec.bind (Q := fun _ => Level arrivals c up)
    · apply LockedCheckpointer.spec_markAborted
      intro m hm
      exact ⟨⟨⟨hm.1.1.settled, hm.1.1.stored⟩, hm.1.2.kept, hm.1.2.pending,
        hm.1.2.up_eq⟩, hm.2⟩
    · intro _
      apply LockedCheckpointer.spec_flush
      apply (spec_flush_level true fun _ => True).conseq
      · exact fun m hm => ⟨⟨hm.1, hm.2.1, fun _ => hm.2.2⟩, trivial⟩
      · exact fun _ m hm => hm.1
      · exact fun _ hm => hm
  · intro _
    apply LockSpec.lift
    apply Checkpointer.spec_ack
    · intro m hm
      exact hm.1.1
    · intro m hm
      apply hm.ackTag
      intro k hk
      rw [htag] at hk
      cases hk

theorem spec_data_level {d : DataMsg α} (htag : arrivals tag = some (.data d)) :
    LockSpec false (Level arrivals c up) (J.handleMessage tag (.data d))
      (fun _ => Level arrivals c up) (EofDisk arrivals c) (EofDisk arrivals c) := by
  have hsafe : ∀ (m : JoinNode F S) (k : ℤ), arrivals tag = some (.eof c k) →
      c ∈ m.state.counts.finalized := by
    intro m k hk
    rw [htag] at hk
    cases hk
  apply LockedCheckpointer.spec_handleData (R := Level arrivals c up)
  · intro m hm _
    exact ⟨hm.1.1, hm.ackTag (hsafe m)⟩
  · intro m hm _ _
    exact ⟨hm.1.1, hm.ackTag (hsafe m)⟩
  · apply LockSpec.bind (Q := fun _ => Level arrivals c up)
    · apply LockSpec.lift
      apply Spec.modify
      intro m hm
      exact (hm.1.withFn _).withCounts JoinCounts.sameAt_incReceived
    intro _
    apply (spec_maybeFinalize_level_held d.clientId).conseq
    · exact fun _ h => h
    · intro _ m hm
      refine ⟨⟨⟨hm.1.1.settled, hm.1.1.stored⟩, hm.1.2.kept, ?_, hm.1.2.up_eq⟩, hm.2⟩
      intro t ht
      rcases List.mem_append.mp ht with ht | ht
      · exact hm.1.2.pending t ht
      · rw [List.mem_singleton.mp ht]
        exact ⟨d, htag⟩
    · exact fun _ h => h
    · exact fun _ h => h
  · apply (spec_flush_level false fun _ => True).conseq
    · exact fun m hm => ⟨⟨hm.1.1, hm.1.2.1, fun _ => hm.1.2.2⟩, trivial⟩
    · exact fun _ m hm => hm.1
    · exact fun _ hm => hm
  · exact fun _ hm _ => hm

/-- A delivery in which an end-of-file of the client, if it is one, finds the client
finalized or completes it. -/
def CompletesAtEof (arrivals : ℕ → Option (Message α)) (c : UUID) (call : Call)
    (m : JoinNode F S) : Prop :=
  ∀ tag k, call = .deliver tag → arrivals tag = some (.eof c k) →
    c ∈ m.state.counts.finalized ∨ k ≤ (m.state.counts.received.getD c 0 : ℤ)

/-- One delivery. -/
theorem spec_receive_level (habort : ∀ tag, arrivals tag ≠ some (.abort c))
    (tag : ℕ) :
    LockSpec false
      (fun m => Level arrivals c up m ∧ CompletesAtEof arrivals c (.deliver tag) m)
      (J.receive tag (arrivals tag)) (fun _ => Level arrivals c up)
      (EofDisk arrivals c) (EofDisk arrivals c) := by
  cases htag : arrivals tag with
  | none => exact LockSpec.pure fun _ hm => hm.1
  | some msg =>
      apply LockSpec.bind (Q := fun _ m => Level arrivals c up m ∧
        CompletesAtEof arrivals c (.deliver tag) m)
      · apply LockSpec.lift
        apply Spec.modify
        intro m hm
        exact ⟨⟨⟨⟨hm.1.1.1.settled, hm.1.1.1.stored⟩, hm.1.1.2.kept,
          hm.1.1.2.pending, hm.1.1.2.up_eq⟩, hm.1.2⟩, hm.2⟩
      intro _
      cases msg with
      | eof x k =>
          apply (spec_eof_level htag).pre
          intro m hm
          refine ⟨hm.1, ?_⟩
          rintro rfl
          exact hm.2 tag k rfl htag
      | abort x =>
          have hx : x ≠ c := by
            rintro rfl
            exact habort tag htag
          exact (spec_abort_level htag hx).pre fun _ hm => hm.1
      | data d => exact (spec_data_level htag).pre fun _ hm => hm.1

/-- A process that restarts takes over what the checkpoint has. -/
theorem spec_start_level :
    LockSpec false
      (fun m => EofDisk arrivals c m ∧ Blank m ∧ m.up = false)
      J.start (fun _ => Level arrivals c true) (EofDisk arrivals c)
      (EofDisk arrivals c) := by
  apply LockSpec.bind (Q := fun _ => Level arrivals c false)
  · apply LockSpec.lift
    apply Checkpointer.spec_restore
    · intro m hm
      exact hm.1
    · intro m ⟨hdisk, ⟨hcounts, _, hpending⟩, hup⟩ hnone
      have hempty : (J.provider.clearStaleSpill m.state).counts = .empty := hcounts
      refine ⟨⟨⟨hdisk.settled, hdisk.stored⟩, ?_, ?_, hup⟩, ?_, ?_⟩
      · rintro ⟨b, hb, -⟩
        rw [hnone] at hb
        cases hb
      · simp [hpending]
      · exact Or.inr (by simp [hempty, JoinCounts.empty])
      · intro hc
        simp [hempty, JoinCounts.empty] at hc
    · intro m b ⟨hdisk, ⟨_, _, hpending⟩, hup⟩ hb
      refine ⟨⟨⟨hdisk.settled, hdisk.stored⟩, ?_, ?_, hup⟩, hdisk.settled b hb, ?_⟩
      · rintro ⟨b', hb', hc⟩
        obtain rfl := Option.some.inj (hb.symm.trans hb')
        exact hc
      · simp [Machine.restored, hpending]
      · intro hc
        exact ⟨b, hb, hc⟩
  intro restored
  apply LockSpec.bind (Q := fun _ => Level arrivals c false)
  · apply LockSpec.when
    · intro _
      apply LockSpec.bind (Q := fun _ => Level arrivals c false)
      · apply LockSpec.lift
        apply Spec.read_bind
        intro before
        apply Spec.pre (P := Level arrivals c false)
        · apply Spec.forEach (I := fun _ => Level arrivals c false)
          intro _ x _ _
          apply Spec.change
          · intro m hm
            exact hm.1.1
          · intro m hm
            exact hm.withFn _
        · intro m hm
          exact hm.2
      · intro _
        apply LockedCheckpointer.spec_flush
        apply (spec_flush_level true fun _ => True).conseq
        · exact fun m hm => ⟨⟨hm.1, hm.2.1, fun _ => hm.2.2⟩, trivial⟩
        · exact fun _ m hm => hm.1
        · exact fun _ hm => hm
    · intro _ m hm
      exact hm
  · intro _
    apply LockSpec.lift
    apply Spec.modify
    intro m hm
    exact ⟨⟨⟨hm.1.1.settled, hm.1.1.stored⟩, hm.1.2.kept, hm.1.2.pending, rfl⟩, hm.2⟩

/-! ## Runs -/

theorem levelRules (J : JoinRouteHandler F S α)
    (crashable : (UUID → ℕ → ℕ) → JoinNode F S → Prop)
    (habort : ∀ tag, arrivals tag ≠ some (.abort c)) :
    RunRules J arrivals (CompletesAtEof arrivals c) crashable
      (.ofCut (Level arrivals c true) (EofDisk arrivals c)) := by
  constructor
  · intro m hm
    exact ⟨hm.1.1, hm.1.2.up_eq⟩
  · exact fun _ hm => hm.1
  · exact fun _ hm => hm
  · intro m _ hm _
    exact ⟨⟨hm.settled, hm.stored⟩, rfl, rfl, rfl⟩
  · exact spec_start_level.pre fun _ hm => ⟨hm.1.1, hm.1.2, hm.2⟩
  · intro tag
    exact (spec_receive_level habort tag).pre fun _ hm => ⟨hm.1, hm.2.2⟩

/-- In every run in which each end-of-file of a client that is handled finds the client
finalized or completes it, an acknowledged end-of-file of the client is not forgotten:
the counts that a restart takes over know it, and a handler that consumes has the client
finalized. -/
theorem eof_durable (J : JoinRouteHandler F S α)
    (arrivals : ℕ → Option (Message α))
    (crashable : (UUID → ℕ → ℕ) → JoinNode F S → Prop) (f : F)
    {tag : ℕ} {c : UUID} {k : ℤ} (htag : arrivals tag = some (.eof c k))
    (habort : ∀ tag, arrivals tag ≠ some (.abort c)) {s : Locked (JoinNode F S)}
    (h : (J.system arrivals (CompletesAtEof arrivals c) crashable).Visits (fresh f) s)
    (hacked : tag ∈ s.inner.acked) :
    (restoredCounts s.inner).Knows c ∧
      ((J.system arrivals (CompletesAtEof arrivals c) crashable).Reach (fresh f) s →
        s.held = false → s.inner.up = true →
          c ∈ s.inner.state.counts.finalized) := by
  have h₀ : Between (.ofCut (Level arrivals c true) (EofDisk arrivals c))
      (fresh f : Locked (JoinNode F S)) := by
    apply between_fresh
    refine ⟨⟨?_, ?_⟩, blank_fresh f⟩
    · intro b hb
      cases hb
    · intro t k' _ ht
      exact absurd ht (Finset.notMem_empty t)
  have hrules := levelRules J crashable habort
  have hstored := (hrules.visits h₀ h).stored tag k htag hacked
  constructor
  · obtain ⟨b, hb, hc⟩ := hstored
    rw [restoredCounts, hb]
    exact Or.inr hc
  · intro hreach hheld hup
    exact ((hrules.reach h₀ hreach).live hheld hup).1.2.kept hstored

/-- Two messages of client `7` and its end-of-file, before them or after them. -/
def eofArrivals (eofFirst : Bool) : ℕ → Option (Message ℕ)
  | 0 => if eofFirst then some (.eof 7 2) else some (.data ⟨7, 3, 1, 40⟩)
  | 1 => if eofFirst then some (.data ⟨7, 3, 1, 40⟩) else some (.data ⟨7, 3, 2, 41⟩)
  | 2 => if eofFirst then some (.data ⟨7, 3, 2, 41⟩) else some (.eof 7 2)
  | _ => none

/-- The runs of the handler that counts. -/
def eofRuns (eofFirst : Bool)
    (guard : Call → JoinNode (Dict UUID ℕ) (Dict UUID ℕ) → Prop) :
    System Effect (Locked (JoinNode (Dict UUID ℕ) (Dict UUID ℕ))) Call
      (UUID → ℕ → ℕ) :=
  uc5Handler.system (eofArrivals eofFirst) guard fun _ _ => True

instance (call : Call) : DecidablePred (CompletesAtEof (F := F) (S := S)
    (eofArrivals false) 7 call) := fun m =>
  match call with
  | .start => isTrue fun _ _ h => nomatch h
  | .deliver tag =>
    decidable_of_iff (tag = 2 → 7 ∈ m.state.counts.finalized ∨
      (2 : ℤ) ≤ (m.state.counts.received.getD 7 0 : ℤ)) (by
      constructor
      · rintro h _ k ⟨⟩ heof
        match tag, heof with
        | 2, heq =>
          cases heq
          exact h rfl
      · rintro h rfl
        exact h 2 2 rfl rfl)

instance (eofFirst : Bool)
    (guard : Call → JoinNode (Dict UUID ℕ) (Dict UUID ℕ) → Prop)
    [∀ call, DecidablePred (guard call)] (call : Call) :
    DecidablePred ((eofRuns eofFirst guard).enabled call) := fun s =>
  inferInstanceAs (Decidable (Enabled (eofArrivals eofFirst) call s ∧
    guard call s.inner))

instance (eofFirst : Bool)
    (guard : Call → JoinNode (Dict UUID ℕ) (Dict UUID ℕ) → Prop) (call : Call)
    (k : UUID → ℕ → ℕ) : DecidablePred ((eofRuns eofFirst guard).crashable call k) := fun _ =>
  inferInstanceAs (Decidable True)

/-- The messages, the end-of-file, and a crash. -/
def eofLastRun : List (System.Move Call (UUID → ℕ → ℕ)) :=
  [.finish .start, .finish (.deliver 0), .finish (.deliver 1), .finish (.deliver 2),
    .idleCrash .start fun _ _ => 0, .finish .start]

/-- The end-of-file, a crash, and the messages. -/
def eofFirstRun : List (System.Move Call (UUID → ℕ → ℕ)) :=
  [.finish .start, .finish (.deliver 0), .idleCrash .start fun _ _ => 0,
    .finish .start, .finish (.deliver 1), .finish (.deliver 2)]

theorem eof_durable_eofLastRun : ∃ s : Locked (JoinNode (Dict UUID ℕ) (Dict UUID ℕ)),
    (eofRuns false (CompletesAtEof (eofArrivals false) 7)).Reach (fresh Dict.empty) s ∧
    s.inner.acked = {0, 1, 2} ∧ (restoredCounts s.inner).Knows 7 := by
  have hplays : ((eofRuns false (CompletesAtEof (eofArrivals false) 7)).playAll
      eofLastRun (fresh Dict.empty)).map (fun s => s.inner.acked) = some {0, 1, 2} := by
    decide
  obtain ⟨s, hs, hacked⟩ := Option.map_eq_some_iff.mp hplays
  have hreach := System.reach_of_playAll hs
  have hno : ∀ tag, eofArrivals false tag ≠ some (.abort 7) := by
    intro tag heq
    match tag, heq with
    | 0, h => cases h
    | 1, h => cases h
    | 2, h => cases h
  refine ⟨s, hreach, hacked, ?_⟩
  have htag : 2 ∈ s.inner.acked := by
    rw [hacked]
    decide
  exact (eof_durable uc5Handler (eofArrivals false) (fun _ _ => True) Dict.empty rfl hno
    (.idle s hreach) htag).1

/-- The end-of-file comes first and is acknowledged, and then the handler crashes: the
counts that are taken over do not know the client, and when all its messages are
acknowledged the handler consumes, has not finalized the client and sent nothing. -/
theorem not_durable_eofFirstRun : ∃ s : Locked (JoinNode (Dict UUID ℕ) (Dict UUID ℕ)),
    (eofRuns true fun _ _ => True).Reach (fresh Dict.empty) s ∧
    s.inner.acked = {0, 1, 2} ∧ ¬(restoredCounts s.inner).Knows 7 ∧
    (s.held = false ∧ s.inner.up = true) ∧ 7 ∉ s.inner.state.counts.finalized ∧
    s.inner.log = [] := by
  have hplays : ((eofRuns true fun _ _ => True).playAll eofFirstRun
      (fresh Dict.empty)).any (fun s => decide (s.inner.acked = {0, 1, 2} ∧
        ¬(restoredCounts s.inner).Knows 7 ∧ (s.held = false ∧ s.inner.up = true) ∧
        7 ∉ s.inner.state.counts.finalized ∧ s.inner.log = [])) = true := by
    decide
  obtain ⟨s, hs, hobs⟩ := (Option.any_eq_true _ _).mp hplays
  exact ⟨s, System.reach_of_playAll hs, of_decide_eq_true hobs⟩

end JoinRouteHandler
