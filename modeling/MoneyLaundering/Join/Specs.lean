import MoneyLaundering.Join.RouteHandler

/-!
# What the handlers of a join do

One specification for each handler, from what an invariant needs at each of its effects.
-/

open Crash LockProg

namespace JoinRouteHandler

variable {F S α : Type} (J : JoinRouteHandler F S α)

/-- The client was sent the given chunks. -/
def sent (clientId : UUID) (chunks : List (String × Bool)) (m : JoinNode F S) :
    JoinNode F S :=
  { m with
    log := (chunks.map fun chunk =>
      (⟨clientId, J.ucId, chunk.1, chunk.2⟩ : Response)).reverse ++ m.log }

/-- The result of the client was taken. -/
def taken (clientId : UUID) (m : JoinNode F S) : JoinNode F S :=
  withFn (fun f => (J.fn.getResponses clientId f).2) m

/-- The chunks of the client's result. -/
def chunks (clientId : UUID) (m : JoinNode F S) : List (String × Bool) :=
  (J.fn.getResponses clientId m.state.fn).1

/-- The result of the client was sent, and the client is marked. -/
def resulted (clientId : UUID) (m : JoinNode F S) : JoinNode F S :=
  withCounts (JoinCounts.markFinalized clientId)
    (J.sent clientId (J.chunks clientId m) (J.taken clientId m))

/-- The client has all it waits for and is not finalized. -/
def Ready (clientId : UUID) (m : JoinNode F S) : Prop :=
  clientId ∉ m.state.counts.finalized ∧
    m.state.counts.isComplete clientId = true

variable {J} {P Q R B I : JoinNode F S → Prop} {clientId : UUID}

theorem foldl_logged (clientId : UUID) (chunks : List (String × Bool))
    (m : JoinNode F S) :
    chunks.foldl (fun m chunk =>
      m.logged ⟨clientId, J.ucId, chunk.1, chunk.2⟩) m =
      J.sent clientId chunks m := by
  induction chunks generalizing m with
  | nil => rfl
  | cons chunk chunks ih =>
      rw [List.foldl_cons, ih]
      simp [sent, Machine.logged]

/-- The chunks go out one by one, so `I` has to hold after any number of them. -/
theorem spec_sendResult
    (hsend : ∀ m done rest, P m → J.chunks clientId m = done ++ rest →
      I (J.sent clientId done (J.taken clientId m)))
    (hQ : ∀ m, P m → Q (J.resulted clientId m)) :
    Spec P (J.sendResult clientId) (fun _ => Q) I := by
  intro m hm
  constructor
  · intro p hp
    change p ∈ (Prog.forEach (J.chunks clientId m) (J.sendResponse clientId)
      (J.taken clientId m)).points ++ [] at hp
    rw [List.append_nil] at hp
    obtain ⟨done, chunk, rest, hsplit, rfl⟩ :=
      (Prog.mem_points_forEach_change _ _ _ _ _).mp hp
    rw [foldl_logged]
    exact hsend m done (chunk :: rest) hm hsplit
  · have hfinal : (J.sendResult clientId m).final = J.resulted clientId m := by
      change withCounts _ (Prog.forEach (J.chunks clientId m)
        (J.sendResponse clientId) (J.taken clientId m)).final = _
      unfold sendResponse
      rw [Prog.forEach_change_final, foldl_logged]
      rfl
    rw [hfinal]
    exact hQ m hm

/-- `_maybe_finalize`: nothing happens, or the result goes out and the rest follows. -/
theorem spec_maybeFinalize {held : Bool}
    (hidle : ∀ m, P m → ¬Ready clientId m → Q m)
    (hsend : ∀ m done rest, P m → Ready clientId m →
      J.chunks clientId m = done ++ rest →
      I (J.sent clientId done (J.taken clientId m)))
    (hrest : LockSpec held
      (fun t => ∃ m, P m ∧ Ready clientId m ∧ t = J.resulted clientId m)
      (do
        LockedCheckpointer.flush J.provider true
        lift (J.discard clientId)) (fun _ => Q) B I) :
    LockSpec held P (J.maybeFinalize clientId) (fun _ => Q) B I := by
  apply LockSpec.read_bind
  intro before
  apply LockSpec.ite
  · intro hfinal
    apply LockSpec.pure
    rintro m ⟨rfl, hm⟩
    exact hidle m hm fun h => h.1 (JoinCounts.isFinalized_iff.mp hfinal)
  intro hfinal
  apply LockSpec.ite
  · intro hcomplete
    apply LockSpec.pure
    rintro m ⟨rfl, hm⟩
    exact hidle m hm fun h => by simp [h.2] at hcomplete
  intro hcomplete
  have hready : ∀ m, m = before → Ready clientId m := by
    rintro m rfl
    exact ⟨fun h => hfinal (JoinCounts.isFinalized_iff.mpr h), by
      simpa using hcomplete⟩
  apply LockSpec.bind (LockSpec.lift (spec_sendResult _ _)) fun _ => hrest
  · intro m done rest hm hsplit
    exact hsend m done rest hm.2 (hready m hm.1) hsplit
  · intro m hm
    exact ⟨m, hm.2, hready m hm.1, rfl⟩

/-- With the lock free the checkpoint is written and the client is dropped. -/
theorem spec_afterResult
    (hflush : Spec P (Checkpointer.checkpointAndFlush J.provider true)
      (fun _ => R) I)
    (hdiscard : ∀ m, R m → I m ∧ Q (withFn (J.fn.discard clientId) m)) :
    LockSpec false P
      (do
        LockedCheckpointer.flush J.provider true
        lift (J.discard clientId)) (fun _ => Q) B I := by
  apply LockSpec.bind (LockedCheckpointer.spec_flush hflush)
  intro _
  apply LockSpec.lift
  apply Spec.change
  · intro m hm
    exact (hdiscard m hm).1
  · intro m hm
    exact (hdiscard m hm).2

/-- With the lock held the handler waits. -/
theorem spec_afterResult_held (hblock : ∀ m, P m → B m) :
    LockSpec true P
      (do
        LockedCheckpointer.flush J.provider true
        lift (J.discard clientId)) (fun _ => Q) B I := by
  apply LockSpec.bind (Q := fun _ _ => False)
  · exact LockSpec.withLock_held hblock
  · intro _
    exact LockSpec.of_false

/-! ## Runs -/

/-- A handler that has restored nothing yet. -/
def Blank (m : JoinNode F S) : Prop :=
  m.state.counts = .empty ∧ m.aborted = ∅ ∧ m.pendingAcks = []

/-- The client is finalized in the checkpoint. -/
def Stored (c : UUID) (m : JoinNode F S) : Prop :=
  ∃ b, m.store = some b ∧ c ∈ b.state.counts.finalized

/-- What is said of a handler: `live` of one that consumes, `down` of one that is not
started, `stuck` of one that waits for its own lock, and `cut` of any. -/
structure Phases (F S : Type) where
  live : JoinNode F S → Prop
  down : JoinNode F S → Prop
  stuck : JoinNode F S → Prop
  cut : JoinNode F S → Prop

/-- The phases of an invariant that holds of any handler, and of `live` ones more. -/
def Phases.ofCut (live cut : JoinNode F S → Prop) : Phases F S :=
  ⟨live, fun m => cut m ∧ Blank m, cut, cut⟩

/-- What holds between two calls. -/
structure Between (φ : Phases F S) (s : Locked (JoinNode F S)) : Prop where
  live : s.held = false → s.inner.up = true → φ.live s.inner
  down : s.held = false → s.inner.up = false → φ.down s.inner
  stuck : s.held = true → φ.stuck s.inner

/-- The rules from which it holds in every run. -/
structure RunRules (J : JoinRouteHandler F S α) (arrivals : ℕ → Option (Message α))
    (guard : Call → JoinNode F S → Prop)
    (crashable : (UUID → ℕ → ℕ) → JoinNode F S → Prop) (φ : Phases F S) : Prop where
  live : ∀ m, φ.live m → φ.cut m ∧ m.up = true
  down : ∀ m, φ.down m → φ.cut m
  stuck : ∀ m, φ.stuck m → φ.cut m
  reboot : ∀ m k, φ.cut m → crashable k m → φ.down (m.reboot J.provider k)
  start : LockSpec false (fun m => φ.down m ∧ m.up = false) J.start
    (fun _ => φ.live) φ.stuck φ.cut
  receive : ∀ tag, LockSpec false
    (fun m => φ.live m ∧ Enabled arrivals (.deliver tag) ⟨false, m⟩ ∧
      guard (.deliver tag) m)
    (J.receive tag (arrivals tag)) (fun _ => φ.live) φ.stuck φ.cut

namespace RunRules

variable {arrivals : ℕ → Option (Message α)} {guard : Call → JoinNode F S → Prop}
  {crashable : (UUID → ℕ → ℕ) → JoinNode F S → Prop} {φ : Phases F S}
  {s₀ s : Locked (JoinNode F S)}

theorem cut (h : RunRules J arrivals guard crashable φ) (hs : Between φ s) :
    φ.cut s.inner := by
  cases hheld : s.held with
  | true => exact h.stuck _ (hs.stuck hheld)
  | false =>
      cases hup : s.inner.up with
      | true => exact (h.live _ (hs.live hheld hup)).1
      | false => exact h.down _ (hs.down hheld hup)

theorem between (h : RunRules J arrivals guard crashable φ)
    (hs : (s.held = false ∧ φ.live s.inner) ∨ (s.held = true ∧ φ.stuck s.inner)) :
    Between φ s := by
  rcases hs with ⟨hheld, hlive⟩ | ⟨hheld, hstuck⟩
  · refine ⟨fun _ _ => hlive, fun _ hdown => ?_, fun hlocked => ?_⟩
    · simp [(h.live _ hlive).2] at hdown
    · simp [hheld] at hlocked
  · refine ⟨fun hfree => ?_, fun hfree => ?_, fun _ => hstuck⟩
    · simp [hheld] at hfree
    · simp [hheld] at hfree

/-- What every call preserves. -/
theorem spec_serve (h : RunRules J arrivals guard crashable φ) (call : Call) :
    Spec (fun s => Between φ s ∧
        (J.system arrivals guard crashable).enabled call s)
      ((J.system arrivals guard crashable).handler call)
      (fun _ => Between φ) (fun s => φ.cut s.inner) := by
  cases call with
  | start =>
      apply (LockSpec.run h.start).conseq
      · rintro s ⟨hs, ⟨hheld, hdown⟩, -⟩
        exact ⟨hheld, hs.down hheld hdown, hdown⟩
      · exact fun _ s hs => h.between hs
      · exact fun _ hs => hs
  | deliver tag =>
      apply (LockSpec.run (h.receive tag)).conseq
      · intro s ⟨hs, hcall, hguard⟩
        obtain ⟨hheld, hup, hrest⟩ := hcall
        exact ⟨hheld, hs.live hheld hup, ⟨rfl, hup, hrest⟩, hguard⟩
      · exact fun _ s hs => h.between hs
      · exact fun _ hs => hs

theorem reboot_between (h : RunRules J arrivals guard crashable φ)
    {m : JoinNode F S} (k : UUID → ℕ → ℕ) (hm : φ.cut m) (hc : crashable k m) :
    Between φ ⟨false, m.reboot J.provider k⟩ := by
  constructor
  · intro _ hup
    cases hup
  · intro _ _
    exact h.reboot m k hm hc
  · intro hheld
    cases hheld

theorem reach (h : RunRules J arrivals guard crashable φ) (h₀ : Between φ s₀)
    (hs : (J.system arrivals guard crashable).Reach s₀ s) : Between φ s := by
  apply hs.invariant h₀
  · intro call
    apply (h.spec_serve call).conseq
    · exact fun _ hs => hs
    · exact fun _ _ hs => hs
    · exact fun _ hs k hc => h.reboot_between k hs hc
  · intro _ k s hs hc
    exact h.reboot_between k (h.cut hs) hc

theorem visits (h : RunRules J arrivals guard crashable φ) (h₀ : Between φ s₀)
    (hs : (J.system arrivals guard crashable).Visits s₀ s) : φ.cut s.inner := by
  apply hs.property fun _ hs => h.reach h₀ hs
  · exact fun _ hs => h.cut hs
  · intro call
    exact (h.spec_serve call).post fun _ _ _ => trivial

end RunRules

theorem between_fresh {φ : Phases F S} (f : F) (hdown : φ.down (fresh f).inner) :
    Between φ (fresh f) := by
  constructor
  · intro _ hup
    cases hup
  · intro _ _
    exact hdown
  · intro hheld
    cases hheld

theorem blank_fresh (f : F) : Blank (fresh f : Locked (JoinNode F S)).inner :=
  ⟨rfl, rfl, rfl⟩

end JoinRouteHandler
