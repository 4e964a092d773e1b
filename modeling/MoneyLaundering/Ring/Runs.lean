import MoneyLaundering.Ring.ClientView

/-!
# Runs of one node

The induction rule for a node with its queues: what a consuming process maintains
between two calls, and what every crash leaves.  A call always leaves the node
consuming, and an aborted client holds no completion state.
-/

open Crash

namespace RingNode

variable {Q F S E α β : Type} {C : Controller Q F S E α β}
  {m : Node Q F S E β}

/-- An aborted client holds no completion state, in memory and on disk. -/
def Forgotten (v : ClientView β) : Prop :=
  (v.aborted = true → v.mem = .new) ∧ (v.diskAborted = true → v.disk = .new)

/-- The part of it that a crash leaves. -/
def DiskForgotten (v : ClientView β) : Prop :=
  v.diskAborted = true → v.disk = .new

theorem aborted_advance (peer : Peer) (v : ClientView β) (t : BarrierToken) :
    (v.advance peer t).1.aborted = v.aborted ∧
      (v.advance peer t).1.disk = v.disk ∧
        (v.advance peer t).1.diskAborted = v.diskAborted := by
  unfold ClientView.advance
  split
  · exact ⟨rfl, rfl, rfl⟩
  · split
    · exact ⟨rfl, rfl, rfl⟩
    · split <;> exact ⟨rfl, rfl, rfl⟩

theorem forgotten_rules (peer : Peer) (c : UUID) :
    ViewRules (β := β) peer c (fun _ => True) (fun _ => Forgotten)
      DiskForgotten where
  counted v cl h hab _ _ := ⟨fun hab' => by simp [hab] at hab', h.2⟩
  dropped v h := ⟨fun _ => rfl, h.2⟩
  reported g v sent _ h hab _ := by
    have hkept : ∀ w : ClientView β, w.aborted = v.aborted → w.disk = v.disk →
        w.diskAborted = v.diskAborted → Forgotten w := by
      intro w hw hdisk hdab
      refine ⟨fun hab' => ?_, fun hab' => ?_⟩
      · rw [hw, hab] at hab'
        cases hab'
      · rw [hdisk]
        exact h.2 (hdab ▸ hab')
    have hnext : Forgotten (v.reportSent peer c sent).1 := by
      unfold ClientView.reportSent
      simp only
      split
      · exact hkept _ rfl rfl rfl
      · split
        · exact hkept _ rfl rfl rfl
        · obtain ⟨h1, h2, h3⟩ := aborted_advance peer
            ((v.logged (.reported c sent)).markEmitted sent)
            (RingCompletion.firstToken peer c sent)
          exact hkept _ h1 h2 h3
    exact ⟨hnext, fun _ _ => hnext⟩
  token v t h _ _ := by
    have hnext : Forgotten (v.onToken peer t).1 := by
      unfold ClientView.onToken
      split
      · exact h
      · rename_i hab
        obtain ⟨h1, h2, h3⟩ := aborted_advance peer v (v.stampToken peer t)
        refine ⟨fun hab' => absurd (h1 ▸ hab') hab, fun hab' => ?_⟩
        rw [h2]
        exact h.2 (h3 ▸ hab')
    exact ⟨hnext, fun _ _ => hnext⟩
  saved g v _ h := ⟨h.1, h.1⟩
  alive v h hready := by
    by_contra hab
    rw [h.1 (by simpa using hab)] at hready
    simp at hready
  settled v h _ := h
  restarted v h := h
  restored v h := ⟨h, h⟩

/-! ## Processes before they restore anything -/

/-- A process that has not restored anything yet. -/
structure Blank (C : Controller Q F S E α β) (m : Node Q F S E β) : Prop where
  extra : m.state.extra = C.extra₀
  seqs : m.state.seqs = fun _ => 0
  rc : m.state.rc = .new
  dedup : m.dedup = .fresh
  pendingAcks : m.pendingAcks = []
  aborted : m.aborted = ∅
  dirty : m.dirty = false
  taken : m.taken = ∅

theorem Blank.logged (h : Blank C m) (e : Event β) : Blank C (m.logged e) :=
  ⟨h.extra, h.seqs, h.rc, h.dedup, h.pendingAcks, h.aborted, h.dirty, h.taken⟩

theorem blank_reboot (k : UUID → ℕ → ℕ) (m : Node Q F S E β) :
    Blank C (m.reboot C.provider k) :=
  ⟨rfl, rfl, rfl, rfl, rfl, rfl, rfl, rfl⟩

theorem blank_initial (f₀ : F) :
    Blank C (Machine.initial (C.fresh f₀) : Node Q F S E β) :=
  ⟨rfl, rfl, rfl, rfl, rfl, rfl, rfl, rfl⟩

/-! ## The induction rule -/

/-- The invariant of a node: `L` of a consuming process, `D` of one that crashed
or was never started. -/
structure NodeInv (C : Controller Q F S E α β) (L D : Node Q F S E β → Prop)
    (m : Node Q F S E β) : Prop where
  live : m.up = true → L m
  stored : m.up = false → D m ∧ Blank C m
  forgotten : ∀ c, Forgotten (m.view c)

variable {arrivals : Q → ℕ → Option (Message α)} {fifo : Bool}
  {crashable : Node Q F S E β → Prop} {L D : Node Q F S E β → Prop} {f₀ : F}

theorem NodeInv.mono {L' D' : Node Q F S E β → Prop} (h : NodeInv C L D m)
    (hL : ∀ m, L m → L' m) (hD : ∀ m, D m → D' m) : NodeInv C L' D' m :=
  ⟨fun hup => hL m (h.live hup),
    fun hdown => ⟨hD m (h.stored hdown).1, (h.stored hdown).2⟩, h.forgotten⟩

theorem NodeInv.idle (h : NodeInv C L D m) (c : UUID) :
    Idle (fun _ => Forgotten) DiskForgotten c m :=
  ⟨fun _ => h.forgotten c,
    fun hdown => ⟨(h.forgotten c).2, (h.stored hdown).2.rc⟩⟩

variable [DecidableEq Q]

/-- After every call the node is consuming. -/
theorem spec_call_up (fifo : Bool) (call : Call Q) :
    Spec (fun m => NodeInv C L D m ∧ Enabled arrivals fifo call m)
      (handler C arrivals call)
      (fun _ m => m.up = true ∧ ∀ c, Forgotten (m.view c))
      (fun m => ∀ c, DiskForgotten (m.view c)) := by
  have hcall : ∀ c, Spec
      (fun m => NodeInv C L D m ∧ Enabled arrivals fifo call m)
      (handler C arrivals call)
      (fun _ m => m.up = true ∧ Forgotten (m.view c))
      (fun m => DiskForgotten (m.view c)) := by
    intro c
    refine (spec_call (forgotten_rules C.self c) (fun v hv => hv) arrivals fifo
      call fun _ _ _ => trivial).conseq ?_ ?_ ?_
    · exact fun m hm => ⟨hm.1.idle c, hm.2⟩
    · exact fun _ m hm => ⟨hm.2, hm.1⟩
    · rintro m (⟨-, hm⟩ | hm)
      · exact hm.2
      · exact hm
  exact (Spec.forall hcall).post fun _ m hm => ⟨(hm 0).1, fun c => (hm c).2⟩

/-- What calls restore and what crashes hand over holds in every reached
state. -/
theorem nodeInv_reach
    (hinit : D (Machine.initial (C.fresh f₀)))
    (hcall : ∀ call, Spec
      (fun m => NodeInv C L D m ∧ Enabled arrivals fifo call m)
      (handler C arrivals call) (fun _ => L)
      (fun m => crashable m → ∀ k, D (m.reboot C.provider k)))
    (hidle : ∀ m, L m ∨ D m → crashable m → ∀ k, D (m.reboot C.provider k))
    (h : (system C arrivals fifo crashable).Reach
      (Machine.initial (C.fresh f₀)) m) :
    NodeInv C L D m := by
  have hreboot : ∀ (m : Node Q F S E β) k, (∀ c, DiskForgotten (m.view c)) →
      D (m.reboot C.provider k) → NodeInv C L D (m.reboot C.provider k) := by
    intro m k hforgotten hD
    refine ⟨fun hup => ?_, fun _ => ⟨hD, blank_reboot k m⟩, fun c => ?_⟩
    · simp [Machine.reboot] at hup
    · rw [view_reboot]
      exact ⟨fun hab => Bool.noConfusion hab, hforgotten c⟩
  refine System.Reach.invariant (I := NodeInv C L D) ?_ ?_ ?_ h
  · refine ⟨fun hup => by simp [Machine.initial] at hup,
      fun _ => ⟨hinit, blank_initial f₀⟩, fun c => ?_⟩
    exact ⟨fun _ => rfl, fun _ => rfl⟩
  · intro call
    refine ((hcall call).and (spec_call_up (L := L) (D := D) fifo call)).conseq
      ?_ ?_ ?_
    · exact fun m hm => ⟨hm, hm⟩
    · rintro - m ⟨hL, hup, hforgotten⟩
      exact ⟨fun _ => hL, fun hdown => by simp [hup] at hdown, hforgotten⟩
    · rintro m ⟨hD, hforgotten⟩ k hcrash
      exact hreboot m k hforgotten (hD hcrash k)
  · intro call k m hm hcrash
    refine hreboot m k (fun c => (hm.forgotten c).2) (hidle m ?_ hcrash k)
    cases hup : m.up with
    | true => exact Or.inl (hm.live hup)
    | false => exact Or.inr (hm.stored hup).1

/-- What holds between two calls and wherever a call is cut holds in every
visited state. -/
theorem node_visits {O : Node Q F S E β → Prop}
    (hreach : ∀ m, (system C arrivals fifo crashable).Reach
      (Machine.initial (C.fresh f₀)) m → NodeInv C L D m)
    (hL : ∀ m, L m → O m) (hD : ∀ m, D m → O m)
    (hcall : ∀ call, Spec
      (fun m => NodeInv C L D m ∧ Enabled arrivals fifo call m)
      (handler C arrivals call) (fun _ _ => True) O)
    (h : (system C arrivals fifo crashable).Visits
      (Machine.initial (C.fresh f₀)) m) : O m := by
  refine h.property hreach (fun m hm => ?_) hcall
  cases hup : m.up with
  | true => exact hL m (hm.live hup)
  | false => exact hD m (hm.stored hup).1

instance (call : Call Q) :
    DecidablePred ((system C arrivals fifo crashable).enabled call) :=
  inferInstanceAs (DecidablePred (Enabled arrivals fifo call))

instance [DecidablePred crashable] (call : Call Q) (k : UUID → ℕ → ℕ) :
    DecidablePred ((system C arrivals fifo crashable).crashable call k) :=
  inferInstanceAs (DecidablePred crashable)

end RingNode
