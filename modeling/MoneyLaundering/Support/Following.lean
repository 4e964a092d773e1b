import MoneyLaundering.Support.Crash

/-!
# Programs over richer states

A program over states that know more than another program's does the same if what a view
makes of its states, wherever it may be cut, is what the other program passes through.  Then
every run of a system is the view of a run of the richer one, so what is shown with the help
of what is only written down holds of the system itself.
-/

namespace Crash

namespace Prog

variable {ε σ τ α β : Type}

/-- Through the view, program `m'` does what program `m` does. -/
structure Follows (view : τ → σ) (m' : Prog ε τ α) (m : Prog ε σ α) : Prop where
  value : ∀ t, (m (view t)).value = (m' t).value
  final : ∀ t, (m (view t)).final = view (m' t).final
  points : ∀ t, (m (view t)).points = (m' t).points.map fun p => (p.1, view p.2)

variable {view : τ → σ}

theorem Follows.pure (a : α) : Follows view (Pure.pure a : Prog ε τ α) (Pure.pure a) :=
  ⟨fun _ => rfl, fun _ => rfl, fun _ => rfl⟩

theorem Follows.bind {m' : Prog ε τ α} {m : Prog ε σ α} {f' : α → Prog ε τ β}
    {f : α → Prog ε σ β} (h : Follows view m' m) (hf : ∀ a, Follows view (f' a) (f a)) :
    Follows view (m' >>= f') (m >>= f) := by
  constructor
  · intro t
    rw [bind_apply, bind_apply, h.value, h.final]
    exact (hf _).value _
  · intro t
    rw [bind_apply, bind_apply, h.value, h.final]
    exact (hf _).final _
  · intro t
    rw [bind_apply, bind_apply, h.value, h.final, h.points, List.map_append]
    exact congrArg _ ((hf _).points _)

/-- A program that reads its state first. -/
theorem Follows.read_bind {f' : τ → Prog ε τ α} {f : σ → Prog ε σ α}
    (h : ∀ t, Follows view (f' t) (f (view t))) :
    Follows view (Prog.read >>= f') (Prog.read >>= f) :=
  ⟨fun t => (h t).value t, fun t => (h t).final t, fun t => (h t).points t⟩

theorem Follows.act {e : ε} {f' : τ → α × τ} {f : σ → α × σ}
    (h : ∀ t, f (view t) = ((f' t).1, view (f' t).2)) :
    Follows view (Prog.act e f') (Prog.act e f) :=
  ⟨fun t => congrArg Prod.fst (h t), fun t => congrArg Prod.snd (h t), fun _ => rfl⟩

theorem Follows.change {e : ε} {f' : τ → τ} {f : σ → σ} (h : ∀ t, f (view t) = view (f' t)) :
    Follows view (Prog.change e f') (Prog.change e f) :=
  Follows.act fun t => congrArg (Prod.mk ()) (h t)

theorem Follows.compute {f' : τ → α × τ} {f : σ → α × σ}
    (h : ∀ t, f (view t) = ((f' t).1, view (f' t).2)) :
    Follows (ε := ε) view (Prog.compute f') (Prog.compute f) :=
  ⟨fun t => congrArg Prod.fst (h t), fun t => congrArg Prod.snd (h t), fun _ => rfl⟩

theorem Follows.modify {f' : τ → τ} {f : σ → σ} (h : ∀ t, f (view t) = view (f' t)) :
    Follows (ε := ε) view (Prog.modify f') (Prog.modify f) :=
  Follows.compute fun t => congrArg (Prod.mk ()) (h t)

theorem Follows.ite {c : Prop} [Decidable c] {m' n' : Prog ε τ α} {m n : Prog ε σ α}
    (h : Follows view m' m) (h' : Follows view n' n) :
    Follows view (if c then m' else n') (if c then m else n) := by
  split
  · exact h
  · exact h'

theorem Follows.when {c : Prop} [Decidable c] {m' : Prog ε τ Unit} {m : Prog ε σ Unit}
    (h : Follows view m' m) : Follows view (Prog.when c m') (Prog.when c m) :=
  Follows.ite h (.pure ())

theorem Follows.forEach {f' : β → Prog ε τ Unit} {f : β → Prog ε σ Unit}
    (h : ∀ b, Follows view (f' b) (f b)) (bs : List β) :
    Follows view (Prog.forEach bs f') (Prog.forEach bs f) := by
  induction bs with
  | nil => exact .pure ()
  | cons b bs ih => exact (h b).bind fun _ => ih

end Prog

namespace System

variable {ε σ τ ι κ : Type}

/-- Through the view, system `S'` does what system `S` does. -/
structure Follows (view : τ → σ) (S' : System ε τ ι κ) (S : System ε σ ι κ) : Prop where
  enabled : ∀ i t, S.enabled i (view t) ↔ S'.enabled i t
  handler : ∀ i, Prog.Follows view (S'.handler i) (S.handler i)
  crashable : ∀ i k t, S.crashable i k (view t) ↔ S'.crashable i k t
  reboot : ∀ i k t, S.reboot i k (view t) = view (S'.reboot i k t)

variable {view : τ → σ} {S' : System ε τ ι κ} {S : System ε σ ι κ} {init : τ} {s : σ}

/-- Every run is the view of a run of the richer system. -/
theorem Follows.exists_reach (h : Follows view S' S) (hs : S.Reach (view init) s) :
    ∃ t, S'.Reach init t ∧ view t = s := by
  induction hs with
  | refl => exact ⟨init, .refl, rfl⟩
  | tail _ hstep ih =>
      obtain ⟨t, ht, rfl⟩ := ih
      cases hstep with
      | finish i _ he =>
          exact ⟨_, ht.next (.finish i t ((h.enabled i t).mp he)), ((h.handler i).final t).symm⟩
      | crash i k _ p he hp hc =>
          rw [(h.handler i).points] at hp
          obtain ⟨q, hq, rfl⟩ := List.mem_map.mp hp
          exact ⟨_, ht.next (.crash i k t q ((h.enabled i t).mp he) hq
            ((h.crashable i k q.2).mp hc)), (h.reboot i k q.2).symm⟩
      | idleCrash i k _ hc =>
          exact ⟨_, ht.next (.idleCrash i k t ((h.crashable i k t).mp hc)),
            (h.reboot i k t).symm⟩

theorem Follows.exists_visits (h : Follows view S' S) (hs : S.Visits (view init) s) :
    ∃ t, S'.Visits init t ∧ view t = s := by
  cases hs with
  | idle _ hreach =>
      obtain ⟨t, ht, rfl⟩ := h.exists_reach hreach
      exact ⟨t, .idle t ht, rfl⟩
  | during i _ p hreach he hp =>
      obtain ⟨t, ht, rfl⟩ := h.exists_reach hreach
      rw [(h.handler i).points] at hp
      obtain ⟨q, hq, rfl⟩ := List.mem_map.mp hp
      exact ⟨q.2, .during i t q ht ((h.enabled i t).mp he) hq, rfl⟩

end System

end Crash
