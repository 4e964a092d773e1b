import MoneyLaundering.Support.Crash

/-!
# Programs under a lock that is not reentrant

A program may hold a lock while it runs.  One that takes the lock while it holds it
waits for itself: it has no value, and it stays where it is until it is killed.  A
program that takes the lock in order is related here to the program without the lock.
-/

namespace Crash

/-- A state, and whether the lock is held. -/
structure Locked (σ : Type) where
  held : Bool
  inner : σ
deriving DecidableEq

theorem Locked.eq_mk_of_held {σ : Type} {s : Locked σ} {held : Bool}
    (h : s.held = held) : s = ⟨held, s.inner⟩ := by
  cases s
  cases h
  rfl

/-- Programs that may wait for ever.  They have no value then. -/
def LockProg (ε σ α : Type) : Type := Prog ε (Locked σ) (Option α)

namespace LockProg

variable {ε σ α β : Type}

/-- Continue with the value of a program, if it has one. -/
def andThen (r : Outcome ε (Locked σ) (Option α)) (f : α → LockProg ε σ β) :
    Outcome ε (Locked σ) (Option β) :=
  match r.value with
  | none => ⟨r.points, none, r.final⟩
  | some a =>
    let r' := f a r.final
    ⟨r.points ++ r'.points, r'.value, r'.final⟩

instance : Monad (LockProg ε σ) where
  pure a := fun s => ⟨[], some a, s⟩
  bind m f := fun s => andThen (m s) f

/-- A program that does not touch the lock. -/
def lift (m : Prog ε σ α) : LockProg ε σ α := fun s =>
  let r := m s.inner
  ⟨r.points.map fun p => (p.1, ⟨s.held, p.2⟩), some r.value, ⟨s.held, r.final⟩⟩

/-- Give the lock back, unless the program that holds it waits. -/
def releaseAfter (r : Outcome ε (Locked σ) (Option α)) :
    Outcome ε (Locked σ) (Option α) :=
  match r.value with
  | none => r
  | some a => ⟨r.points, some a, ⟨false, r.final.inner⟩⟩

/-- Run a program with the lock held. -/
def withLock (m : LockProg ε σ α) : LockProg ε σ α := fun s =>
  if s.held then ⟨[], none, s⟩ else releaseAfter (m ⟨true, s.inner⟩)

/-- Run a program only under a condition. -/
def when (c : Prop) [Decidable c] (m : LockProg ε σ Unit) : LockProg ε σ Unit :=
  if c then m else pure ()

@[simp] theorem lift_read_bind (f : σ → LockProg ε σ β) (s : Locked σ) :
    (lift Prog.read >>= f) s = f s.inner s := rfl

@[simp] theorem lift_modify_bind (g : σ → σ) (f : Unit → LockProg ε σ β)
    (s : Locked σ) :
    (lift (Prog.modify g) >>= f) s = f () ⟨s.held, g s.inner⟩ := rfl

theorem bind_apply (m : LockProg ε σ α) (f : α → LockProg ε σ β)
    (s : Locked σ) : (m >>= f) s = andThen (m s) f := rfl

/-! ## Programs that take the lock in order -/

/-- From the given state of the lock, the program has a value, gives the lock back,
and does what the program without the lock does. -/
structure Erases (held : Bool) (l : LockProg ε σ α) (m : Prog ε σ α) : Prop where
  value : ∀ s, (l ⟨held, s⟩).value = some (m s).value
  final : ∀ s, (l ⟨held, s⟩).final = ⟨held, (m s).final⟩
  points : ∀ s, (l ⟨held, s⟩).points.map (fun p => (p.1, p.2.inner)) =
    (m s).points

theorem Erases.pure {held : Bool} (a : α) :
    Erases held (Pure.pure a : LockProg ε σ α) (Pure.pure a) :=
  ⟨fun _ => rfl, fun _ => rfl, fun _ => rfl⟩

theorem Erases.lift {held : Bool} (m : Prog ε σ α) :
    Erases held (LockProg.lift m) m := by
  constructor
  · intro s
    rfl
  · intro s
    rfl
  · intro s
    simp [LockProg.lift, Function.comp_def]

theorem Erases.bind {held : Bool} {l : LockProg ε σ α} {m : Prog ε σ α}
    {f : α → LockProg ε σ β} {g : α → Prog ε σ β} (h : Erases held l m)
    (hf : ∀ a, Erases held (f a) (g a)) : Erases held (l >>= f) (m >>= g) := by
  have hstep : ∀ s, (l >>= f) ⟨held, s⟩ =
      ⟨(l ⟨held, s⟩).points ++ (f (m s).value ⟨held, (m s).final⟩).points,
        (f (m s).value ⟨held, (m s).final⟩).value,
        (f (m s).value ⟨held, (m s).final⟩).final⟩ := by
    intro s
    rw [bind_apply, andThen, h.value s, h.final s]
  constructor
  · intro s
    rw [hstep]
    exact (hf _).value _
  · intro s
    rw [hstep]
    exact (hf _).final _
  · intro s
    rw [hstep, List.map_append, h.points, (hf _).points]
    rfl

theorem Erases.ite {held : Bool} {c : Prop} [Decidable c]
    {l l' : LockProg ε σ α} {m m' : Prog ε σ α} (h : Erases held l m)
    (h' : Erases held l' m') :
    Erases held (if c then l else l') (if c then m else m') := by
  split
  · exact h
  · exact h'

theorem Erases.when {held : Bool} {c : Prop} [Decidable c]
    {l : LockProg ε σ Unit} {m : Prog ε σ Unit} (h : Erases held l m) :
    Erases held (LockProg.when c l) (Prog.when c m) :=
  Erases.ite h (Erases.pure ())

/-- Taking the lock while it is free changes nothing else. -/
theorem Erases.withLock {l : LockProg ε σ α} {m : Prog ε σ α}
    (h : Erases true l m) : Erases false (LockProg.withLock l) m := by
  have hstep : ∀ s, LockProg.withLock l ⟨false, s⟩ =
      ⟨(l ⟨true, s⟩).points, some (m s).value, ⟨false, (m s).final⟩⟩ := by
    intro s
    rw [LockProg.withLock, if_neg Bool.false_ne_true, releaseAfter, h.value s,
      h.final s]
  constructor
  · intro s
    rw [hstep]
  · intro s
    rw [hstep]
  · intro s
    rw [hstep]
    exact h.points s

/-! ## Programs that wait -/

/-- Forget whether the program waits. -/
def run (m : LockProg ε σ α) : Prog ε (Locked σ) Unit := fun s =>
  ⟨(m s).points, (), (m s).final⟩

/-- A program that takes the lock it holds waits where it is. -/
theorem withLock_of_held (m : LockProg ε σ α) (s : σ) :
    withLock m ⟨true, s⟩ = ⟨[], none, ⟨true, s⟩⟩ := rfl

theorem value_withLock (m : LockProg ε σ α) (s : σ) :
    (withLock m ⟨false, s⟩).value = (m ⟨true, s⟩).value := by
  rw [withLock, if_neg Bool.false_ne_true, releaseAfter]
  cases h : (m ⟨true, s⟩).value with
  | none => exact h
  | some a => rfl

/-- A program that continues one which has a value. -/
theorem value_bind_of_some {m : LockProg ε σ α} {f : α → LockProg ε σ β}
    {s : Locked σ} {a : α} (h : (m s).value = some a) :
    ((m >>= f) s).value = (f a (m s).final).value := by
  rw [bind_apply, andThen, h]

/-- A program that continues one which waits. -/
theorem value_bind_of_none {m : LockProg ε σ α} {f : α → LockProg ε σ β}
    {s : Locked σ} (h : (m s).value = none) : ((m >>= f) s).value = none := by
  rw [bind_apply, andThen, h]

/-- Continuing a program that does not touch the lock. -/
theorem value_lift_bind (m : Prog ε σ α) (f : α → LockProg ε σ β)
    (s : Locked σ) : ((lift m >>= f) s).value =
      (f (m s.inner).value ⟨s.held, (m s.inner).final⟩).value :=
  value_bind_of_some rfl

/-! ## Specifications -/

/-- From a state satisfying `P`, with the given state of the lock, the program ends in a
state satisfying `Q` with the lock as it was, or waits in a state satisfying `B` with the
lock held; `C` holds wherever it can be cut. -/
def LockSpec (held : Bool) (P : σ → Prop) (m : LockProg ε σ α)
    (Q : α → σ → Prop) (B C : σ → Prop) : Prop :=
  ∀ s, P s → (∀ p ∈ (m ⟨held, s⟩).points, C p.2.inner) ∧
    (∀ a, (m ⟨held, s⟩).value = some a →
      (m ⟨held, s⟩).final.held = held ∧ Q a (m ⟨held, s⟩).final.inner) ∧
    ((m ⟨held, s⟩).value = none →
      (m ⟨held, s⟩).final.held = true ∧ B (m ⟨held, s⟩).final.inner)

namespace LockSpec

variable {held : Bool} {P : σ → Prop} {B C : σ → Prop}

theorem conseq {P' : σ → Prop} {m : LockProg ε σ α} {Q Q' : α → σ → Prop}
    {B' C' : σ → Prop} (h : LockSpec held P m Q B C) (hP : ∀ s, P' s → P s)
    (hQ : ∀ a s, Q a s → Q' a s) (hB : ∀ s, B s → B' s)
    (hC : ∀ s, C s → C' s) : LockSpec held P' m Q' B' C' := by
  intro s hs
  obtain ⟨hpoints, hsome, hnone⟩ := h s (hP s hs)
  refine ⟨fun p hp => hC _ (hpoints p hp), fun a ha => ?_, fun hn => ?_⟩
  · exact ⟨(hsome a ha).1, hQ _ _ (hsome a ha).2⟩
  · exact ⟨(hnone hn).1, hB _ (hnone hn).2⟩

theorem pre {P' : σ → Prop} {m : LockProg ε σ α} {Q : α → σ → Prop}
    (h : LockSpec held P m Q B C) (hP : ∀ s, P' s → P s) :
    LockSpec held P' m Q B C :=
  h.conseq hP (fun _ _ hq => hq) (fun _ hb => hb) (fun _ hc => hc)

theorem pure {Q : α → σ → Prop} {a : α} (h : ∀ s, P s → Q a s) :
    LockSpec held P (Pure.pure a : LockProg ε σ α) Q B C := by
  intro s hs
  refine ⟨by simp [Pure.pure], fun b hb => ?_, fun hn => ?_⟩
  · obtain rfl := Option.some.inj hb
    exact ⟨rfl, h s hs⟩
  · cases hn

theorem of_false {m : LockProg ε σ α} {Q : α → σ → Prop} :
    LockSpec held (fun _ => False) m Q B C :=
  fun _ hs => hs.elim

theorem lift {m : Prog ε σ α} {Q : α → σ → Prop} (h : Spec P m Q C) :
    LockSpec held P (LockProg.lift m) Q B C := by
  intro s hs
  obtain ⟨hpoints, hfinal⟩ := h s hs
  refine ⟨fun p hp => ?_, fun a ha => ?_, fun hn => ?_⟩
  · obtain ⟨q, hq, rfl⟩ := List.mem_map.mp hp
    exact hpoints q hq
  · obtain rfl := Option.some.inj ha
    exact ⟨rfl, hfinal⟩
  · cases hn

theorem bind {m : LockProg ε σ α} {Q : α → σ → Prop}
    {f : α → LockProg ε σ β} {R : β → σ → Prop}
    (hm : LockSpec held P m Q B C)
    (hf : ∀ a, LockSpec held (Q a) (f a) R B C) :
    LockSpec held P (m >>= f) R B C := by
  intro s hs
  obtain ⟨hpoints, hsome, hnone⟩ := hm s hs
  rw [bind_apply, andThen]
  cases hvalue : (m ⟨held, s⟩).value with
  | none =>
      refine ⟨hpoints, fun a ha => ?_, fun _ => hnone hvalue⟩
      cases ha
  | some a =>
      obtain ⟨hheld, hmid⟩ := hsome a hvalue
      obtain ⟨hpoints', hsome', hnone'⟩ := hf a _ hmid
      rw [Locked.eq_mk_of_held hheld]
      refine ⟨fun p hp => ?_, hsome', hnone'⟩
      rcases List.mem_append.mp hp with hp | hp
      · exact hpoints p hp
      · exact hpoints' p hp

theorem ite {c : Prop} [Decidable c] {m m' : LockProg ε σ α}
    {Q : α → σ → Prop} (h : c → LockSpec held P m Q B C)
    (h' : ¬c → LockSpec held P m' Q B C) :
    LockSpec held P (if c then m else m') Q B C := by
  split
  · exact h ‹_›
  · exact h' ‹_›

theorem when {Q : σ → Prop} {c : Prop} [Decidable c]
    {m : LockProg ε σ Unit} (h : c → LockSpec held P m (fun _ => Q) B C)
    (h' : ¬c → ∀ s, P s → Q s) :
    LockSpec held P (LockProg.when c m) (fun _ => Q) B C :=
  LockSpec.ite h fun hc => LockSpec.pure (h' hc)

/-- Reading the state and continuing with it. -/
theorem read_bind {f : σ → LockProg ε σ β} {R : β → σ → Prop}
    (h : ∀ a, LockSpec held (fun s => s = a ∧ P s) (f a) R B C) :
    LockSpec held P (LockProg.lift Prog.read >>= f) R B C := by
  intro s hs
  exact h s s ⟨rfl, hs⟩

/-- Taking the lock while it is free. -/
theorem withLock {m : LockProg ε σ α} {Q : α → σ → Prop}
    (h : LockSpec true P m Q B C) :
    LockSpec false P (LockProg.withLock m) Q B C := by
  intro s hs
  obtain ⟨hpoints, hsome, hnone⟩ := h s hs
  rw [LockProg.withLock, if_neg Bool.false_ne_true, releaseAfter]
  cases hvalue : (m ⟨true, s⟩).value with
  | none =>
      refine ⟨hpoints, fun a ha => ?_, fun _ => hnone hvalue⟩
      rw [hvalue] at ha
      cases ha
  | some a =>
      refine ⟨hpoints, fun b hb => ?_, fun hn => ?_⟩
      · exact ⟨rfl, (hsome b (hvalue.trans hb)).2⟩
      · cases hn

/-- Taking the lock while it is held. -/
theorem withLock_held {m : LockProg ε σ α} {Q : α → σ → Prop}
    (h : ∀ s, P s → B s) : LockSpec true P (LockProg.withLock m) Q B C := by
  intro s hs
  rw [withLock_of_held]
  refine ⟨by simp, fun a ha => ?_, fun _ => ⟨rfl, h s hs⟩⟩
  cases ha

/-- A program that starts with the lock free, whether it waits or not. -/
theorem run {m : LockProg ε σ α} {Q : σ → Prop}
    (h : LockSpec false P m (fun _ => Q) B C) :
    Spec (fun s => s.held = false ∧ P s.inner) (LockProg.run m)
      (fun _ s => (s.held = false ∧ Q s.inner) ∨ (s.held = true ∧ B s.inner))
      (fun s => C s.inner) := by
  intro s hs
  obtain ⟨hpoints, hsome, hnone⟩ := h s.inner hs.2
  rw [← Locked.eq_mk_of_held hs.1] at hpoints hsome hnone
  refine ⟨hpoints, ?_⟩
  change ((m s).final.held = false ∧ _) ∨ ((m s).final.held = true ∧ _)
  cases hvalue : (m s).value with
  | none => exact Or.inr (hnone hvalue)
  | some a => exact Or.inl (hsome a hvalue)

end LockSpec

end LockProg

end Crash
