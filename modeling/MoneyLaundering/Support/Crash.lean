import Mathlib.Logic.Relation
import Mathlib.Data.List.Basic

/-!
# Programs with crash points

A program over machine states is run here together with the list of states it
passes through: one entry for each atomic effect, taken just before the effect
and labelled by it.  A crash, or an exception, can then be placed at any of
these points.

The module gives the specification of such programs (precondition,
postcondition and the condition that holds wherever they may be cut), the rules
that compose specifications, and the induction rule for systems that run
handlers, crash inside them and restart.
-/

namespace Crash

/-- What one run of a program produces. -/
structure Outcome (ε σ α : Type) where
  /-- The state just before each atomic effect, oldest first. -/
  points : List (ε × σ)
  value : α
  final : σ

/-- A deterministic program over states `σ` whose atomic effects carry labels
in `ε`. -/
def Prog (ε σ α : Type) : Type := σ → Outcome ε σ α

namespace Prog

variable {ε σ α β : Type}

instance : Monad (Prog ε σ) where
  pure a := fun s => ⟨[], a, s⟩
  bind m f := fun s =>
    let r := m s
    let r' := f r.value r.final
    ⟨r.points ++ r'.points, r'.value, r'.final⟩

/-- Read the state.  Reading is not an effect. -/
def read : Prog ε σ σ := fun s => ⟨[], s, s⟩

/-- One atomic effect that returns a value. -/
def act (e : ε) (f : σ → α × σ) : Prog ε σ α := fun s =>
  ⟨[(e, s)], (f s).1, (f s).2⟩

/-- One atomic effect. -/
def change (e : ε) (f : σ → σ) : Prog ε σ Unit := act e fun s => ((), f s)

/-- A change of volatile state that returns a value.  A crash just after it
leaves what a crash just before it leaves, so it is not a point of its own. -/
def compute (f : σ → α × σ) : Prog ε σ α := fun s => ⟨[], (f s).1, (f s).2⟩

/-- A change of volatile state. -/
def modify (f : σ → σ) : Prog ε σ Unit := compute fun s => ((), f s)

/-- Run a program only under a condition. -/
def when (c : Prop) [Decidable c] (m : Prog ε σ Unit) : Prog ε σ Unit :=
  if c then m else pure ()

/-- Run a program for each entry of a list, in order. -/
def forEach : List β → (β → Prog ε σ Unit) → Prog ε σ Unit
  | [], _ => pure ()
  | b :: bs, f => do
    f b
    forEach bs f

/-- Run a program on one component of a larger state. -/
def zoom {ι : Type} [DecidableEq ι] (i : ι) (m : Prog ε σ α) :
    Prog ε (ι → σ) α := fun s =>
  let r := m (s i)
  ⟨r.points.map fun p => (p.1, Function.update s i p.2), r.value,
    Function.update s i r.final⟩

@[simp] theorem pure_apply (a : α) (s : σ) :
    (pure a : Prog ε σ α) s = ⟨[], a, s⟩ := rfl

theorem bind_apply (m : Prog ε σ α) (f : α → Prog ε σ β) (s : σ) :
    (m >>= f) s =
      ⟨(m s).points ++ (f (m s).value (m s).final).points,
        (f (m s).value (m s).final).value,
        (f (m s).value (m s).final).final⟩ := rfl

@[simp] theorem read_apply (s : σ) : (read : Prog ε σ σ) s = ⟨[], s, s⟩ := rfl

@[simp] theorem act_apply (e : ε) (f : σ → α × σ) (s : σ) :
    act e f s = ⟨[(e, s)], (f s).1, (f s).2⟩ := rfl

@[simp] theorem change_apply (e : ε) (f : σ → σ) (s : σ) :
    change e f s = ⟨[(e, s)], (), f s⟩ := rfl

@[simp] theorem compute_apply (f : σ → α × σ) (s : σ) :
    (compute f : Prog ε σ α) s = ⟨[], (f s).1, (f s).2⟩ := rfl

@[simp] theorem modify_apply (f : σ → σ) (s : σ) :
    (modify f : Prog ε σ Unit) s = ⟨[], (), f s⟩ := rfl

/-! ### Loops of single effects -/

theorem forEach_change_final (bs : List β) (e : β → ε) (f : β → σ → σ)
    (s : σ) :
    (forEach bs (fun b => change (e b) (f b)) s).final =
      bs.foldl (fun s b => f b s) s := by
  induction bs generalizing s with
  | nil => rfl
  | cons b bs ih => exact ih (f b s)

/-- A point of such a loop lies before one of its entries, after the effects of
the entries before it. -/
theorem mem_points_forEach_change (bs : List β) (e : β → ε)
    (f : β → σ → σ) (s : σ) (p : ε × σ) :
    p ∈ (forEach bs (fun b => change (e b) (f b)) s).points ↔
      ∃ before b after, bs = before ++ b :: after ∧
        p = (e b, before.foldl (fun s b => f b s) s) := by
  induction bs generalizing s with
  | nil => simp [forEach]
  | cons b bs ih =>
      have hcons : (forEach (b :: bs) (fun b => change (e b) (f b)) s).points =
          (e b, s) ::
            (forEach bs (fun b => change (e b) (f b)) (f b s)).points := rfl
      rw [hcons, List.mem_cons, ih]
      constructor
      · rintro (rfl | ⟨before, b', after, rfl, rfl⟩)
        · exact ⟨[], b, bs, rfl, rfl⟩
        · exact ⟨b :: before, b', after, rfl, rfl⟩
      · rintro ⟨before, b', after, hsplit, rfl⟩
        cases before with
        | nil =>
            rw [List.nil_append, List.cons.injEq] at hsplit
            exact Or.inl (by rw [hsplit.1]; rfl)
        | cons x before =>
            rw [List.cons_append, List.cons.injEq] at hsplit
            exact Or.inr ⟨before, b', after, hsplit.2, by rw [hsplit.1]; rfl⟩

end Prog

/-! ## Specifications with a crash condition -/

section Spec

open Prog

variable {ε σ α β : Type}

/-- From a state satisfying `P`, the program reaches a state satisfying `Q`,
and `C` holds wherever it can be cut on the way. -/
def Spec (P : σ → Prop) (m : Prog ε σ α) (Q : α → σ → Prop)
    (C : σ → Prop) : Prop :=
  ∀ s, P s → (∀ p ∈ (m s).points, C p.2) ∧ Q (m s).value (m s).final

/-- A program keeps `I` when `I` holds at every point and at the end. -/
def Keeps (I : σ → Prop) (m : Prog ε σ α) : Prop :=
  Spec I m (fun _ => I) I

theorem Spec.conseq {P P' : σ → Prop} {m : Prog ε σ α}
    {Q Q' : α → σ → Prop} {C C' : σ → Prop}
    (h : Spec P m Q C) (hP : ∀ s, P' s → P s)
    (hQ : ∀ a s, Q a s → Q' a s) (hC : ∀ s, C s → C' s) :
    Spec P' m Q' C' := by
  intro s hs
  obtain ⟨hpoints, hfinal⟩ := h s (hP s hs)
  exact ⟨fun p hp => hC _ (hpoints p hp), hQ _ _ hfinal⟩

theorem Spec.pre {P P' : σ → Prop} {m : Prog ε σ α} {Q : α → σ → Prop}
    {C : σ → Prop} (h : Spec P m Q C) (hP : ∀ s, P' s → P s) :
    Spec P' m Q C :=
  h.conseq hP (fun _ _ hq => hq) (fun _ hc => hc)

theorem Spec.post {P : σ → Prop} {m : Prog ε σ α} {Q Q' : α → σ → Prop}
    {C : σ → Prop} (h : Spec P m Q C) (hQ : ∀ a s, Q a s → Q' a s) :
    Spec P m Q' C :=
  h.conseq (fun _ hp => hp) hQ (fun _ hc => hc)

theorem Spec.and {P P' : σ → Prop} {m : Prog ε σ α} {Q Q' : α → σ → Prop}
    {C C' : σ → Prop} (h : Spec P m Q C) (h' : Spec P' m Q' C') :
    Spec (fun s => P s ∧ P' s) m (fun a s => Q a s ∧ Q' a s)
      (fun s => C s ∧ C' s) := by
  intro s hs
  obtain ⟨hpoints, hfinal⟩ := h s hs.1
  obtain ⟨hpoints', hfinal'⟩ := h' s hs.2
  exact ⟨fun p hp => ⟨hpoints p hp, hpoints' p hp⟩, hfinal, hfinal'⟩

theorem Spec.forall {ι : Type} {P : σ → Prop} {m : Prog ε σ α}
    {Q : ι → α → σ → Prop} {C : ι → σ → Prop}
    (h : ∀ i, Spec P m (Q i) (C i)) :
    Spec P m (fun a s => ∀ i, Q i a s) (fun s => ∀ i, C i s) := by
  intro s hs
  exact ⟨fun p hp i => (h i s hs).1 p hp, fun i => (h i s hs).2⟩

theorem Spec.pure {P : σ → Prop} {Q : α → σ → Prop} {C : σ → Prop} {a : α}
    (h : ∀ s, P s → Q a s) : Spec (ε := ε) P (Pure.pure a) Q C := by
  intro s hs
  exact ⟨by simp, h s hs⟩

theorem Spec.bind {P : σ → Prop} {m : Prog ε σ α} {Q : α → σ → Prop}
    {f : α → Prog ε σ β} {R : β → σ → Prop} {C : σ → Prop}
    (hm : Spec P m Q C) (hf : ∀ a, Spec (Q a) (f a) R C) :
    Spec P (m >>= f) R C := by
  intro s hs
  obtain ⟨hpoints, hmid⟩ := hm s hs
  obtain ⟨hpoints', hfinal⟩ := hf _ _ hmid
  refine ⟨?_, hfinal⟩
  intro p hp
  rcases List.mem_append.mp hp with hp | hp
  · exact hpoints p hp
  · exact hpoints' p hp

theorem Spec.read {P : σ → Prop} {C : σ → Prop} :
    Spec (ε := ε) P Prog.read (fun a s => a = s ∧ P s) C := by
  intro s hs
  exact ⟨by simp, rfl, hs⟩

/-- Reading the state and continuing with it. -/
theorem Spec.read_bind {P : σ → Prop} {f : σ → Prog ε σ β}
    {R : β → σ → Prop} {C : σ → Prop}
    (h : ∀ a, Spec (fun s => s = a ∧ P s) (f a) R C) :
    Spec P (Prog.read >>= f) R C := by
  intro s hs
  exact h s s ⟨rfl, hs⟩

/-- Reading a known state. -/
theorem Spec.read_at {s : σ} {f : σ → Prog ε σ β} {R : β → σ → Prop}
    {C : σ → Prop} (h : Spec (fun t => t = s) (f s) R C) :
    Spec (fun t => t = s) (Prog.read >>= f) R C := by
  apply Spec.read_bind
  rintro a t ⟨rfl, rfl⟩
  exact h t rfl

theorem Spec.act {P : σ → Prop} {e : ε} {f : σ → α × σ}
    {Q : α → σ → Prop} {C : σ → Prop}
    (hC : ∀ s, P s → C s) (hQ : ∀ s, P s → Q (f s).1 (f s).2) :
    Spec P (Prog.act e f) Q C := by
  intro s hs
  refine ⟨?_, hQ s hs⟩
  intro p hp
  obtain rfl := List.mem_singleton.mp hp
  exact hC s hs

theorem Spec.change {P : σ → Prop} {e : ε} {f : σ → σ} {Q : σ → Prop}
    {C : σ → Prop} (hC : ∀ s, P s → C s) (hQ : ∀ s, P s → Q (f s)) :
    Spec P (Prog.change e f) (fun _ => Q) C :=
  Spec.act hC hQ

theorem Spec.compute {P : σ → Prop} {f : σ → α × σ} {Q : α → σ → Prop}
    {C : σ → Prop} (hQ : ∀ s, P s → Q (f s).1 (f s).2) :
    Spec (ε := ε) P (Prog.compute f) Q C := by
  intro s hs
  exact ⟨by simp, hQ s hs⟩

theorem Spec.modify {P : σ → Prop} {f : σ → σ} {Q : σ → Prop}
    {C : σ → Prop} (hQ : ∀ s, P s → Q (f s)) :
    Spec (ε := ε) P (Prog.modify f) (fun _ => Q) C :=
  Spec.compute hQ

theorem Spec.ite {P : σ → Prop} {c : Prop} [Decidable c]
    {m m' : Prog ε σ α} {Q : α → σ → Prop} {C : σ → Prop}
    (h : c → Spec P m Q C) (h' : ¬c → Spec P m' Q C) :
    Spec P (if c then m else m') Q C := by
  split
  · exact h ‹_›
  · exact h' ‹_›

theorem Spec.when {P Q : σ → Prop} {c : Prop} [Decidable c]
    {m : Prog ε σ Unit} {C : σ → Prop}
    (h : c → Spec P m (fun _ => Q) C) (h' : ¬c → ∀ s, P s → Q s) :
    Spec P (Prog.when c m) (fun _ => Q) C :=
  Spec.ite h fun hc => Spec.pure (h' hc)

/-- The loop rule: the invariant may mention the entries already handled. -/
theorem Spec.forEach {I : List β → σ → Prop} {f : β → Prog ε σ Unit}
    {C : σ → Prop} (bs : List β)
    (h : ∀ before b after, bs = before ++ b :: after →
      Spec (I before) (f b) (fun _ => I (before ++ [b])) C) :
    Spec (I []) (Prog.forEach bs f) (fun _ => I bs) C := by
  have loop : ∀ (after before : List β), bs = before ++ after →
      Spec (I before) (Prog.forEach after f) (fun _ => I bs) C := by
    intro after
    induction after with
    | nil =>
        intro before hbs
        have : before = bs := by simpa using hbs.symm
        subst this
        exact Spec.pure fun _ hs => hs
    | cons b after ih =>
        intro before hbs
        refine Spec.bind (h before b after hbs) fun _ => ?_
        exact ih (before ++ [b]) (by simpa using hbs)
  exact loop bs [] rfl

/-- A precondition that does not depend on the state may be used as a fact. -/
theorem Spec.of_pre {P : σ → Prop} {p : Prop} {m : Prog ε σ α}
    {Q : α → σ → Prop} {C : σ → Prop} (h : p → Spec P m Q C) :
    Spec (fun s => p ∧ P s) m Q C := by
  intro s hs
  exact h hs.1 s hs.2

/-- It is enough to start from any one of several preconditions. -/
theorem Spec.of_exists {ι : Type} {P : ι → σ → Prop} {m : Prog ε σ α}
    {Q : α → σ → Prop} {C : σ → Prop} (h : ∀ i, Spec (P i) m Q C) :
    Spec (fun s => ∃ i, P i s) m Q C := by
  rintro s ⟨i, hs⟩
  exact h i s hs

/-! ## Programs that keep an invariant -/

theorem Keeps.pure {I : σ → Prop} {a : α} :
    Keeps (ε := ε) I (Pure.pure a) :=
  Spec.pure fun _ hs => hs

theorem Keeps.bind {I : σ → Prop} {m : Prog ε σ α} {f : α → Prog ε σ β}
    (hm : Keeps I m) (hf : ∀ a, Keeps I (f a)) : Keeps I (m >>= f) :=
  Spec.bind hm hf

theorem Keeps.read {I : σ → Prop} : Keeps (ε := ε) I Prog.read :=
  Spec.read.post fun _ _ hs => hs.2

theorem Keeps.act {I : σ → Prop} {e : ε} {f : σ → α × σ}
    (h : ∀ s, I s → I (f s).2) : Keeps I (Prog.act e f) :=
  Spec.act (fun _ hs => hs) h

theorem Keeps.change {I : σ → Prop} {e : ε} {f : σ → σ}
    (h : ∀ s, I s → I (f s)) : Keeps I (Prog.change e f) :=
  Keeps.act h

theorem Keeps.compute {I : σ → Prop} {f : σ → α × σ}
    (h : ∀ s, I s → I (f s).2) : Keeps (ε := ε) I (Prog.compute f) :=
  Spec.compute h

theorem Keeps.modify {I : σ → Prop} {f : σ → σ} (h : ∀ s, I s → I (f s)) :
    Keeps (ε := ε) I (Prog.modify f) :=
  Spec.modify h

theorem Keeps.ite {I : σ → Prop} {c : Prop} [Decidable c]
    {m m' : Prog ε σ α} (h : Keeps I m) (h' : Keeps I m') :
    Keeps I (if c then m else m') :=
  Spec.ite (fun _ => h) (fun _ => h')

theorem Keeps.when {I : σ → Prop} {c : Prop} [Decidable c]
    {m : Prog ε σ Unit} (h : c → Keeps I m) : Keeps I (Prog.when c m) :=
  Spec.when h fun _ _ hs => hs

theorem Keeps.forEach {I : σ → Prop} {f : β → Prog ε σ Unit} (bs : List β)
    (h : ∀ b ∈ bs, Keeps I (f b)) : Keeps I (Prog.forEach bs f) :=
  Spec.forEach (I := fun _ => I) bs fun _ b _ hbs =>
    h b (by simp [hbs])

/-- Running on one component changes that component only. -/
theorem Spec.zoom {ι : Type} [DecidableEq ι] {i : ι} {m : Prog ε σ α}
    {P : σ → Prop} {Q : α → σ → Prop} {C : σ → Prop} {s : ι → σ}
    (h : Spec P m Q C) (hs : P (s i)) :
    (∀ p ∈ (Prog.zoom i m s).points,
        ∃ t, C t ∧ p.2 = Function.update s i t) ∧
      ∃ t, Q (Prog.zoom i m s).value t ∧
        (Prog.zoom i m s).final = Function.update s i t := by
  obtain ⟨hpoints, hfinal⟩ := h (s i) hs
  refine ⟨?_, _, hfinal, rfl⟩
  intro p hp
  obtain ⟨q, hq, rfl⟩ := List.mem_map.mp hp
  exact ⟨q.2, hpoints q hq, rfl⟩

end Spec

/-! ## Systems that crash and restart -/

/-- Components that run handlers for events.  A crash during an event leaves
what `reboot` keeps of the state; its argument in `κ` says what the crash
happened to spare. -/
structure System (ε σ ι κ : Type) where
  enabled : ι → σ → Prop
  handler : ι → Prog ε σ Unit
  /-- The states in which a crash may fall, by what it spares. -/
  crashable : ι → κ → σ → Prop
  reboot : ι → κ → σ → σ

namespace System

variable {ε σ ι κ : Type}

/-- One step: a handler runs to its end, or a crash falls at one of its points,
or between two handlers. -/
inductive Step (S : System ε σ ι κ) : σ → σ → Prop
  | finish (i : ι) (s : σ) (h : S.enabled i s) :
      Step S s (S.handler i s).final
  | crash (i : ι) (k : κ) (s : σ) (p : ε × σ) (h : S.enabled i s)
      (hp : p ∈ (S.handler i s).points) (hc : S.crashable i k p.2) :
      Step S s (S.reboot i k p.2)
  | idleCrash (i : ι) (k : κ) (s : σ) (hc : S.crashable i k s) :
      Step S s (S.reboot i k s)

/-- The states reached between handlers and after crashes. -/
def Reach (S : System ε σ ι κ) (init s : σ) : Prop :=
  Relation.ReflTransGen S.Step init s

/-- Every state a run passes through, the ones inside a handler included. -/
inductive Visits (S : System ε σ ι κ) (init : σ) : σ → Prop
  | idle (s : σ) (h : S.Reach init s) : Visits S init s
  | during (i : ι) (s : σ) (p : ε × σ) (h : S.Reach init s)
      (he : S.enabled i s) (hp : p ∈ (S.handler i s).points) :
      Visits S init p.2

/-- The induction rule: an invariant that every handler restores, and that every
crash point hands over to the rebooted state, holds in every reached state. -/
theorem Reach.invariant {S : System ε σ ι κ} {init s : σ} {I : σ → Prop}
    (hinit : I init)
    (hstep : ∀ i, Spec (fun s => I s ∧ S.enabled i s) (S.handler i)
      (fun _ => I) (fun t => ∀ k, S.crashable i k t → I (S.reboot i k t)))
    (hidle : ∀ i k s, I s → S.crashable i k s → I (S.reboot i k s))
    (h : S.Reach init s) : I s := by
  induction h with
  | refl => exact hinit
  | tail _ hst ih =>
      cases hst with
      | finish i _ he => exact (hstep i _ ⟨ih, he⟩).2
      | crash i k _ p he hp hc => exact (hstep i _ ⟨ih, he⟩).1 p hp k hc
      | idleCrash i k _ hc => exact hidle i k _ ih hc

/-- What holds between handlers and at each of their points holds in every
visited state. -/
theorem Visits.property {S : System ε σ ι κ} {init s : σ} {I O : σ → Prop}
    (hreach : ∀ s, S.Reach init s → I s) (hidle : ∀ s, I s → O s)
    (hstep : ∀ i, Spec (fun s => I s ∧ S.enabled i s) (S.handler i)
      (fun _ _ => True) O)
    (h : S.Visits init s) : O s := by
  cases h with
  | idle s h => exact hidle s (hreach s h)
  | during i s p h he hp => exact (hstep i s ⟨hreach s h, he⟩).1 p hp

theorem Reach.refl {S : System ε σ ι κ} {init : σ} : S.Reach init init :=
  Relation.ReflTransGen.refl

theorem Reach.next {S : System ε σ ι κ} {init s t : σ}
    (h : S.Reach init s) (hst : S.Step s t) : S.Reach init t :=
  Relation.ReflTransGen.tail h hst

/-- A larger system reaches at least as much: same handlers, at least as many
enabled events and crash points. -/
theorem Reach.mono {S S' : System ε σ ι κ} {init s : σ}
    (hhandler : S'.handler = S.handler) (hreboot : S'.reboot = S.reboot)
    (henabled : ∀ i s, S.enabled i s → S'.enabled i s)
    (hcrash : ∀ i k s, S.crashable i k s → S'.crashable i k s)
    (h : S.Reach init s) : S'.Reach init s := by
  induction h with
  | refl => exact Reach.refl
  | tail _ hst ih =>
      refine ih.next ?_
      cases hst with
      | finish i _ he =>
          have := Step.finish (S := S') i _ (henabled i _ he)
          rwa [hhandler] at this
      | crash i k _ p he hp hc =>
          have := Step.crash (S := S') i k _ p (henabled i _ he)
            (by rwa [hhandler]) (hcrash i k _ hc)
          rwa [hreboot] at this
      | idleCrash i k _ hc =>
          have := Step.idleCrash (S := S') i k _ (hcrash i k _ hc)
          rwa [hreboot] at this

/-! ### Runs of whole handlers -/

/-- A step that cuts no handler: one runs to its end, or a crash falls between
two of them. -/
inductive WholeStep (S : System ε σ ι κ) : σ → σ → Prop
  | finish (i : ι) (s : σ) (h : S.enabled i s) :
      WholeStep S s (S.handler i s).final
  | idleCrash (i : ι) (k : κ) (s : σ) (hc : S.crashable i k s) :
      WholeStep S s (S.reboot i k s)

/-- The states reached by such steps. -/
def WholeReach (S : System ε σ ι κ) (init s : σ) : Prop :=
  Relation.ReflTransGen S.WholeStep init s

theorem WholeReach.refl {S : System ε σ ι κ} {init : σ} :
    S.WholeReach init init :=
  Relation.ReflTransGen.refl

theorem WholeReach.next {S : System ε σ ι κ} {init s t : σ}
    (h : S.WholeReach init s) (hst : S.WholeStep s t) : S.WholeReach init t :=
  Relation.ReflTransGen.tail h hst

/-- The induction rule: nothing has to hold inside a handler. -/
theorem WholeReach.invariant {S : System ε σ ι κ} {init s : σ} {I : σ → Prop}
    (hinit : I init)
    (hstep : ∀ i s, I s → S.enabled i s → I (S.handler i s).final)
    (hidle : ∀ i k s, I s → S.crashable i k s → I (S.reboot i k s))
    (h : S.WholeReach init s) : I s := by
  induction h with
  | refl => exact hinit
  | tail _ hst ih =>
      cases hst with
      | finish i _ he => exact hstep i _ ih he
      | idleCrash i k _ hc => exact hidle i k _ ih hc

/-- What every handler keeps is lost in a crash only. -/
theorem WholeReach.exists_crash {S : System ε σ ι κ} {init s : σ}
    {I P : σ → Prop} (hinit : I init)
    (hstep : ∀ i s, I s → S.enabled i s → I (S.handler i s).final)
    (hidle : ∀ i k s, I s → S.crashable i k s → I (S.reboot i k s))
    (hkeep : ∀ i s, I s → P s → S.enabled i s → P (S.handler i s).final)
    (hP : P init) (h : S.WholeReach init s) (hs : ¬P s) :
    ∃ i k u, S.WholeReach init u ∧ P u ∧ S.crashable i k u ∧
      ¬P (S.reboot i k u) ∧ S.WholeReach (S.reboot i k u) s := by
  induction h with
  | refl => exact absurd hP hs
  | tail hreach hst ih =>
      rename_i t u
      by_cases ht : P t
      · cases hst with
        | finish i _ he =>
            have hI := WholeReach.invariant hinit hstep hidle hreach
            exact absurd (hkeep i t hI ht he) hs
        | idleCrash i k _ hc =>
            exact ⟨i, k, t, hreach, ht, hc, hs, WholeReach.refl⟩
      · obtain ⟨i, k, v, hv, hPv, hc, hlost, hrest⟩ := ih ht
        exact ⟨i, k, v, hv, hPv, hc, hlost, hrest.next hst⟩

/-! ## Components side by side -/

section Par

variable {P : Type} [DecidableEq P]

/-- Components with their own states.  `gate` restricts an event of one component
by what the others did. -/
def par (S : P → System ε σ ι κ) (gate : P → ι → (P → σ) → Prop) :
    System ε (P → σ) (P × ι) κ where
  enabled e s := (S e.1).enabled e.2 (s e.1) ∧ gate e.1 e.2 s
  handler e := Prog.zoom e.1 ((S e.1).handler e.2)
  crashable e k s := (S e.1).crashable e.2 k (s e.1)
  reboot e k s := Function.update s e.1 ((S e.1).reboot e.2 k (s e.1))

variable {S : P → System ε σ ι κ} {gate : P → ι → (P → σ) → Prop}

/-- Seen from one component, a step of the whole is a step of its own or
nothing. -/
theorem Step.component {s t : P → σ} (h : (par S gate).Step s t) (p : P) :
    (S p).Step (s p) (t p) ∨ t p = s p := by
  cases h with
  | finish e _ he =>
      by_cases hp : p = e.1
      · subst hp
        refine Or.inl ?_
        have := Step.finish (S := S e.1) e.2 (s e.1) he.1
        simpa [par, Prog.zoom] using this
      · exact Or.inr (by simp [par, Prog.zoom, hp])
  | crash e k _ q he hq hc =>
      obtain ⟨q', hq', rfl⟩ := List.mem_map.mp hq
      by_cases hp : p = e.1
      · subst hp
        refine Or.inl ?_
        have hc' : (S e.1).crashable e.2 k q'.2 := by simpa [par] using hc
        have := Step.crash (S := S e.1) e.2 k (s e.1) q' he.1 hq' hc'
        simpa [par] using this
      · exact Or.inr (by simp [par, hp])
  | idleCrash e k _ hc =>
      by_cases hp : p = e.1
      · subst hp
        refine Or.inl ?_
        have := Step.idleCrash (S := S e.1) e.2 k (s e.1) hc
        simpa [par] using this
      · exact Or.inr (by simp [par, hp])

/-- A run of the whole is a run of each component. -/
theorem Reach.component {init s : P → σ} (h : (par S gate).Reach init s)
    (p : P) : (S p).Reach (init p) (s p) := by
  induction h with
  | refl => exact Reach.refl
  | tail _ hst ih =>
      rcases hst.component p with hst | heq
      · exact ih.next hst
      · rwa [heq]

theorem Visits.component {init s : P → σ} (h : (par S gate).Visits init s)
    (p : P) : (S p).Visits (init p) (s p) := by
  cases h with
  | idle s h => exact Visits.idle _ (h.component p)
  | during e s q h he hq =>
      obtain ⟨q', hq', rfl⟩ := List.mem_map.mp hq
      by_cases hp : p = e.1
      · subst hp
        have := Visits.during e.2 (s e.1) q' (h.component e.1) he.1 hq'
        simpa using this
      · simpa [hp] using Visits.idle _ (h.component p)

/-- The induction rule with one handler at a time: the other components stand
still while it runs. -/
theorem par_invariant {init s : P → σ} {I : (P → σ) → Prop}
    (hinit : I init)
    (hstep : ∀ p i s, I s → (S p).enabled i (s p) → gate p i s →
      Spec (fun t => t = s p) ((S p).handler i)
        (fun _ t => I (Function.update s p t))
        (fun t => ∀ k, (S p).crashable i k t →
          I (Function.update s p ((S p).reboot i k t))))
    (hidle : ∀ p i k s, I s → (S p).crashable i k (s p) →
      I (Function.update s p ((S p).reboot i k (s p))))
    (h : (par S gate).Reach init s) : I s := by
  refine Reach.invariant hinit ?_ ?_ h
  · rintro ⟨p, i⟩ s ⟨hs, he, hg⟩
    obtain ⟨hpoints, t, ht, hfinal⟩ := (hstep p i s hs he hg).zoom rfl
    refine ⟨?_, ?_⟩
    · intro q hq k hc
      obtain ⟨t, ht, heq⟩ := hpoints q hq
      rw [heq] at hc ⊢
      have := ht k (by simpa [par] using hc)
      simpa [par] using this
    · rw [show ((par S gate).handler (p, i)) = Prog.zoom p ((S p).handler i)
        from rfl, hfinal]
      exact ht
  · rintro ⟨p, i⟩ k s hs hc
    exact hidle p i k s hs hc

/-- What holds between handlers and at each point of one of them, the other
components standing still, holds in every visited state. -/
theorem par_visits {init s : P → σ} {I O : (P → σ) → Prop}
    (hreach : ∀ s, (par S gate).Reach init s → I s) (hidle : ∀ s, I s → O s)
    (hstep : ∀ p i s, I s → (S p).enabled i (s p) → gate p i s →
      Spec (fun t => t = s p) ((S p).handler i) (fun _ _ => True)
        (fun t => O (Function.update s p t)))
    (h : (par S gate).Visits init s) : O s := by
  refine h.property hreach hidle ?_
  rintro ⟨p, i⟩ s ⟨hs, he, hg⟩
  obtain ⟨hpoints, -⟩ := (hstep p i s hs he hg).zoom rfl
  refine ⟨fun q hq => ?_, trivial⟩
  obtain ⟨t, ht, heq⟩ := hpoints q hq
  rw [heq]
  exact ht

end Par

/-! ## Scripted runs -/

/-- One move of a scripted run: an event to its end, an event cut at its `n`-th
point, or a crash between two events. -/
inductive Move (ι κ : Type) where
  | finish (i : ι)
  | crash (i : ι) (k : κ) (n : ℕ)
  | idleCrash (i : ι) (k : κ)

/-- Play a move, if the system allows it. -/
def play (S : System ε σ ι κ) [∀ i, DecidablePred (S.enabled i)]
    [∀ i k, DecidablePred (S.crashable i k)] (s : σ) : Move ι κ → Option σ
  | .finish i => if S.enabled i s then some (S.handler i s).final else none
  | .crash i k n =>
    if S.enabled i s then
      match (S.handler i s).points[n]? with
      | none => none
      | some p => if S.crashable i k p.2 then some (S.reboot i k p.2) else none
    else none
  | .idleCrash i k => if S.crashable i k s then some (S.reboot i k s) else none

/-- Play a script. -/
def playAll (S : System ε σ ι κ) [∀ i, DecidablePred (S.enabled i)]
    [∀ i k, DecidablePred (S.crashable i k)] : List (Move ι κ) → σ → Option σ
  | [], s => some s
  | mv :: moves, s => (S.play s mv).bind (playAll S moves)

section Scripts

variable {S : System ε σ ι κ} [∀ i, DecidablePred (S.enabled i)]
  [∀ i k, DecidablePred (S.crashable i k)]

theorem step_of_play {s t : σ} {mv : Move ι κ} (h : S.play s mv = some t) :
    S.Step s t := by
  cases mv with
  | finish i =>
      simp only [play] at h
      split at h
      · obtain rfl := Option.some.inj h
        exact Step.finish i s ‹_›
      · cases h
  | crash i k n =>
      simp only [play] at h
      split at h
      · split at h
        · cases h
        · rename_i p hp
          split at h
          · obtain rfl := Option.some.inj h
            exact Step.crash i k s p ‹_› (List.mem_of_getElem? hp) ‹_›
          · cases h
      · cases h
  | idleCrash i k =>
      simp only [play] at h
      split at h
      · obtain rfl := Option.some.inj h
        exact Step.idleCrash i k s ‹_›
      · cases h

/-- A script that plays to its end is a run. -/
theorem reach_of_playAll {moves : List (Move ι κ)} {s t : σ}
    (h : S.playAll moves s = some t) : S.Reach s t := by
  induction moves generalizing s with
  | nil =>
      obtain rfl := Option.some.inj h
      exact Reach.refl
  | cons mv moves ih =>
      rw [playAll, Option.bind_eq_some_iff] at h
      obtain ⟨u, hu, ht⟩ := h
      exact Relation.ReflTransGen.head (step_of_play hu) (ih ht)

/-- The move cuts no handler. -/
def Whole : Move ι κ → Prop
  | .crash _ _ _ => False
  | _ => True

theorem wholeStep_of_play {s t : σ} {mv : Move ι κ} (hmv : Whole mv)
    (h : S.play s mv = some t) : S.WholeStep s t := by
  cases mv with
  | finish i =>
      simp only [play] at h
      split at h
      · obtain rfl := Option.some.inj h
        exact WholeStep.finish i s ‹_›
      · cases h
  | crash i k n => exact absurd hmv id
  | idleCrash i k =>
      simp only [play] at h
      split at h
      · obtain rfl := Option.some.inj h
        exact WholeStep.idleCrash i k s ‹_›
      · cases h

theorem wholeReach_of_playAll {moves : List (Move ι κ)} {s t : σ}
    (hmoves : ∀ mv ∈ moves, Whole mv) (h : S.playAll moves s = some t) :
    S.WholeReach s t := by
  induction moves generalizing s with
  | nil =>
      obtain rfl := Option.some.inj h
      exact WholeReach.refl
  | cons mv moves ih =>
      rw [playAll, Option.bind_eq_some_iff] at h
      obtain ⟨u, hu, ht⟩ := h
      refine Relation.ReflTransGen.head
        (wholeStep_of_play (hmoves mv List.mem_cons_self) hu) ?_
      exact ih (fun mv' hmv' => hmoves mv' (List.mem_cons_of_mem _ hmv')) ht

end Scripts

end System

end Crash
