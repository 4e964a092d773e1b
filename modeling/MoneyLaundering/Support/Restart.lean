import Mathlib.Data.List.Forall2

/-!
# Components that survive a restart

A component has operations that return results, and writes its state into a snapshot from
which a fresh instance takes it over.  Some of what it does is left open, such as the order
in which a set is gone through, and differs from one process to another; results agree when
they are the same but for that.

Two states are indistinguishable when every sequence of operations returns results that
agree.  A simulation shows this from one operation at a time, and so does a restored state
that is the old one.
-/

/-- A component whose snapshots are of type `V`. -/
structure Component (V : Type) where
  State : Type
  Op : Type
  Result : Type
  /-- What is left open. -/
  Choice : Type
  step : Choice → Op → State → Result × State
  snapshot : Choice → State → V
  /-- The state of a fresh instance after it has taken over a snapshot. -/
  restore : V → Option State
  Agree : Result → Result → Prop

namespace Component

variable {V : Type} (C : Component V)

/-- What a sequence of operations returns; each one resolves what is left open for itself. -/
def results : List (C.Choice × C.Op) → C.State → List C.Result
  | [], _ => []
  | (choice, op) :: calls, s =>
    (C.step choice op s).1 :: results calls (C.step choice op s).2

/-- No sequence of operations tells the two states apart. -/
def Indistinguishable (s s' : C.State) : Prop :=
  ∀ calls calls' : List (C.Choice × C.Op), calls.map Prod.snd = calls'.map Prod.snd →
    List.Forall₂ C.Agree (C.results calls s) (C.results calls' s')

/-- The same operation in related states returns results that agree, and leads to related
states. -/
def IsSimulation (R : C.State → C.State → Prop) : Prop :=
  ∀ (choice choice' : C.Choice) (op : C.Op) (s s' : C.State), R s s' →
    C.Agree (C.step choice op s).1 (C.step choice' op s').1 ∧
      R (C.step choice op s).2 (C.step choice' op s').2

variable {C} {R : C.State → C.State → Prop} {s s' : C.State}

/-- Related states are indistinguishable. -/
theorem IsSimulation.indistinguishable (hR : C.IsSimulation R) (h : R s s') :
    C.Indistinguishable s s' := by
  intro calls
  induction calls generalizing s s' with
  | nil =>
      intro calls' hops
      obtain rfl : calls' = [] := List.map_eq_nil_iff.mp hops.symm
      exact .nil
  | cons call calls ih =>
      intro calls' hops
      obtain ⟨call', rest, rfl, hop, hrest⟩ := List.map_eq_cons_iff.mp hops.symm
      obtain ⟨hagree, hnext⟩ := hR call.1 call'.1 call.2 s s' h
      simp only [results, hop]
      exact .cons hagree (ih hnext rest hrest.symm)

/-- Operations whose effect on the state is not left open do not tell a state from itself. -/
theorem indistinguishable_self
    (h : ∀ (choice choice' : C.Choice) (op : C.Op) (s : C.State),
      C.Agree (C.step choice op s).1 (C.step choice' op s).1 ∧
        (C.step choice op s).2 = (C.step choice' op s).2) :
    C.Indistinguishable s s := by
  have hsimulation : C.IsSimulation Eq := by
    intro choice choice' op s s' heq
    subst heq
    exact h choice choice' op s
  exact hsimulation.indistinguishable rfl

/-- Operations that leave nothing open. -/
theorem indistinguishable_of_step_eq (hagree : C.Agree = Eq)
    (hstep : ∀ (choice choice' : C.Choice) (op : C.Op) (s : C.State),
      C.step choice op s = C.step choice' op s) : C.Indistinguishable s s := by
  apply indistinguishable_self
  intro choice choice' op s
  rw [hagree, hstep choice choice']
  exact ⟨rfl, rfl⟩

end Component
