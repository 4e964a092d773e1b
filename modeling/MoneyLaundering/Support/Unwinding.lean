import MoneyLaundering.Support.Crash

/-!
# What an observer sees of a program

An observer sees a part of the state.  A program is invisible to the observer when it
leaves that part alone.  Two programs agree when, from states that look the same, they
return the same value and end in states that look the same.  A system whose inputs have
owners isolates an owner when the inputs of others are invisible to the owner, and its own
inputs agree with themselves: two runs whose inputs differ only in those of others then
look the same.
-/

namespace Crash

namespace Prog

variable {ε σ α β γ V : Type}

/-- The observer sees nothing of the program. -/
def Invisible (view : σ → V) (m : Prog ε σ α) : Prop :=
  ∀ s, view (m s).final = view s

/-- From states that look the same the programs return the same value and end in states
that look the same. -/
def Agree (view : σ → V) (m m' : Prog ε σ α) : Prop :=
  ∀ s s', view s = view s' →
    (m s).value = (m' s').value ∧ view (m s).final = view (m' s').final

/-! ## Invisible programs -/

section Invisible

variable {view : σ → V}

theorem Invisible.pure (a : α) : Invisible (ε := ε) view (Pure.pure a) :=
  fun _ => rfl

theorem Invisible.bind {m : Prog ε σ α} {f : α → Prog ε σ β}
    (hm : Invisible view m) (hf : ∀ s, Invisible view (f (m s).value)) :
    Invisible view (m >>= f) := by
  intro s
  exact (hf s (m s).final).trans (hm s)

/-- Reading the state and continuing with it. -/
theorem Invisible.read_bind {f : σ → Prog ε σ β} (hf : ∀ a, Invisible view (f a)) :
    Invisible view (Prog.read >>= f) :=
  fun s => hf s s

theorem Invisible.act {e : ε} {f : σ → α × σ} (h : ∀ s, view (f s).2 = view s) :
    Invisible view (Prog.act e f) :=
  h

theorem Invisible.change {e : ε} {f : σ → σ} (h : ∀ s, view (f s) = view s) :
    Invisible view (Prog.change e f) :=
  h

theorem Invisible.compute {f : σ → α × σ} (h : ∀ s, view (f s).2 = view s) :
    Invisible (ε := ε) view (Prog.compute f) :=
  h

theorem Invisible.modify {f : σ → σ} (h : ∀ s, view (f s) = view s) :
    Invisible (ε := ε) view (Prog.modify f) :=
  h

theorem Invisible.ite {c : Prop} [Decidable c] {m m' : Prog ε σ α}
    (h : c → Invisible view m) (h' : ¬c → Invisible view m') :
    Invisible view (if c then m else m') := by
  split
  · exact h ‹_›
  · exact h' ‹_›

theorem Invisible.when {c : Prop} [Decidable c] {m : Prog ε σ Unit}
    (h : Invisible view m) : Invisible view (Prog.when c m) :=
  Invisible.ite (fun _ => h) fun _ => Invisible.pure ()

theorem Invisible.forEach {bs : List β} {f : β → Prog ε σ Unit}
    (h : ∀ b ∈ bs, Invisible view (f b)) : Invisible view (Prog.forEach bs f) := by
  induction bs with
  | nil => exact Invisible.pure ()
  | cons b bs ih =>
      apply Invisible.bind (h b (by simp))
      intro _
      exact ih fun b' hb' => h b' (by simp [hb'])

end Invisible

/-! ## Programs that agree -/

section Agree

variable {view : σ → V}

theorem Agree.of_invisible {m m' : Prog ε σ Unit} (h : Invisible view m)
    (h' : Invisible view m') : Agree view m m' := by
  intro s s' hs
  refine ⟨rfl, ?_⟩
  rw [h s, h' s', hs]

theorem Agree.pure (a : α) :
    Agree (ε := ε) view (Pure.pure a) (Pure.pure a) :=
  fun _ _ hs => ⟨rfl, hs⟩

theorem Agree.bind {m m' : Prog ε σ α} {f f' : α → Prog ε σ β}
    (hm : Agree view m m')
    (hf : ∀ s, Agree view (f (m s).value) (f' (m s).value)) :
    Agree view (m >>= f) (m' >>= f') := by
  intro s s' hs
  obtain ⟨hvalue, hfinal⟩ := hm s s' hs
  change (f (m s).value (m s).final).value = (f' (m' s').value (m' s').final).value ∧
    view (f (m s).value (m s).final).final =
      view (f' (m' s').value (m' s').final).final
  rw [← hvalue]
  exact hf s _ _ hfinal

/-- Reading the state and continuing with it. -/
theorem Agree.read_bind {f f' : σ → Prog ε σ β}
    (h : ∀ a a', view a = view a' → Agree view (f a) (f' a')) :
    Agree view (Prog.read >>= f) (Prog.read >>= f') :=
  fun s s' hs => h s s' hs s s' hs

theorem Agree.change {e e' : ε} {f f' : σ → σ}
    (h : ∀ s s', view s = view s' → view (f s) = view (f' s')) :
    Agree view (Prog.change e f) (Prog.change e' f') :=
  fun s s' hs => ⟨rfl, h s s' hs⟩

theorem Agree.compute {f f' : σ → α × σ}
    (h : ∀ s s', view s = view s' →
      (f s).1 = (f' s').1 ∧ view (f s).2 = view (f' s').2) :
    Agree (ε := ε) view (Prog.compute f) (Prog.compute f') :=
  h

theorem Agree.modify {f f' : σ → σ}
    (h : ∀ s s', view s = view s' → view (f s) = view (f' s')) :
    Agree (ε := ε) view (Prog.modify f) (Prog.modify f') :=
  fun s s' hs => ⟨rfl, h s s' hs⟩

theorem Agree.ite {c c' : Prop} [Decidable c] [Decidable c']
    {m₁ m₂ m₁' m₂' : Prog ε σ α} (hc : c ↔ c') (h : c → Agree view m₁ m₁')
    (h' : ¬c → Agree view m₂ m₂') :
    Agree view (if c then m₁ else m₂) (if c' then m₁' else m₂') := by
  by_cases hcase : c
  · rw [if_pos hcase, if_pos (hc.mp hcase)]
    exact h hcase
  · rw [if_neg hcase, if_neg (mt hc.mpr hcase)]
    exact h' hcase

theorem Agree.forEach {bs : List β} {f f' : β → Prog ε σ Unit}
    (h : ∀ b ∈ bs, Agree view (f b) (f' b)) :
    Agree view (Prog.forEach bs f) (Prog.forEach bs f') := by
  induction bs with
  | nil => exact Agree.pure ()
  | cons b bs ih =>
      apply Agree.bind (h b (by simp))
      intro _
      exact ih fun b' hb' => h b' (by simp [hb'])

end Agree

/-! ## Programs with an owner -/

/-- An operation changes what the owner sees only, and there by what the owner sees. -/
structure Confined (view : σ → V) (own : Prop) (f : σ → α × σ) : Prop where
  agree : own → ∀ s s', view s = view s' →
    (f s).1 = (f s').1 ∧ view (f s).2 = view (f s').2
  invisible : ¬own → ∀ s, view (f s).2 = view s

/-- The same of a program: the observer's own program does what the observer's view
determines, and nothing is seen of another one. -/
structure Isolated (view : σ → V) (own : Prop) (m : Prog ε σ α) : Prop where
  agree : own → Agree view m m
  invisible : ¬own → Invisible view m

section Isolated

variable {view : σ → V} {own : Prop}

/-- One operation after another. -/
theorem Confined.andThen {f : σ → α × σ} {g : σ → β × σ} (hf : Confined view own f)
    (hg : Confined view own g) : Confined view own fun s => g (f s).2 := by
  constructor
  · intro ho s s' hs
    exact hg.agree ho _ _ (hf.agree ho s s' hs).2
  · intro ho s
    exact (hg.invisible ho _).trans (hf.invisible ho s)

theorem Isolated.of_invisible {m : Prog ε σ Unit} (h : Invisible view m) :
    Isolated view own m :=
  ⟨fun _ => Agree.of_invisible h h, fun _ => h⟩

theorem Isolated.pure (a : α) : Isolated (ε := ε) view own (Pure.pure a) :=
  ⟨fun _ => Agree.pure a, fun _ => Invisible.pure a⟩

theorem Isolated.bind {m : Prog ε σ α} {f : α → Prog ε σ β} (hm : Isolated view own m)
    (hf : ∀ s, Isolated view own (f (m s).value)) : Isolated view own (m >>= f) :=
  ⟨fun h => Agree.bind (hm.agree h) fun s => (hf s).agree h,
    fun h => Invisible.bind (hm.invisible h) fun s => (hf s).invisible h⟩

theorem Isolated.compute {f : σ → α × σ} (h : Confined view own f) :
    Isolated (ε := ε) view own (Prog.compute f) :=
  ⟨fun ho => Agree.compute (h.agree ho), fun ho => Invisible.compute (h.invisible ho)⟩

theorem Isolated.change {e : ε} {f : σ → σ} (h : Confined view own fun s => ((), f s)) :
    Isolated view own (Prog.change e f) :=
  ⟨fun ho => Agree.change fun s s' hs => (h.agree ho s s' hs).2,
    fun ho => Invisible.change (h.invisible ho)⟩

theorem Isolated.modify {f : σ → σ} (h : Confined view own fun s => ((), f s)) :
    Isolated (ε := ε) view own (Prog.modify f) :=
  Isolated.compute h

theorem Isolated.forEach {bs : List β} {f : β → Prog ε σ Unit}
    (h : ∀ b ∈ bs, Isolated view own (f b)) : Isolated view own (Prog.forEach bs f) :=
  ⟨fun ho => Agree.forEach fun b hb => (h b hb).agree ho,
    fun ho => Invisible.forEach fun b hb => (h b hb).invisible ho⟩

end Isolated

end Prog

/-! ## Runs -/

section Runs

variable {ε σ ι τ V : Type}

/-- Serve inputs one after another.  An input comes with a mark, such as the place where
it was found, that its owner does not choose. -/
def serveAll (serve : τ → ι → Prog ε σ Unit) (inputs : List (τ × ι)) (s : σ) : σ :=
  inputs.foldl (fun s e => (serve e.1 e.2 s).final) s

/-- The inputs that are owned. -/
def ownInputs (own : ι → Bool) (inputs : List (τ × ι)) : List ι :=
  (inputs.map Prod.snd).filter own

variable {serve : τ → ι → Prog ε σ Unit} {own : ι → Bool} {view : σ → V}

/-- Up to the first own input nothing is seen. -/
theorem serveAll_split {inputs : List (τ × ι)} {i : ι} {is : List ι}
    (hother : ∀ e ∈ inputs, own e.2 = false → (serve e.1 e.2).Invisible view)
    (h : ownInputs own inputs = i :: is) (s : σ) :
    ∃ t rest s', (t, i) ∈ inputs ∧ (∀ e ∈ rest, e ∈ inputs) ∧
      ownInputs own rest = is ∧ view s' = view s ∧
        serveAll serve inputs s = serveAll serve rest (serve t i s').final := by
  induction inputs generalizing s with
  | nil => simp [ownInputs] at h
  | cons e inputs ih =>
      by_cases he : own e.2 = true
      · have hcons : e.2 = i ∧ ownInputs own inputs = is := by
          simpa [ownInputs, he] using h
        obtain ⟨rfl, his⟩ := hcons
        exact ⟨e.1, inputs, s, by simp, fun e' he' => List.mem_cons_of_mem e he', his,
          rfl, rfl⟩
      · have hrest : ownInputs own inputs = i :: is := by
          simpa [ownInputs, he] using h
        have hinv := hother e (by simp) (by simpa using he)
        obtain ⟨t, rest, s', hmem, hsub, his, hview, heq⟩ :=
          ih (fun e' he' => hother e' (List.mem_cons_of_mem e he')) hrest
            (serve e.1 e.2 s).final
        exact ⟨t, rest, s', List.mem_cons_of_mem e hmem,
          fun e' he' => List.mem_cons_of_mem e (hsub e' he'), his,
          hview.trans (hinv s), heq⟩

/-- Where no input is owned nothing is seen. -/
theorem view_serveAll_of_nil {inputs : List (τ × ι)}
    (hother : ∀ e ∈ inputs, own e.2 = false → (serve e.1 e.2).Invisible view)
    (h : ownInputs own inputs = []) (s : σ) :
    view (serveAll serve inputs s) = view s := by
  induction inputs generalizing s with
  | nil => rfl
  | cons e inputs ih =>
      by_cases he : own e.2 = true
      · simp [ownInputs, he] at h
      · have hrest : ownInputs own inputs = [] := by
          simpa [ownInputs, he] using h
        have hinv := hother e (by simp) (by simpa using he)
        exact (ih (fun e' he' => hother e' (List.mem_cons_of_mem e he')) hrest _).trans
          (hinv s)

/-- Two runs that differ in the inputs of others only look the same. -/
theorem view_serveAll_eq {inputs inputs' : List (τ × ι)}
    (hother : ∀ e ∈ inputs, own e.2 = false → (serve e.1 e.2).Invisible view)
    (hother' : ∀ e ∈ inputs', own e.2 = false → (serve e.1 e.2).Invisible view)
    (hown : ∀ t t' i, (t, i) ∈ inputs → own i = true →
      Prog.Agree view (serve t i) (serve t' i))
    (hsame : ownInputs own inputs = ownInputs own inputs') {s s' : σ}
    (hs : view s = view s') :
    view (serveAll serve inputs s) = view (serveAll serve inputs' s') := by
  generalize his : ownInputs own inputs = is at hsame
  induction is generalizing inputs inputs' s s' with
  | nil =>
      rw [view_serveAll_of_nil hother his, view_serveAll_of_nil hother' hsame.symm, hs]
  | cons i is ih =>
      obtain ⟨t, rest, r, hmem, hsub, hrest, hview, heq⟩ := serveAll_split hother his s
      obtain ⟨t', rest', r', -, hsub', hrest', hview', heq'⟩ :=
        serveAll_split hother' hsame.symm s'
      have hi : own i = true := by
        have hfilter : i ∈ ownInputs own inputs := by simp [his]
        exact (List.mem_filter.mp hfilter).2
      have hstep := (hown t t' i hmem hi r r'
        (hview.trans (hs.trans hview'.symm))).2
      rw [heq, heq']
      exact ih (fun e he => hother e (hsub e he)) (fun e he => hother' e (hsub' e he))
        (fun u u' j hj => hown u u' j (hsub _ hj)) hstep hrest hrest'.symm

end Runs

end Crash
