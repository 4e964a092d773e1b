import Mathlib.Algebra.BigOperators.Group.Multiset.Basic
import Mathlib.Data.Multiset.Bind

/-!
# What is received of what was sent

Messages come in any order, and what is received need not be equal to what was sent: a set
is sent as a list and made again from it.  A relation tells what may come of one message.
-/

variable {α β γ δ : Type}

/-- Every message that was sent is received once, as something that may come of it. -/
def Delivers (R : α → β → Prop) (sent : List α) (received : List β) : Prop :=
  Multiset.Rel R sent received

namespace Delivers

variable {R : α → β → Prop} {S : γ → δ → Prop} {sent : List α} {received : List β}

theorem mem_received (h : Delivers R sent received) {y : β} (hy : y ∈ received) :
    ∃ x ∈ sent, R x y := by
  obtain ⟨x, hx, hxy⟩ := Multiset.exists_mem_of_rel_of_mem (Multiset.rel_flip.mpr h)
    (Multiset.mem_coe.mpr hy)
  exact ⟨x, Multiset.mem_coe.mp hx, hxy⟩

theorem mem_sent (h : Delivers R sent received) {x : α} (hx : x ∈ sent) :
    ∃ y ∈ received, R x y := by
  obtain ⟨y, hy, hxy⟩ := Multiset.exists_mem_of_rel_of_mem h (Multiset.mem_coe.mpr hx)
  exact ⟨y, Multiset.mem_coe.mp hy, hxy⟩

theorem of_perm {xs ys : List α} (h : xs.Perm ys) {R : α → α → Prop} (hR : ∀ x, R x x) :
    Delivers R xs ys := by
  rw [Delivers, Multiset.coe_eq_coe.mpr h]
  exact Multiset.rel_refl_of_refl_on fun x _ => hR x

/-- Something that may come of each message is delivered. -/
theorem map_received {f : α → β} (xs : List α) (h : ∀ x, R x (f x)) :
    Delivers R xs (xs.map f) := by
  rw [Delivers, ← Multiset.map_coe, Multiset.rel_map_right]
  exact Multiset.rel_refl_of_refl_on fun x _ => h x

theorem perm_sent {xs : List α} (h : Delivers R sent received) (hperm : sent.Perm xs) :
    Delivers R xs received := by
  rw [Delivers, ← Multiset.coe_eq_coe.mpr hperm]
  exact h

/-- Messages to several receivers are delivered together. -/
theorem flatMap_receivers {ι : Type} (receivers : List ι) {f : ι → List α} {g : ι → List β}
    (h : ∀ i ∈ receivers, Delivers R (f i) (g i)) :
    Delivers R (receivers.flatMap f) (receivers.flatMap g) := by
  induction receivers with
  | nil => exact Multiset.Rel.zero
  | cons i receivers ih =>
      have hrest := ih fun j hj => h j (List.mem_cons_of_mem _ hj)
      rw [List.flatMap_cons, List.flatMap_cons, Delivers, ← Multiset.coe_add,
        ← Multiset.coe_add]
      exact Multiset.Rel.add (h i List.mem_cons_self) hrest

/-- Parts are delivered if the messages that have them are. -/
theorem flatMap {f : α → List γ} {g : β → List δ} (h : Delivers R sent received)
    (hparts : ∀ x y, R x y → Delivers S (f x) (g y)) :
    Delivers S (sent.flatMap f) (received.flatMap g) := by
  have hbind : Multiset.Rel S ((sent : Multiset α).bind fun x => (f x : Multiset γ))
      ((received : Multiset β).bind fun y => (g y : Multiset δ)) :=
    Multiset.rel_bind (fun x y hxy => hparts x y hxy) h
  rwa [Multiset.coe_bind, Multiset.coe_bind] at hbind

/-- What does not tell what was sent from what is received arrives as it was sent. -/
theorem perm_map {f : α → γ} {g : β → γ} (h : Delivers R sent received)
    (hfg : ∀ x y, R x y → f x = g y) : (sent.map f).Perm (received.map g) := by
  have hmap {s : Multiset α} {t : Multiset β} (hst : Multiset.Rel R s t) :
      s.map f = t.map g := by
    induction hst with
    | zero => rfl
    | cons hxy _ ih => rw [Multiset.map_cons, Multiset.map_cons, ih, hfg _ _ hxy]
  have hlists := hmap h
  rwa [Multiset.map_coe, Multiset.map_coe, Multiset.coe_eq_coe] at hlists

theorem countP {p : α → Bool} {q : β → Bool} (h : Delivers R sent received)
    (hpq : ∀ x y, R x y → p x = q y) : sent.countP p = received.countP q := by
  have hperm := (h.perm_map hpq).countP_eq id
  rwa [List.countP_map, List.countP_map] at hperm

end Delivers
