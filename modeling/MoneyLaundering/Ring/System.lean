import Mathlib.Data.List.Perm.Subperm
import MoneyLaundering.Ring.ClientView

/-!
# The ring

Nodes with distinct ids, each with its own queues, that pass barrier tokens
along a ring.  A token that was ever sent to a node may reach it at any later
time, and any number of times.
-/

open Crash

/-- A ring of nodes. -/
structure AffinityRing (Q F S E α β : Type) where
  ids : List ℕ
  nodup : ids.Nodup
  node : ℕ → Controller Q F S E α β
  /-- Every node knows its own id and the ids of the others. -/
  self_eq : ∀ p ∈ ids, (node p).self = Peer.ofIds p (ids.erase p)
  /-- The node to which a node sends its tokens. -/
  next : ℕ → ℕ
  arrivals : ℕ → Q → ℕ → Option (Message α)
  fifo : Bool
  /-- What the business function of a node starts from. -/
  fn₀ : ℕ → F

namespace AffinityRing

variable {Q F S E α β : Type}

theorem foldl_min_mem (x : ℕ) (xs : List ℕ) : xs.foldl min x ∈ x :: xs := by
  induction xs generalizing x with
  | nil => simp
  | cons y ys ih =>
      rw [List.foldl_cons]
      rcases List.mem_cons.mp (ih (min x y)) with h | h
      · rw [h]
        rcases min_choice x y with h' | h' <;> simp [h']
      · simp [h]

theorem foldl_min_le (x : ℕ) (xs : List ℕ) : ∀ y ∈ x :: xs,
    xs.foldl min x ≤ y := by
  induction xs generalizing x with
  | nil => simp
  | cons z zs ih =>
      intro y hy
      rw [List.foldl_cons]
      have hmin := ih (min x z) (min x z) List.mem_cons_self
      rcases List.mem_cons.mp hy with rfl | hy
      · exact hmin.trans (min_le_left _ _)
      · rcases List.mem_cons.mp hy with rfl | hy
        · exact hmin.trans (min_le_right _ _)
        · exact ih _ y (List.mem_cons_of_mem _ hy)

variable (R : AffinityRing Q F S E α β)

/-- The least id of the ring. -/
def leader : ℕ := R.ids.foldl min (R.ids.headD 0)

variable {R} {p q : ℕ}

theorem leader_mem (hp : p ∈ R.ids) : R.leader ∈ R.ids := by
  unfold leader
  cases hids : R.ids with
  | nil => simp [hids] at hp
  | cons x xs =>
      rcases List.mem_cons.mp (foldl_min_mem x (x :: xs)) with h | h
      · simp [h]
      · exact h

theorem leader_le (hp : p ∈ R.ids) : R.leader ≤ p := by
  unfold leader
  cases hids : R.ids with
  | nil => simp [hids] at hp
  | cons x xs =>
      rw [hids] at hp
      exact foldl_min_le x (x :: xs) p (List.mem_cons_of_mem _ hp)

/-- The id and the number of peers that a node was given. -/
theorem self_nodeId (hp : p ∈ R.ids) : (R.node p).self.nodeId = p := by
  rw [R.self_eq p hp]
  rfl

theorem self_nNodes (hp : p ∈ R.ids) :
    (R.node p).self.nNodes = R.ids.length := by
  rw [R.self_eq p hp]
  change (R.ids.erase p).length + 1 = _
  rw [List.length_erase_of_mem hp]
  exact Nat.succ_pred_eq_of_pos (List.length_pos_of_mem hp)

/-- All nodes agree on the leader. -/
theorem self_leader (hp : p ∈ R.ids) :
    (R.node p).self.leader = R.leader := by
  rw [R.self_eq p hp]
  change (R.ids.erase p).foldl min p = R.leader
  have hmem : ∀ x, x ∈ p :: R.ids.erase p ↔ x ∈ R.ids := fun x =>
    (List.perm_cons_erase hp).symm.mem_iff
  apply le_antisymm
  · exact foldl_min_le p _ _ ((hmem _).mpr (leader_mem hp))
  · exact leader_le ((hmem _).mp (foldl_min_mem p _))

variable [DecidableEq Q] (R)

/-- When a node of the ring may serve a call: a token has to have been sent to
it. -/
def gate (p : ℕ) (call : RingNode.Call Q) (s : ℕ → Node Q F S E β) : Prop :=
  p ∈ R.ids ∧
    match call with
    | .token t => ∃ q ∈ R.ids, R.next q = p ∧ .forward t ∈ (s q).log
    | _ => True

/-- The ring, where a crash of node `p` may fall in the states `crashable p`. -/
def system (crashable : ℕ → Node Q F S E β → Prop) :
    System Effect (ℕ → Node Q F S E β) (ℕ × RingNode.Call Q)
      (UUID → ℕ → ℕ) :=
  System.par (fun p => RingNode.system (R.node p) (R.arrivals p) R.fifo
    (crashable p)) R.gate

/-- The ring before any node was started. -/
def initial (p : ℕ) : Node Q F S E β :=
  Machine.initial ((R.node p).fresh (R.fn₀ p))

/-- The ring with crashes at any point. -/
abbrev runs : System Effect (ℕ → Node Q F S E β) (ℕ × RingNode.Call Q)
    (UUID → ℕ → ℕ) :=
  R.system fun _ _ => True

section Decidable

variable [DecidableEq β]

instance (p : ℕ) (call : RingNode.Call Q) : DecidablePred (R.gate p call) :=
  fun s => match call with
    | .start => inferInstanceAs (Decidable (p ∈ R.ids ∧ True))
    | .deliver _ => inferInstanceAs (Decidable (p ∈ R.ids ∧ True))
    | .token t => inferInstanceAs (Decidable (p ∈ R.ids ∧
        ∃ q ∈ R.ids, R.next q = p ∧ .forward t ∈ (s q).log))

instance (crashable : ℕ → Node Q F S E β → Prop) (e : ℕ × RingNode.Call Q) :
    DecidablePred ((R.system crashable).enabled e) := fun s =>
  inferInstanceAs (Decidable (RingNode.Enabled (R.arrivals e.1) R.fifo e.2
    (s e.1) ∧ R.gate e.1 e.2 s))

instance (crashable : ℕ → Node Q F S E β → Prop)
    [∀ p, DecidablePred (crashable p)] (e : ℕ × RingNode.Call Q) (k : UUID → ℕ → ℕ) :
    DecidablePred ((R.system crashable).crashable e k) := fun s =>
  inferInstanceAs (Decidable (crashable e.1 (s e.1)))

end Decidable

end AffinityRing
