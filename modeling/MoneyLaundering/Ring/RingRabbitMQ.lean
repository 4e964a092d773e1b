import Mathlib.Data.Finset.Sort
import MoneyLaundering.Messages.Values
import MoneyLaundering.Support.Cycles

/-!
# The order of a ring

Each node of a ring finds its two neighbors by itself, from its own id and a list of the ids
of the others: the front is the next larger id, and the smallest one for the largest.  The
choices of all nodes fit together into one cycle, whatever the ids are and however they are
listed, so a token that every node sends to its front comes past every node once.
-/

open Messages

/-- `MOMRingError`. -/
structure MOMRingError where
  message : String
deriving DecidableEq

/-- `_get_front_back_ids`. -/
def getFrontBackIds (selfId : ℤ) (peerIds : List ℤ) : Except MOMRingError (ℤ × ℤ) :=
  if selfId ∈ peerIds then
    .error ⟨"invalid peer ids list, self's id should not be included"⟩
  else
    let peerIds := peerIds.insertionSort (· ≤ ·)
    let npeers := peerIds.length
    if npeers = 0 then .ok (selfId, selfId)
    else if npeers = 1 then .ok (peerIds.getD 0 selfId, peerIds.getD 0 selfId)
    else
      -- the loop breaks at the first larger id, and leaves the index at zero without one
      let frontIdx := (peerIds.findIdx? fun p => selfId < p).getD 0
      let backIdx := (npeers + frontIdx - 1) % npeers
      .ok (peerIds.getD frontIdx selfId, peerIds.getD backIdx selfId)

/-- `ExchangeRabbitMQ`: what is published goes to the exchange with each of the keys, and
the queue that is consumed from is bound to the exchange with each of them. -/
structure ExchangeRabbitMQ where
  host : String
  exchangeName : String
  routingKeys : List String
  queueName : String
  exclusive : Bool

namespace ExchangeRabbitMQ

/-- What the one publishes comes to the queue of the other: the exchange is a direct one. -/
def DeliversTo (exchange other : ExchangeRabbitMQ) : Prop :=
  exchange.exchangeName = other.exchangeName ∧
    ∃ key ∈ exchange.routingKeys, key ∈ other.routingKeys

end ExchangeRabbitMQ

/-- `RingRabbitMQ`. -/
structure RingRabbitMQ where
  ringName : String
  id : ℤ
  peerIds : List ℤ
  frontId : ℤ
  backId : ℤ
  exchangeFront : ExchangeRabbitMQ
  exchangeBack : ExchangeRabbitMQ

namespace RingRabbitMQ

/-- `QUEUE_NAME_SUFFIX`. -/
def queueNameSuffix : String := "_queue"

/-- `RingRabbitMQ(...)` with the exchanges of the broker: the queue that a node consumes
from outlives it. -/
def new (host ringName : String) (selfId : ℤ) (peerIds : List ℤ) :
    Except MOMRingError RingRabbitMQ := do
  let (frontId, backId) ← getFrontBackIds selfId peerIds
  return {
    ringName := ringName
    id := selfId
    peerIds := peerIds
    frontId := frontId
    backId := backId
    exchangeFront := ⟨host, ringName, [toString frontId],
      ringName ++ queueNameSuffix ++ toString frontId, true⟩
    exchangeBack := ⟨host, ringName, [toString selfId],
      ringName ++ queueNameSuffix ++ toString selfId, false⟩ }

/-! ## Neighbors in a sorted list -/

section Neighbors

variable {before after : List ℤ} {x : ℤ}

/-- The index at which the loop stops. -/
theorem findIdx?_larger (hbefore : ∀ y ∈ before, y < x) :
    (before ++ after).findIdx? (fun p => x < p) =
      (after.findIdx? fun p => x < p).map (· + before.length) := by
  have hnone : before.findIdx? (fun p => x < p) = none := by
    rw [List.findIdx?_eq_none_iff]
    intro y hy
    simpa using (hbefore y hy).le
  rw [List.findIdx?_append, hnone, Option.none_or]

theorem getD_frontIdx (hbefore : ∀ y ∈ before, y < x) (hafter : ∀ y ∈ after, x < y) :
    (before ++ after).getD (((before ++ after).findIdx? fun p => x < p).getD 0) x =
      (after ++ before).headD x := by
  rw [findIdx?_larger hbefore]
  cases after with
  | nil => cases before <;> simp
  | cons a after =>
      have ha : x < a := hafter a List.mem_cons_self
      simp [List.findIdx?_cons, ha]

theorem getD_length_sub_one (l : List ℤ) (x : ℤ) :
    l.getD (l.length - 1) x = l.getLastD x := by
  rw [List.getD_eq_getElem?_getD, List.getLastD_eq_getLast?, List.getLast?_eq_getElem?]

/-- The index before the front, which wraps around at zero. -/
theorem getD_backIdx (hbefore : ∀ y ∈ before, y < x) (hafter : ∀ y ∈ after, x < y)
    (hne : before ++ after ≠ []) :
    (before ++ after).getD (((before ++ after).length +
        ((before ++ after).findIdx? fun p => x < p).getD 0 - 1) %
          (before ++ after).length) x = (after ++ before).getLastD x := by
  have hpos : 0 < (before ++ after).length := List.length_pos_of_ne_nil hne
  have hwrap : ((before ++ after).length + 0 - 1) % (before ++ after).length =
      (before ++ after).length - 1 := Nat.mod_eq_of_lt (by omega)
  rw [findIdx?_larger hbefore]
  cases after with
  | nil =>
      rw [List.findIdx?_nil, Option.map_none, Option.getD_none, hwrap, getD_length_sub_one]
      simp
  | cons a after =>
      have ha : x < a := hafter a List.mem_cons_self
      have hfront : ((a :: after).findIdx? fun p => x < p) = some 0 := by
        simp [List.findIdx?_cons, ha]
      rw [hfront, Option.map_some, Option.getD_some, Nat.zero_add]
      rcases List.eq_nil_or_concat' before with rfl | ⟨bs, b, rfl⟩
      · rw [List.length_nil, hwrap, getD_length_sub_one]
        simp
      · have hback : ((bs ++ [b] ++ a :: after).length + (bs ++ [b]).length - 1) %
            (bs ++ [b] ++ a :: after).length = bs.length := by
          have hsplit : (bs ++ [b] ++ a :: after).length + (bs ++ [b]).length - 1 =
              bs.length + (bs ++ [b] ++ a :: after).length := by
            simp only [List.length_append, List.length_cons, List.length_nil]
            omega
          rw [hsplit, Nat.add_mod_right, Nat.mod_eq_of_lt]
          simp only [List.length_append, List.length_cons]
          omega
        rw [hback, List.getLastD_eq_getLast?, ← List.append_assoc, List.getLast?_concat]
        simp

end Neighbors

/-- The neighbors of a node, in the ids before it and those after it. -/
theorem getFrontBackIds_eq {x : ℤ} {peerIds before after : List ℤ}
    (hsorted : peerIds.insertionSort (· ≤ ·) = before ++ after)
    (hbefore : ∀ y ∈ before, y < x) (hafter : ∀ y ∈ after, x < y) :
    getFrontBackIds x peerIds =
      .ok ((after ++ before).headD x, (after ++ before).getLastD x) := by
  have hnot : x ∉ peerIds := by
    intro hmem
    rw [← List.mem_insertionSort (· ≤ ·), hsorted, List.mem_append] at hmem
    rcases hmem with hmem | hmem
    · exact lt_irrefl x (hbefore x hmem)
    · exact lt_irrefl x (hafter x hmem)
  have hlength : (before ++ after).length = (after ++ before).length := by
    rw [List.length_append, List.length_append, Nat.add_comm]
  simp only [getFrontBackIds, if_neg hnot, hsorted]
  split
  · next hzero =>
      rw [hlength, List.length_eq_zero_iff] at hzero
      rw [hzero]
      rfl
  · next hne =>
      have hne' : before ++ after ≠ [] := fun heq => hne (by rw [heq]; rfl)
      split
      · next hone =>
          have hrotated : before ++ after = after ++ before := by
            rw [List.length_append] at hone
            cases before with
            | nil => simp
            | cons b bs =>
                have hafter : after = [] := by
                  rw [← List.length_eq_zero_iff]
                  simp only [List.length_cons] at hone
                  omega
                simp [hafter]
          rw [hrotated] at hone ⊢
          obtain ⟨p, hp⟩ := List.length_eq_one_iff.mp hone
          rw [hp]
          rfl
      · rw [getD_frontIdx hbefore hafter, getD_backIdx hbefore hafter hne']

/-! ## The cycle -/

/-- The other ids of a ring, in some order. -/
def IsPeersOf (ids : Finset ℤ) (x : ℤ) (peerIds : List ℤ) : Prop :=
  peerIds.Nodup ∧ ∀ y, y ∈ peerIds ↔ y ∈ ids ∧ y ≠ x

variable {ids : Finset ℤ} {x : ℤ} {peerIds : List ℤ}

/-- The cycle through the ids in their order. -/
def ringCycle (ids : Finset ℤ) : Equiv.Perm ℤ := (ids.sort (· ≤ ·)).formPerm

theorem isCycleOn_ringCycle (ids : Finset ℤ) : (ringCycle ids).IsCycleOn ids := by
  have hcycle := (ids.sort_nodup (· ≤ ·)).isCycleOn_formPerm
  have hids : {a | a ∈ ids.sort (· ≤ ·)} = (ids : Set ℤ) := by
    ext a
    simp
  rwa [hids] at hcycle

/-- A node finds its neighbors in the cycle. -/
theorem getFrontBackIds_ringCycle (hx : x ∈ ids) (hpeers : IsPeersOf ids x peerIds) :
    getFrontBackIds x peerIds = .ok (ringCycle ids x, (ringCycle ids)⁻¹ x) := by
  obtain ⟨before, after, hsplit⟩ := List.append_of_mem ((ids.mem_sort (· ≤ ·)).mpr hx)
  have hnodup : (before ++ x :: after).Nodup := hsplit ▸ ids.sort_nodup (· ≤ ·)
  have hlt : (before ++ x :: after).Pairwise (· < ·) := hsplit ▸ ids.sortedLT_sort.pairwise
  obtain ⟨hbs, has, hcross⟩ := List.pairwise_append.mp hlt
  have hbefore : ∀ y ∈ before, y < x := fun y hy => hcross y hy x List.mem_cons_self
  have hafter : ∀ y ∈ after, x < y := (List.pairwise_cons.mp has).1
  have hsub : (before ++ after).Sublist (before ++ x :: after) :=
    (List.Sublist.refl before).append (List.sublist_cons_self x after)
  have hrest : (before ++ after).Pairwise (· ≤ ·) := (hlt.sublist hsub).imp le_of_lt
  have hsame : peerIds.Perm (before ++ after) := by
    rw [List.perm_ext_iff_of_nodup hpeers.1 (hnodup.sublist hsub)]
    intro y
    have hmem : y ∈ ids ↔ y ∈ before ++ x :: after := by
      rw [← hsplit, ids.mem_sort (· ≤ ·)]
    rw [hpeers.2, hmem, List.mem_append, List.mem_append, List.mem_cons]
    constructor
    · intro h
      tauto
    · intro h
      refine ⟨by tauto, ?_⟩
      intro heq
      subst heq
      exact h.elim (fun hy => lt_irrefl y (hbefore y hy)) fun hy => lt_irrefl y (hafter y hy)
  have hsorted : peerIds.insertionSort (· ≤ ·) = before ++ after := by
    apply List.Perm.eq_of_pairwise' (List.pairwise_insertionSort (· ≤ ·) peerIds) hrest
    exact (List.perm_insertionSort (· ≤ ·) peerIds).trans hsame
  rw [getFrontBackIds_eq hsorted hbefore hafter, ringCycle, hsplit,
    Cycles.formPerm_next hnodup, Cycles.formPerm_inv hnodup]

/-! ## Texts of ids -/

theorem natRepr_injective : Function.Injective Nat.repr := by
  intro n m heq
  have hparse := congrArg (fun text => parseInt 10 text.toList) heq
  simp only [parseInt_repr] at hparse
  exact Option.some.inj hparse

/-- A text with a minus is not that of a natural number. -/
theorem minus_ne_repr (text : String) (n : ℕ) : "-" ++ text ≠ Nat.repr n := by
  intro heq
  have hparse := parseInt_repr n
  rw [← heq, String.toList_append] at hparse
  have hminus : digitValue 10 '-' = none := by decide
  simp [parseInt, hminus] at hparse

/-- The texts of two ids are different. -/
theorem toString_injective : Function.Injective (toString : ℤ → String) := by
  intro a b heq
  rw [Int.toString_eq_repr, Int.toString_eq_repr, Int.repr_eq_if, Int.repr_eq_if] at heq
  split at heq
  · split at heq
    · have hnat := natRepr_injective heq
      omega
    · exact absurd heq.symm (minus_ne_repr _ _)
  · split at heq
    · exact absurd heq (minus_ne_repr _ _)
    · have hnat := natRepr_injective ((String.append_right_inj "-").mp heq)
      omega

/-! ## The ring -/

variable {host ringName : String} {node node' : RingRabbitMQ}

/-- What a node is built with. -/
theorem new_eq_ok {front back : ℤ} (h : getFrontBackIds x peerIds = .ok (front, back)) :
    ∃ node, new host ringName x peerIds = .ok node ∧ node.frontId = front ∧
      node.backId = back ∧ node.exchangeFront.exchangeName = ringName ∧
      node.exchangeFront.routingKeys = [toString front] ∧
      node.exchangeBack.exchangeName = ringName ∧
      node.exchangeBack.routingKeys = [toString x] := by
  rw [new, h]
  exact ⟨_, rfl, rfl, rfl, rfl, rfl, rfl, rfl⟩

/-- The ring is one cycle.  Every node finds the next one and the one before it in a cycle
through all ids, what it sends comes to the next one and to no other, and a token that is
forwarded from any node visits every node once, the one it came from last. -/
theorem one_cycle (host ringName : String) (ids : Finset ℤ) (peers : ℤ → List ℤ)
    (hpeers : ∀ x ∈ ids, IsPeersOf ids x (peers x)) :
    ∃ σ : Equiv.Perm ℤ, σ.IsCycleOn ids ∧
      (∀ x ∈ ids, getFrontBackIds x (peers x) = .ok (σ x, σ⁻¹ x)) ∧
      (∀ x ∈ ids, (Cycles.visits σ ids.card x).Nodup ∧
        (∀ y, y ∈ Cycles.visits σ ids.card x ↔ y ∈ ids) ∧
        (Cycles.visits σ ids.card x).getLast? = some x) ∧
      ∀ x ∈ ids, ∃ node, new host ringName x (peers x) = .ok node ∧ node.frontId = σ x ∧
        node.backId = σ⁻¹ x ∧ ∀ y ∈ ids, ∀ node', new host ringName y (peers y) = .ok node' →
          (node.exchangeFront.DeliversTo node'.exchangeBack ↔ y = σ x) := by
  have hcycle := isCycleOn_ringCycle ids
  have hids : ∀ x ∈ ids, getFrontBackIds x (peers x) =
      .ok (ringCycle ids x, (ringCycle ids)⁻¹ x) :=
    fun x hx => getFrontBackIds_ringCycle hx (hpeers x hx)
  refine ⟨ringCycle ids, hcycle, hids, fun x hx => Cycles.visits_of_isCycleOn hcycle hx, ?_⟩
  intro x hx
  obtain ⟨node, hnode, hfront, hback, hname, hkeys, -⟩ := new_eq_ok (hids x hx)
  refine ⟨node, hnode, hfront, hback, ?_⟩
  intro y hy node' hnode'
  obtain ⟨node'', hnew, -, -, -, -, hname', hkeys'⟩ := new_eq_ok (hids y hy)
  obtain rfl : node' = node'' := Except.ok.inj (hnode'.symm.trans hnew)
  rw [ExchangeRabbitMQ.DeliversTo, hname, hname', hkeys, hkeys']
  constructor
  · intro h
    obtain ⟨key, hkey, hkey'⟩ := h.2
    rw [List.mem_singleton] at hkey hkey'
    exact toString_injective (hkey'.symm.trans hkey)
  · intro heq
    exact ⟨rfl, _, List.mem_singleton_self _, by simp [heq]⟩

/-- A ring of four nodes with gaps between their ids. -/
theorem one_cycle_four :
    ∃ σ : Equiv.Perm ℤ, σ.IsCycleOn ({3, 10, -4, 7} : Finset ℤ) ∧
      ∀ x ∈ ({3, 10, -4, 7} : Finset ℤ),
        getFrontBackIds x ([10, -4, 7, 3].filter (· ≠ x)) = .ok (σ x, σ⁻¹ x) := by
  have hpeers : ∀ x ∈ ({3, 10, -4, 7} : Finset ℤ),
      IsPeersOf {3, 10, -4, 7} x ([10, -4, 7, 3].filter (· ≠ x)) := by
    intro x _
    constructor
    · exact List.Nodup.filter _ (by decide)
    · intro y
      simp
      tauto
  obtain ⟨σ, hcycle, hids, -⟩ := one_cycle "broker" "ring" {3, 10, -4, 7}
    (fun x => [10, -4, 7, 3].filter (· ≠ x)) hpeers
  exact ⟨σ, hcycle, hids⟩

end RingRabbitMQ
