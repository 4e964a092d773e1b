import MoneyLaundering.Ring.Deliveries

/-!
# The history of one process

The history of a node goes on through its restarts.  What its last process did, and what this
process sent of one client, is the end of it.
-/

open Crash

namespace Event

variable {β : Type}

/-- A process was started. -/
def isRestart : Event β → Bool
  | .restarted => true
  | _ => false

/-- A message of the client. -/
def isDataOf (c : UUID) : Event β → Bool
  | .data _ _ x _ => decide (x = c)
  | _ => false

/-- What the last process did, newest first. -/
def lastLife (log : List (Event β)) : List (Event β) :=
  log.takeWhile fun e => !e.isRestart

/-- The messages of the client that the last process sent, oldest first. -/
def sentOf (c : UUID) (log : List (Event β)) : List (Event β) :=
  ((lastLife log).filter (isDataOf c)).reverse

/-- The entry is not about the messages, the counts or the spill of the client. -/
structure Aside (c : UUID) (e : Event β) : Prop where
  restart : e.isRestart = false
  data : e.isDataOf c = false
  reported : ∀ sent, e ≠ .reported c sent
  freed : e ≠ .freed c

/-- The last process did nothing about the client yet. -/
structure Untouched (c : UUID) (log : List (Event β)) : Prop where
  sent : sentOf c log = []
  reported : ∀ sent, .reported c sent ∉ lastLife log
  freed : .freed c ∉ lastLife log

variable {c x : UUID} {e : Event β} {es log : List (Event β)}

theorem lastLife_append (h : ∀ e ∈ es, e.isRestart = false) :
    lastLife (es ++ log) = es ++ lastLife log :=
  List.takeWhile_append_of_pos fun e he => by simp [h e he]

theorem sentOf_append (h : ∀ e ∈ es, e.isRestart = false) :
    sentOf c (es ++ log) = sentOf c log ++ (es.filter (isDataOf c)).reverse := by
  rw [sentOf, lastLife_append h, List.filter_append, List.reverse_append, sentOf]

theorem sentOf_aside (h : ∀ e ∈ es, Aside c e) : sentOf c (es ++ log) = sentOf c log := by
  have hnone : es.filter (isDataOf c) = [] := by
    rw [List.filter_eq_nil_iff]
    intro e he
    simp [(h e he).data]
  rw [sentOf_append fun e he => (h e he).restart, hnone, List.reverse_nil, List.append_nil]

theorem mem_lastLife_aside (log : List (Event β)) (h : ∀ e ∈ es, Aside c e) :
    (.freed c ∈ lastLife (es ++ log) ↔ .freed c ∈ lastLife log) ∧
      ∀ sent, .reported c sent ∈ lastLife (es ++ log) ↔ .reported c sent ∈ lastLife log := by
  rw [lastLife_append fun e he => (h e he).restart]
  constructor
  · rw [List.mem_append]
    exact or_iff_right fun he => (h _ he).freed rfl
  · intro sent
    rw [List.mem_append]
    exact or_iff_right fun he => (h _ he).reported sent rfl

theorem untouched_restarted : Untouched c (.restarted :: log) := by
  have hnil : lastLife (.restarted :: log : List (Event β)) = [] := rfl
  constructor
  · rw [sentOf, hnil]
    rfl
  · intro sent
    rw [hnil]
    exact List.not_mem_nil
  · rw [hnil]
    exact List.not_mem_nil

theorem Untouched.aside (h : Untouched c log) (hes : ∀ e ∈ es, Aside c e) :
    Untouched c (es ++ log) := by
  obtain ⟨hfreed, hreported⟩ := mem_lastLife_aside log hes
  constructor
  · rw [sentOf_aside hes]
    exact h.sent
  · intro sent
    rw [hreported]
    exact h.reported sent
  · rw [hfreed]
    exact h.freed

theorem aside_of_isBarrier (h : e.isBarrier = true) : Aside c e := by
  cases e <;> first | (simp [isBarrier] at h; done) | exact ⟨rfl, rfl, by simp, by simp⟩

theorem aside_of_mem_closings {rc : RingCompletion} {actions : List BarrierAction}
    (h : e ∈ RingNode.closings rc actions) : Aside c e := by
  obtain ⟨a, -, ha⟩ := List.mem_filterMap.mp h
  cases a with
  | forward t => cases ha
  | downstreamEof y counts =>
      obtain rfl := Option.some.inj ha
      exact ⟨rfl, rfl, by simp, by simp⟩

theorem aside_of_mem_stampAll {Q F S E α : Type} {C : Controller Q F S E α β} (hne : x ≠ c)
    {seqs : ProducerId → ℕ} {outs : List (Output β)} (h : e ∈ C.stampAll x seqs outs) :
    Aside c e := by
  obtain ⟨s, id, pl, rfl⟩ := Controller.eq_data_of_mem_stampAll h
  exact ⟨rfl, by simp [isDataOf, hne], by simp, by simp⟩

theorem filter_stampAll {Q F S E α : Type} {C : Controller Q F S E α β}
    (seqs : ProducerId → ℕ) (outs : List (Output β)) :
    (C.stampAll c seqs outs).filter (isDataOf c) = C.stampAll c seqs outs := by
  rw [List.filter_eq_self]
  intro e he
  obtain ⟨s, id, pl, rfl⟩ := Controller.eq_data_of_mem_stampAll he
  simp [isDataOf]

end Event
