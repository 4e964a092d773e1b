import Mathlib.Algebra.BigOperators.Group.List.Basic
import MoneyLaundering.Basic
import MoneyLaundering.Support.Dict

/-!
# Completion over a ring of peers

The per-client state machine of one peer.  A peer counts the unique messages of
a client; when it has seen as many as its end-of-file announced, its input is
locally complete and it reports how many messages it sent to each downstream
shard.  A barrier token collects these reports; the leader closes the barrier
when every peer has a slot in it.
-/

/-- How far a client is at one peer. -/
inductive Phase where
  | processing
  | emitted
  | done
deriving DecidableEq

/-- Messages sent to each downstream shard. -/
abbrev ShardCounts : Type := Dict ℕ ℕ

/-- The state of one client at one peer. -/
structure Client where
  /-- The announced number of messages; `-1` until the end-of-file arrives. -/
  expected : ℤ
  received : ℕ
  sent : ShardCounts
  phase : Phase
deriving DecidableEq

namespace Client

/-- A client that nothing is known about. -/
def new : Client := ⟨-1, 0, Dict.empty, .processing⟩

/-- Whether the input of the client is locally complete and not emitted yet. -/
def ready (cl : Client) : Bool :=
  decide (cl.phase = .processing ∧ 0 ≤ cl.expected ∧ cl.expected ≤ cl.received)

theorem ready_iff {cl : Client} : cl.ready = true ↔
    cl.phase = .processing ∧ 0 ≤ cl.expected ∧ cl.expected ≤ cl.received := by
  simp [ready]

@[simp] theorem new_phase : new.phase = .processing := rfl

@[simp] theorem not_ready_new : new.ready = false := rfl

end Client

/-- The token that collects the counts of every peer. -/
structure BarrierToken where
  clientId : UUID
  origin : ℕ
  sentBy : Dict ℕ ShardCounts
deriving DecidableEq

/-- What the barrier asks the controller to do. -/
inductive BarrierAction where
  | forward (token : BarrierToken)
  | downstreamEof (clientId : UUID) (expectedPerShard : ShardCounts)
deriving DecidableEq

/-- The client of an action. -/
@[simp] def BarrierAction.client : BarrierAction → UUID
  | .forward token => token.clientId
  | .downstreamEof clientId _ => clientId

/-- The fixed data of one peer of the ring. -/
structure Peer where
  nodeId : ℕ
  nNodes : ℕ
  leader : ℕ

namespace Peer

/-- The peer with the given id among the given others. -/
def ofIds (nodeId : ℕ) (peerIds : List ℕ) : Peer :=
  ⟨nodeId, peerIds.length + 1, peerIds.foldl min nodeId⟩

end Peer

/-- The completion state of one peer. -/
structure RingCompletion where
  clients : Dict UUID Client
  aborted : Finset UUID
deriving DecidableEq

namespace RingCompletion

/-- A peer that has seen nothing. -/
def new : RingCompletion := ⟨Dict.empty, ∅⟩

/-- The state of a client. -/
def client (rc : RingCompletion) (clientId : UUID) : Client :=
  rc.clients.getD clientId .new

/-- Whether the client is tombstoned. -/
def isAborted (rc : RingCompletion) (clientId : UUID) : Bool :=
  decide (clientId ∈ rc.aborted)

/-- Replace the state of a client. -/
def put (rc : RingCompletion) (clientId : UUID) (cl : Client) :
    RingCompletion :=
  { rc with clients := rc.clients.set clientId cl }

/-- The dictionary access of `_client`, which adds a missing client. -/
def touch (rc : RingCompletion) (clientId : UUID) : RingCompletion :=
  rc.put clientId (rc.client clientId)

/-- The clients to emit among one. -/
def maybeLocalComplete (rc : RingCompletion) (clientId : UUID) : List UUID :=
  if (rc.client clientId).ready then [clientId] else []

/-- A unique message of the client was processed. -/
def onData (rc : RingCompletion) (clientId : UUID) :
    RingCompletion × List UUID :=
  if rc.isAborted clientId then (rc, [])
  else
    let cl := rc.client clientId
    let rc := rc.put clientId { cl with received := cl.received + 1 }
    (rc, rc.maybeLocalComplete clientId)

/-- Forget and tombstone an aborted client. -/
def drop (rc : RingCompletion) (clientId : UUID) : RingCompletion :=
  ⟨rc.clients.erase clientId, insert clientId rc.aborted⟩

/-- The end-of-file of the client arrived. -/
def onUpstreamEof (rc : RingCompletion) (clientId : UUID) (expected : ℤ) :
    RingCompletion × List UUID :=
  if rc.isAborted clientId then (rc, [])
  else
    let rc := rc.put clientId { rc.client clientId with expected := expected }
    (rc, rc.maybeLocalComplete clientId)

/-- Every client that is complete and not emitted. -/
def recheck (rc : RingCompletion) : List UUID :=
  rc.clients.keys.flatMap rc.maybeLocalComplete

/-- The clients past processing. -/
def resolvedClients (rc : RingCompletion) : List UUID :=
  rc.clients.keys.filter fun c => (rc.client c).phase ≠ .processing

/-- Add the counts of one peer to a total. -/
def addCounts (total counts : ShardCounts) : ShardCounts :=
  counts.entries.foldl
    (fun total e => total.set e.1 (total.getD e.1 0 + e.2)) total

/-- The total of every slot of a token, shard by shard. -/
def sumSlots (sentBy : Dict ℕ ShardCounts) : ShardCounts :=
  sentBy.entries.foldl (fun total e => addCounts total e.2) Dict.empty

/-- Pass the token on, or close the barrier. -/
def advance (self : Peer) (rc : RingCompletion) (token : BarrierToken) :
    RingCompletion × List BarrierAction :=
  if token.sentBy.size < self.nNodes then (rc, [.forward token])
  else if token.origin ≠ self.nodeId then (rc, [.forward token])
  else
    let cl := rc.client token.clientId
    if cl.phase = .done then (rc, [])
    else
      (rc.put token.clientId { cl with phase := .done },
        [.downstreamEof token.clientId (sumSlots token.sentBy)])

/-- The token with which the leader starts the barrier. -/
def firstToken (self : Peer) (clientId : UUID) (sent : ShardCounts) :
    BarrierToken :=
  ⟨clientId, self.leader, Dict.empty.set self.nodeId sent⟩

/-- The client was emitted, with these counts. -/
def markEmitted (rc : RingCompletion) (clientId : UUID) (sent : ShardCounts) :
    RingCompletion :=
  rc.put clientId { rc.client clientId with sent := sent, phase := .emitted }

/-- The controller has emitted, with these counts. -/
def reportSent (self : Peer) (rc : RingCompletion) (clientId : UUID)
    (sent : ShardCounts) : RingCompletion × List BarrierAction :=
  if (rc.client clientId).phase ≠ .processing then (rc, [])
  else if self.nodeId ≠ self.leader then (rc.markEmitted clientId sent, [])
  else
    advance self (rc.markEmitted clientId sent)
      (firstToken self clientId sent)

/-- The token as the peer passes it on: a peer that has emitted writes its own
slot, a peer still processing leaves the slot alone. -/
def stampToken (self : Peer) (rc : RingCompletion) (token : BarrierToken) :
    BarrierToken :=
  if (rc.client token.clientId).phase = .processing then token
  else
    { token with
      sentBy := token.sentBy.set self.nodeId (rc.client token.clientId).sent }

/-- A barrier token arrived. -/
def onToken (self : Peer) (rc : RingCompletion) (token : BarrierToken) :
    RingCompletion × List BarrierAction :=
  if rc.isAborted token.clientId then (rc, [])
  else advance self (rc.touch token.clientId) (stampToken self rc token)

@[simp] theorem clientId_stampToken (self : Peer) (rc : RingCompletion)
    (token : BarrierToken) :
    (stampToken self rc token).clientId = token.clientId := by
  unfold stampToken
  split <;> rfl

/-! ## Actions -/

section Actions

variable {self : Peer} {rc : RingCompletion} {a : BarrierAction}

theorem client_of_mem_advance {token : BarrierToken}
    (h : a ∈ (rc.advance self token).2) : a.client = token.clientId := by
  unfold advance at h
  by_cases hsize : token.sentBy.size < self.nNodes
  · simp_all
  by_cases horigin : token.origin ≠ self.nodeId
  · simp_all
  by_cases hdone : (rc.client token.clientId).phase = .done <;> simp_all

theorem client_of_mem_reportSent {clientId : UUID} {sent : ShardCounts}
    (h : a ∈ (rc.reportSent self clientId sent).2) : a.client = clientId := by
  unfold reportSent at h
  split at h
  · cases h
  split at h
  · cases h
  · exact client_of_mem_advance h

theorem client_of_mem_onToken {token : BarrierToken}
    (h : a ∈ (rc.onToken self token).2) : a.client = token.clientId := by
  unfold onToken at h
  split at h
  · cases h
  · rw [client_of_mem_advance h, clientId_stampToken]

end Actions

/-! ## Lookups after each operation -/

@[simp] theorem client_put (rc : RingCompletion) (c x : UUID) (cl : Client) :
    (rc.put c cl).client x = if x = c then cl else rc.client x := by
  simp [client, put, Dict.getD_set]

@[simp] theorem aborted_put (rc : RingCompletion) (c : UUID) (cl : Client) :
    (rc.put c cl).aborted = rc.aborted := rfl

@[simp] theorem client_touch (rc : RingCompletion) (c x : UUID) :
    (rc.touch c).client x = rc.client x := by
  by_cases h : x = c <;> simp [touch, h]

@[simp] theorem isAborted_touch (rc : RingCompletion) (c x : UUID) :
    (rc.touch c).isAborted x = rc.isAborted x := rfl

@[simp] theorem isAborted_put (rc : RingCompletion) (c x : UUID)
    (cl : Client) : (rc.put c cl).isAborted x = rc.isAborted x := rfl

theorem isAborted_drop (rc : RingCompletion) (c x : UUID) :
    (rc.drop c).isAborted x = (decide (x = c) || rc.isAborted x) := by
  simp [isAborted, drop]

@[simp] theorem isAborted_new (c : UUID) : new.isAborted c = false := rfl

theorem client_drop (rc : RingCompletion) (c x : UUID) :
    (rc.drop c).client x = if x = c then .new else rc.client x := by
  simp [client, drop, Dict.getD_erase]

@[simp] theorem aborted_drop (rc : RingCompletion) (c : UUID) :
    (rc.drop c).aborted = insert c rc.aborted := rfl

@[simp] theorem client_new (c : UUID) : new.client c = .new := rfl

theorem mem_maybeLocalComplete {rc : RingCompletion} {c x : UUID} :
    x ∈ rc.maybeLocalComplete c ↔ x = c ∧ (rc.client c).ready = true := by
  unfold maybeLocalComplete
  split <;> simp_all

theorem nodup_maybeLocalComplete (rc : RingCompletion) (c : UUID) :
    (rc.maybeLocalComplete c).Nodup := by
  unfold maybeLocalComplete
  split <;> simp

theorem nodup_recheck (rc : RingCompletion) : rc.recheck.Nodup := by
  have hsub : ∀ ks : List UUID,
      (ks.flatMap rc.maybeLocalComplete).Sublist ks := by
    intro ks
    induction ks with
    | nil => simp
    | cons k ks ih =>
        rw [List.flatMap_cons]
        unfold maybeLocalComplete at ih ⊢
        split
        · exact ih.cons_cons k
        · exact ih.cons k
  exact rc.clients.keys_nodup.sublist (hsub _)

/-- What counting an input of a client does: nothing for an aborted client, else
a change of the counters, after which the client may be complete. -/
def Counts (rc : RingCompletion) (c : UUID) (r : RingCompletion × List UUID) :
    Prop :=
  r = (rc, []) ∨ rc.isAborted c = false ∧ ∃ cl : Client,
    cl.phase = (rc.client c).phase ∧ cl.sent = (rc.client c).sent ∧
      r = (rc.put c cl, (rc.put c cl).maybeLocalComplete c)

theorem counts_onData (rc : RingCompletion) (c : UUID) :
    rc.Counts c (rc.onData c) := by
  unfold onData
  split
  · exact Or.inl rfl
  · rename_i hab
    exact Or.inr ⟨by simpa using hab, { rc.client c with
      received := (rc.client c).received + 1 }, rfl, rfl, rfl⟩

theorem counts_onUpstreamEof (rc : RingCompletion) (c : UUID) (k : ℤ) :
    rc.Counts c (rc.onUpstreamEof c k) := by
  unfold onUpstreamEof
  split
  · exact Or.inl rfl
  · rename_i hab
    exact Or.inr ⟨by simpa using hab, { rc.client c with expected := k },
      rfl, rfl, rfl⟩

theorem Counts.eq_of_mem {rc : RingCompletion} {c x : UUID}
    {r : RingCompletion × List UUID} (h : rc.Counts c r) (hx : x ∈ r.2) : x = c := by
  rcases h with rfl | ⟨-, cl, -, -, rfl⟩
  · cases hx
  · exact (mem_maybeLocalComplete.mp hx).1

/-- `recheck` returns exactly the ready clients. -/
theorem mem_recheck {rc : RingCompletion} {c : UUID} :
    c ∈ rc.recheck ↔ (rc.client c).ready = true := by
  simp only [recheck, List.mem_flatMap, mem_maybeLocalComplete]
  constructor
  · rintro ⟨x, -, rfl, hready⟩
    exact hready
  · intro hready
    refine ⟨c, ?_, rfl, hready⟩
    by_contra hkey
    rw [client, Dict.getD, Dict.get?_eq_none_iff.mpr hkey] at hready
    simp at hready

theorem mem_resolvedClients {rc : RingCompletion} {c : UUID} :
    c ∈ rc.resolvedClients ↔ (rc.client c).phase ≠ .processing := by
  simp only [resolvedClients, List.mem_filter, decide_eq_true_eq]
  constructor
  · exact And.right
  · intro hphase
    refine ⟨?_, hphase⟩
    by_contra hkey
    rw [client, Dict.getD, Dict.get?_eq_none_iff.mpr hkey] at hphase
    simp at hphase

/-! ## Totals -/

theorem getD_addCounts (total counts : ShardCounts) (s : ℕ) :
    (addCounts total counts).getD s 0 =
      total.getD s 0 + counts.getD s 0 := by
  have fold : ∀ (es : List (ℕ × ℕ)) (total : ShardCounts),
      (es.map Prod.fst).Nodup →
      (es.foldl (fun total e => total.set e.1 (total.getD e.1 0 + e.2))
        total).getD s 0 = total.getD s 0 + (es.lookup s).getD 0 := by
    intro es
    induction es with
    | nil => simp
    | cons e es ih =>
        intro total hnodup
        obtain ⟨k, n⟩ := e
        rw [List.map_cons, List.nodup_cons] at hnodup
        rw [List.foldl_cons, ih _ hnodup.2, Dict.getD_set,
          Dict.lookup_cons_eq]
        by_cases hs : s = k
        · subst hs
          have hnone : es.lookup s = none := by
            cases hlook : es.lookup s with
            | none => rfl
            | some v =>
                have := (Dict.lookup_eq_some_iff hnodup.2).mp hlook
                exact absurd (List.mem_map.mpr ⟨_, this, rfl⟩) hnodup.1
          simp [hnone]
        · simp [hs]
  exact fold counts.entries total counts.nodup

/-- The total for one shard is the sum over the slots of the token. -/
theorem getD_sumSlots (sentBy : Dict ℕ ShardCounts) (s : ℕ) :
    (sumSlots sentBy).getD s 0 =
      (sentBy.entries.map fun e => e.2.getD s 0).sum := by
  have fold : ∀ (es : List (ℕ × ShardCounts)) (total : ShardCounts),
      (es.foldl (fun total e => addCounts total e.2) total).getD s 0 =
        total.getD s 0 + (es.map fun e => e.2.getD s 0).sum := by
    intro es
    induction es with
    | nil => simp
    | cons e es ih =>
        intro total
        rw [List.foldl_cons, ih, getD_addCounts, List.map_cons, List.sum_cons,
          Nat.add_assoc]
  rw [sumSlots, fold]
  simp

end RingCompletion
