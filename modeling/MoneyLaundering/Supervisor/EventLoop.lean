import MoneyLaundering.Gateway.Connection
import MoneyLaundering.Messages.RoundTrip
import MoneyLaundering.Supervisor.Election

/-!
# The event loop of a supervisor

One thread of a supervisor handles the losses of its leader and the connections of its peers.
Nothing in the loop catches what reading such a connection raises, so the first connection
that ends early or holds no message ends the thread, and nothing after it is handled.
-/

open Crash Messages

/-- A connection of a peer that the listener accepted: its socket, and whether `shutdown`
works on it. -/
structure PeerConnection where
  skt : Socket
  closes : Bool

/-- What the events thread takes from its queue. -/
inductive SupervisorEvent where
  /-- `LeaderDown`; the peers in `accepts` take the election. -/
  | leaderDown (accepts : SupervisorPeer → Bool)
  | peerConnection (conn : PeerConnection)

/-- The events thread. -/
structure EventWorker where
  node : SupervisorNode
  /-- The number of `LeaderDown`s that it put into its own queue. -/
  put : ℕ
  /-- What it took from the queue, newest first. -/
  taken : List SupervisorEvent

namespace EventWorker

variable {A : Type} (M : MsgPack A)

/-- A thread that has taken nothing. -/
def start (node : SupervisorNode) : EventWorker := ⟨node, 0, []⟩

/-- An exception that nothing catches. -/
def raised (w : EventWorker) : EventWorker := { w with node := { w.node with ended := true } }

/-- `deserialize_message(conn.recv())`. -/
def receive (conn : PeerConnection) : Option (Body A) := do
  let (raw, _) ← Connection.recv true conn.skt
  let msg ← deserializeMessage M raw
  return msg.body

/-- `_handle_new_leader`; a negative number is smaller than every id. -/
def handleClaim : ℤ → SupervisorNode.NodeM Unit
  | .ofNat claim => SupervisorNode.handleNewLeader claim
  | .negSucc _ => do
    let n ← Prog.read
    Prog.when (n.isLeader = true) (SupervisorNode.broadcastLeader .asLeader)

/-- What is done with a message of a peer. -/
def handleMessage (w : EventWorker) : Body A → EventWorker
  | .supervisorElection => { w with put := w.put + 1 }
  | .supervisorLeader m => { w with node := (handleClaim m.idx w.node).final }
  | _ => w

/-- `handle_peer_connection`. -/
def handlePeerConnection (conn : PeerConnection) (w : EventWorker) : EventWorker :=
  match receive M conn with
  | none => w.raised
  | some body =>
    let w := w.handleMessage body
    if conn.closes then w else w.raised

/-- Handle one event of the queue. -/
def handle (w : EventWorker) : SupervisorEvent → EventWorker
  | .leaderDown accepts =>
    { w with node := (SupervisorNode.handleLeaderDown accepts w.node).final }
  | .peerConnection conn => w.handlePeerConnection M conn

/-- One round of the loop. -/
def round (w : EventWorker) (event : SupervisorEvent) : EventWorker :=
  if w.node.ended then w else handle M { w with taken := event :: w.taken } event

/-- `_event_worker`, with the events in the order in which they come out of the queue. -/
def eventWorker (w : EventWorker) (events : List SupervisorEvent) : EventWorker :=
  events.foldl (round M) w

/-- A connection that is closed or reset before a message is complete, or that delivers what is
no message. -/
def bad : SupervisorEvent → Bool
  | .leaderDown _ => false
  | .peerConnection conn => (receive M conn).isNone

/-- Any other event. -/
def good (event : SupervisorEvent) : Bool := !bad M event

/-- What can be seen of the node: whom it follows, what it runs and broadcasts, the elections
that it queues, and the events that it handles, apart from bad connections. -/
structure Effect where
  leader : Option SupervisorPeer
  runtime : Option SupervisorRuntime
  announced : List (Announcement × Option SupervisorRuntime)
  put : ℕ
  handled : List SupervisorEvent

def effect (w : EventWorker) : Effect :=
  ⟨w.node.leader, w.node.runtime, w.node.announced, w.put, w.taken.filter (good M)⟩

/-- All events but the bad connections have the effect that they have without these. -/
def Unharmed (w : EventWorker) (events : List SupervisorEvent) : Prop :=
  effect M (w.eventWorker M events) = effect M (w.eventWorker M (events.filter (good M)))

variable {M} {w : EventWorker} {event : SupervisorEvent} {events : List SupervisorEvent}

/-! ## One event -/

theorem round_of_ended (h : w.node.ended = true) : w.round M event = w := if_pos h

theorem eventWorker_of_ended (h : w.node.ended = true) : w.eventWorker M events = w := by
  induction events with
  | nil => rfl
  | cons event events ih =>
      rw [eventWorker, List.foldl_cons, round_of_ended h]
      exact ih

theorem eventWorker_append (before : List SupervisorEvent) :
    w.eventWorker M (before ++ events) = (w.eventWorker M before).eventWorker M events :=
  List.foldl_append

/-- A bad connection ends the thread and has no other effect. -/
theorem round_of_bad (hbad : bad M event = true) :
    (w.round M event).node.ended = true ∧ effect M (w.round M event) = effect M w := by
  cases event with
  | leaderDown accepts => cases hbad
  | peerConnection conn =>
      have hgood : good M (.peerConnection conn) = false := by rw [good, hbad]; rfl
      have hnone : receive M conn = none := Option.isNone_iff_eq_none.mp hbad
      unfold round
      split
      · rename_i hended
        exact ⟨hended, rfl⟩
      · simp only [handle, handlePeerConnection, hnone]
        refine ⟨rfl, ?_⟩
        simp only [effect, raised, List.filter_cons, hgood]
        rfl

theorem taken_handle : (w.handle M event).taken = w.taken := by
  cases event with
  | leaderDown accepts => rfl
  | peerConnection conn =>
      have hmessage (body : Body A) : (w.handleMessage body).taken = w.taken := by
        cases body <;> rfl
      rw [handle, handlePeerConnection]
      cases receive M conn with
      | none => rfl
      | some body =>
          cases hcloses : conn.closes with
          | true => simpa [hcloses] using hmessage body
          | false => simpa [hcloses, raised] using hmessage body

/-- The events that were handled are never forgotten. -/
theorem taken_suffix (events : List SupervisorEvent) :
    w.taken <:+ (w.eventWorker M events).taken := by
  induction events generalizing w with
  | nil => exact List.suffix_refl _
  | cons event events ih =>
      have hround : w.taken <:+ (w.round M event).taken := by
        unfold round
        split
        · exact List.suffix_refl _
        · rw [taken_handle]
          exact List.suffix_cons _ _
      exact hround.trans ih

/-- A good event that is handled is seen. -/
theorem effect_ne_of_good (hrun : w.node.ended = false) (hgood : good M event = true) :
    effect M (w.eventWorker M (event :: events)) ≠ effect M w := by
  intro heq
  have hround : (w.round M event).taken = event :: w.taken := by
    rw [round, if_neg (by simp [hrun]), taken_handle]
  have hsuffix : event :: w.taken <:+ (w.eventWorker M (event :: events)).taken := by
    rw [← hround]
    exact taken_suffix events
  have hlength := (hsuffix.filter (good M)).length_le
  have hhandled : ((w.eventWorker M (event :: events)).taken.filter (good M)) =
      w.taken.filter (good M) := congrArg Effect.handled heq
  rw [hhandled, List.filter_cons_of_pos hgood, List.length_cons] at hlength
  omega

/-! ## The first bad connection -/

/-- The good events in the order of the queue, from the first bad connection on. -/
theorem filter_split (events : List SupervisorEvent) : events.filter (good M) =
    events.takeWhile (good M) ++ (events.dropWhile (good M)).filter (good M) := by
  have hsplit := congrArg (List.filter (good M)) (List.takeWhile_append_dropWhile
    (p := good M) (l := events))
  have hbefore : ∀ event ∈ events.takeWhile (good M), good M event = true :=
    List.all_eq_true.mp List.all_takeWhile
  rw [List.filter_append, List.filter_eq_self.mpr hbefore] at hsplit
  exact hsplit.symm

/-- Bad connections do no harm if and only if only bad connections come after the first of
them, or the thread had ended before it. -/
theorem unharmed_iff (M : MsgPack A) (w : EventWorker) (events : List SupervisorEvent) :
    Unharmed M w events ↔
      (w.eventWorker M (events.takeWhile (good M))).node.ended = true ∨
        ∀ event ∈ events.dropWhile (good M), bad M event = true := by
  have hrun : w.eventWorker M events =
      (w.eventWorker M (events.takeWhile (good M))).eventWorker M
        (events.dropWhile (good M)) := by
    rw [← eventWorker_append, List.takeWhile_append_dropWhile]
  rw [Unharmed, filter_split, eventWorker_append, hrun]
  generalize hbefore : w.eventWorker M (events.takeWhile (good M)) = before
  cases hended : before.node.ended with
  | true =>
      apply iff_of_true _ (Or.inl rfl)
      rw [eventWorker_of_ended hended, eventWorker_of_ended hended]
  | false =>
      rw [or_iff_right Bool.false_ne_true]
      cases hafter : events.dropWhile (good M) with
      | nil => simp
      | cons first rest =>
          have hfirst : bad M first = true := by
            have hhead := List.head?_dropWhile_not (good M) events
            rw [hafter] at hhead
            simpa [good] using hhead
          obtain ⟨hended', heffect⟩ := round_of_bad (w := before) hfirst
          have hstopped : effect M (before.eventWorker M (first :: rest)) = effect M before := by
            rw [eventWorker, List.foldl_cons]
            change effect M ((before.round M first).eventWorker M rest) = _
            rw [eventWorker_of_ended hended', heffect]
          rw [hstopped]
          constructor
          · intro heq
            by_contra hnot
            obtain ⟨event, hnot⟩ := not_forall.mp hnot
            obtain ⟨hevent, hgood⟩ := Classical.not_imp.mp hnot
            cases hgoods : (first :: rest).filter (good M) with
            | nil =>
                have hnone := List.filter_eq_nil_iff.mp hgoods event hevent
                exact hnone (by simpa [good] using hgood)
            | cons event' events' =>
                have hgood' : good M event' = true :=
                  List.of_mem_filter (hgoods ▸ List.mem_cons_self)
                rw [hgoods] at heq
                exact effect_ne_of_good hended hgood' heq.symm
          · intro hall
            rw [List.filter_eq_nil_iff.mpr fun event hevent => by simp [good, hall event hevent]]
            rfl

/-! ## A peer that connects and says nothing -/

/-- A connection that is closed at once. -/
def silent : PeerConnection := ⟨⟨[], by simp, .closed⟩, true⟩

theorem bad_silent (M : MsgPack A) : bad M (.peerConnection silent) = true := by
  have hfail : Connection.recv true silent.skt = none :=
    (Connection.recv_of_no_frame (by decide)).1
  simp [bad, receive, hfail]

/-- The loss of the leader is not handled after a peer has connected and closed the
connection: the node would have promoted itself, but it runs nothing. -/
theorem not_unharmed_silent :
    ((start (.start 2 [])).eventWorker (packing [] [] : MsgPack ℕ)
      [.peerConnection silent, .leaderDown fun _ => false]).node.runtime = none ∧
    ¬Unharmed (packing [] [] : MsgPack ℕ) (start (.start 2 []))
      [.peerConnection silent, .leaderDown fun _ => false] := by
  have hbad := bad_silent (packing [] [] : MsgPack ℕ)
  have hnone : receive (packing [] [] : MsgPack ℕ) silent = none :=
    Option.isNone_iff_eq_none.mp hbad
  have hstopped : (start (.start 2 [])).eventWorker (packing [] [] : MsgPack ℕ)
      [.peerConnection silent, .leaderDown fun _ => false] =
        ⟨{ SupervisorNode.start 2 [] with ended := true }, 0, [.peerConnection silent]⟩ := by
    simp [eventWorker, round, handle, handlePeerConnection, hnone, raised, start,
      SupervisorNode.start]
  have hfilter : List.filter (good (packing [] [] : MsgPack ℕ))
      [.peerConnection silent, .leaderDown fun _ => false] = [.leaderDown fun _ => false] := by
    rw [List.filter_cons, good, hbad]
    rfl
  have hleads : ((start (.start 2 [])).eventWorker (packing [] [] : MsgPack ℕ)
      [.leaderDown fun _ => false]).node.runtime = some .leaderRuntime := by decide
  rw [Unharmed, hfilter, hstopped]
  refine ⟨rfl, ?_⟩
  intro heq
  have hruntime := congrArg Effect.runtime heq
  rw [effect, effect, hleads] at hruntime
  cases hruntime

end EventWorker
