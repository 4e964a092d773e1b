import MoneyLaundering.Support.Crash

/-!
# The election of the supervisors

A supervisor has no field that says that it leads: it takes itself for the leader
when it follows nobody and runs something.  The module follows the two fields
through the handlers of a node and shows when the inference is right.
-/

open Crash

/-- Another supervisor. -/
structure SupervisorPeer where
  idx : ℕ
  host : String
deriving DecidableEq

/-- What a supervisor runs. -/
inductive SupervisorRuntime where
  | leaderRuntime
  | replicaRuntime (leaderHost : String)
deriving DecidableEq

/-- Why a node announces itself. -/
inductive Announcement where
  /-- It takes itself for the leader. -/
  | asLeader
  /-- No greater peer answered its election, and it is about to promote itself. -/
  | elected
deriving DecidableEq

/-- One supervisor. -/
structure SupervisorNode where
  idx : ℕ
  peers : List SupervisorPeer
  runtime : Option SupervisorRuntime
  onElection : Bool
  leader : Option SupervisorPeer
  /-- Whether the event thread ended with an exception. -/
  ended : Bool
  /-- The `SupervisorLeader` broadcasts, newest first, each with the runtime that
  was current. -/
  announced : List (Announcement × Option SupervisorRuntime)
deriving DecidableEq

/-- The effects of a handler that the announcing thread may fall between. -/
inductive SupervisorEffect where
  | assign
  | changeRuntime
  | broadcast

namespace SupervisorNode

/-- A node that was just constructed. -/
def start (idx : ℕ) (peers : List SupervisorPeer) : SupervisorNode :=
  ⟨idx, peers, none, false, none, false, []⟩

/-- Programs of a node. -/
abbrev NodeM (A : Type) : Type := Prog SupervisorEffect SupervisorNode A

/-- `_is_leader`. -/
def isLeader (n : SupervisorNode) : Bool := n.leader.isNone && n.runtime.isSome

/-- An assignment to a field. -/
def assign (f : SupervisorNode → SupervisorNode) : NodeM Unit :=
  Prog.change .assign f

/-- Broadcast `SupervisorLeader(idx)` to every peer. -/
def broadcastLeader (a : Announcement) : NodeM Unit :=
  Prog.change .broadcast fun n =>
    { n with announced := (a, n.runtime) :: n.announced }

/-- Broadcast `SupervisorElection()` and count the peers that took it. -/
def broadcastElection (accepts : SupervisorPeer → Bool)
    (peers : List SupervisorPeer) : NodeM ℕ :=
  Prog.act .broadcast fun n => (peers.countP accepts, n)

/-- `_change_runtime`. -/
def changeRuntime (runtime : SupervisorRuntime) : NodeM Unit :=
  Prog.change .changeRuntime fun n => { n with runtime := some runtime }

/-- `_promote`. -/
def promote : NodeM Unit := changeRuntime .leaderRuntime

/-- `_downgrade`. -/
def downgrade (leaderHost : String) : NodeM Unit :=
  changeRuntime (.replicaRuntime leaderHost)

/-- The peers that an election is announced to. -/
def greaterPeers (n : SupervisorNode) : List SupervisorPeer :=
  n.peers.filter fun p => n.idx < p.idx

/-- One round of `_announce_worker`. -/
def announce : NodeM Unit := do
  let n ← Prog.read
  Prog.when (n.isLeader = true) (broadcastLeader .asLeader)

/-- `_handle_leader_down`, where the peers in `accepts` take the election. -/
def handleLeaderDown (accepts : SupervisorPeer → Bool) : NodeM Unit := do
  let n ← Prog.read
  if n.onElection then pure ()
  else if n.isLeader then broadcastLeader .asLeader
  else do
    assign fun n => { n with onElection := true }
    let acks ← broadcastElection accepts n.greaterPeers
    if acks > 0 then do
      assign fun n => { n with leader := none }
      assign fun n => { n with onElection := false }
    else do
      broadcastLeader .elected
      promote
      assign fun n => { n with leader := none }
      assign fun n => { n with onElection := false }

/-- `_handle_new_leader`.  A claim of an unknown peer raises in `next`, which ends
the event thread. -/
def handleNewLeader (claim : ℕ) : NodeM Unit := do
  let n ← Prog.read
  if claim ≤ n.idx then
    Prog.when (claim < n.idx ∧ n.isLeader = true) (broadcastLeader .asLeader)
  else if n.leader.any (fun p => decide (claim ≤ p.idx)) then pure ()
  else
    match n.peers.find? (fun p => p.idx = claim) with
    | none => assign fun n => { n with ended := true }
    | some p => do
      assign fun n => { n with leader := some ⟨claim, p.host⟩ }
      downgrade p.host
      assign fun n => { n with onElection := false }

/-! ## Runs -/

/-- What a node handles.  Elections of lower peers and the loss of the leader are
both a `leaderDown`. -/
inductive Input where
  | announce
  | leaderDown (accepts : SupervisorPeer → Bool)
  | newLeader (claim : ℕ)

/-- The program that serves an input. -/
def handler : Input → NodeM Unit
  | .announce => announce
  | .leaderDown accepts => handleLeaderDown accepts
  | .newLeader claim => handleNewLeader claim

/-- A node that handles the inputs allowed by `guard`, in any order, and may be
killed and started again at any point. -/
def system (guard : Input → SupervisorNode → Prop) :
    System SupervisorEffect SupervisorNode Input Unit where
  enabled i n := n.ended = false ∧ guard i n
  handler := handler
  crashable _ _ _ := True
  reboot _ _ n := { start n.idx n.peers with announced := n.announced }

/-- A node that takes itself for the leader runs a leader's runtime, and did so
whenever it announced itself as the leader. -/
structure Leads (n : SupervisorNode) : Prop where
  now : n.isLeader = true → n.runtime = some .leaderRuntime
  announced : ∀ r, (Announcement.asLeader, r) ∈ n.announced →
    r = some .leaderRuntime

/-- No greater peer takes an election that the node holds while it runs
something. -/
def Unanswered : Input → SupervisorNode → Prop
  | .leaderDown accepts, n =>
    n.isLeader = false → n.runtime ≠ none → n.greaterPeers.countP accepts = 0
  | _, _ => True

instance (i : Input) (n : SupervisorNode) : Decidable (Unanswered i n) := by
  cases i <;> unfold Unanswered <;> infer_instance

instance (i : Input) : DecidablePred ((system Unanswered).enabled i) := fun n =>
  inferInstanceAs (Decidable (n.ended = false ∧ Unanswered i n))

instance (i : Input) :
    DecidablePred ((system fun _ _ => True).enabled i) := fun n =>
  inferInstanceAs (Decidable (n.ended = false ∧ True))

instance (guard : Input → SupervisorNode → Prop) (i : Input) (k : Unit) :
    DecidablePred ((system guard).crashable i k) := fun _ =>
  inferInstanceAs (Decidable True)

/-! ## The invariant -/

/-- A node between two inputs: it holds no election and leads as it thinks, and a
leader follows nobody. -/
structure Settled (n : SupervisorNode) : Prop where
  leads : n.Leads
  following : n.runtime = some .leaderRuntime → n.leader = none
  idle : n.onElection = false

variable {n : SupervisorNode}

theorem Leads.of_eq {n' : SupervisorNode} (h : n.Leads)
    (hruntime : n'.runtime = n.runtime) (hleader : n'.leader = n.leader)
    (hannounced : n'.announced = n.announced) : n'.Leads := by
  have hsame : n'.isLeader = n.isLeader := by
    simp [isLeader, hruntime, hleader]
  constructor
  · intro hl
    rw [hruntime]
    exact h.now (hsame ▸ hl)
  · rw [hannounced]
    exact h.announced

/-- An announcement of a node that leads. -/
theorem Leads.announce (h : n.Leads) (hl : n.isLeader = true) :
    Leads { n with announced := (.asLeader, n.runtime) :: n.announced } := by
  constructor
  · exact h.now
  · intro r hr
    rcases List.mem_cons.mp hr with heq | hr
    · cases heq
      exact h.now hl
    · exact h.announced r hr

theorem spec_reassert (hl : n.isLeader = true) (h : n.Settled) :
    Spec (fun t => t = n) (broadcastLeader .asLeader) (fun _ => Settled)
      Leads := by
  apply Spec.change
  · rintro _ rfl
    exact h.leads
  · rintro _ rfl
    exact ⟨h.leads.announce hl, h.following, h.idle⟩

/-- An election that nobody greater takes promotes the node. -/
theorem spec_win (h : n.Settled) :
    Spec (fun t => t = { n with onElection := true })
      (do
        broadcastLeader .elected
        promote
        assign fun n => { n with leader := none }
        assign fun n => { n with onElection := false })
      (fun _ => Settled) Leads := by
  have hleads := h.leads
  have hwon : ∀ r, (Announcement.asLeader, r) ∈
      (Announcement.elected, n.runtime) :: n.announced →
        r = some .leaderRuntime := fun r hr =>
    hleads.announced r ((List.mem_cons.mp hr).resolve_left (by simp))
  apply Spec.bind (Q := fun _ t => t = { n with
    onElection := true, announced := (.elected, n.runtime) :: n.announced })
  · apply Spec.change
    · rintro _ rfl
      exact hleads.of_eq rfl rfl rfl
    · rintro _ rfl
      rfl
  intro _
  apply Spec.bind (Q := fun _ t => t = { n with
    onElection := true, runtime := some .leaderRuntime
    announced := (.elected, n.runtime) :: n.announced })
  · apply Spec.change
    · rintro _ rfl
      exact ⟨hleads.now, hwon⟩
    · rintro _ rfl
      rfl
  intro _
  apply Spec.bind (Q := fun _ t => t = { n with
    onElection := true, runtime := some .leaderRuntime, leader := none
    announced := (.elected, n.runtime) :: n.announced })
  · apply Spec.change
    · rintro _ rfl
      exact ⟨fun _ => rfl, hwon⟩
    · rintro _ rfl
      rfl
  intro _
  apply Spec.change
  · rintro _ rfl
    exact ⟨fun _ => rfl, hwon⟩
  · rintro _ rfl
    exact ⟨⟨fun _ => rfl, hwon⟩, fun _ => rfl, rfl⟩

/-- An election that a greater peer takes leaves the node without a leader; it
has to run nothing then. -/
theorem spec_lose (h : n.Settled) (hnone : n.runtime = none) :
    Spec (fun t => t = { n with onElection := true })
      (do
        assign fun n => { n with leader := none }
        assign fun n => { n with onElection := false })
      (fun _ => Settled) Leads := by
  have hquiet : ∀ b : Bool, Leads { n with leader := none, onElection := b } := by
    intro b
    constructor
    · intro hl
      simp [isLeader, hnone] at hl
    · exact h.leads.announced
  apply Spec.bind (Q := fun _ t => t =
    { n with onElection := true, leader := none })
  · apply Spec.change
    · rintro _ rfl
      exact h.leads.of_eq rfl rfl rfl
    · rintro _ rfl
      rfl
  intro _
  apply Spec.change
  · rintro _ rfl
    exact hquiet true
  · rintro _ rfl
    exact ⟨hquiet false, fun _ => rfl, rfl⟩

theorem spec_handleLeaderDown (accepts : SupervisorPeer → Bool)
    (h : n.Settled) (hguard : Unanswered (.leaderDown accepts) n) :
    Spec (fun t => t = n) (handleLeaderDown accepts) (fun _ => Settled)
      Leads := by
  apply Spec.read_at
  rw [h.idle, if_neg Bool.false_ne_true]
  cases hl : n.isLeader with
  | true =>
      rw [if_pos rfl]
      exact spec_reassert hl h
  | false =>
      rw [if_neg Bool.false_ne_true]
      apply Spec.bind (Q := fun _ t => t = { n with onElection := true })
      · apply Spec.change
        · rintro _ rfl
          exact h.leads
        · rintro _ rfl
          rfl
      intro _
      apply Spec.bind (Q := fun acks t =>
        acks = n.greaterPeers.countP accepts ∧ t = { n with onElection := true })
      · apply Spec.act
        · rintro _ rfl
          exact h.leads.of_eq rfl rfl rfl
        · rintro _ rfl
          exact ⟨rfl, rfl⟩
      intro acks
      apply Spec.of_pre
      intro hacks
      apply Spec.ite
      · intro hpos
        apply spec_lose h
        by_contra hruntime
        have := hguard hl hruntime
        omega
      · intro _
        exact spec_win h

/-- Following a greater peer. -/
theorem spec_follow (p : SupervisorPeer) (h : n.Settled) :
    Spec (fun t => t = n)
      (do
        assign fun n => { n with leader := some p }
        downgrade p.host
        assign fun n => { n with onElection := false })
      (fun _ => Settled) Leads := by
  have hfollow : ∀ (r : Option SupervisorRuntime) (b : Bool),
      Leads { n with leader := some p, runtime := r, onElection := b } := by
    intro r b
    constructor
    · intro hl
      simp [isLeader] at hl
    · exact h.leads.announced
  apply Spec.bind (Q := fun _ t => t = { n with leader := some p })
  · apply Spec.change
    · rintro _ rfl
      exact h.leads
    · rintro _ rfl
      rfl
  intro _
  apply Spec.bind (Q := fun _ t => t = { n with
    leader := some p, runtime := some (.replicaRuntime p.host) })
  · apply Spec.change
    · rintro _ rfl
      exact hfollow n.runtime n.onElection
    · rintro _ rfl
      rfl
  intro _
  apply Spec.change
  · rintro _ rfl
    exact hfollow _ _
  · rintro _ rfl
    exact ⟨hfollow _ _, by simp, rfl⟩

theorem spec_handleNewLeader (claim : ℕ) (h : n.Settled) :
    Spec (fun t => t = n) (handleNewLeader claim) (fun _ => Settled)
      Leads := by
  apply Spec.read_at
  apply Spec.ite
  · intro _
    apply Spec.when
    · intro hc
      exact spec_reassert hc.2 h
    · intro _ t ht
      exact ht ▸ h
  intro _
  apply Spec.ite
  · intro _
    exact Spec.pure fun t ht => ht ▸ h
  intro _
  split
  · apply Spec.change
    · rintro _ rfl
      exact h.leads
    · rintro _ rfl
      exact ⟨h.leads.of_eq rfl rfl rfl, h.following, h.idle⟩
  · rename_i p _
    exact spec_follow ⟨claim, p.host⟩ h

/-- Every input that the guard allows. -/
theorem spec_handler (i : Input) (h : n.Settled) (hguard : Unanswered i n) :
    Spec (fun t => t = n) (handler i) (fun _ => Settled) Leads := by
  cases i with
  | announce =>
      apply Spec.read_at
      apply Spec.when
      · intro hc
        exact spec_reassert hc h
      · intro _ t ht
        exact ht ▸ h
  | leaderDown accepts => exact spec_handleLeaderDown accepts h hguard
  | newLeader claim => exact spec_handleNewLeader claim h

/-! ## Runs in which followers win their elections -/

theorem settled_start (idx : ℕ) (peers : List SupervisorPeer) :
    (start idx peers).Settled := by
  constructor
  · constructor <;> simp [start, isLeader]
  · simp [start]
  · rfl

/-- A node that was started again knows nothing but its old announcements. -/
theorem Leads.reboot (h : n.Leads) :
    Settled { start n.idx n.peers with announced := n.announced } := by
  constructor
  · constructor
    · intro hl
      simp [start, isLeader] at hl
    · exact h.announced
  · simp [start]
  · rfl

theorem settled_reach {start : SupervisorNode} (hstart : start.Settled)
    (h : (system Unanswered).Reach start n) : n.Settled := by
  apply System.Reach.invariant hstart _ _ h
  · intro i s hs
    obtain ⟨hpoints, hfinal⟩ := spec_handler i hs.1 hs.2.2 s rfl
    constructor
    · intro p hp k _
      exact (hpoints p hp).reboot
    · exact hfinal
  · intro i k s hs _
    exact hs.leads.reboot

theorem leads_visits {start : SupervisorNode} (hstart : start.Settled)
    (h : (system Unanswered).Visits start n) : n.Leads := by
  apply h.property (fun s hs => settled_reach hstart hs) (fun s hs => hs.leads)
  intro i s hs
  obtain ⟨hpoints, -⟩ := spec_handler i hs.1 hs.2.2 s rfl
  exact ⟨hpoints, trivial⟩

/-! ## A follower whose election is taken -/

/-- An election that a greater peer takes ends with the node following nobody,
whatever it runs. -/
theorem handleLeaderDown_of_taken {accepts : SupervisorPeer → Bool}
    (hidle : n.onElection = false) (hl : n.isLeader = false)
    (htaken : 0 < n.greaterPeers.countP accepts) :
    (handleLeaderDown accepts n).final = { n with leader := none } := by
  have hpos : n.greaterPeers.countP accepts > 0 := htaken
  unfold handleLeaderDown broadcastElection assign
  simp [Prog.bind_apply, hidle, hl, hpos]

/-- An election that the node takes for won ends with its promotion. -/
theorem runtime_of_elected {accepts : SupervisorPeer → Bool}
    (h : (handleLeaderDown accepts n).final.announced =
      (.elected, n.runtime) :: n.announced) :
    (handleLeaderDown accepts n).final.runtime = some .leaderRuntime := by
  have hsame : n.announced ≠ (.elected, n.runtime) :: n.announced := by
    intro heq
    have := congrArg List.length heq
    simp at this
  unfold handleLeaderDown broadcastElection assign broadcastLeader promote
    changeRuntime at h ⊢
  cases hidle : n.onElection with
  | true => simp [Prog.bind_apply, hidle, hsame] at h
  | false =>
      cases hl : n.isLeader with
      | true => simp [Prog.bind_apply, hidle, hl] at h
      | false =>
          by_cases hacks : 0 < n.greaterPeers.countP accepts
          · simp [Prog.bind_apply, hidle, hl, hacks, hsame] at h
          · simp [Prog.bind_apply, hidle, hl, hacks]

theorem unanswered_of_leads {i : Input} (h : n.Settled)
    (hleads : (handler i n).final.Leads) : Unanswered i n := by
  cases i with
  | leaderDown accepts =>
      intro hl hruntime
      by_contra htaken
      have hfinal : (handler (.leaderDown accepts) n).final =
          { n with leader := none } :=
        handleLeaderDown_of_taken h.idle hl (Nat.pos_of_ne_zero htaken)
      rw [hfinal] at hleads
      have hsome : n.runtime.isSome = true :=
        Option.isSome_iff_ne_none.mpr hruntime
      have hruns : n.runtime = some .leaderRuntime := by
        apply hleads.now
        simp [isLeader, hsome]
      have hleader : n.isLeader = true := by
        simp [isLeader, h.following hruns, hsome]
      rw [hl] at hleader
      exact Bool.false_ne_true hleader
  | _ => trivial

/-- As long as no greater peer takes an election that the node holds while it runs
something, the node runs a leader's runtime whenever it takes itself for the
leader, and the first election of the other kind ends that.  What it announces
before it leads is followed by its promotion. -/
theorem leads_iff_unanswered (idx : ℕ) (peers : List SupervisorPeer) :
    (∀ n, (system Unanswered).Visits (start idx peers) n → n.Leads) ∧
    (∀ n i, (system Unanswered).Reach (start idx peers) n →
      ((handler i n).final.Leads ↔ Unanswered i n)) ∧
    ∀ n accepts, (handleLeaderDown accepts n).final.announced =
        (.elected, n.runtime) :: n.announced →
      (handleLeaderDown accepts n).final.runtime = some .leaderRuntime := by
  have hstart := settled_start idx peers
  refine ⟨fun n h => leads_visits hstart h, fun n i h => ?_, fun n accepts h =>
    runtime_of_elected h⟩
  have hsettled := settled_reach hstart h
  constructor
  · exact unanswered_of_leads hsettled
  · intro hguard
    exact (spec_handler i hsettled hguard n rfl).2.leads

/-- What a node announced, and what it runs. -/
def announcedAndRuntime (n : SupervisorNode) :
    List (Announcement × Option SupervisorRuntime) × Option SupervisorRuntime :=
  (n.announced, n.runtime)

/-- A node follows a greater peer, loses it, and wins the election. -/
theorem leads_iff_unanswered_wonRun : ∃ n : SupervisorNode,
    (system Unanswered).Visits (start 2 [⟨5, "supervisor_5"⟩]) n ∧
    n.announcedAndRuntime =
      ([(.asLeader, some .leaderRuntime),
        (.elected, some (.replicaRuntime "supervisor_5"))],
        some .leaderRuntime) ∧
    n.Leads := by
  have hplays : ((system Unanswered).playAll
      [.finish (.newLeader 5), .finish (.leaderDown fun _ => false),
        .finish .announce] (start 2 [⟨5, "supervisor_5"⟩])).map
      announcedAndRuntime =
      some ([(.asLeader, some .leaderRuntime),
        (.elected, some (.replicaRuntime "supervisor_5"))],
        some .leaderRuntime) := by decide
  obtain ⟨n, hn, hobs⟩ := Option.map_eq_some_iff.mp hplays
  have hvisits := System.Visits.idle (S := system Unanswered) n
    (System.reach_of_playAll hn)
  exact ⟨n, hvisits, hobs, (leads_iff_unanswered 2 _).1 n hvisits⟩

/-- The greater peer takes the election: the node follows nobody, keeps its
replica's runtime and answers the next loss of its leader, and every round of its
announcer, as a leader. -/
theorem not_leads_takenRun : ∃ n : SupervisorNode,
    (system fun _ _ => True).Visits (start 2 [⟨5, "supervisor_5"⟩]) n ∧
    n.announcedAndRuntime =
      ([(.asLeader, some (.replicaRuntime "supervisor_5")),
        (.asLeader, some (.replicaRuntime "supervisor_5"))],
        some (.replicaRuntime "supervisor_5")) ∧
    n.isLeader = true ∧ ¬n.Leads := by
  have hplays : ((system fun _ _ => True).playAll
      [.finish (.newLeader 5), .finish (.leaderDown fun _ => true),
        .finish (.leaderDown fun _ => true), .finish .announce]
      (start 2 [⟨5, "supervisor_5"⟩])).map
      (fun n => (n.announcedAndRuntime, n.isLeader)) =
      some (([(.asLeader, some (.replicaRuntime "supervisor_5")),
        (.asLeader, some (.replicaRuntime "supervisor_5"))],
        some (.replicaRuntime "supervisor_5")), true) := by decide
  obtain ⟨n, hn, hobs⟩ := Option.map_eq_some_iff.mp hplays
  rw [Prod.mk.injEq] at hobs
  refine ⟨n, .idle n (System.reach_of_playAll hn), hobs.1, hobs.2, ?_⟩
  intro h
  have hruntime := congrArg Prod.snd hobs.1
  rw [announcedAndRuntime, h.now hobs.2] at hruntime
  simp at hruntime

end SupervisorNode
