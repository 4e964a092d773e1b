import Mathlib.Data.List.MinMax
import MoneyLaundering.Supervisor.Election

/-!
# Following a leader

A supervisor follows greater ones only, and between two elections that it holds the one it
follows is the greatest that has claimed to lead.  This does not depend on who answers its
elections.
-/

open Crash

namespace SupervisorNode

/-- The node after an input. -/
def next (n : SupervisorNode) (i : Input) : SupervisorNode := (handler i n).final

/-- The node after some inputs. -/
def run (n : SupervisorNode) (is : List Input) : SupervisorNode := is.foldl next n

/-- The input makes the node hold an election. -/
def Elects (n : SupervisorNode) : Input → Prop
  | .leaderDown _ => n.onElection = false ∧ n.isLeader = false
  | _ => False

/-- The node holds no election while it handles some inputs. -/
def Undisturbed (n : SupervisorNode) : List Input → Prop
  | [] => True
  | i :: is => ¬n.Elects i ∧ Undisturbed (n.next i) is

/-- A claim is made by a member of the cluster. -/
def OfMember (idx : ℕ) (peers : List SupervisorPeer) : Input → Prop
  | .newLeader claim => claim = idx ∨ claim ∈ peers.map SupervisorPeer.idx
  | _ => True

/-- A claim that is greater than the id of the node. -/
def greaterClaim (idx : ℕ) : Input → Option ℕ
  | .newLeader claim => if idx < claim then some claim else none
  | _ => none

/-- The id of the node that is followed. -/
def followed (n : SupervisorNode) : Option ℕ := n.leader.map SupervisorPeer.idx

variable {n : SupervisorNode} {i : Input}

/-! ## What an input does -/

/-- What an input may do to a node: nothing but announcements, an election, or the adoption of
a greater leader. -/
inductive Change (n : SupervisorNode) (i : Input) : SupervisorNode → Prop
  | keeps (announced : List (Announcement × Option SupervisorRuntime)) (hquiet : ¬n.Elects i)
      (hclaim : ∀ claim, greaterClaim n.idx i = some claim →
        ∃ leader, n.followed = some leader ∧ claim ≤ leader) :
      Change n i { n with announced := announced }
  | elects (runtime : Option SupervisorRuntime)
      (announced : List (Announcement × Option SupervisorRuntime)) (helects : n.Elects i) :
      Change n i { n with leader := none, runtime := runtime, announced := announced }
  | adopts (claim : ℕ) (host : String) (hclaim : i = .newLeader claim) (hgreater : n.idx < claim)
      (hleader : ∀ leader, n.followed = some leader → leader < claim) :
      Change n i { n with
        leader := some ⟨claim, host⟩, runtime := some (.replicaRuntime host) }

theorem change_reassert (hquiet : ¬n.Elects i) (hclaim : greaterClaim n.idx i = none) (c : Prop)
    [Decidable c] : Change n i (Prog.when c (broadcastLeader .asLeader) n).final := by
  have hnone : ∀ claim, greaterClaim n.idx i = some claim →
      ∃ leader, n.followed = some leader ∧ claim ≤ leader := by
    intro claim hsome
    rw [hclaim] at hsome
    cases hsome
  unfold Prog.when
  split
  · exact .keeps _ hquiet hnone
  · exact .keeps n.announced hquiet hnone

theorem change_leaderDown (hidle : n.onElection = false) (accepts : SupervisorPeer → Bool) :
    Change n (.leaderDown accepts) (handleLeaderDown accepts n).final := by
  cases hl : n.isLeader with
  | true =>
      have hquiet : ¬n.Elects (.leaderDown accepts) := by
        intro h
        rw [h.2] at hl
        cases hl
      have hfinal : (handleLeaderDown accepts n).final =
          (Prog.when True (broadcastLeader .asLeader) n).final := by
        simp [handleLeaderDown, Prog.bind_apply, Prog.when, hidle, hl]
      rw [hfinal]
      exact change_reassert hquiet rfl True
  | false =>
      have helects : n.Elects (.leaderDown accepts) := ⟨hidle, hl⟩
      by_cases htaken : 0 < n.greaterPeers.countP accepts
      · rw [handleLeaderDown_of_taken hidle hl htaken]
        exact .elects n.runtime n.announced helects
      · have hfinal : (handleLeaderDown accepts n).final = { n with
            leader := none, runtime := some .leaderRuntime
            announced := (.elected, n.runtime) :: n.announced } := by
          unfold handleLeaderDown broadcastElection assign broadcastLeader promote changeRuntime
          simp [Prog.bind_apply, hidle, hl, htaken]
        rw [hfinal]
        exact .elects _ _ helects

theorem change_newLeader (hidle : n.onElection = false) {claim : ℕ}
    (hmember : OfMember n.idx n.peers (.newLeader claim)) :
    Change n (.newLeader claim) (handleNewLeader claim n).final := by
  have hquiet : ¬n.Elects (.newLeader claim) := id
  by_cases hle : claim ≤ n.idx
  · have hfinal : (handleNewLeader claim n).final = (Prog.when
        (claim < n.idx ∧ n.isLeader = true) (broadcastLeader .asLeader) n).final := by
      rw [handleNewLeader, Prog.bind_apply, Prog.read_apply, if_pos hle]
    rw [hfinal]
    apply change_reassert hquiet
    exact if_neg (Nat.not_lt.mpr hle)
  · have hgreater := Nat.lt_of_not_le hle
    cases hany : n.leader.any fun p => decide (claim ≤ p.idx) with
    | true =>
        have hfinal : (handleNewLeader claim n).final = { n with announced := n.announced } := by
          simp [handleNewLeader, Prog.bind_apply, hle, hany]
        rw [hfinal]
        apply Change.keeps _ hquiet
        intro claim' hclaim'
        obtain rfl : claim = claim' := by
          rw [greaterClaim, if_pos hgreater] at hclaim'
          exact Option.some.inj hclaim'
        obtain ⟨p, hp, hleader⟩ := (Option.any_eq_true _ _).mp hany
        exact ⟨p.idx, by rw [followed, hp, Option.map_some], of_decide_eq_true hleader⟩
    | false =>
        obtain ⟨p, hp⟩ : ∃ p, n.peers.find? (fun p => p.idx = claim) = some p := by
          rcases hmember with rfl | hmem
          · exact absurd hgreater (Nat.lt_irrefl _)
          · obtain ⟨p, hp, hidx⟩ := List.mem_map.mp hmem
            rw [← Option.isSome_iff_exists, List.find?_isSome]
            exact ⟨p, hp, decide_eq_true hidx⟩
        have hfinal : (handleNewLeader claim n).final = { n with
            leader := some ⟨claim, p.host⟩, runtime := some (.replicaRuntime p.host) } := by
          unfold handleNewLeader assign downgrade changeRuntime
          simp [Prog.bind_apply, hle, hany, hp, hidle]
        rw [hfinal]
        apply Change.adopts claim p.host rfl hgreater
        intro leader hleader
        obtain ⟨q, hq, rfl⟩ := Option.map_eq_some_iff.mp hleader
        have hnot := of_decide_eq_false ((Option.any_eq_false _ _).mp hany q hq)
        exact Nat.lt_of_not_le hnot

theorem change_next (hidle : n.onElection = false) (hmember : OfMember n.idx n.peers i) :
    Change n i (n.next i) := by
  cases i with
  | announce => exact change_reassert id rfl _
  | leaderDown accepts => exact change_leaderDown hidle accepts
  | newLeader claim => exact change_newLeader hidle hmember

/-! ## The invariant -/

/-- A node between two inputs: it follows greater nodes only, a leader follows nobody, and it
holds no election. -/
structure Upward (n : SupervisorNode) : Prop where
  above : ∀ leader, n.followed = some leader → n.idx < leader
  following : n.runtime = some .leaderRuntime → n.leader = none
  idle : n.onElection = false

theorem upward_start (idx : ℕ) (peers : List SupervisorPeer) : (start idx peers).Upward := by
  constructor <;> simp [start, followed]

theorem next_fixed (hidle : n.onElection = false) (hmember : OfMember n.idx n.peers i) :
    (n.next i).idx = n.idx ∧ (n.next i).peers = n.peers := by
  have hchange := change_next hidle hmember
  generalize n.next i = n' at hchange ⊢
  cases hchange <;> exact ⟨rfl, rfl⟩

theorem Upward.next (h : n.Upward) (hmember : OfMember n.idx n.peers i) : (n.next i).Upward := by
  have hchange := change_next h.idle hmember
  generalize n.next i = n' at hchange ⊢
  obtain - | - | ⟨claim, host, -, hgreater, -⟩ := hchange
  · exact ⟨h.above, h.following, h.idle⟩
  · refine ⟨?_, fun _ => rfl, h.idle⟩
    intro leader hleader
    cases hleader
  · refine ⟨?_, ?_, h.idle⟩
    · intro leader hleader
      obtain rfl : claim = leader := Option.some.inj hleader
      exact hgreater
    · intro hruntime
      cases hruntime

theorem run_cons (n : SupervisorNode) (i : Input) (is : List Input) :
    n.run (i :: is) = (n.next i).run is := rfl

theorem run_append (n : SupervisorNode) (is js : List Input) :
    n.run (is ++ js) = (n.run is).run js := List.foldl_append

/-- The invariant along a run, whose claims are made by members. -/
theorem Upward.run (h : n.Upward) {is : List Input}
    (hmembers : ∀ i ∈ is, OfMember n.idx n.peers i) :
    (n.run is).Upward ∧ (n.run is).idx = n.idx ∧ (n.run is).peers = n.peers := by
  induction is generalizing n with
  | nil => exact ⟨h, rfl, rfl⟩
  | cons i is ih =>
      have hmember := hmembers i List.mem_cons_self
      obtain ⟨hidx, hpeers⟩ := next_fixed h.idle hmember
      rw [run_cons, ← hidx, ← hpeers]
      apply ih (h.next hmember)
      intro j hj
      rw [hidx, hpeers]
      exact hmembers j (List.mem_cons_of_mem i hj)

/-! ## The greatest claim -/

/-- The claims that are greater than the id of the node. -/
def greaterClaims (idx : ℕ) (is : List Input) : List ℕ := is.filterMap (greaterClaim idx)

/-- A node that holds no election follows the greatest of the node that it follows and the
claims. -/
theorem followed_run (h : n.Upward) {is : List Input}
    (hmembers : ∀ i ∈ is, OfMember n.idx n.peers i) (hquiet : n.Undisturbed is) :
    (n.run is).followed = (n.followed.toList ++ greaterClaims n.idx is).max? := by
  induction is generalizing n with
  | nil =>
      change n.followed = (n.followed.toList ++ []).max?
      cases n.followed <;> rfl
  | cons i is ih =>
      have hmember := hmembers i List.mem_cons_self
      obtain ⟨hidx, hpeers⟩ := next_fixed h.idle hmember
      have hrun := ih (h.next hmember) (by
        intro j hj
        rw [hidx, hpeers]
        exact hmembers j (List.mem_cons_of_mem i hj)) hquiet.2
      rw [run_cons, hrun, hidx, greaterClaims, greaterClaims, List.filterMap_cons]
      have hchange := change_next h.idle hmember
      generalize n.next i = n' at hchange
      obtain ⟨announced, -, hclaim⟩ | ⟨runtime, announced, helects⟩ |
        ⟨claim, host, rfl, hgreater, hleader⟩ := hchange
      · change (n.followed.toList ++ _).max? = _
        cases hnone : greaterClaim n.idx i with
        | none => rfl
        | some claim =>
            obtain ⟨leader, hleader, hle⟩ := hclaim claim hnone
            simp only [hleader, Option.toList_some, List.singleton_append, List.max?_cons',
              List.foldl_cons, max_eq_left hle]
      · exact absurd helects hquiet.1
      · have hclaim : greaterClaim n.idx (.newLeader claim) = some claim := if_pos hgreater
        rw [hclaim]
        change ([claim] ++ _).max? = _
        cases hfollowed : n.followed with
        | none => rfl
        | some leader =>
            simp only [Option.toList_some, List.singleton_append, List.max?_cons',
              List.foldl_cons, max_eq_right (hleader leader hfollowed).le]

theorem followed_mono (h : n.Upward) {is : List Input}
    (hmembers : ∀ i ∈ is, OfMember n.idx n.peers i) (hquiet : n.Undisturbed is) {leader : ℕ}
    (hleader : n.followed = some leader) :
    ∃ leader', (n.run is).followed = some leader' ∧ leader ≤ leader' := by
  have hrun := followed_run h hmembers hquiet
  rw [hleader, Option.toList_some, List.singleton_append] at hrun
  obtain ⟨leader', hmax⟩ := Option.isSome_iff_exists.mp
    (List.isSome_max?_of_mem (List.mem_cons_self (a := leader) (l := greaterClaims n.idx is)))
  exact ⟨leader', hrun.trans hmax, (List.max?_eq_some_iff.mp hmax).2 leader List.mem_cons_self⟩

/-! ## Every run -/

/-- A leader becomes a replica if and only if the input is a greater claim. -/
theorem Upward.replaced_iff (h : n.Upward) (hmember : OfMember n.idx n.peers i)
    (hruntime : n.runtime = some .leaderRuntime) :
    (∃ host, (n.next i).runtime = some (.replicaRuntime host)) ↔
      ∃ claim, i = .newLeader claim ∧ n.idx < claim := by
  have hnone := h.following hruntime
  have hchange := change_next h.idle hmember
  generalize n.next i = n' at hchange ⊢
  obtain ⟨announced, -, hclaim⟩ | ⟨runtime, announced, helects⟩ |
    ⟨claim, host, hclaim, hgreater, -⟩ := hchange
  · apply iff_of_false
    · intro hreplica
      obtain ⟨host, hhost⟩ := hreplica
      rw [hruntime] at hhost
      cases hhost
    · intro hgreater
      obtain ⟨claim, rfl, hlt⟩ := hgreater
      obtain ⟨leader, hleader, -⟩ := hclaim claim (if_pos hlt)
      rw [followed, hnone] at hleader
      cases hleader
  · apply absurd helects
    cases i with
    | leaderDown accepts =>
        intro helects
        have hleads := helects.2
        rw [isLeader, hnone, hruntime] at hleads
        cases hleads
    | _ => exact id
  · exact iff_of_true ⟨host, rfl⟩ ⟨claim, hclaim, hgreater⟩

/-- A node follows another one. -/
def Follows (nodes : ℕ → SupervisorNode) (idx leader : ℕ) : Prop :=
  (nodes idx).followed = some leader

theorem follows_acyclic {nodes : ℕ → SupervisorNode}
    (h : ∀ idx leader, (nodes idx).followed = some leader → idx < leader) (idx : ℕ) :
    ¬Relation.TransGen (Follows nodes) idx idx := by
  have hlt {j k : ℕ} (hfollows : Relation.TransGen (Follows nodes) j k) : j < k := by
    induction hfollows with
    | single hjk => exact h _ _ hjk
    | tail _ hkl ih => exact ih.trans (h _ _ hkl)
  intro hcycle
  exact Nat.lt_irrefl idx (hlt hcycle)

/-- What holds between two points of a run, of which the node has reached the first: if it
holds no election between them, the node that it follows only ever changes for a greater
one, and it is the greatest that claimed to lead since the node followed nobody. -/
structure AdoptsGreatest (n : SupervisorNode) (after : List Input) : Prop where
  mono : ∀ leader, n.followed = some leader →
    ∃ leader', (n.run after).followed = some leader' ∧ leader ≤ leader'
  greatest : n.leader = none → (n.run after).followed = (greaterClaims n.idx after).max?

/-- In every cluster, whatever the supervisors handle and whoever answers their elections,
nodes follow greater ones, so that nobody follows itself through others; the greatest claim
since the last election is adopted; and a leader becomes a replica exactly at a greater
claim. -/
theorem adopts_upward (peers : ℕ → List SupervisorPeer) (inputs : ℕ → List Input)
    (hmembers : ∀ idx, ∀ i ∈ inputs idx, OfMember idx (peers idx) i) :
    (∀ idx leader, ((start idx (peers idx)).run (inputs idx)).followed = some leader →
      idx < leader) ∧
    (∀ idx, ¬Relation.TransGen
      (Follows fun idx => (start idx (peers idx)).run (inputs idx)) idx idx) ∧
    (∀ idx before after, inputs idx = before ++ after →
      ((start idx (peers idx)).run before).Undisturbed after →
        ((start idx (peers idx)).run before).AdoptsGreatest after) ∧
    ∀ idx before i after, inputs idx = before ++ i :: after →
      ((start idx (peers idx)).run before).runtime = some .leaderRuntime →
        ((∃ host, ((start idx (peers idx)).run (before ++ [i])).runtime =
            some (.replicaRuntime host)) ↔ ∃ claim, i = .newLeader claim ∧ idx < claim) := by
  have hrun (idx : ℕ) {before : List Input} (hbefore : ∀ i ∈ before, i ∈ inputs idx) :
      ((start idx (peers idx)).run before).Upward ∧
        ((start idx (peers idx)).run before).idx = idx ∧
        ((start idx (peers idx)).run before).peers = peers idx :=
    (upward_start idx (peers idx)).run fun i hi => hmembers idx i (hbefore i hi)
  have habove : ∀ idx leader,
      ((start idx (peers idx)).run (inputs idx)).followed = some leader → idx < leader := by
    intro idx leader hleader
    obtain ⟨hupward, hidx, -⟩ := hrun idx fun i hi => hi
    have hlt := hupward.above leader hleader
    rwa [hidx] at hlt
  refine ⟨habove, follows_acyclic habove, ?_, ?_⟩
  · intro idx before after hinputs hquiet
    obtain ⟨hupward, hidx, hpeers⟩ := hrun idx fun i hi =>
      hinputs ▸ List.mem_append_left after hi
    have hafter : ∀ i ∈ after, OfMember ((start idx (peers idx)).run before).idx
        ((start idx (peers idx)).run before).peers i := by
      intro i hi
      rw [hidx, hpeers]
      exact hmembers idx i (hinputs ▸ List.mem_append_right before hi)
    constructor
    · intro leader hleader
      exact followed_mono hupward hafter hquiet hleader
    · intro hnone
      rw [followed_run hupward hafter hquiet, hidx, followed, hnone]
      rfl
  · intro idx before i after hinputs hruntime
    obtain ⟨hupward, hidx, hpeers⟩ := hrun idx fun j hj =>
      hinputs.symm ▸ List.mem_append_left (i :: after) hj
    have hmember : OfMember idx (peers idx) i :=
      hmembers idx i (hinputs ▸ List.mem_append_right before List.mem_cons_self)
    rw [run_append]
    have hiff := hupward.replaced_iff (by rwa [hidx, hpeers]) hruntime
    rwa [hidx] at hiff

/-- A node wins an election and then adopts greater and greater leaders. -/
theorem adopts_upward_claims : ((start 2 [⟨5, "supervisor_5"⟩, ⟨7, "supervisor_7"⟩]).run
      [.leaderDown fun _ => false, .newLeader 5, .newLeader 7, .newLeader 5]).followed =
    some 7 := by
  obtain ⟨-, -, hgreatest, -⟩ := adopts_upward
    (fun _ => [⟨5, "supervisor_5"⟩, ⟨7, "supervisor_7"⟩])
    (fun _ => [.leaderDown fun _ => false, .newLeader 5, .newLeader 7, .newLeader 5])
    (fun idx i hi => by
      simp only [List.mem_cons, List.not_mem_nil, or_false] at hi
      rcases hi with rfl | rfl | rfl | rfl <;> simp [OfMember])
  exact (hgreatest 2 [.leaderDown fun _ => false] [.newLeader 5, .newLeader 7, .newLeader 5] rfl
    ⟨id, id, id, trivial⟩).greatest rfl

end SupervisorNode
