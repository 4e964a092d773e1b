import MoneyLaundering.Ring.BarrierSafety
import MoneyLaundering.Ring.EmittedNumbers
import MoneyLaundering.Ring.ReplaySafety

/-!
# The leader and its own emission

A full token closes the barrier of a client whatever the phase of the client at
the leader.  The leader is past its own emission then, unless a crash took the
emission back: a client that became complete by a data message is emitted and
reported before any checkpoint says so.
-/

open Crash

namespace AffinityRing

variable {Q F S E α β : Type} (R : AffinityRing Q F S E α β) (c : UUID)

/-- A process that takes over the checkpoint has the client past processing,
emits it before anything else, or ignores it, if the client was ever reported. -/
def Covered (m : Node Q F S E β) : Prop :=
  (∃ e ∈ m.log, e.isReport c = true) →
    (m.storedRc.client c).phase ≠ .processing ∨
      (m.storedRc.client c).ready = true ∨ m.storedRc.isAborted c = true

instance : DecidablePred (Covered (Q := Q) (F := F) (S := S) (E := E)
    (β := β) c) := fun m =>
  inferInstanceAs (Decidable ((∃ e ∈ m.log, e.isReport c = true) →
    (m.storedRc.client c).phase ≠ .processing ∨
      (m.storedRc.client c).ready = true ∨ m.storedRc.isAborted c = true))

/-- What the leader guarantees for a client: its barrier is closed by the leader
after the leader's own emission, and a node that has the client past processing
counts the numbers of its emission. -/
structure LeaderSafe (s : ℕ → Node Q F S E β) : Prop where
  closed : ∀ p ∈ R.ids, ∀ phase per, .closed c phase per ∈ (s p).log →
    p = R.leader ∧ phase = .emitted
  included : ∀ p ∈ R.ids, ((s p).rc.client c).phase ≠ .processing →
    Included (s p).state.seqs c (s p).log

/-! ## The invariant of the leader -/

/-- Barriers were closed after the emission only. -/
def ClosedEmitted (v : ClientView β) : Prop :=
  ∀ phase per, .closed c phase per ∈ v.log → phase = .emitted

/-- The leader has reported the client and would have to do it again. -/
structure LeaderOk (g : Stage) (v : ClientView β) : Prop where
  reported : ∀ sent, .reported c sent ∈ v.log → v.mem.phase ≠ .processing ∨
    v.aborted = true ∨ (g = .recovering ∧ v.mem.ready = true)
  closed : ClosedEmitted c v

/-- What a crash of the leader leaves. -/
structure LeaderDisk (v : ClientView β) : Prop where
  reported : ∀ sent, .reported c sent ∈ v.log → v.disk.phase ≠ .processing ∨
    v.disk.ready = true ∨ v.diskAborted = true
  closed : ClosedEmitted c v

variable {R c} {V : ℕ → ClientView β} {v : ClientView β} {p : ℕ} {g : Stage}

/-- An entry that is neither a report nor a closing. -/
theorem LeaderOk.logged (h : LeaderOk c g v) {e : Event β}
    (hreport : ∀ sent, e ≠ .reported c sent)
    (hclosed : ∀ phase per, e ≠ .closed c phase per) :
    LeaderOk c g (v.logged e) :=
  ⟨fun sent he => h.reported sent
      ((List.mem_cons.mp he).resolve_left fun heq => hreport sent heq.symm),
    fun phase per he => h.closed phase per
      ((List.mem_cons.mp he).resolve_left fun heq => hclosed phase per heq.symm)⟩

theorem LeaderOk.of_steady (h : LeaderOk c .steady v) : LeaderOk c g v := by
  refine ⟨fun sent he => (h.reported sent he).imp_right fun hr =>
    hr.imp_right ?_, h.closed⟩
  rintro ⟨hfalse, -⟩
  cases hfalse

/-- `_advance` of a leader that only closes after its own emission. -/
theorem LeaderOk.advance {self : Peer} (h : LeaderOk c .steady v)
    {t : BarrierToken} (htc : t.clientId = c)
    (hclose : self.nNodes ≤ t.sentBy.size → t.origin = self.nodeId →
      v.mem.phase ≠ .done → v.mem.phase = .emitted) :
    LeaderOk c g (v.advance self t).1 ∧
      ∀ t', .forward t' ∈ (v.advance self t).2 →
        LeaderOk c g ((v.advance self t).1.logged (.forward t')) := by
  have hpass : ∀ t', LeaderOk c g (v.logged (.forward t')) := fun t' =>
    h.of_steady.logged (by simp) (by simp)
  unfold ClientView.advance
  split
  · exact ⟨h.of_steady, fun t' _ => hpass t'⟩
  · rename_i hsize
    split
    · exact ⟨h.of_steady, fun t' _ => hpass t'⟩
    · rename_i horigin
      split
      · exact ⟨h.of_steady, by simp⟩
      · rename_i hdone
        have hemitted := hclose (not_lt.mp hsize) (not_not.mp horigin) hdone
        refine ⟨⟨fun _ _ => Or.inl (by simp [ClientView.logged]), ?_⟩, by simp⟩
        intro phase per he
        rcases List.mem_cons.mp he with heq | hold
        · cases heq
          exact hemitted
        · exact h.closed phase per hold

theorem LeaderOk.report {self : Peer} (h : LeaderOk c g v)
    (hphase : v.mem.phase = .processing) (sent : ShardCounts) :
    LeaderOk c .steady (v.reportSent self c sent).1 ∧
      ∀ t, .forward t ∈ (v.reportSent self c sent).2 →
        LeaderOk c .steady
          ((v.reportSent self c sent).1.logged (.forward t)) := by
  have hemitted : LeaderOk c .steady
      ((v.logged (.reported c sent)).markEmitted sent) := by
    refine ⟨fun _ _ => Or.inl (by simp [ClientView.markEmitted]), ?_⟩
    exact fun phase per he =>
      h.closed phase per ((List.mem_cons.mp he).resolve_left (by simp))
  unfold ClientView.reportSent
  have hphase' : ¬(v.logged (.reported c sent)).mem.phase ≠ .processing :=
    fun hne => hne hphase
  rw [if_neg hphase']
  split
  · exact ⟨hemitted, by simp⟩
  · exact hemitted.advance rfl fun _ _ _ => rfl

/-- A full token tells the leader of its own report, so it finds the leader past
its emission. -/
theorem LeaderOk.onToken (h : LeaderOk c .steady v) (hp : R.leader ∈ R.ids)
    (hholds : R.Holds c V R.leader .steady v) {t : BarrierToken}
    (hok : R.TokenOk c V t) (htc : t.clientId = c) :
    LeaderOk c .closing (v.onToken (R.node R.leader).self t).1 ∧
      ∀ t', .forward t' ∈ (v.onToken (R.node R.leader).self t).2 →
        LeaderOk c .closing
          ((v.onToken (R.node R.leader).self t).1.logged (.forward t')) := by
  unfold ClientView.onToken
  split
  · exact ⟨h.of_steady, by simp⟩
  rename_i hab
  have htc' : (v.stampToken (R.node R.leader).self t).clientId = c := by
    unfold ClientView.stampToken
    split <;> exact htc
  refine h.advance htc' fun hsize _ hdone => ?_
  by_contra hne
  have hphase : v.mem.phase = .processing := by
    cases hph : v.mem.phase with
    | processing => rfl
    | emitted => exact absurd hph hne
    | done => exact absurd hph hdone
  rw [ClientView.stampToken, if_pos hphase, self_nNodes hp] at hsize
  have hV : R.TokenOk c (Function.update V R.leader v) t := by
    have hsame : R.TokenOk c (Function.update V R.leader (V R.leader)) t := by
      rwa [Function.update_eq_self]
    exact hsame.later hholds.1.later
  have hopen : ¬Sealed (Function.update V R.leader v R.leader) := by
    rw [Function.update_self]
    intro hs
    rcases hholds.2.sealed rfl hs with hs | hs
    · exact hdone hs
    · exact hab hs
  obtain ⟨sent, hsent, -⟩ := hV.totals hopen hsize
  have hreported := hsent R.leader hp
  rw [Function.update_self] at hreported
  rcases h.reported _ hreported with hne' | hab' | ⟨hfalse, -⟩
  · exact hne' hphase
  · exact hab hab'
  · cases hfalse

/-- What holds of node `p` at the given stage of a handler. -/
def HoldsLeader (R : AffinityRing Q F S E α β) (c : UUID)
    (V : ℕ → ClientView β) (p : ℕ) (g : Stage) (v : ClientView β) : Prop :=
  R.Holds c V p g v ∧ (p = R.leader → LeaderOk c g v)

/-- What a crash of node `p` leaves. -/
def PersistsLeader (R : AffinityRing Q F S E α β) (c : UUID)
    (V : ℕ → ClientView β) (p : ℕ) (v : ClientView β) : Prop :=
  R.Persists c V p v ∧ (p = R.leader → LeaderDisk c v)

/-- The invariant of the leader is stable under everything a handler does. -/
theorem holdsLeader_rules (V : ℕ → ClientView β) (hp : p ∈ R.ids) :
    ViewRules (R.node p).self c (R.TokenOk c V) (R.HoldsLeader c V p)
      (R.PersistsLeader c V p) where
  counted v cl h hab hphase hsent := by
    refine ⟨(holds_rules V hp).counted v cl h.1 hab hphase hsent, fun hpl => ?_⟩
    refine ⟨fun sent he => ?_, (h.2 hpl).closed⟩
    rcases (h.2 hpl).reported sent he with hne | hab' | ⟨hfalse, -⟩
    · exact Or.inl fun hphase' => hne (hphase.symm.trans hphase')
    · exact Or.inr (Or.inl hab')
    · cases hfalse
  dropped v h := ⟨(holds_rules V hp).dropped v h.1,
    fun hpl => ⟨fun _ _ => Or.inr (Or.inl rfl), (h.2 hpl).closed⟩⟩
  reported g v sent hg h hab hphase := by
    obtain ⟨hnext, hforward⟩ :=
      (holds_rules V hp).reported g v sent hg h.1 hab hphase
    exact ⟨⟨hnext, fun hpl => ((h.2 hpl).report hphase sent).1⟩,
      fun t ht => ⟨hforward t ht, fun hpl =>
        ((h.2 hpl).report hphase sent).2 t ht⟩⟩
  token v t h hok htc := by
    obtain ⟨hnext, hforward⟩ := (holds_rules V hp).token v t h.1 hok htc
    have hleader : p = R.leader →
        LeaderOk c .closing (v.onToken (R.node p).self t).1 ∧
          ∀ t', .forward t' ∈ (v.onToken (R.node p).self t).2 →
            LeaderOk c .closing
              ((v.onToken (R.node p).self t).1.logged (.forward t')) := by
      rintro rfl
      exact (h.2 rfl).onToken hp h.1 hok htc
    exact ⟨⟨hnext, fun hpl => (hleader hpl).1⟩,
      fun t' ht => ⟨hforward t' ht, fun hpl => (hleader hpl).2 t' ht⟩⟩
  saved g v hg h := by
    refine ⟨(holds_rules V hp).saved g v hg h.1, fun hpl => ?_⟩
    refine ⟨fun sent he => ?_, (h.2 hpl).closed⟩
    rcases (h.2 hpl).reported sent he with hne | hab | ⟨hrec, -⟩
    · exact Or.inl hne
    · exact Or.inr (Or.inl hab)
    · exact absurd hrec hg
  alive v h hready := (holds_rules V hp).alive v h.1 hready
  settled v h hready := by
    refine ⟨(holds_rules V hp).settled v h.1 hready, fun hpl => ?_⟩
    refine ⟨fun sent he => ?_, (h.2 hpl).closed⟩
    rcases (h.2 hpl).reported sent he with hne | hab | ⟨-, hready'⟩
    · exact Or.inl hne
    · exact Or.inr (Or.inl hab)
    · simp [hready] at hready'
  restarted v h := by
    refine ⟨(holds_rules V hp).restarted v h.1, fun hpl => ⟨?_, ?_⟩⟩
    · exact fun sent he => (h.2 hpl).reported sent
        ((List.mem_cons.mp he).resolve_left (by simp))
    · exact fun phase per he => (h.2 hpl).closed phase per
        ((List.mem_cons.mp he).resolve_left (by simp))
  restored v h := by
    refine ⟨(holds_rules V hp).restored v h.1, fun hpl => ⟨?_, ?_⟩⟩
    · intro sent he
      rcases (h.2 hpl).reported sent
        ((List.mem_cons.mp he).resolve_left (by simp)) with hne | hr | hab
      · exact Or.inl hne
      · exact Or.inr (Or.inr ⟨rfl, hr⟩)
      · exact Or.inr (Or.inl hab)
    · exact fun phase per he => (h.2 hpl).closed phase per
        ((List.mem_cons.mp he).resolve_left (by simp))

/-! ## Runs -/

/-- The leader between two calls. -/
structure LeaderInv (c : UUID) (m : Node Q F S E β) : Prop where
  live : m.up = true → LeaderOk c .steady (m.view c)
  stored : m.up = false → LeaderDisk c (m.view c)

theorem LeaderInv.closed {m : Node Q F S E β} (h : LeaderInv c m) :
    ClosedEmitted c (m.view c) := by
  cases hup : m.up with
  | true => exact (h.live hup).closed
  | false => exact (h.stored hup).closed

variable {s : ℕ → Node Q F S E β}

/-- After a crash in which the checkpoint covers the client. -/
theorem leaderInv_reboot {m : Node Q F S E β} (hcovered : Covered c m)
    (hclosed : ClosedEmitted c (m.view c)) (C : Controller Q F S E α β)
    (k : UUID → ℕ → ℕ) : LeaderInv c (m.reboot C.provider k) := by
  refine ⟨fun hup => by simp [Machine.reboot] at hup, fun _ => ?_⟩
  rw [RingNode.view_reboot]
  refine ⟨fun sent he => ?_, hclosed⟩
  have hlog : Event.reported c sent ∈ m.log :=
    (Node.mem_view_log (by simp [Event.concerns])).mp he
  exact hcovered ⟨_, hlog, by simp [Event.isReport]⟩

theorem leaderInv_initial :
    LeaderInv c (R.initial p : Node Q F S E β) := by
  refine ⟨fun hup => by simp [initial, Machine.initial] at hup,
    fun _ => ⟨fun sent he => ?_, fun phase per he => ?_⟩⟩ <;>
    simp [initial, Machine.initial, Node.view, ClientView.of] at he

variable [DecidableEq Q]

/-- Wherever a call of node `p` is cut. -/
theorem spec_leader (h : R.BarrierInv c s)
    (hleader : LeaderInv c (s R.leader)) {crashable : Node Q F S E β → Prop}
    {call : RingNode.Call Q}
    (he : (RingNode.system (R.node p) (R.arrivals p) R.fifo
      crashable).enabled call (s p)) (hg : R.gate p call s) :
    Spec (fun t => t = s p)
      ((RingNode.system (R.node p) (R.arrivals p) R.fifo crashable).handler
        call)
      (fun _ t => p = R.leader → LeaderInv c t)
      (fun t => p = R.leader → ClosedEmitted c (t.view c)) := by
  obtain ⟨hp, hgate⟩ := hg
  refine (RingNode.spec_call (holdsLeader_rules (c := c) (views c s) hp)
    (fun v hv => ⟨⟨hv.1.1.of_mem v.mem v.aborted true,
      ⟨hv.1.2.sent, hv.1.2.aborted, hv.1.2.sealed, hv.1.2.notYet⟩⟩,
      fun hpl => ⟨(hv.2 hpl).reported, (hv.2 hpl).closed⟩⟩)
    (R.arrivals p) R.fifo call ?_).conseq ?_ ?_ ?_
  · rintro t rfl htc
    obtain ⟨q, hq, -, hlog⟩ := hgate
    refine h.globalOk.tokens q hq t ((Node.mem_view_log ?_).mpr hlog)
    simp [Event.concerns, htc]
  · rintro _ rfl
    have hidle := h.idle hp
    refine ⟨⟨fun hup => ⟨hidle.1 hup, ?_⟩,
      fun hdown => ⟨⟨(hidle.2 hdown).1, ?_⟩, (hidle.2 hdown).2⟩⟩, he⟩
    · rintro rfl
      exact hleader.live hup
    · rintro rfl
      exact hleader.stored hdown
  · rintro - m ⟨hholds, hup⟩ hpl
    refine ⟨fun _ => hholds.2 hpl, fun hdown => ?_⟩
    have : m.up = true := hup
    simp [this] at hdown
  · rintro m (⟨g, hholds⟩ | hper) hpl
    · exact (hholds.2 hpl).closed
    · exact (hper.2 hpl).closed

/-- The ring whose leader crashes only when its checkpoint covers the client. -/
abbrev coveredRuns (R : AffinityRing Q F S E α β) (c : UUID) :
    System Effect (ℕ → Node Q F S E β) (ℕ × RingNode.Call Q)
      (UUID → ℕ → ℕ) :=
  R.system fun p m => p = R.leader → Covered c m

theorem leaderInv_reach (h : (R.coveredRuns c).Reach R.initial s) :
    R.BarrierInv c s ∧ LeaderInv c (s R.leader) := by
  refine System.par_invariant
    (I := fun s => R.BarrierInv c s ∧ LeaderInv c (s R.leader))
    ⟨barrierInv_initial, leaderInv_initial⟩ ?_ ?_ h
  · rintro p call s ⟨hs, hl⟩ he hg
    refine ((spec_barrier hs he hg).and (spec_leader hs hl he hg)).conseq
      (fun _ h => ⟨h, h⟩) ?_ ?_
    · rintro - m ⟨hm, hm'⟩
      refine ⟨hm, ?_⟩
      by_cases hp : R.leader = p
      · subst hp
        rw [Function.update_self]
        exact hm' rfl
      · rwa [Function.update_of_ne hp]
    · rintro m ⟨hm, hclosed⟩ k hcovered
      refine ⟨hs.reboot hm k, ?_⟩
      by_cases hp : R.leader = p
      · subst hp
        rw [Function.update_self]
        exact leaderInv_reboot (hcovered rfl) (hclosed rfl) _ k
      · rwa [Function.update_of_ne hp]
  · rintro p call k s ⟨hs, hl⟩ hcovered
    refine ⟨hs.idleCrash p k, ?_⟩
    by_cases hp : R.leader = p
    · subst hp
      rw [Function.update_self]
      exact leaderInv_reboot (hcovered rfl) hl.closed _ k
    · rwa [Function.update_of_ne hp]

theorem closedEmitted_visits (h : (R.coveredRuns c).Visits R.initial s) :
    R.GlobalOk c (views c s) ∧ ClosedEmitted c ((s R.leader).view c) := by
  refine System.par_visits
    (I := fun s => R.BarrierInv c s ∧ LeaderInv c (s R.leader))
    (O := fun s => R.GlobalOk c (views c s) ∧
      ClosedEmitted c ((s R.leader).view c))
    (fun s hs => leaderInv_reach hs)
    (fun s hs => ⟨hs.1.globalOk, hs.2.closed⟩) ?_ h
  rintro p call s ⟨hs, hl⟩ he hg
  refine ((spec_barrier hs he hg).and (spec_leader hs hl he hg)).conseq
    (fun _ h => ⟨h, h⟩) (fun _ _ _ => trivial) ?_
  rintro m ⟨hm, hclosed⟩
  rw [views_update]
  refine ⟨hm.globalOk, ?_⟩
  by_cases hp : R.leader = p
  · subst hp
    rw [Function.update_self]
    exact hclosed rfl
  · rw [Function.update_of_ne hp]
    exact hl.closed

/-- The leader closes the barrier of the client, after its own emission. -/
theorem closed_visits (h : (R.coveredRuns c).Visits R.initial s) :
    ∀ p ∈ R.ids, ∀ phase per, .closed c phase per ∈ (s p).log →
      p = R.leader ∧ phase = .emitted := by
  obtain ⟨hglobal, hemitted⟩ := closedEmitted_visits h
  intro p hp phase per he
  have hview : Event.closed c phase per ∈ (views c s p).log :=
    (Node.mem_view_log (by simp [Event.concerns])).mpr he
  obtain ⟨rfl, -⟩ := hglobal.closed p hp phase per hview
  exact ⟨rfl, hemitted phase per hview⟩

/-- Leader safety.  In every run whose leader crashes only while its checkpoint
covers the client, the barrier of the client is closed after the leader's own
emission, and a node that has the client past processing counts the numbers of
its emission and never uses them again. -/
theorem leader_safety (R : AffinityRing Q F S E α β) (c : UUID)
    (hclass : ∀ p ∈ R.ids, NodeClass (R.node p)) (s : ℕ → Node Q F S E β)
    (h : (R.coveredRuns c).Visits R.initial s) : R.LeaderSafe c s := by
  have hclosed := closed_visits h
  refine ⟨hclosed, fun p hp hne => ?_⟩
  rcases (RingNode.accounted_visits (hclass p hp).emitsWhole
    (h.component p)).mem hne with hkept | ⟨per, he⟩
  · exact hkept.included
  · exact absurd (hclosed p hp _ per he).2 (by simp)

/-- Two aggregates; each reads the end-of-file of a client before its message. -/
def twoAggregates : AffinityRing Unit ℕ ℕ Unit ℕ ℕ where
  ids := [0, 1]
  nodup := nodup_two
  node p := ringAggregate ⟨Peer.ofIds p ([0, 1].erase p), 2,
    fun _ => BitVec.ofNat 128 (100 + p)⟩ 1 RingNode.totalAggregate false
  self_eq _ _ := rfl
  next p := 1 - p
  arrivals p _
    | 0 => some (.eof 7 1)
    | 1 => some (.data ⟨7, BitVec.ofNat 128 p, 1, 40 + p⟩)
    | 2 => some (.eof 8 1)
    | 3 => some (.data ⟨8, BitVec.ofNat 128 p, 2, 50 + p⟩)
    | _ => none
  fifo := true
  fn₀ _ := 0

/-- The token of client `7` as node `0` starts it, and as node `1` passes it
on. -/
def openedToken : BarrierToken := ⟨7, 0, Dict.empty.set 0 (Dict.empty.set 0 2)⟩

def filledToken : BarrierToken :=
  { openedToken with sentBy := openedToken.sentBy.set 1 (Dict.empty.set 0 2) }

/-- Both nodes complete client `7` by its message. -/
def emittingRun : List (System.Move (ℕ × RingNode.Call Unit)
    (UUID → ℕ → ℕ)) :=
  [.finish (0, .start), .finish (1, .start), .finish (0, .deliver ((), 0)),
    .finish (0, .deliver ((), 1)), .finish (1, .deliver ((), 0)),
    .finish (1, .deliver ((), 1)), .finish (1, .token openedToken)]

/-- The leader crashes before any checkpoint of its emission, the token is back
before the message, and then client `8` is emitted. -/
def uncoveredRun : List (System.Move (ℕ × RingNode.Call Unit)
    (UUID → ℕ → ℕ)) :=
  emittingRun ++ [.idleCrash (0, .start) (fun _ n => n), .finish (0, .start),
    .finish (0, .token filledToken), .finish (0, .deliver ((), 1)),
    .finish (0, .deliver ((), 2)), .finish (0, .deliver ((), 3))]

/-- The same crash after a checkpoint. -/
def coveredRun : List (System.Move (ℕ × RingNode.Call Unit)
    (UUID → ℕ → ℕ)) :=
  emittingRun ++ [.finish (0, .deliver ((), 2)),
    .idleCrash (0, .start) (fun _ n => n), .finish (0, .start),
    .finish (0, .token filledToken), .finish (0, .deliver ((), 3))]

/-- What the leader closed and what it sent. -/
def closedAndSent (s : ℕ → Node Unit ℕ ℕ Unit ℕ) :
    List (UUID × Phase) × List (UUID × ℕ × ℕ) :=
  ((s 0).log.filterMap fun
      | .closed x phase _ => some (x, phase)
      | _ => none,
    (s 0).log.filterMap fun
      | .data _ id x pl => some (x, id.2, pl)
      | _ => none)

/-- With the crash in between, the checkpoint covers the client: the barrier is
closed in the right phase and the numbers go on. -/
theorem leader_safety_coveredRun : ∃ s : ℕ → Node Unit ℕ ℕ Unit ℕ,
    (twoAggregates.coveredRuns 7).playAll coveredRun twoAggregates.initial =
      some s ∧
    closedAndSent s = ([(7, .emitted)],
      [(8, 4, 51), (8, 3, 50), (7, 2, 41), (7, 1, 40)]) ∧
    twoAggregates.LeaderSafe 7 s := by
  have hplays : ((twoAggregates.coveredRuns 7).playAll coveredRun
      twoAggregates.initial).map closedAndSent = some ([(7, .emitted)],
        [(8, 4, 51), (8, 3, 50), (7, 2, 41), (7, 1, 40)]) := by decide
  obtain ⟨s, hs, hobs⟩ := Option.map_eq_some_iff.mp hplays
  exact ⟨s, hs, hobs, leader_safety twoAggregates 7
    (fun p _ => .aggregate _ _ _ _) s
    (.idle s (System.reach_of_playAll hs))⟩

/-- A crash that the checkpoint does not cover: the barrier of client `7` is
closed while the leader is processing it, and client `8` is sent under the
numbers of client `7`. -/
theorem not_leaderSafe_uncoveredRun : ∃ s : ℕ → Node Unit ℕ ℕ Unit ℕ,
    twoAggregates.runs.Visits twoAggregates.initial s ∧
    closedAndSent s = ([(7, .processing)],
      [(8, 2, 91), (8, 1, 90), (7, 2, 41), (7, 1, 40)]) ∧
    ¬twoAggregates.LeaderSafe 7 s := by
  have hplays : (twoAggregates.runs.playAll uncoveredRun
      twoAggregates.initial).map closedAndSent = some ([(7, .processing)],
        [(8, 2, 91), (8, 1, 90), (7, 2, 41), (7, 1, 40)]) := by decide
  obtain ⟨s, hs, hobs⟩ := Option.map_eq_some_iff.mp hplays
  refine ⟨s, .idle s (System.reach_of_playAll hs), hobs, fun h => ?_⟩
  have hmem : ((7 : UUID), Phase.processing) ∈ (closedAndSent s).1 := by
    rw [hobs]
    exact List.mem_cons_self
  obtain ⟨e, he, heq⟩ := List.mem_filterMap.mp hmem
  cases e with
  | closed x phase per =>
      simp only [Option.some.injEq, Prod.mk.injEq] at heq
      obtain ⟨rfl, rfl⟩ := heq
      exact absurd (h.closed 0 (by decide) _ per he).2 (by simp)
  | _ => simp at heq

end AffinityRing
