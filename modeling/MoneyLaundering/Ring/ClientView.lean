import MoneyLaundering.Ring.Node

/-!
# One client at one node

The completion protocol treats clients independently.  The view of a client keeps
its completion state in memory and in the checkpoint and the part of the history
that concerns it.  The module says what each part of a handler does to the view,
and from it what a whole handler does: a property of views that is stable under
the few steps listed in `ViewRules` holds throughout every handler.
-/

open Crash

namespace Event

variable {β : Type}

/-- The entries that matter to the barrier of a client. -/
def concerns (clientId : UUID) : Event β → Bool
  | .restarted => true
  | .forward token => decide (token.clientId = clientId)
  | .reported x _ => decide (x = clientId)
  | .closed x _ _ => decide (x = clientId)
  | _ => false

end Event

/-- The state of one client at one node. -/
structure ClientView (β : Type) where
  mem : Client
  aborted : Bool
  disk : Client
  diskAborted : Bool
  up : Bool
  log : List (Event β)

namespace ClientView

variable {β : Type}

/-- The view of a client, from the completion state in memory and in the
checkpoint. -/
def of (c : UUID) (rc stored : RingCompletion) (up : Bool)
    (log : List (Event β)) : ClientView β :=
  ⟨rc.client c, rc.isAborted c, stored.client c, stored.isAborted c, up,
    log.filter (Event.concerns c)⟩

/-- Append an entry to the history. -/
def logged (v : ClientView β) (e : Event β) : ClientView β :=
  { v with log := e :: v.log }

/-- The client is checkpointed as it is in memory. -/
def saved (v : ClientView β) : ClientView β :=
  { v with disk := v.mem, diskAborted := v.aborted }

/-- The process crashed. -/
def rebooted (v : ClientView β) : ClientView β :=
  { v with mem := .new, aborted := false, up := false }

/-- A new process took over the checkpoint. -/
def restored (v : ClientView β) : ClientView β :=
  { v with mem := v.disk, aborted := v.diskAborted }

/-- The client was aborted. -/
def dropped (v : ClientView β) : ClientView β :=
  { v with mem := .new, aborted := true }

/-- The client was emitted. -/
def markEmitted (v : ClientView β) (sent : ShardCounts) : ClientView β :=
  { v with mem := { v.mem with sent := sent, phase := .emitted } }

/-- Pass the token on, or close the barrier. -/
def advance (self : Peer) (v : ClientView β) (token : BarrierToken) :
    ClientView β × List BarrierAction :=
  if token.sentBy.size < self.nNodes then (v, [.forward token])
  else if token.origin ≠ self.nodeId then (v, [.forward token])
  else if v.mem.phase = .done then (v, [])
  else
    (({ v with mem := { v.mem with phase := .done } }).logged
        (.closed token.clientId v.mem.phase
          (RingCompletion.sumSlots token.sentBy)),
      [.downstreamEof token.clientId (RingCompletion.sumSlots token.sentBy)])

/-- The node reports the counts of the client. -/
def reportSent (self : Peer) (clientId : UUID) (sent : ShardCounts)
    (v : ClientView β) : ClientView β × List BarrierAction :=
  let v := v.logged (.reported clientId sent)
  if v.mem.phase ≠ .processing then (v, [])
  else if self.nodeId ≠ self.leader then (v.markEmitted sent, [])
  else
    advance self (v.markEmitted sent)
      (RingCompletion.firstToken self clientId sent)

/-- The token with the slot of this node, if it has emitted. -/
def stampToken (self : Peer) (v : ClientView β) (token : BarrierToken) :
    BarrierToken :=
  if v.mem.phase = .processing then token
  else { token with sentBy := token.sentBy.set self.nodeId v.mem.sent }

/-- A token of the client arrives. -/
def onToken (self : Peer) (token : BarrierToken) (v : ClientView β) :
    ClientView β × List BarrierAction :=
  if v.aborted then (v, [])
  else advance self v (stampToken self v token)

end ClientView

namespace Node

variable {Q F S E β : Type}

/-- The view of a client. -/
def view (c : UUID) (m : Node Q F S E β) : ClientView β :=
  .of c m.rc m.storedRc m.up m.log

theorem mem_view_log {c : UUID} {m : Node Q F S E β} {e : Event β}
    (he : e.concerns c = true) : e ∈ (m.view c).log ↔ e ∈ m.log := by
  simp [view, ClientView.of, he]

end Node

/-! ## What each part of a handler does to the view -/

namespace RingNode

variable {Q F S E α β : Type} {C : Controller Q F S E α β} {c x : UUID}
  {m : Node Q F S E β}

theorem view_logged (e : Event β) (c : UUID) (m : Node Q F S E β) :
    Node.view c (m.logged e) =
      if e.concerns c = true then (m.view c).logged e else m.view c := by
  change ClientView.of c m.rc m.storedRc m.up (e :: m.log) = _
  by_cases he : e.concerns c = true
  · simp [ClientView.of, ClientView.logged, Node.view, he]
  · simp [ClientView.of, Node.view, he]

theorem view_logged_of_not {e : Event β} (he : e.concerns c = false) :
    Node.view c (m.logged e) = m.view c := by
  simp [view_logged, he]

/-- A change of the providers that leaves the ring alone. -/
theorem view_withState {f : NodeState F E → NodeState F E}
    (hf : (f m.state).rc = m.rc) :
    Node.view c (m.withState f) = m.view c := by
  change ClientView.of c (f m.state).rc m.storedRc m.up m.log = _
  rw [hf]
  rfl

@[simp] theorem view_published (o : Output β) :
    Node.view c (published C x o m) = m.view c := by
  unfold published
  cases o.stamp with
  | none =>
      refine (view_logged_of_not ?_).trans (view_withState rfl)
      simp [Event.concerns]
  | some id =>
      refine view_logged_of_not ?_
      simp [Event.concerns]

@[simp] theorem view_takeResult :
    Node.view c (takeResult C x m).2 = m.view c :=
  view_withState rfl

/-- What `_advance` does: nothing to the state, or the close of the barrier. -/
theorem advance_cases (self : Peer) (rc : RingCompletion) (t : BarrierToken) :
    rc.advance self t = (rc, [.forward t]) ∨ rc.advance self t = (rc, []) ∨
      rc.advance self t =
        (rc.put t.clientId { rc.client t.clientId with phase := .done },
          [.downstreamEof t.clientId (RingCompletion.sumSlots t.sentBy)]) := by
  unfold RingCompletion.advance
  by_cases hsize : t.sentBy.size < self.nNodes
  · exact Or.inl (by simp [hsize])
  · by_cases horigin : t.origin = self.nodeId
    · by_cases hdone : (rc.client t.clientId).phase = .done
      · exact Or.inr (Or.inl (by simp [hsize, horigin, hdone]))
      · exact Or.inr (Or.inr (by simp [hsize, horigin, hdone]))
    · exact Or.inl (by simp [hsize, horigin])

/-- A barrier does not touch the view of another client. -/
theorem view_advance_of_ne {self : Peer} {rc : RingCompletion}
    {t : BarrierToken} {before stored : RingCompletion} {up : Bool}
    {log : List (Event β)} (h : c ≠ t.clientId) :
    ClientView.of c (rc.advance self t).1 stored up
        (closings before (rc.advance self t).2 ++ log) =
      ClientView.of c rc stored up log := by
  rcases advance_cases self rc t with heq | heq | heq <;> rw [heq]
  · rfl
  · rfl
  · have hc : ¬t.clientId = c := fun h' => h h'.symm
    simp [ClientView.of, closings, Event.concerns, h, hc]

/-- The barrier seen from the view of its client. -/
theorem view_advance (self : Peer) (rc before stored : RingCompletion)
    (up : Bool) (log : List (Event β)) (t : BarrierToken) (c : UUID)
    (hc : t.clientId = c)
    (hphase : (before.client c).phase = (rc.client c).phase) :
    let v := (ClientView.of c rc stored up log).advance self t
    v.2 = (rc.advance self t).2 ∧
      v.1 = ClientView.of c (rc.advance self t).1 stored up
        (closings before (rc.advance self t).2 ++ log) := by
  subst hc
  unfold ClientView.advance RingCompletion.advance
  by_cases hsize : t.sentBy.size < self.nNodes
  · simp [hsize, closings]
  · by_cases horigin : t.origin = self.nodeId
    · by_cases hdone : (rc.client t.clientId).phase = .done
      · simp [hsize, horigin, hdone, closings, ClientView.of]
      · simp [hsize, horigin, hdone, closings, ClientView.of,
          ClientView.logged, Event.concerns, hphase]
    · simp [hsize, horigin, closings]

theorem view_reportSent_of_ne (outs : List (Output β)) (h : c ≠ x) :
    Node.view c (reportSent C x outs m).2 = m.view c := by
  have hx : ¬x = c := fun h' => h h'.symm
  have hbase : ClientView.of c (m.rc.markEmitted x
      (C.sentCounts x outs m.state.extra).1) m.storedRc m.up
      (.reported x (C.sentCounts x outs m.state.extra).1 :: m.log) =
        m.view c := by
    simp [ClientView.of, Node.view, RingCompletion.markEmitted, h, hx,
      Event.concerns]
  change ClientView.of c
    (m.rc.reportSent C.self x (C.sentCounts x outs m.state.extra).1).1
    m.storedRc m.up (closings _ (m.rc.reportSent C.self x
      (C.sentCounts x outs m.state.extra).1).2 ++ _) = _
  unfold RingCompletion.reportSent
  by_cases hphase : (m.rc.client x).phase = .processing
  · by_cases hleader : C.self.nodeId = C.self.leader
    · rw [if_neg (by simpa using hphase), if_neg (by simpa using hleader),
        view_advance_of_ne (by simpa [RingCompletion.firstToken] using h)]
      exact hbase
    · rw [if_neg (by simpa using hphase), if_pos hleader]
      exact hbase
  · rw [if_pos hphase]
    simp [ClientView.of, Node.view, closings, hx, Event.concerns]

theorem view_reportSent (outs : List (Output β)) :
    let v := (m.view c).reportSent C.self c
      (C.sentCounts c outs m.state.extra).1
    (reportSent C c outs m).1 = v.2 ∧
      Node.view c (reportSent C c outs m).2 = v.1 := by
  have hbase : ClientView.of c (m.rc.markEmitted c
      (C.sentCounts c outs m.state.extra).1) m.storedRc m.up
      (.reported c (C.sentCounts c outs m.state.extra).1 :: m.log) =
        ((m.view c).logged (.reported c
          (C.sentCounts c outs m.state.extra).1)).markEmitted
            (C.sentCounts c outs m.state.extra).1 := by
    simp [ClientView.of, Node.view, RingCompletion.markEmitted,
      ClientView.markEmitted, ClientView.logged, Event.concerns]
  have hphase' : ((m.view c).logged (.reported c
      (C.sentCounts c outs m.state.extra).1)).mem.phase =
        (m.rc.client c).phase := rfl
  simp only [ClientView.reportSent, hphase']
  change (m.rc.reportSent C.self c _).2 = _ ∧ ClientView.of c
    (m.rc.reportSent C.self c (C.sentCounts c outs m.state.extra).1).1
    m.storedRc m.up (closings _ (m.rc.reportSent C.self c
      (C.sentCounts c outs m.state.extra).1).2 ++ _) = _
  unfold RingCompletion.reportSent
  by_cases hphase : (m.rc.client c).phase = .processing
  · by_cases hleader : C.self.nodeId = C.self.leader
    · simp only [hphase, hleader, ne_eq, not_true_eq_false, if_false]
      rw [← hbase]
      have := view_advance C.self
        (m.rc.markEmitted c (C.sentCounts c outs m.state.extra).1)
        (m.rc.markEmitted c (C.sentCounts c outs m.state.extra).1)
        m.storedRc m.up
        (.reported c (C.sentCounts c outs m.state.extra).1 :: m.log)
        (RingCompletion.firstToken C.self c
          (C.sentCounts c outs m.state.extra).1) c rfl rfl
      exact ⟨this.1.symm, this.2.symm⟩
    · simp only [hphase, hleader, ne_eq, not_true_eq_false, not_false_eq_true,
        if_false, if_true]
      exact ⟨trivial, hbase⟩
  · simp only [hphase, ne_eq, not_false_eq_true, if_true]
    simp [ClientView.of, Node.view, closings, Event.concerns,
      ClientView.logged]

theorem view_receiveToken_of_ne {t : BarrierToken} (h : c ≠ t.clientId) :
    Node.view c (receiveToken C t m).2 = m.view c := by
  change ClientView.of c (m.rc.onToken C.self t).1 m.storedRc m.up
    (closings _ (m.rc.onToken C.self t).2 ++ _) = _
  unfold RingCompletion.onToken
  by_cases hab : m.rc.isAborted t.clientId = true
  · simp [hab, closings, ClientView.of, Node.view]
  · rw [if_neg hab]
    refine (view_advance_of_ne (by simpa using h)).trans ?_
    simp [ClientView.of, Node.view]

theorem view_receiveToken {t : BarrierToken} (h : t.clientId = c) :
    let v := (m.view c).onToken C.self t
    (receiveToken C t m).1 = v.2 ∧
      Node.view c (receiveToken C t m).2 = v.1 := by
  subst h
  have hab' : (m.view t.clientId).aborted = m.rc.isAborted t.clientId := rfl
  simp only [ClientView.onToken, hab']
  change (m.rc.onToken C.self t).2 = _ ∧
    ClientView.of t.clientId (m.rc.onToken C.self t).1 m.storedRc m.up
      (closings _ (m.rc.onToken C.self t).2 ++ _) = _
  unfold RingCompletion.onToken
  by_cases hab : m.rc.isAborted t.clientId = true
  · simp [hab, closings, ClientView.of, Node.view]
  · rw [if_neg hab, if_neg hab]
    have hview : ClientView.of t.clientId (m.rc.touch t.clientId) m.storedRc
        m.up m.log = m.view t.clientId := by
      simp [ClientView.of, Node.view]
    have hstamp : RingCompletion.stampToken C.self m.rc t =
        (m.view t.clientId).stampToken C.self t := rfl
    have := view_advance C.self (m.rc.touch t.clientId) m.rc m.storedRc m.up
      m.log (RingCompletion.stampToken C.self m.rc t) t.clientId (by simp)
      (by simp)
    rw [hview] at this
    rw [← hstamp]
    exact ⟨this.1.symm, this.2.symm⟩

theorem view_restored {b : Blob (NodeSnapshot S E)} (hb : m.store = some b) :
    Node.view c (m.restored C.provider b) = (m.view c).restored := by
  have hstored : m.storedRc = b.state.rc := by
    simp [Node.storedRc, hb]
  change ClientView.of c b.state.rc m.storedRc m.up m.log = _
  simp only [ClientView.restored, Node.view, ClientView.of, hstored]

theorem view_reboot (k : UUID → ℕ → ℕ) :
    Node.view c (m.reboot C.provider k) = (m.view c).rebooted := rfl

/-- A report is answered with at most one action. -/
theorem length_reportSent_le (outs : List (Output β)) :
    (reportSent C x outs m).1.length ≤ 1 := by
  change (m.rc.reportSent C.self x _).2.length ≤ 1
  unfold RingCompletion.reportSent
  split
  · exact Nat.zero_le 1
  · split
    · exact Nat.zero_le 1
    · rcases advance_cases C.self (m.rc.markEmitted x
        (C.sentCounts x outs m.state.extra).1)
        (RingCompletion.firstToken C.self x
          (C.sentCounts x outs m.state.extra).1) with heq | heq | heq <;>
        simp [heq]

/-- So is a token. -/
theorem length_receiveToken_le (t : BarrierToken) :
    (receiveToken C t m).1.length ≤ 1 := by
  change (m.rc.onToken C.self t).2.length ≤ 1
  unfold RingCompletion.onToken
  split
  · exact Nat.zero_le 1
  · rcases advance_cases C.self (m.rc.touch t.clientId)
      (RingCompletion.stampToken C.self m.rc t) with heq | heq | heq <;>
      simp [heq]

/-- Every token that an emission sends is about the emitted client. -/
theorem clientId_of_forward_mem_reportSent {outs : List (Output β)}
    {t : BarrierToken}
    (h : .forward t ∈ (reportSent C x outs m).1) : t.clientId = x := by
  change _ ∈ (m.rc.reportSent C.self x _).2 at h
  unfold RingCompletion.reportSent at h
  split at h
  · simp at h
  · split at h
    · simp at h
    · rcases advance_cases C.self (m.rc.markEmitted x
        (C.sentCounts x outs m.state.extra).1)
        (RingCompletion.firstToken C.self x
          (C.sentCounts x outs m.state.extra).1) with heq | heq | heq <;>
        rw [heq] at h
      · obtain rfl : t = _ := by simpa using h
        rfl
      · simp at h
      · simp at h

/-- A node passes on a token for the client it received one for. -/
theorem clientId_of_forward_mem_receiveToken {t t' : BarrierToken}
    (h : .forward t' ∈ (receiveToken C t m).1) : t'.clientId = t.clientId := by
  change _ ∈ (m.rc.onToken C.self t).2 at h
  unfold RingCompletion.onToken at h
  split at h
  · simp at h
  · rcases advance_cases C.self (m.rc.touch t.clientId)
      (RingCompletion.stampToken C.self m.rc t) with heq | heq | heq <;>
      rw [heq] at h
    · obtain rfl : t' = _ := by simpa using h
      simp
    · simp at h
    · simp at h

end RingNode

/-! ## Properties of a view that handlers maintain -/

/-- Where a handler stands. -/
inductive Stage where
  /-- A new process has taken over a checkpoint and not re-emitted yet. -/
  | recovering
  | steady
  /-- A token was handled and the checkpoint is not written yet. -/
  | closing
deriving DecidableEq

/-- The steps under which a property `K` of the view of a client has to be stable
for handlers to maintain it.  `D` is what a crash leaves; `ok` are the tokens
that may arrive. -/
structure ViewRules {β : Type} (peer : Peer) (c : UUID)
    (ok : BarrierToken → Prop) (K : Stage → ClientView β → Prop)
    (D : ClientView β → Prop) : Prop where
  counted : ∀ v cl, K .steady v → v.aborted = false →
    cl.phase = v.mem.phase → cl.sent = v.mem.sent →
      K .steady { v with mem := cl }
  dropped : ∀ v, K .steady v → K .steady v.dropped
  reported : ∀ g v sent, g ≠ .closing → K g v → v.aborted = false →
    v.mem.phase = .processing →
      K .steady (v.reportSent peer c sent).1 ∧
        ∀ t, .forward t ∈ (v.reportSent peer c sent).2 →
          K .steady ((v.reportSent peer c sent).1.logged (.forward t))
  token : ∀ v t, K .steady v → ok t → t.clientId = c →
    K .closing (v.onToken peer t).1 ∧
      ∀ t', .forward t' ∈ (v.onToken peer t).2 →
        K .closing ((v.onToken peer t).1.logged (.forward t'))
  saved : ∀ g v, g ≠ .recovering → K g v → K .steady v.saved
  alive : ∀ v, K .recovering v → v.mem.ready = true → v.aborted = false
  settled : ∀ v, K .recovering v → v.mem.ready = false → K .steady v
  restarted : ∀ v, D v → D (v.logged .restarted)
  restored : ∀ v, D v → K .recovering (v.logged .restarted).restored

namespace RingNode

variable {Q F S E α β : Type} {C : Controller Q F S E α β}
  {c x : UUID} {K : Stage → ClientView β → Prop} {D O : ClientView β → Prop}
  {P R : ClientView β → Prop} {ok : BarrierToken → Prop}

/-- A property of the view of a client, as a property of the node. -/
abbrev On (c : UUID) (P : ClientView β → Prop) (m : Node Q F S E β) : Prop :=
  P (m.view c)

/-- What holds of the view wherever a handler may be cut. -/
def Seen (K : Stage → ClientView β → Prop) (D : ClientView β → Prop)
    (v : ClientView β) : Prop :=
  (∃ g, K g v) ∨ D v

/-! ### Parts that leave the view alone -/

theorem spec_change_frame {e : Effect} {f : Node Q F S E β → Node Q F S E β}
    (hf : ∀ m, (f m).view c = m.view c) (hO : ∀ v, P v → O v) :
    Spec (On c P) (Prog.change e f) (fun _ => On c P) (On c O) := by
  refine Spec.change (fun m hm => hO _ hm) fun m hm => ?_
  rw [On, hf]
  exact hm

theorem spec_modify_frame {f : Node Q F S E β → Node Q F S E β}
    (hf : ∀ m, (f m).view c = m.view c) :
    Spec (ε := Effect) (On c P) (Prog.modify f) (fun _ => On c P) (On c O) := by
  refine Spec.modify fun m hm => ?_
  rw [On, hf]
  exact hm

theorem spec_forEach_frame {B : Type} {f : B → NodeProg Q F S E β Unit}
    (bs : List B)
    (hf : ∀ b, Spec (On c P) (f b) (fun _ => On c P) (On c O)) :
    Spec (On c P) (Prog.forEach bs f) (fun _ => On c P) (On c O) :=
  Spec.forEach (I := fun _ => On c P) bs fun _ b _ _ => hf b

theorem spec_send_frame (o : Output β) (hO : ∀ v, P v → O v) :
    Spec (On c P) (send C x o) (fun _ => On c P) (On c O) :=
  spec_change_frame (fun _ => view_published o) hO

theorem spec_downstreamEof_frame (counts : ShardCounts)
    (hO : ∀ v, P v → O v) :
    Spec (On c P) (downstreamEof C x counts) (fun _ => On c P) (On c O) :=
  spec_forEach_frame _ fun _ =>
    spec_change_frame (fun _ => view_logged_of_not rfl) hO

theorem spec_downstreamAbort_frame (hO : ∀ v, P v → O v) :
    Spec (On c P) (downstreamAbort C x) (fun _ => On c P) (On c O) :=
  spec_forEach_frame _ fun _ =>
    spec_change_frame (fun _ => view_logged_of_not rfl) hO

theorem spec_free_frame (hO : ∀ v, P v → O v) :
    Spec (On c P) (free C x) (fun _ => On c P) (On c O) :=
  spec_change_frame
    (fun _ => (view_logged_of_not rfl).trans (view_withState rfl)) hO

theorem spec_discard_frame (hO : ∀ v, P v → O v) :
    Spec (On c P) (discard C x) (fun _ => On c P) (On c O) :=
  spec_change_frame (fun _ => view_withState rfl) hO

/-- The barrier of another client. -/
theorem spec_runBarrier_frame (actions : List BarrierAction)
    (hne : ∀ t, .forward t ∈ actions → t.clientId ≠ c)
    (hO : ∀ v, P v → O v) :
    Spec (On c P) (runBarrier C actions) (fun _ => On c P) (On c O) := by
  refine Spec.forEach (I := fun _ => On c P) actions ?_
  intro before a after hsplit
  cases a with
  | forward t =>
      have ht : t.clientId ≠ c := hne t (by simp [hsplit])
      refine spec_change_frame (fun _ => view_logged_of_not ?_) hO
      simp [Event.concerns, ht]
  | downstreamEof y counts => exact spec_downstreamEof_frame counts hO

/-- The emission of another client. -/
theorem spec_emit_frame (hx : c ≠ x) (hO : ∀ v, P v → O v) :
    Spec (On c P) (emit C x) (fun _ => On c P) (On c O) := by
  refine Spec.bind (spec_modify_frame fun _ => view_logged_of_not rfl)
    fun _ => ?_
  refine Spec.bind (Q := fun _ => On c P) (Spec.compute fun m hm => ?_)
    fun outs => ?_
  · rw [On, view_takeResult]
    exact hm
  refine Spec.bind (spec_forEach_frame outs fun o => spec_send_frame o hO)
    fun _ => ?_
  refine Spec.bind (Q := fun actions m =>
    (∀ t, .forward t ∈ actions → t.clientId ≠ c) ∧ On c P m)
    (Spec.compute fun m hm => ⟨?_, ?_⟩) fun actions => Spec.of_pre fun hne =>
      spec_runBarrier_frame actions hne hO
  · intro t ht
    rw [clientId_of_forward_mem_reportSent ht]
    exact hx.symm
  · rw [On, view_reportSent_of_ne outs hx]
    exact hm

/-! ### Checkpoints -/

variable [DecidableEq Q]

theorem spec_ack_frame (tag : Q × ℕ) (hO : ∀ v, P v → O v) :
    Spec (On c P) (Checkpointer.ack tag : NodeProg Q F S E β Unit)
      (fun _ => On c P) (On c O) :=
  spec_change_frame (fun _ => rfl) hO

/-- A flush, and in particular a forced one, saves the view. -/
theorem spec_flush_view {force : Bool} (hO : ∀ v, P v → O v)
    (hR : ∀ v, R v → O v) (hsave : ∀ v, P v → R v.saved)
    (hskip : force = false → ∀ v, P v → R v) :
    Spec (On c P) (Checkpointer.flush C.provider force :
      NodeProg Q F S E β Unit) (fun _ => On c R) (On c O) := by
  refine Checkpointer.spec_checkpointAndFlush (R := On c R) ?_ ?_ ?_ ?_
  · intro m hm _
    exact ⟨hO _ hm, hO _ hm, hsave _ hm⟩
  · intro m hm _ hforce
    exact hskip hforce _ hm
  · intro m tags rest hm _
    exact hR _ hm
  · intro m hm
    exact hm

/-! ### Emissions -/

/-- A client that may be emitted now. -/
def Emittable (v : ClientView β) : Prop :=
  v.aborted = false ∧ v.mem.phase = .processing

theorem emittable_of_ready {v : ClientView β} (hab : v.aborted = false)
    (h : v.mem.ready = true) : Emittable v :=
  ⟨hab, (Client.ready_iff.mp h).1⟩

omit [DecidableEq Q] in
/-- The barrier of the client itself: at most one token goes out. -/
theorem spec_runBarrier_self (actions : List BarrierAction)
    (hlen : actions.length ≤ 1)
    (hclient : ∀ t, .forward t ∈ actions → t.clientId = c)
    (hO : ∀ v, P v → O v) :
    Spec (fun m => On c P m ∧ ∀ t, .forward t ∈ actions →
        P ((m.view c).logged (.forward t)))
      (runBarrier C actions) (fun _ => On c P) (On c O) := by
  match actions, hlen with
  | [], _ => exact Spec.pure fun _ hm => hm.1
  | [.forward t], _ =>
      refine Spec.bind (Q := fun _ => On c P)
        (Spec.change (fun m hm => hO _ hm.1) ?_)
        fun _ => Spec.pure fun _ hm => hm
      rintro m ⟨-, hforward⟩
      have ht : (Event.forward t : Event β).concerns c = true := by
        simp [Event.concerns, hclient t]
      rw [On, view_logged, if_pos ht]
      exact hforward t (by simp)
  | [.downstreamEof y counts], _ =>
      refine Spec.bind (Q := fun _ => On c P)
        ((spec_downstreamEof_frame counts hO).pre fun _ hm => hm.1)
        fun _ => Spec.pure fun _ hm => hm

omit [DecidableEq Q] in
/-- The emission of the client itself. -/
theorem spec_emit_self (rules : ViewRules C.self c ok K D) {g : Stage}
    (hg : g ≠ .closing) :
    Spec (On c fun v => K g v ∧ Emittable v) (emit C c)
      (fun _ => On c (K .steady)) (On c (Seen K D)) := by
  have hO : ∀ v, K g v ∧ Emittable v → Seen K D v := fun v hv =>
    Or.inl ⟨g, hv.1⟩
  refine Spec.bind (spec_modify_frame fun _ => view_logged_of_not rfl)
    fun _ => ?_
  refine Spec.bind (Q := fun _ => On c fun v => K g v ∧ Emittable v)
    (Spec.compute fun m hm => ?_) fun outs => ?_
  · rw [On, view_takeResult]
    exact hm
  refine Spec.bind (spec_forEach_frame outs fun o => spec_send_frame o hO)
    fun _ => ?_
  refine Spec.bind (Q := fun actions m =>
      (actions.length ≤ 1 ∧ ∀ t, .forward t ∈ actions → t.clientId = c) ∧
        On c (K .steady) m ∧ ∀ t, .forward t ∈ actions →
          K .steady ((m.view c).logged (.forward t)))
    (Spec.compute ?_) fun actions => Spec.of_pre fun hactions =>
      spec_runBarrier_self actions hactions.1 hactions.2
        fun v hv => Or.inl ⟨.steady, hv⟩
  rintro m ⟨hK, hab, hphase⟩
  obtain ⟨hactions, hview⟩ := view_reportSent (C := C) (m := m) (c := c) outs
  obtain ⟨hnext, hforward⟩ := rules.reported g (m.view c)
    (C.sentCounts c outs m.state.extra).1 hg hK hab hphase
  refine ⟨⟨length_reportSent_le outs,
    fun t => clientId_of_forward_mem_reportSent⟩, ?_, ?_⟩
  · rw [On, hview]
    exact hnext
  · rw [hview, hactions]
    exact hforward

omit [DecidableEq Q] in
/-- The emission of a list of clients, where the client itself is emittable if it
is among them and steady already if it is not. -/
theorem spec_runEmits (rules : ViewRules C.self c ok K D) {g : Stage}
    (hg : g ≠ .closing) (xs : List UUID) (hnodup : xs.Nodup) :
    Spec (On c fun v => (c ∈ xs → K g v ∧ Emittable v) ∧
        (c ∉ xs → K .steady v))
      (runEmits C xs) (fun _ => On c (K .steady)) (On c (Seen K D)) := by
  induction xs with
  | nil => exact Spec.pure fun m hm => hm.2 (by simp)
  | cons x xs ih =>
      rw [List.nodup_cons] at hnodup
      by_cases hx : c = x
      · subst hx
        refine Spec.bind ((spec_emit_self rules hg).pre ?_) fun _ => ?_
        · exact fun m hm => hm.1 (by simp)
        · refine (ih hnodup.2).pre fun m hm => ?_
          exact ⟨fun hmem => absurd hmem hnodup.1, fun _ => hm⟩
      · refine Spec.bind (spec_emit_frame hx ?_) fun _ => ?_
        · intro v hv
          by_cases hmem : c ∈ x :: xs
          · exact Or.inl ⟨g, (hv.1 hmem).1⟩
          · exact Or.inl ⟨.steady, hv.2 hmem⟩
        · refine (ih hnodup.2).pre fun m hm => ?_
          have hiff : c ∈ x :: xs ↔ c ∈ xs := by simp [hx]
          rw [On, hiff] at hm
          exact hm

/-! ### Handlers -/

/-- Clients to emit after an input: none, or one that is steady and ready. -/
def Pending (K : Stage → ClientView β → Prop) (c : UUID) (emits : List UUID)
    (v : ClientView β) : Prop :=
  K .steady v ∧ (c ∈ emits → Emittable v)

theorem Pending.runEmits {emits : List UUID} {v : ClientView β}
    (h : Pending K c emits v) :
    (c ∈ emits → K .steady v ∧ Emittable v) ∧ (c ∉ emits → K .steady v) :=
  ⟨fun hmem => ⟨h.1, h.2 hmem⟩, fun _ => h.1⟩

omit [DecidableEq Q] in
/-- Counting a message or an announcement of a client. -/
theorem pending_onRing (rules : ViewRules C.self c ok K D)
    {f : RingCompletion → RingCompletion × List UUID} {m : Node Q F S E β}
    (hf : m.rc.Counts x (f m.rc)) (hm : K .steady (m.view c)) :
    (onRing f m).1.Nodup ∧ Pending K c (onRing f m).1 ((onRing f m).2.view c) := by
  have hview : (onRing f m).2.view c =
      ClientView.of c (f m.rc).1 m.storedRc m.up m.log := rfl
  have hemits : (onRing f m).1 = (f m.rc).2 := rfl
  rw [hview, hemits]
  rcases hf with heq | ⟨hab, cl, hphase, hsent, heq⟩ <;> rw [heq]
  · exact ⟨List.nodup_nil, hm, by simp⟩
  refine ⟨RingCompletion.nodup_maybeLocalComplete _ _, ?_⟩
  by_cases hx : c = x
  · subst hx
    have hcounted : ClientView.of c (m.rc.put c cl) m.storedRc m.up m.log =
        { m.view c with mem := cl } := by
      simp [ClientView.of, Node.view]
    rw [hcounted]
    refine ⟨rules.counted _ cl hm hab hphase hsent, fun hmem => ?_⟩
    have hready := (RingCompletion.mem_maybeLocalComplete.mp hmem).2
    rw [RingCompletion.client_put, if_pos rfl] at hready
    exact emittable_of_ready (v := { m.view c with mem := cl }) hab hready
  · have hframe : ClientView.of c (m.rc.put x cl) m.storedRc m.up m.log =
        m.view c := by
      simp [ClientView.of, Node.view, hx]
    rw [hframe]
    refine ⟨hm, fun hmem => ?_⟩
    exact absurd (RingCompletion.mem_maybeLocalComplete.mp hmem).1 hx

theorem spec_handleData_view (rules : ViewRules C.self c ok K D)
    (tag : Q × ℕ) (msg : DataMsg α) :
    Spec (On c (K .steady))
      (Checkpointer.handleData C.provider C.checkpointEvery tag msg
        (onData C tag.1 msg))
      (fun _ => On c (K .steady)) (On c (Seen K D)) := by
  have hO : ∀ v, K .steady v → Seen K D v := fun v hv => Or.inl ⟨.steady, hv⟩
  refine Checkpointer.spec_handleData (R := On c (K .steady)) ?_ ?_ ?_ ?_ ?_
  · exact fun m hm _ => ⟨hO _ hm, hm⟩
  · exact fun m hm _ _ => ⟨hO _ hm, hm⟩
  · refine Spec.bind ((spec_modify_frame fun _ => view_withState rfl).pre
      fun m hm => hm.1) fun _ => ?_
    refine Spec.bind (spec_forEach_frame _ fun o => ?_) fun _ => ?_
    · exact Spec.bind (spec_send_frame o hO)
        fun _ => spec_modify_frame fun _ => view_withState rfl
    refine Spec.bind (Q := fun emits m => emits.Nodup ∧
      On c (Pending K c emits) m) (Spec.compute fun m hm => ?_)
      fun emits => Spec.of_pre fun hnodup => ?_
    · exact pending_onRing rules (RingCompletion.counts_onData _ _) hm
    · exact (spec_runEmits rules (g := .steady) (by decide) emits hnodup).pre
        fun m hm => hm.runEmits
  · exact (spec_flush_view hO hO (fun v hv => rules.saved _ v (by decide) hv)
      fun _ v hv => hv).pre fun m hm => hm.1
  · exact fun m hm _ => hm

theorem spec_onEof_view (rules : ViewRules C.self c ok K D) (q : Q)
    (x : UUID) (expected : ℤ) :
    Spec (On c (K .steady)) (onEof C q x expected)
      (fun _ => On c (K .steady)) (On c (Seen K D)) := by
  have hO : ∀ v, K .steady v → Seen K D v := fun v hv => Or.inl ⟨.steady, hv⟩
  have hsave : ∀ v, K .steady v → K .steady v.saved :=
    fun v hv => rules.saved _ v (by decide) hv
  refine Spec.bind (Q := fun emits m => emits.Nodup ∧
    On c (Pending K c emits) m) (Spec.compute fun m hm => ?_)
    fun emits => Spec.of_pre fun hnodup => ?_
  · have hnoted : K .steady (Node.view c (m.withState fun s =>
        { s with extra := (C.noteEof q x expected m.state.extra).2 })) := by
      rw [view_withState rfl]
      exact hm
    unfold noteEof
    cases htotal : (C.noteEof q x expected m.state.extra).1 with
    | none =>
        simp only [htotal]
        exact ⟨List.nodup_nil, hnoted, by simp⟩
    | some total =>
        simp only [htotal]
        exact pending_onRing rules
          (RingCompletion.counts_onUpstreamEof _ x total) hnoted
  · refine Spec.bind (Q := fun _ => On c (Pending K c emits))
      (Spec.when (fun _ => ?_) fun _ _ hm => hm) fun _ => ?_
    · refine spec_flush_view (fun v hv => hO v hv.1) (fun v hv => hO v hv.1)
        (fun v hv => ⟨hsave v hv.1, hv.2⟩) fun _ v hv => hv
    refine Spec.bind ((spec_runEmits rules (g := .steady) (by decide) emits
      hnodup).pre fun m hm => hm.runEmits) fun _ => ?_
    refine Spec.bind (spec_flush_view hO hO hsave fun _ v hv => hv)
      fun _ => ?_
    exact spec_forEach_frame emits fun y => spec_free_frame hO

theorem spec_onAbort_view (rules : ViewRules C.self c ok K D) (x : UUID) :
    Spec (On c (K .steady)) (onAbort C x)
      (fun _ => On c (K .steady)) (On c (Seen K D)) := by
  have hO : ∀ v, K .steady v → Seen K D v := fun v hv => Or.inl ⟨.steady, hv⟩
  refine Spec.bind (Q := fun _ => On c (K .steady)) (Spec.modify ?_)
    fun _ => ?_
  · intro m hm
    have hview : Node.view c
        (m.withState fun s => { s with rc := s.rc.drop x }) =
          ClientView.of c (m.rc.drop x) m.storedRc m.up m.log := rfl
    rw [On, hview]
    by_cases hx : c = x
    · subst hx
      have hdrop : ClientView.of c (m.rc.drop c) m.storedRc m.up m.log =
          (m.view c).dropped := by
        simp [ClientView.of, ClientView.dropped, Node.view,
          RingCompletion.client_drop, RingCompletion.isAborted_drop]
      rw [hdrop]
      exact rules.dropped _ hm
    · have hframe : ClientView.of c (m.rc.drop x) m.storedRc m.up m.log =
          m.view c := by
        simp [ClientView.of, Node.view, RingCompletion.client_drop,
          RingCompletion.isAborted_drop, hx]
      rw [hframe]
      exact hm
  refine Spec.bind (spec_discard_frame hO) fun _ => ?_
  refine Spec.bind (spec_modify_frame fun _ => rfl) fun _ => ?_
  refine Spec.bind (spec_flush_view hO hO
    (fun v hv => rules.saved _ v (by decide) hv) fun _ v hv => hv) fun _ => ?_
  exact spec_downstreamAbort_frame hO

theorem spec_onRingMsg_view (rules : ViewRules C.self c ok K D)
    (t : BarrierToken) (ht : t.clientId = c → ok t) :
    Spec (On c (K .steady)) (onRingMsg C t)
      (fun _ => On c (K .steady)) (On c (Seen K D)) := by
  have hO : ∀ g v, K g v → Seen K D v := fun g v hv => Or.inl ⟨g, hv⟩
  by_cases hc : t.clientId = c
  · refine Spec.bind (Q := fun actions m =>
      (actions.length ≤ 1 ∧ ∀ t', .forward t' ∈ actions → t'.clientId = c) ∧
        On c (K .closing) m ∧ ∀ t', .forward t' ∈ actions →
          K .closing ((m.view c).logged (.forward t')))
      (Spec.compute fun m hm => ?_) fun actions => Spec.of_pre fun h => ?_
    · obtain ⟨hactions, hview⟩ := view_receiveToken (C := C) (m := m) hc
      obtain ⟨hnext, hforward⟩ := rules.token (m.view c) t hm (ht hc) hc
      refine ⟨⟨length_receiveToken_le t, fun t' h =>
        (clientId_of_forward_mem_receiveToken h).trans hc⟩, ?_, ?_⟩
      · rw [On, hview]
        exact hnext
      · rw [hview, hactions]
        exact hforward
    · refine Spec.bind (spec_runBarrier_self actions h.1 h.2 (hO _))
        fun _ => ?_
      exact spec_flush_view (hO _) (hO _)
        (fun v hv => rules.saved _ v (by decide) hv) (by simp)
  · refine Spec.bind (Q := fun actions m =>
      (∀ t', .forward t' ∈ actions → t'.clientId ≠ c) ∧ On c (K .steady) m)
      (Spec.compute fun m hm => ⟨?_, ?_⟩) fun actions => Spec.of_pre fun h => ?_
    · intro t' h
      rw [clientId_of_forward_mem_receiveToken h]
      exact hc
    · rw [On, view_receiveToken_of_ne fun h => hc h.symm]
      exact hm
    · refine Spec.bind (spec_runBarrier_frame actions h (hO _)) fun _ => ?_
      exact spec_flush_view (hO _) (hO _)
        (fun v hv => rules.saved _ v (by decide) hv) (by simp)

/-- A node that is down has nothing in memory. -/
def Down (D : ClientView β → Prop) (c : UUID) (m : Node Q F S E β) : Prop :=
  On c D m ∧ m.rc = .new

theorem spec_start_view (rules : ViewRules C.self c ok K D)
    (hup : ∀ v, K .steady v → R { v with up := true }) :
    Spec (Down D c) (start C) (fun _ => On c R) (On c (Seen K D)) := by
  have hO : ∀ g v, K g v → Seen K D v := fun g v hv => Or.inl ⟨g, hv⟩
  refine Spec.bind (Q := fun _ m => On c (fun v => D v ∧
      K .recovering v.restored) m ∧ m.rc = .new)
    (Spec.modify ?_) fun _ => ?_
  · rintro m ⟨hD, hnew⟩
    have hview : Node.view c (m.logged .restarted) =
        (m.view c).logged .restarted := by
      rw [view_logged]
      rfl
    refine ⟨?_, hnew⟩
    rw [On, hview]
    exact ⟨rules.restarted _ hD, rules.restored _ hD⟩
  refine Spec.bind (Q := fun restored m => if restored = true
      then On c (K .recovering) m else On c (K .steady) m)
    (Checkpointer.spec_restore (fun m hm => Or.inr hm.1.1) ?_ ?_)
    fun restored => ?_
  · rintro m ⟨⟨-, hK⟩, hnew⟩ hnone
    have hstored : Node.storedRc m = .new := by simp [Node.storedRc, hnone]
    have hframe : ∀ s, Node.view c { m with
        state := C.provider.clearStaleSpill s } =
          ClientView.of c s.rc (Node.storedRc m) m.up m.log := fun s => rfl
    rw [if_neg (by simp), On, hframe, show m.state.rc = .new from hnew, hstored]
    have hview : (Node.view c m).restored =
        ClientView.of c .new .new m.up m.log := by
      change ClientView.restored (ClientView.of c (Node.rc m) (Node.storedRc m)
        m.up m.log) = _
      rw [hstored]
      rfl
    rw [hview] at hK
    exact rules.settled _ hK rfl
  · rintro m b ⟨⟨-, hK⟩, -⟩ hb
    rw [if_pos rfl, On, view_restored hb]
    exact hK
  refine Spec.bind (Q := fun _ => On c (K .steady)) (Spec.when ?_ ?_)
    fun _ => Spec.modify fun m hm => hup _ hm
  · intro hrestored
    refine Spec.pre ?_ (P := On c (K .recovering)) fun m hm => by
      rwa [if_pos hrestored] at hm
    refine Spec.read_bind fun m => ?_
    refine Spec.bind (((spec_runEmits rules (g := .recovering) (by decide)
      m.rc.recheck (RingCompletion.nodup_recheck _))).pre ?_) fun _ => ?_
    · rintro m ⟨rfl, hm⟩
      have hready : c ∈ m.rc.recheck ↔ (m.view c).mem.ready = true :=
        RingCompletion.mem_recheck
      refine ⟨fun hmem => ⟨hm, ?_⟩, fun hmem => ?_⟩
      · exact emittable_of_ready (rules.alive _ hm (hready.mp hmem))
          (hready.mp hmem)
      · refine rules.settled _ hm ?_
        simpa using fun h => hmem (hready.mpr h)
    refine Spec.read_bind fun m' => ?_
    refine Spec.bind ((spec_forEach_frame _ fun y => spec_free_frame
      (hO .steady)).pre fun m hm => hm.2) fun _ => ?_
    exact spec_flush_view (hO _) (hO _)
      (fun v hv => rules.saved _ v (by decide) hv) fun _ v hv => hv
  · rintro hrestored m hm
    rwa [if_neg hrestored] at hm

/-! ### Whole calls -/

theorem up_advance (self : Peer) (v : ClientView β) (t : BarrierToken) :
    (v.advance self t).1.up = v.up := by
  unfold ClientView.advance
  split
  · rfl
  · split
    · rfl
    · split <;> rfl

theorem up_reportSent (self : Peer) (v : ClientView β) (sent : ShardCounts) :
    (v.reportSent self c sent).1.up = v.up := by
  unfold ClientView.reportSent
  simp only
  split
  · rfl
  · split
    · rfl
    · exact up_advance _ _ _

theorem up_onToken (self : Peer) (v : ClientView β) (t : BarrierToken) :
    (v.onToken self t).1.up = v.up := by
  unfold ClientView.onToken
  split
  · rfl
  · exact up_advance _ _ _

/-- Whether the node is up does not change while it serves a call. -/
theorem withUp {peer : Peer} (rules : ViewRules peer c ok K D)
    (b : Bool) :
    ViewRules peer c ok (fun g v => K g v ∧ v.up = b)
      (fun v => D v ∧ v.up = b) where
  counted v cl h hab hphase hsent :=
    ⟨rules.counted v cl h.1 hab hphase hsent, h.2⟩
  dropped v h := ⟨rules.dropped v h.1, h.2⟩
  reported g v sent hg h hab hphase := by
    obtain ⟨hnext, hforward⟩ := rules.reported g v sent hg h.1 hab hphase
    have hup := (up_reportSent (c := c) peer v sent).trans h.2
    exact ⟨⟨hnext, hup⟩, fun t ht => ⟨hforward t ht, hup⟩⟩
  token v t h hok hc := by
    obtain ⟨hnext, hforward⟩ := rules.token v t h.1 hok hc
    have hup := (up_onToken peer v t).trans h.2
    exact ⟨⟨hnext, hup⟩, fun t' ht => ⟨hforward t' ht, hup⟩⟩
  saved g v hg h := ⟨rules.saved g v hg h.1, h.2⟩
  alive v h := rules.alive v h.1
  settled v h hready := ⟨rules.settled v h.1 hready, h.2⟩
  restarted v h := ⟨rules.restarted v h.1, h.2⟩
  restored v h := ⟨rules.restored v h.1, h.2⟩

/-- The invariant between two calls. -/
def Idle (K : Stage → ClientView β → Prop) (D : ClientView β → Prop)
    (c : UUID) (m : Node Q F S E β) : Prop :=
  (m.up = true → On c (K .steady) m) ∧ (m.up = false → Down D c m)

/-- Every call restores the invariant, and a stable property holds wherever the
call may be cut. -/
theorem spec_call (rules : ViewRules C.self c ok K D)
    (hup : ∀ v, K .steady v → K .steady { v with up := true })
    (arrivals : Q → ℕ → Option (Message α)) (fifo : Bool) (call : Call Q)
    (hok : ∀ t, call = .token t → t.clientId = c → ok t) :
    Spec (fun m => Idle K D c m ∧ Enabled arrivals fifo call m)
      (handler C arrivals call)
      (fun _ => On c fun v => K .steady v ∧ v.up = true)
      (On c (Seen K D)) := by
  have rules' := withUp rules true
  have hseen : ∀ v, Seen (fun g v => K g v ∧ v.up = true)
      (fun v => D v ∧ v.up = true) v → Seen K D v := by
    rintro v (⟨g, hv, -⟩ | ⟨hv, -⟩)
    · exact Or.inl ⟨g, hv⟩
    · exact Or.inr hv
  have hO : ∀ v, K .steady v ∧ v.up = true → Seen K D v := fun v hv =>
    Or.inl ⟨.steady, hv.1⟩
  cases call with
  | start =>
      refine (spec_start_view rules fun v hv => ⟨hup v hv, rfl⟩).pre ?_
      exact fun m hm => hm.1.2 hm.2
  | token t =>
      refine (spec_onRingMsg_view rules' t (hok t rfl)).conseq ?_
        (fun _ _ h => h) fun m hm => hseen _ hm
      exact fun m hm => ⟨hm.1.1 hm.2, hm.2⟩
  | deliver tag =>
      have hrun : ∀ m : Node Q F S E β, Idle K D c m ∧
          Enabled arrivals fifo (.deliver tag) m →
            On c (fun v => K .steady v ∧ v.up = true) m :=
        fun m hm => ⟨hm.1.1 hm.2.1, hm.2.1⟩
      change Spec _ (receive C tag (arrivals tag.1 tag.2)) _ _
      cases arrivals tag.1 tag.2 with
      | none => exact Spec.pure hrun
      | some msg =>
          have hdeliver : ∀ m : Node Q F S E β,
              Node.view c (Machine.deliver tag m) = m.view c := fun _ => rfl
          refine Spec.bind ((spec_modify_frame hdeliver).pre hrun)
            fun _ => ?_
          refine Checkpointer.spec_dispatch ?_ ?_ ?_
          · intro x k _
            refine Spec.bind (spec_flush_view hO hO
              (fun v hv => rules'.saved .steady v (by decide) hv)
              fun _ v hv => hv) fun _ => ?_
            refine Spec.bind ((spec_onEof_view rules' tag.1 x k).conseq
              (fun _ h => h) (fun _ _ h => h) fun m hm => hseen _ hm)
              fun _ => ?_
            exact spec_ack_frame tag hO
          · intro x _
            refine Spec.bind ((spec_onAbort_view rules' x).conseq
              (fun _ h => h) (fun _ _ h => h) fun m hm => hseen _ hm)
              fun _ => ?_
            exact spec_ack_frame tag hO
          · intro d _
            exact (spec_handleData_view rules' tag d).conseq
              (fun _ h => h) (fun _ _ h => h) fun m hm => hseen _ hm

end RingNode
