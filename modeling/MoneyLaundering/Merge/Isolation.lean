import Mathlib.Data.Set.Basic
import MoneyLaundering.Merge.MergeFns
import MoneyLaundering.Support.Unwinding

/-!
# Clients of a merge do not see each other

A merge serves all of its clients in one thread, with one completion state, one spill, one
checkpoint and one set of output counters.  What it sends for a client and what it keeps
for it are nevertheless a function of the client's own inputs.  Only the stamps of its
outputs, and the moments at which its checkpoint is written, depend on other clients.
-/

open Crash Prog

/-! ## The completion state -/

namespace RingCompletion

/-- What a client sees of the completion state. -/
def ofClient (d : UUID) (rc : RingCompletion) : Option Client × Bool :=
  (rc.clients.get? d, rc.isAborted d)

variable {d x : UUID} {rc rc' : RingCompletion}

theorem client_eq_ofClient (rc : RingCompletion) (d : UUID) :
    rc.client d = (rc.ofClient d).1.getD .new :=
  rfl

theorem isAborted_eq_ofClient (rc : RingCompletion) (d : UUID) :
    rc.isAborted d = (rc.ofClient d).2 :=
  rfl

theorem ofClient_put (rc : RingCompletion) (cl : Client) :
    (rc.put x cl).ofClient d =
      if d = x then (some cl, rc.isAborted d) else rc.ofClient d := by
  rw [ofClient, isAborted_put, put, Dict.get?_set]
  split
  · rfl
  · rfl

theorem ofClient_drop (rc : RingCompletion) :
    (rc.drop x).ofClient d = if d = x then (none, true) else rc.ofClient d := by
  by_cases h : d = x <;> simp [ofClient, drop, Dict.get?_erase, h, isAborted]

/-- Counting an input of a client, by a function of the client's state. -/
theorem confined_count (f : Client → Client) :
    Confined (ofClient d) (x = d) fun rc : RingCompletion =>
      if rc.isAborted x then (([] : List UUID), rc)
      else ((rc.put x (f (rc.client x))).maybeLocalComplete x,
        rc.put x (f (rc.client x))) := by
  constructor
  · rintro rfl rc rc' h
    simp only [isAborted_eq_ofClient, client_eq_ofClient, maybeLocalComplete,
      ofClient_put, if_true, h]
    split
    · exact ⟨rfl, h⟩
    · exact ⟨rfl, by simp [ofClient_put, isAborted_eq_ofClient, h]⟩
  · intro hne rc
    have hne' : d ≠ x := fun h => hne h.symm
    by_cases hab : rc.isAborted x = true
    · simp [hab]
    · simp [hab, ofClient_put, hne']

theorem confined_onData :
    Confined (ofClient d) (x = d) fun rc => ((rc.onData x).2, (rc.onData x).1) := by
  have h := confined_count (d := d) (x := x)
    fun cl => { cl with received := cl.received + 1 }
  convert h using 2 with rc
  unfold onData
  split <;> rfl

theorem confined_onUpstreamEof (k : ℤ) :
    Confined (ofClient d) (x = d) fun rc =>
      ((rc.onUpstreamEof x k).2, (rc.onUpstreamEof x k).1) := by
  have h := confined_count (d := d) (x := x) fun cl => { cl with expected := k }
  convert h using 2 with rc
  unfold onUpstreamEof
  split <;> rfl

theorem confined_drop :
    Confined (ofClient d) (x = d) fun rc => ((), rc.drop x) := by
  constructor
  · rintro rfl rc rc' -
    exact ⟨rfl, by simp [ofClient_drop]⟩
  · intro hne rc
    simp [ofClient_drop, Ne.symm hne]

theorem confined_advance (self : Peer) (t : BarrierToken) :
    Confined (ofClient d) (t.clientId = d) fun rc =>
      ((rc.advance self t).2, (rc.advance self t).1) := by
  constructor
  · rintro rfl rc rc' h
    simp only [advance, client_eq_ofClient, h]
    by_cases hsize : t.sentBy.size < self.nNodes
    · simp [hsize, h]
    by_cases horigin : t.origin ≠ self.nodeId
    · simp [hsize, horigin, h]
    by_cases hdone : ((rc'.ofClient t.clientId).1.getD .new).phase = .done
    · simp [hsize, horigin, hdone, h]
    · simp [hsize, horigin, hdone, ofClient_put, isAborted_eq_ofClient, h]
  · intro hne rc
    have hput (cl : Client) : (rc.put t.clientId cl).ofClient d = rc.ofClient d := by
      rw [ofClient_put, if_neg (Ne.symm hne)]
    by_cases hsize : t.sentBy.size < self.nNodes
    · simp [advance, hsize]
    by_cases horigin : t.origin ≠ self.nodeId
    · simp [advance, hsize, horigin]
    by_cases hdone : (rc.client t.clientId).phase = .done
    · simp [advance, hsize, horigin, hdone]
    · simp [advance, hsize, horigin, hdone, hput]

theorem confined_markEmitted (sent : ShardCounts) :
    Confined (ofClient d) (x = d) fun rc => ((), rc.markEmitted x sent) := by
  constructor
  · rintro rfl rc rc' h
    exact ⟨rfl, by simp [markEmitted, ofClient_put, client_eq_ofClient,
      isAborted_eq_ofClient, h]⟩
  · intro hne rc
    simp [markEmitted, ofClient_put, Ne.symm hne]

theorem confined_reportSent (self : Peer) (sent : ShardCounts) :
    Confined (ofClient d) (x = d) fun rc =>
      ((rc.reportSent self x sent).2, (rc.reportSent self x sent).1) := by
  have hmark := confined_markEmitted (d := d) (x := x) sent
  have hadvance := confined_advance (d := d) self (firstToken self x sent)
  constructor
  · intro hx rc rc' h
    have hfinal := (hmark.agree hx rc rc' h).2
    subst hx
    simp only [reportSent, client_eq_ofClient, h]
    by_cases hphase : ((rc'.ofClient x).1.getD .new).phase ≠ .processing
    · simp [hphase, h]
    by_cases hleader : self.nodeId ≠ self.leader
    · simp [hphase, hleader, hfinal]
    · simpa [hphase, hleader] using hadvance.agree rfl _ _ hfinal
  · intro hne rc
    unfold reportSent
    split
    · rfl
    split
    · exact hmark.invisible hne rc
    · exact (hadvance.invisible hne _).trans (hmark.invisible hne rc)

theorem confined_onToken (self : Peer) (t : BarrierToken) :
    Confined (ofClient d) (t.clientId = d) fun rc =>
      ((rc.onToken self t).2, (rc.onToken self t).1) := by
  constructor
  · intro ht rc rc' h
    have hstamp : rc.stampToken self t = rc'.stampToken self t := by
      simp only [stampToken, client_eq_ofClient, ht, h]
    have htouch : (rc.touch t.clientId).ofClient d =
        (rc'.touch t.clientId).ofClient d := by
      simp [touch, ofClient_put, ht, client_eq_ofClient, isAborted_eq_ofClient, h]
    simp only [onToken, isAborted_eq_ofClient, ht, h, hstamp] at htouch ⊢
    split
    · exact ⟨rfl, h⟩
    · have hadvance := confined_advance (d := d) self (rc'.stampToken self t)
      exact hadvance.agree (by simpa using ht) _ _ htouch
  · intro hne rc
    unfold onToken
    split
    · rfl
    · have hadvance := confined_advance (d := d) self (rc.stampToken self t)
      refine (hadvance.invisible (by simpa using hne) _).trans ?_
      simp [touch, ofClient_put, Ne.symm hne]

end RingCompletion

/-! ## What a client sees of a node -/

/-- What leaves a node for a client, without the stamps of the messages. -/
inductive Outgoing (β : Type) where
  | data (shard : ℕ) (payload : β)
  | token (token : BarrierToken)
  | eof (shard : ℕ) (expected : ℕ)
  | abort (shard : ℕ)
deriving DecidableEq

/-- What an event sends for the client. -/
def Event.outgoing {β : Type} (d : UUID) : Event β → Option (Outgoing β)
  | .data shard _ x payload => if x = d then some (.data shard payload) else none
  | .eof shard x expected => if x = d then some (.eof shard expected) else none
  | .abort shard x => if x = d then some (.abort shard) else none
  | .forward token => if token.clientId = d then some (.token token) else none
  | _ => none

/-- A client's part of a merge: what its function keeps for the client, the announced
counts, the completion state, both tombstones, the client's messages that the dedup table
has, and everything that was sent for it, newest first. -/
structure MergeView (V β : Type) where
  fn : V
  left : Option ℤ
  right : Option ℤ
  rc : Option Client × Bool
  aborted : Bool
  recorded : Set (ProducerId × ℕ)
  sent : List (Outgoing β)

/-- Every client has its own part of what a merge function keeps, and each operation for a
client changes that part only, by what the part holds. -/
structure MergeFn.Separate {F S α β V : Type} (fn : MergeFn F S α β)
    (view : UUID → F → V) : Prop where
  left (d : UUID) (msg : DataMsg α) :
    Confined (view d) (msg.clientId = d) fun f => ((), fn.left msg f)
  right (d : UUID) (msg : DataMsg α) :
    Confined (view d) (msg.clientId = d) fun f => ((), fn.right msg f)
  getResult (d x : UUID) : Confined (view d) (x = d) (fn.getResult x)
  discard (d x : UUID) : Confined (view d) (x = d) fun f => ((), fn.discard x f)
  snapshot (d : UUID) (f : F) : view d (fn.provider.snapshotState f).2 = view d f

namespace RingMerge

variable {F S α β V : Type}

/-- What the client `d` sees of a node, where `ids` are the identities of its messages. -/
def ofClient (view : UUID → F → V) (ids : Set (ProducerId × ℕ)) (d : UUID)
    (m : Node Side F S MergeEofCounts β) : MergeView V β where
  fn := view d m.state.fn
  left := m.state.extra.left.get? d
  right := m.state.extra.right.get? d
  rc := m.rc.ofClient d
  aborted := decide (d ∈ m.aborted)
  recorded := {id | id ∈ ids ∧ m.dedup.Recorded id}
  sent := m.log.filterMap (Event.outgoing d)

variable {cfg : NodeConfig} {nShards : ℕ} {fn : MergeFn F S α β} {view : UUID → F → V}
  {ids : Set (ProducerId × ℕ)} {d x : UUID}

/-! ### Changes of one part -/

/-- A client's part after an entry of the history. -/
theorem ofClient_logged (e : Event β) (m : Node Side F S MergeEofCounts β) :
    ofClient view ids d (m.logged e) =
      { ofClient view ids d m with
        sent := (e.outgoing d).toList ++ (ofClient view ids d m).sent } := by
  cases h : e.outgoing d <;> simp [ofClient, Machine.logged, h] <;> rfl

/-- An entry of the history that concerns one client. -/
theorem confined_logged {own : Prop} {f : Node Side F S MergeEofCounts β → Event β}
    (e : Option (Outgoing β)) (hown : own → ∀ m, (f m).outgoing d = e)
    (hother : ¬own → ∀ m, (f m).outgoing d = none) :
    Confined (ofClient view ids d) own fun m => ((), m.logged (f m)) := by
  constructor
  · intro ho m m' h
    refine ⟨rfl, ?_⟩
    simp only [ofClient_logged, hown ho, h]
  · intro ho m
    simp [ofClient_logged, hother ho]

/-- An operation on the completion state. -/
theorem confined_onRing {A : Type} {own : Prop}
    {f : RingCompletion → RingCompletion × A}
    (h : Confined (RingCompletion.ofClient d) own fun rc => ((f rc).2, (f rc).1)) :
    Confined (ofClient view ids d) own
      (RingNode.onRing (Q := Side) (F := F) (S := S) (E := MergeEofCounts) (β := β) f) := by
  constructor
  · intro ho m m' hm
    have hrc : m.rc.ofClient d = m'.rc.ofClient d := congrArg MergeView.rc hm
    obtain ⟨hvalue, hstate⟩ := h.agree ho m.rc m'.rc hrc
    refine ⟨hvalue, ?_⟩
    simp only [ofClient, MergeView.mk.injEq] at hm ⊢
    exact ⟨hm.1, hm.2.1, hm.2.2.1, hstate, hm.2.2.2.2⟩
  · intro ho m
    have hstate := h.invisible ho m.rc
    simp only [ofClient, MergeView.mk.injEq]
    exact ⟨rfl, rfl, rfl, hstate, rfl, rfl, rfl⟩

/-- An operation on the state of the merge function. -/
theorem confined_onFn {A : Type} {own : Prop} {f : F → A × F}
    (h : Confined (view d) own f) :
    Confined (ofClient view ids d) own fun m : Node Side F S MergeEofCounts β =>
      ((f m.state.fn).1, m.withState fun s => { s with fn := (f s.fn).2 }) := by
  constructor
  · intro ho m m' hm
    have hfn : view d m.state.fn = view d m'.state.fn := congrArg MergeView.fn hm
    obtain ⟨hvalue, hstate⟩ := h.agree ho _ _ hfn
    refine ⟨hvalue, ?_⟩
    simp only [ofClient, MergeView.mk.injEq] at hm ⊢
    exact ⟨hstate, hm.2⟩
  · intro ho m
    have hstate := h.invisible ho m.state.fn
    simp only [ofClient, MergeView.mk.injEq]
    exact ⟨hstate, rfl, rfl, rfl, rfl, rfl, rfl⟩

/-- An operation on the announced counts. -/
theorem confined_onExtra {A : Type} {own : Prop}
    {f : MergeEofCounts → A × MergeEofCounts}
    (h : Confined (fun e : MergeEofCounts => (e.left.get? d, e.right.get? d)) own f) :
    Confined (ofClient view ids d) own fun m : Node Side F S MergeEofCounts β =>
      ((f m.state.extra).1, m.withState fun s => { s with extra := (f s.extra).2 }) := by
  constructor
  · intro ho m m' hm
    have hleft : m.state.extra.left.get? d = m'.state.extra.left.get? d :=
      congrArg MergeView.left hm
    have hright : m.state.extra.right.get? d = m'.state.extra.right.get? d :=
      congrArg MergeView.right hm
    obtain ⟨hvalue, hstate⟩ := h.agree ho _ _ (Prod.ext hleft hright)
    refine ⟨hvalue, ?_⟩
    simp only [ofClient, MergeView.mk.injEq, Prod.mk.injEq] at hm hstate ⊢
    exact ⟨hm.1, hstate.1, hstate.2, hm.2.2.2⟩
  · intro ho m
    have hstate := h.invisible ho m.state.extra
    simp only [Prod.mk.injEq] at hstate
    simp only [ofClient, MergeView.mk.injEq]
    exact ⟨rfl, hstate.1, hstate.2, rfl, rfl, rfl, rfl⟩

theorem confined_note (side : Side) (k : ℤ) :
    Confined (fun e : MergeEofCounts => (e.left.get? d, e.right.get? d)) (x = d)
      fun e => ((e.note side x k).combined x, e.note side x k) := by
  constructor
  · rintro rfl e e' h
    obtain ⟨hleft, hright⟩ := Prod.mk.inj h
    cases side <;>
      simp [MergeEofCounts.note, MergeEofCounts.combined, hleft, hright]
  · intro hne e
    cases side <;> simp [MergeEofCounts.note, Dict.get?_set, Ne.symm hne]

theorem confined_dropCounts :
    Confined (fun e : MergeEofCounts => (e.left.get? d, e.right.get? d)) (x = d)
      fun e => ((), e.drop x) := by
  constructor
  · rintro rfl e e' -
    simp [MergeEofCounts.drop]
  · intro hne e
    simp [MergeEofCounts.drop, Dict.get?_erase, Ne.symm hne]

/-! ### The checkpointer -/

theorem invisible_ack (tag : Side × ℕ) :
    Invisible (ofClient (S := S) (β := β) view ids d) (Checkpointer.ack tag) :=
  Invisible.change fun _ => rfl

theorem invisible_flush (hfn : fn.Separate view) (force : Bool) :
    Invisible (ofClient (β := β) view ids d)
      (Checkpointer.flush (ringMerge cfg nShards fn).provider force) := by
  have hsnapshot (m : Node Side F S MergeEofCounts β) :
      ofClient view ids d (m.snapshotted (ringMerge cfg nShards fn).provider) =
        ofClient view ids d m := by
    have hstate := hfn.snapshot d m.state.fn
    simp only [ofClient, MergeView.mk.injEq]
    exact ⟨hstate, rfl, rfl, rfl, rfl, rfl, rfl⟩
  apply Invisible.read_bind
  intro m
  apply Invisible.bind
  · apply Invisible.when
    apply Invisible.bind (Invisible.act hsnapshot)
    intro _
    exact Invisible.change fun _ => rfl
  · intro _
    apply Invisible.read_bind
    intro m
    apply Invisible.bind
    · exact Invisible.forEach fun tag _ => invisible_ack tag
    · intro _
      exact Invisible.modify fun _ => rfl

theorem confined_markAborted :
    Confined (ofClient (F := F) (S := S) (β := β) view ids d) (x = d) fun m =>
      ((), { m with aborted := insert x m.aborted, dirty := true }) := by
  constructor
  · rintro rfl m m' hm
    refine ⟨rfl, ?_⟩
    simp only [ofClient, MergeView.mk.injEq] at hm ⊢
    exact ⟨hm.1, hm.2.1, hm.2.2.1, hm.2.2.2.1, by simp, hm.2.2.2.2.2⟩
  · intro hne m
    simp [ofClient, Ne.symm hne]

/-! ### Handlers -/

theorem isolated_send (o : Output β) :
    Isolated (ofClient view ids d) (x = d) (RingNode.send (ringMerge cfg nShards fn) x o) := by
  have hsent (m : Node Side F S MergeEofCounts β) :
      ofClient view ids d (RingNode.published (ringMerge cfg nShards fn) x o m) =
        ofClient view ids d (m.logged (.data o.shard (0, 0) x o.payload)) := by
    unfold RingNode.published
    split
    · simp only [ofClient_logged]
      rfl
    · simp only [ofClient_logged]
      rfl
  have h : Confined (ofClient view ids d) (x = d) fun m : Node Side F S MergeEofCounts β =>
      ((), m.logged (.data o.shard (0, 0) x o.payload)) :=
    confined_logged (some (.data o.shard o.payload))
      (fun hx _ => by simp [Event.outgoing, hx]) fun hx _ => by simp [Event.outgoing, hx]
  apply Isolated.change
  constructor
  · intro hx m m' hm
    rw [hsent, hsent]
    exact h.agree hx m m' hm
  · intro hx m
    rw [hsent]
    exact h.invisible hx m

theorem isolated_downstreamEof (sent : ShardCounts) :
    Isolated (ofClient view ids d) (x = d)
      (RingNode.downstreamEof (ringMerge cfg nShards fn) x sent) := by
  apply Isolated.forEach
  intro shard _
  apply Isolated.change
  exact confined_logged (some (.eof shard (sent.getD shard 0)))
    (fun hx _ => by simp [Event.outgoing, hx]) fun hx _ => by simp [Event.outgoing, hx]

theorem isolated_downstreamAbort :
    Isolated (ofClient view ids d) (x = d)
      (RingNode.downstreamAbort (ringMerge cfg nShards fn) x) := by
  apply Isolated.forEach
  intro shard _
  apply Isolated.change
  exact confined_logged (some (.abort shard))
    (fun hx _ => by simp [Event.outgoing, hx]) fun hx _ => by simp [Event.outgoing, hx]

theorem isolated_runBarrier {actions : List BarrierAction}
    (h : ∀ a ∈ actions, a.client = x) :
    Isolated (ofClient view ids d) (x = d)
      (RingNode.runBarrier (ringMerge cfg nShards fn) actions) := by
  apply Isolated.forEach
  intro a ha
  have hx := h a ha
  cases a with
  | forward token =>
      obtain rfl : token.clientId = x := hx
      apply Isolated.change
      exact confined_logged (some (.token token))
        (fun ht _ => by simp [Event.outgoing, ht]) fun ht _ => by
          simp [Event.outgoing, ht]
  | downstreamEof clientId sent =>
      obtain rfl : clientId = x := hx
      exact isolated_downstreamEof sent

/-- The entries for closed barriers send nothing. -/
theorem outgoing_closings (rc : RingCompletion) (actions : List BarrierAction) :
    (RingNode.closings (β := β) rc actions).filterMap (Event.outgoing d) = [] := by
  rw [RingNode.closings, List.filterMap_filterMap, List.filterMap_eq_nil_iff]
  intro a _
  cases a <;> rfl

theorem confined_reportSent (outs : List (Output β)) :
    Confined (ofClient view ids d) (x = d)
      (RingNode.reportSent (ringMerge cfg nShards fn) x outs) := by
  have h : Confined (ofClient view ids d) (x = d)
      (RingNode.onRing (S := S) (β := β)
        fun rc => rc.reportSent cfg.self x (countShards outs)) :=
    confined_onRing (RingCompletion.confined_reportSent cfg.self (countShards outs))
  have hlog (m : Node Side F S MergeEofCounts β) :
      ofClient view ids d (RingNode.reportSent (ringMerge cfg nShards fn) x outs m).2 =
        ofClient view ids d (RingNode.onRing
          (fun rc => rc.reportSent cfg.self x (countShards outs)) m).2 := by
    have hreported (l : List (Event β)) :
        (Event.reported x (countShards outs) :: l).filterMap (Event.outgoing d) =
          l.filterMap (Event.outgoing d) := rfl
    simp only [ofClient, RingNode.reportSent, RingNode.onRing, ringMerge,
      List.filterMap_append, outgoing_closings, hreported, List.nil_append]
    rfl
  constructor
  · intro hx m m' hm
    rw [hlog, hlog]
    exact h.agree hx m m' hm
  · intro hx m
    rw [hlog]
    exact h.invisible hx m

/-- An operation of which nothing is recorded but that the history has one more entry. -/
theorem isolated_note {own : Prop} (e : Event β) (he : e.outgoing d = none) :
    Isolated (ε := Effect) (ofClient (F := F) (S := S) view ids d) own
      (Prog.modify fun m => m.logged e) :=
  Isolated.modify (confined_logged none (fun _ _ => he) fun _ _ => he)

theorem isolated_emit (hfn : fn.Separate view) :
    Isolated (ofClient view ids d) (x = d) (RingNode.emit (ringMerge cfg nShards fn) x) := by
  have hresult : Confined (ofClient (S := S) (β := β) view ids d) (x = d)
      (RingNode.takeResult (ringMerge cfg nShards fn) x) := by
    have h : Confined (ofClient (S := S) (β := β) view ids d) (x = d) fun m =>
        ((fn.getResult x m.state.fn).1,
          m.withState fun s => { s with fn := (fn.getResult x s.fn).2 }) :=
      confined_onFn (hfn.getResult d x)
    constructor
    · intro hx m m' hm
      obtain ⟨hvalue, hstate⟩ := h.agree hx m m' hm
      exact ⟨congrArg (RingMerge.route nShards) hvalue, hstate⟩
    · exact h.invisible
  apply Isolated.bind (isolated_note _ rfl)
  intro _
  apply Isolated.bind (Isolated.compute hresult)
  intro m
  apply Isolated.bind (Isolated.forEach fun o _ => isolated_send o)
  intro _
  apply Isolated.bind (Isolated.compute (confined_reportSent _))
  intro m'
  apply isolated_runBarrier
  intro a ha
  exact RingCompletion.client_of_mem_reportSent ha

theorem isolated_runEmits (hfn : fn.Separate view) {emits : List UUID}
    (h : ∀ y ∈ emits, y = x) :
    Isolated (ofClient view ids d) (x = d)
      (RingNode.runEmits (ringMerge cfg nShards fn) emits) := by
  apply Isolated.forEach
  intro y hy
  obtain rfl := h y hy
  exact isolated_emit hfn

/-- Releasing a client, as `_discard` and `_free` do it. -/
theorem confined_release (hfn : fn.Separate view) :
    Confined (ofClient (S := S) (β := β) view ids d) (x = d) fun m =>
      ((), m.withState fun s =>
        { s with fn := fn.discard x s.fn, extra := s.extra.drop x }) := by
  exact (confined_onFn (hfn.discard d x)).andThen (confined_onExtra confined_dropCounts)

theorem isolated_discard (hfn : fn.Separate view) :
    Isolated (ofClient (β := β) view ids d) (x = d)
      (RingNode.discard (ringMerge cfg nShards fn) x) :=
  Isolated.change (confined_release hfn)

theorem isolated_free (hfn : fn.Separate view) :
    Isolated (ofClient (β := β) view ids d) (x = d)
      (RingNode.free (ringMerge cfg nShards fn) x) := by
  apply Isolated.change
  exact (confined_release hfn).andThen
    (confined_logged (f := fun _ => .freed x) none (fun _ _ => rfl) fun _ _ => rfl)

theorem isolated_onData (hfn : fn.Separate view) (side : Side) (msg : DataMsg α) :
    Isolated (ofClient view ids d) (msg.clientId = d)
      (RingNode.onData (ringMerge cfg nShards fn) side msg) := by
  have hprocess : Confined (ofClient (S := S) (β := β) view ids d) (msg.clientId = d)
      fun m => ((), m.withState fun s =>
        { s with fn := (ringMerge cfg nShards fn).process side msg s.fn }) := by
    cases side with
    | left => exact confined_onFn (hfn.left d msg)
    | right => exact confined_onFn (hfn.right d msg)
  apply Isolated.bind (Isolated.modify hprocess)
  intro _
  apply Isolated.bind (Isolated.pure ())
  intro _
  apply Isolated.bind (Isolated.compute (confined_onRing RingCompletion.confined_onData))
  intro m
  apply isolated_runEmits hfn
  intro y hy
  exact (m.rc.counts_onData msg.clientId).eq_of_mem hy

/-- What the end-of-file of one side changes, before anything is sent. -/
theorem confined_noteEof (side : Side) (k : ℤ) :
    Confined (ofClient (S := S) view ids d) (x = d)
      (RingNode.noteEof (ringMerge (β := β) cfg nShards fn) side x k) := by
  have hnote : Confined (ofClient view ids d) (x = d)
      fun m : Node Side F S MergeEofCounts β =>
        ((m.state.extra.note side x k).combined x,
          m.withState fun s => { s with extra := s.extra.note side x k }) :=
    confined_onExtra (confined_note side k)
  constructor
  · intro hx m m' hm
    obtain ⟨hvalue, hstate⟩ := hnote.agree hx m m' hm
    change (m.state.extra.note side x k).combined x =
      (m'.state.extra.note side x k).combined x at hvalue
    simp only [RingNode.noteEof, ringMerge, hvalue]
    cases (m'.state.extra.note side x k).combined x with
    | none => exact ⟨rfl, hstate⟩
    | some total =>
        exact (confined_onRing (RingCompletion.confined_onUpstreamEof total)).agree hx _ _
          hstate
  · intro hx m
    have hstate := hnote.invisible hx m
    simp only [RingNode.noteEof, ringMerge]
    cases (m.state.extra.note side x k).combined x with
    | none => exact hstate
    | some total =>
        have hring : Confined (ofClient view ids d) (x = d)
            (RingNode.onRing (S := S) (β := β) fun rc => rc.onUpstreamEof x total) :=
          confined_onRing (RingCompletion.confined_onUpstreamEof total)
        exact (hring.invisible hx _).trans hstate

theorem eq_of_mem_noteEof {side : Side} {k : ℤ} {y : UUID}
    {m : Node Side F S MergeEofCounts β}
    (hy : y ∈ (RingNode.noteEof (ringMerge cfg nShards fn) side x k m).1) : y = x := by
  simp only [RingNode.noteEof, ringMerge] at hy
  cases h : (m.state.extra.note side x k).combined x with
  | none => simp [h] at hy
  | some total =>
      simp only [h] at hy
      exact (RingCompletion.counts_onUpstreamEof m.rc x total).eq_of_mem hy

theorem isolated_onEof (hfn : fn.Separate view) (side : Side) (k : ℤ) :
    Isolated (ofClient view ids d) (x = d)
      (RingNode.onEof (ringMerge cfg nShards fn) side x k) := by
  apply Isolated.bind (Isolated.compute (confined_noteEof side k))
  intro m
  have hemits : ∀ y ∈ (RingNode.noteEof (ringMerge cfg nShards fn) side x k m).1, y = x :=
    fun y => eq_of_mem_noteEof
  apply Isolated.bind (Isolated.of_invisible (Invisible.when (invisible_flush hfn true)))
  intro _
  apply Isolated.bind (isolated_runEmits hfn hemits)
  intro _
  apply Isolated.bind (Isolated.of_invisible (invisible_flush hfn true))
  intro _
  apply Isolated.forEach
  intro y hy
  obtain rfl := hemits y hy
  exact isolated_free hfn

theorem isolated_onAbort (hfn : fn.Separate view) :
    Isolated (ofClient view ids d) (x = d)
      (RingNode.onAbort (ringMerge cfg nShards fn) x) := by
  have hdrop : Confined (ofClient view ids d) (x = d)
      (RingNode.onRing (S := S) (β := β) fun rc => (rc.drop x, ())) :=
    confined_onRing RingCompletion.confined_drop
  apply Isolated.bind (Isolated.modify hdrop)
  intro _
  apply Isolated.bind (isolated_discard hfn)
  intro _
  apply Isolated.bind (Isolated.modify confined_markAborted)
  intro _
  apply Isolated.bind (Isolated.of_invisible (invisible_flush hfn true))
  intro _
  exact isolated_downstreamAbort

theorem confined_receiveToken (token : BarrierToken) :
    Confined (ofClient view ids d) (token.clientId = d)
      (RingNode.receiveToken (ringMerge cfg nShards fn) token) := by
  have h : Confined (ofClient view ids d) (token.clientId = d)
      (RingNode.onRing (S := S) (β := β) fun rc => rc.onToken cfg.self token) :=
    confined_onRing (RingCompletion.confined_onToken cfg.self token)
  have hlog (m : Node Side F S MergeEofCounts β) :
      ofClient view ids d (RingNode.receiveToken (ringMerge cfg nShards fn) token m).2 =
        ofClient view ids d
          (RingNode.onRing (fun rc => rc.onToken cfg.self token) m).2 := by
    simp only [ofClient, RingNode.receiveToken, RingNode.onRing, ringMerge,
      List.filterMap_append, outgoing_closings, List.nil_append]
    rfl
  constructor
  · intro hx m m' hm
    rw [hlog, hlog]
    exact h.agree hx m m' hm
  · intro hx m
    rw [hlog]
    exact h.invisible hx m

theorem isolated_onRingMsg (hfn : fn.Separate view) (token : BarrierToken) :
    Isolated (ofClient view ids d) (token.clientId = d)
      (RingNode.onRingMsg (ringMerge cfg nShards fn) token) := by
  apply Isolated.bind (Isolated.compute (confined_receiveToken token))
  intro m
  apply Isolated.bind
  · apply isolated_runBarrier
    intro a ha
    exact RingCompletion.client_of_mem_onToken ha
  · intro _
    exact Isolated.of_invisible (invisible_flush hfn true)

/-! ### Deduplication -/

/-- A message is recorded: the client sees its own messages. -/
theorem confined_recorded (tag : Side × ℕ) {msg : DataMsg α}
    (hids : msg.seq ≠ 0 → (msg.clientId = d ↔ msg.identity ∈ ids)) :
    Confined (ofClient (F := F) (S := S) (β := β) view ids d) (msg.clientId = d)
      fun m => ((), m.recorded tag msg) := by
  have hrecorded (m : Node Side F S MergeEofCounts β) (id : ProducerId × ℕ) :
      (m.recorded tag msg).dedup.Recorded id ↔
        msg.seq ≠ 0 ∧ id = msg.identity ∨ m.dedup.Recorded id := by
    by_cases h0 : msg.seq = 0
    · simp [Machine.recorded, Deduplicator.record, h0]
    · simpa [h0, DataMsg.identity, Machine.recorded] using
        Deduplicator.recorded_record (d := m.dedup) (p := msg.producerId) h0 id
  constructor
  · intro hx m m' hm
    have hset : ∀ id, id ∈ ids ∧ m.dedup.Recorded id ↔
        id ∈ ids ∧ m'.dedup.Recorded id :=
      Set.ext_iff.mp (congrArg MergeView.recorded hm)
    refine ⟨rfl, ?_⟩
    simp only [ofClient, MergeView.mk.injEq] at hm ⊢
    refine ⟨hm.1, hm.2.1, hm.2.2.1, hm.2.2.2.1, hm.2.2.2.2.1, ?_, hm.2.2.2.2.2.2⟩
    ext id
    have hid := hset id
    change id ∈ ids ∧ _ ↔ id ∈ ids ∧ _
    rw [hrecorded, hrecorded]
    tauto
  · intro hx m
    simp only [ofClient, MergeView.mk.injEq]
    refine ⟨rfl, rfl, rfl, rfl, rfl, ?_, rfl⟩
    ext id
    change id ∈ ids ∧ _ ↔ id ∈ ids ∧ _
    rw [hrecorded]
    constructor
    · rintro ⟨hid, ⟨h0, rfl⟩ | hrec⟩
      · exact absurd ((hids h0).mpr hid) hx
      · exact ⟨hid, hrec⟩
    · rintro ⟨hid, hrec⟩
      exact ⟨hid, Or.inr hrec⟩

/-- What follows the processing of a message. -/
theorem invisible_flushFull (hfn : fn.Separate view) :
    Invisible (ofClient (β := β) view ids d) (do
      let m ← Prog.read
      Prog.when (max 1 cfg.checkpointEvery ≤ m.pendingAcks.length)
        (Checkpointer.checkpointAndFlush (ringMerge cfg nShards fn).provider false)) := by
  apply Invisible.read_bind
  intro m
  exact Invisible.when (invisible_flush hfn false)

/-- A delivery of the client's own message.  Whether it is new is a function of what the
client sees. -/
theorem agree_handleData (hfn : fn.Separate view) (side : Side) (tag tag' : Side × ℕ)
    {msg : DataMsg α} (hx : msg.clientId = d) (hids : msg.seq ≠ 0 → msg.identity ∈ ids) :
    Agree (ofClient (β := β) view ids d)
      (Checkpointer.handleData (ringMerge cfg nShards fn).provider cfg.checkpointEvery tag
        msg (RingNode.onData (ringMerge cfg nShards fn) side msg))
      (Checkpointer.handleData (ringMerge cfg nShards fn).provider cfg.checkpointEvery tag'
        msg (RingNode.onData (ringMerge cfg nShards fn) side msg)) := by
  have hack : Agree (ofClient (F := F) (S := S) (β := β) view ids d)
      (Checkpointer.ack tag) (Checkpointer.ack tag') :=
    Agree.of_invisible (invisible_ack tag) (invisible_ack tag')
  apply Agree.read_bind
  intro m m' hm
  have haborted : msg.clientId ∈ m.aborted ↔ msg.clientId ∈ m'.aborted := by
    have h : decide (d ∈ m.aborted) = decide (d ∈ m'.aborted) :=
      congrArg MergeView.aborted hm
    rw [hx]
    simpa using h
  have hduplicate : m.dedup.isDuplicate msg.producerId msg.seq = true ↔
      m'.dedup.isDuplicate msg.producerId msg.seq = true := by
    by_cases h0 : msg.seq = 0
    · simp [Deduplicator.isDuplicate, h0]
    · have hid := Set.ext_iff.mp (congrArg MergeView.recorded hm) msg.identity
      change msg.identity ∈ ids ∧ m.dedup.isDuplicate _ _ = true ↔
        msg.identity ∈ ids ∧ m'.dedup.isDuplicate _ _ = true at hid
      have hmem := hids h0
      exact ⟨fun h => (hid.mp ⟨hmem, h⟩).2, fun h => (hid.mpr ⟨hmem, h⟩).2⟩
  apply Agree.ite haborted (fun _ => hack)
  intro _
  apply Agree.ite hduplicate (fun _ => hack)
  intro _
  apply Agree.bind ((isolated_onData hfn side msg).agree hx)
  intro _
  apply Agree.bind
  · apply Agree.modify
    intro s s' hs
    exact ((confined_recorded tag fun h0 => iff_of_true hx (hids h0)).agree hx s s' hs).2
  · intro _
    exact Agree.of_invisible (invisible_flushFull hfn) (invisible_flushFull hfn)

/-- A delivery of another client's message. -/
theorem invisible_handleData (hfn : fn.Separate view) (side : Side) (tag : Side × ℕ)
    {msg : DataMsg α} (hx : msg.clientId ≠ d) (hids : msg.seq ≠ 0 → msg.identity ∉ ids) :
    Invisible (ofClient (β := β) view ids d)
      (Checkpointer.handleData (ringMerge cfg nShards fn).provider cfg.checkpointEvery tag
        msg (RingNode.onData (ringMerge cfg nShards fn) side msg)) := by
  apply Invisible.read_bind
  intro m
  apply Invisible.ite
  · intro _
    exact invisible_ack tag
  intro _
  apply Invisible.ite
  · intro _
    exact invisible_ack tag
  intro _
  apply Invisible.bind ((isolated_onData hfn side msg).invisible hx)
  intro _
  apply Invisible.bind
  · exact Invisible.modify ((confined_recorded tag fun h0 =>
      iff_of_false hx (hids h0)).invisible hx)
  · intro _
    exact invisible_flushFull hfn

/-! ### Deliveries -/

/-- What the node is called for: a message of one of its inputs, or a token. -/
inductive Input (α : Type) where
  | message (side : Side) (msg : Message α)
  | token (token : BarrierToken)

/-- The client an input belongs to. -/
def Input.client : Input α → UUID
  | .message _ (.data msg) => msg.clientId
  | .message _ (.eof clientId _) => clientId
  | .message _ (.abort clientId) => clientId
  | .token t => t.clientId

/-- Serve one input; a message is found at place `i` of its queue. -/
def serve (C : Controller Side F S MergeEofCounts α β) (i : ℕ) :
    Input α → RingNode.NodeProg Side F S MergeEofCounts β Unit
  | .message side msg => RingNode.receive C (side, i) (some msg)
  | .token token => RingNode.onRingMsg C token

/-- The stamps of the client's messages are its own. -/
def OwnStamps (ids : Set (ProducerId × ℕ)) (d : UUID) : Input α → Prop
  | .message _ (.data msg) => msg.seq ≠ 0 → (msg.clientId = d ↔ msg.identity ∈ ids)
  | _ => True

theorem invisible_deliver (tag : Side × ℕ) :
    Invisible (ε := Effect) (ofClient (F := F) (S := S) (β := β) view ids d)
      (Prog.modify (Machine.deliver tag)) :=
  Invisible.modify fun _ => rfl

theorem agree_serve (hfn : fn.Separate view) {input : Input α} (hown : input.client = d)
    (hids : OwnStamps ids d input) (i j : ℕ) :
    Agree (ofClient (β := β) view ids d) (serve (ringMerge cfg nShards fn) i input)
      (serve (ringMerge cfg nShards fn) j input) := by
  have hack (tag tag' : Side × ℕ) :
      Agree (ofClient (F := F) (S := S) (β := β) view ids d)
        (Checkpointer.ack tag) (Checkpointer.ack tag') :=
    Agree.of_invisible (invisible_ack tag) (invisible_ack tag')
  cases input with
  | token token => exact (isolated_onRingMsg hfn token).agree hown
  | message side msg =>
      apply Agree.bind (Agree.of_invisible (invisible_deliver _) (invisible_deliver _))
      intro _
      cases msg with
      | data msg => exact agree_handleData hfn side _ _ hown fun h0 => (hids h0).mp hown
      | eof clientId k =>
          apply Agree.bind
            (Agree.of_invisible (invisible_flush hfn false) (invisible_flush hfn false))
          intro _
          apply Agree.bind ((isolated_onEof hfn side k).agree hown)
          intro _
          exact hack _ _
      | abort clientId =>
          apply Agree.bind ((isolated_onAbort hfn).agree hown)
          intro _
          exact hack _ _

theorem invisible_serve (hfn : fn.Separate view) {input : Input α}
    (hown : input.client ≠ d) (hids : OwnStamps ids d input) (i : ℕ) :
    Invisible (ofClient (β := β) view ids d)
      (serve (ringMerge cfg nShards fn) i input) := by
  cases input with
  | token token => exact (isolated_onRingMsg hfn token).invisible hown
  | message side msg =>
      apply Invisible.bind (invisible_deliver _)
      intro _
      cases msg with
      | data msg =>
          exact invisible_handleData hfn side _ hown fun h0 => mt (hids h0).mpr hown
      | eof clientId k =>
          apply Invisible.bind (invisible_flush hfn false)
          intro _
          apply Invisible.bind ((isolated_onEof hfn side k).invisible hown)
          intro _
          exact invisible_ack _
      | abort clientId =>
          apply Invisible.bind ((isolated_onAbort hfn).invisible hown)
          intro _
          exact invisible_ack _

/-! ### Runs -/

/-- The data messages of a run. -/
def dataMsgs (inputs : List (ℕ × Input α)) : List (DataMsg α) :=
  inputs.filterMap fun e =>
    match e.2 with
    | .message _ (.data msg) => some msg
    | _ => none

/-- No stamped message of another client has an identity of the client's. -/
def UniqueStamps (d : UUID) (inputs : List (ℕ × Input α)) : Prop :=
  ∀ msg ∈ dataMsgs inputs, ∀ msg' ∈ dataMsgs inputs,
    msg.seq ≠ 0 → msg'.clientId = d → msg.identity = msg'.identity → msg.clientId = d

instance (d : UUID) (inputs : List (ℕ × Input α)) : Decidable (UniqueStamps d inputs) :=
  inferInstanceAs (Decidable (∀ msg ∈ dataMsgs inputs, ∀ msg' ∈ dataMsgs inputs,
    msg.seq ≠ 0 → msg'.clientId = d → msg.identity = msg'.identity → msg.clientId = d))

/-- The identities of the client's messages. -/
def stamps (d : UUID) (inputs : List (ℕ × Input α)) : Set (ProducerId × ℕ) :=
  {id | ∃ msg ∈ dataMsgs inputs, msg.clientId = d ∧ id = msg.identity}

/-- The inputs of the client, in their order. -/
def inputsOf (d : UUID) (inputs : List (ℕ × Input α)) : List (Input α) :=
  ownInputs (fun input => decide (input.client = d)) inputs

/-- A node that starts without a checkpoint. -/
def started (C : Controller Side F S MergeEofCounts α β) (f : F) :
    Node Side F S MergeEofCounts β :=
  (RingNode.start C (Machine.initial (C.fresh f))).final

/-- The node after a run without crashes. -/
def run (C : Controller Side F S MergeEofCounts α β) (f : F)
    (inputs : List (ℕ × Input α)) : Node Side F S MergeEofCounts β :=
  serveAll (serve C) inputs (started C f)

theorem mem_dataMsgs {inputs : List (ℕ × Input α)} {i : ℕ} {side : Side}
    {msg : DataMsg α} (h : (i, Input.message side (.data msg)) ∈ inputs) :
    msg ∈ dataMsgs inputs :=
  List.mem_filterMap.mpr ⟨_, h, rfl⟩

theorem ownStamps_of_unique {inputs : List (ℕ × Input α)} (h : UniqueStamps d inputs)
    {e : ℕ × Input α} (he : e ∈ inputs) : OwnStamps (stamps d inputs) d e.2 := by
  obtain ⟨i, input⟩ := e
  cases input with
  | token t => trivial
  | message side msg =>
      cases msg with
      | eof x k => trivial
      | abort x => trivial
      | data msg =>
          intro h0
          constructor
          · intro hx
            exact ⟨msg, mem_dataMsgs he, hx, rfl⟩
          · rintro ⟨msg', hmsg', hx, hid⟩
            exact h msg (mem_dataMsgs he) msg' hmsg' h0 hx hid

/-- The identities of the client's messages are those of its inputs. -/
theorem stamps_eq_of_inputsOf {inputs inputs' : List (ℕ × Input α)}
    (h : inputsOf d inputs = inputsOf d inputs') : stamps d inputs = stamps d inputs' := by
  have hsub : ∀ {l l' : List (ℕ × Input α)}, inputsOf d l = inputsOf d l' →
      stamps d l ⊆ stamps d l' := by
    rintro l l' hl id ⟨msg, hmsg, hx, rfl⟩
    obtain ⟨⟨i, input⟩, he, hdata⟩ := List.mem_filterMap.mp hmsg
    obtain ⟨side, rfl⟩ : ∃ side, input = .message side (.data msg) := by
      cases input with
      | token t => cases hdata
      | message side msg' =>
          cases msg' with
          | data msg' =>
              obtain rfl := Option.some.inj hdata
              exact ⟨side, rfl⟩
          | eof y k => cases hdata
          | abort y => cases hdata
    have hown : Input.message side (.data msg) ∈ inputsOf d l := by
      apply List.mem_filter.mpr
      exact ⟨List.mem_map.mpr ⟨_, he, rfl⟩, decide_eq_true hx⟩
    rw [hl] at hown
    obtain ⟨⟨j, input'⟩, he', rfl⟩ := List.mem_map.mp (List.mem_filter.mp hown).1
    exact ⟨msg, mem_dataMsgs he', hx, rfl⟩
  exact Set.Subset.antisymm (hsub h) (hsub h.symm)

end RingMerge

/-! ## The merge functions -/

namespace UC2BankId

variable {A : Type} (gt : A → A → Bool)

/-- A client's maxima and bank names. -/
def ofClient (d : UUID) (f : UC2BankId A) :
    Option (Dict String (String × A)) × Option (Dict String String) :=
  (f.maxAmounts.get? d, f.bankNames.get? d)

theorem separate : (uc2BankIdMergeFn gt).Separate ofClient where
  left d msg := by
    constructor
    · rintro rfl f f' h
      obtain ⟨hmax, hnames⟩ := Prod.mk.inj h
      cases hb : msg.body <;>
        simp [uc2BankIdMergeFn, left, ofClient, hb, Dict.getD, hmax, hnames]
    · intro hne f
      cases hb : msg.body <;>
        simp [uc2BankIdMergeFn, left, ofClient, hb, Dict.get?_set, Ne.symm hne]
  right d msg := by
    constructor
    · rintro rfl f f' h
      obtain ⟨hmax, hnames⟩ := Prod.mk.inj h
      cases hb : msg.body <;>
        simp [uc2BankIdMergeFn, right, ofClient, hb, Dict.getD, hmax, hnames]
    · intro hne f
      cases hb : msg.body <;>
        simp [uc2BankIdMergeFn, right, ofClient, hb, Dict.get?_set, Ne.symm hne]
  getResult d x := by
    constructor
    · rintro rfl f f' h
      obtain ⟨hmax, hnames⟩ := Prod.mk.inj h
      simp [uc2BankIdMergeFn, getResult, discard, ofClient, Dict.getD, hmax, hnames]
    · intro hne f
      simp [uc2BankIdMergeFn, getResult, discard, ofClient, Dict.get?_erase, Ne.symm hne]
  discard d x := by
    constructor
    · rintro rfl f f' -
      simp [uc2BankIdMergeFn, discard, ofClient]
    · intro hne f
      simp [uc2BankIdMergeFn, discard, ofClient, Dict.get?_erase, Ne.symm hne]
  snapshot d f := rfl

end UC2BankId

namespace LineCodec

variable {T : Type} (codec : LineCodec T) {d x : UUID}

/-- Spilling entries of a client. -/
theorem confined_spill (entries : List T) :
    Confined (fun files => PersistentSpill.holding files d) (x = d)
      fun files => ((), entries.foldl (codec.spill x) files) := by
  induction entries with
  | nil => exact ⟨fun _ _ _ h => ⟨rfl, h⟩, fun _ _ => rfl⟩
  | cons entry entries ih =>
      have hone : Confined (fun files => PersistentSpill.holding files d) (x = d)
          fun files => ((), codec.spill x files entry) := by
        constructor
        · rintro rfl files files' h
          refine ⟨rfl, ?_⟩
          simp only [spill, PersistentSpill.holding_append, h]
        · intro hne files
          exact PersistentSpill.holding_append_of_ne _ (Ne.symm hne)
      exact hone.andThen ih

/-- Reading the entries of a client. -/
theorem confined_entries :
    Confined (fun files => PersistentSpill.holding files d) (x = d)
      fun files => (codec.entries x files, (files.iterLines x).2) := by
  constructor
  · rintro rfl files files' h
    simp only [entries, PersistentSpill.iterLines_fst, PersistentSpill.holding_iterLines, h,
      and_self]
  · intro _ files
    exact PersistentSpill.holding_iterLines

theorem confined_clear :
    Confined (fun files => PersistentSpill.holding files d) (x = d)
      fun files : PersistentSpill => ((), files.clear x) := by
  constructor
  · rintro rfl files files' -
    simp
  · intro hne files
    exact PersistentSpill.holding_clear_of_ne (Ne.symm hne)

end LineCodec

namespace UC3BankId

variable {T A : Type} (codec : LineCodec T) (paymentFormat : T → String)

/-- A client's averages and its spilled transactions. -/
def ofClient (d : UUID) (f : UC3BankId A) :
    Option (Dict String A) × Option (Bool × Bytes) :=
  (f.averages.get? d, f.spill.holding d)

theorem separate :
    (uc3BankIdMergeFn (A := A) codec paymentFormat).Separate ofClient where
  left d msg := by
    constructor
    · rintro rfl f f' h
      obtain ⟨haverages, hspill⟩ := Prod.mk.inj h
      cases hb : msg.body <;>
        simp [uc3BankIdMergeFn, left, ofClient, hb, Dict.getD, haverages, hspill]
    · intro hne f
      cases hb : msg.body <;>
        simp [uc3BankIdMergeFn, left, ofClient, hb, Dict.get?_set, Ne.symm hne]
  right d msg := by
    cases hb : msg.body with
    | avgByFormat averages =>
        constructor
        · intro _ f f' h
          simpa [uc3BankIdMergeFn, right, hb] using h
        · intro _ f
          simp [uc3BankIdMergeFn, right, hb]
    | transactions ts =>
        have hspill := codec.confined_spill (d := d) (x := msg.clientId) ts
        constructor
        · intro hx f f' h
          obtain ⟨haverages, hholding⟩ := Prod.mk.inj h
          have hafter := (hspill.agree hx _ _ hholding).2
          refine ⟨rfl, ?_⟩
          simp only [uc3BankIdMergeFn, right, hb, ofClient, haverages, hafter]
        · intro hne f
          have hafter := hspill.invisible hne f.spill
          simp only [uc3BankIdMergeFn, right, hb, ofClient, hafter]
  getResult d x := by
    have hentries := codec.confined_entries (d := d) (x := x)
    constructor
    · rintro rfl f f' h
      obtain ⟨haverages, hholding⟩ := Prod.mk.inj h
      obtain ⟨hvalue, hafter⟩ := hentries.agree rfl _ _ hholding
      simp only at hvalue hafter
      simp [uc3BankIdMergeFn, getResult, getResultOf, ofClient, Dict.getD, haverages, hvalue,
        hafter]
    · intro hne f
      have hafter := hentries.invisible hne f.spill
      simp only at hafter
      simp [uc3BankIdMergeFn, getResult, getResultOf, ofClient, Dict.get?_erase, Ne.symm hne,
        hafter]
  discard d x := by
    constructor
    · rintro rfl f f' -
      simp [uc3BankIdMergeFn, discard, ofClient]
    · intro hne f
      have hafter := (LineCodec.confined_clear (d := d) (x := x)).invisible hne f.spill
      simp only at hafter
      simp [uc3BankIdMergeFn, discard, ofClient, Dict.get?_erase, Ne.symm hne, hafter]
  snapshot d f := by
    simp [uc3BankIdMergeFn, provider, ofClient]

end UC3BankId

namespace UC4Prune

variable (codec : LineCodec GraphSrc.Entry) (order : GraphSrc.NodeOrder) (side : ℕ → ℕ → ℕ)

/-- A client's nodes of high degree and its spilled graph. -/
def ofClient (d : UUID) (f : UC4Prune) :
    Option GraphSrc.NodeSet × Option GraphSrc.NodeSet × Option (Bool × Bytes) :=
  (f.hiOut.get? d, f.hiIn.get? d, f.spill.holding d)

theorem separate : (uc4PruneMergeFn codec order side).Separate ofClient where
  left d msg := by
    constructor
    · rintro rfl f f' h
      obtain ⟨hout, hrest⟩ := Prod.mk.inj h
      obtain ⟨hin, hspill⟩ := Prod.mk.inj hrest
      cases hb : msg.body <;>
        simp [uc4PruneMergeFn, left, ofClient, hb, Dict.getD, hout, hin, hspill]
    · intro hne f
      cases hb : msg.body <;>
        simp [uc4PruneMergeFn, left, ofClient, hb, Dict.get?_set, Ne.symm hne]
  right d msg := by
    cases hb : msg.body with
    | highDegree hiOut hiIn =>
        constructor
        · intro _ f f' h
          simpa [uc4PruneMergeFn, right, hb] using h
        · intro _ f
          simp [uc4PruneMergeFn, right, hb]
    | graph nodes =>
        have hspill := codec.confined_spill (d := d) (x := msg.clientId) nodes.entries
        constructor
        · intro hx f f' h
          obtain ⟨hout, hrest⟩ := Prod.mk.inj h
          obtain ⟨hin, hholding⟩ := Prod.mk.inj hrest
          have hafter := (hspill.agree hx _ _ hholding).2
          refine ⟨rfl, ?_⟩
          simp only [uc4PruneMergeFn, right, hb, ofClient, hout, hin, hafter]
        · intro hne f
          have hafter := hspill.invisible hne f.spill
          simp only [uc4PruneMergeFn, right, hb, ofClient, hafter]
  getResult d x := by
    have hentries := codec.confined_entries (d := d) (x := x)
    constructor
    · rintro rfl f f' h
      obtain ⟨hout, hrest⟩ := Prod.mk.inj h
      obtain ⟨hin, hholding⟩ := Prod.mk.inj hrest
      obtain ⟨hvalue, hafter⟩ := hentries.agree rfl _ _ hholding
      simp only at hvalue hafter
      simp [uc4PruneMergeFn, getResult, ofClient, Dict.getD, hout, hin, hvalue, hafter]
    · intro hne f
      have hafter := hentries.invisible hne f.spill
      simp only at hafter
      simp [uc4PruneMergeFn, getResult, ofClient, Dict.get?_erase, Ne.symm hne, hafter]
  discard d x := by
    constructor
    · rintro rfl f f' -
      simp [uc4PruneMergeFn, discard, ofClient]
    · intro hne f
      have hafter := (LineCodec.confined_clear (d := d) (x := x)).invisible hne f.spill
      simp only at hafter
      simp [uc4PruneMergeFn, discard, ofClient, Dict.get?_erase, Ne.symm hne, hafter]
  snapshot d f := by
    simp [uc4PruneMergeFn, provider, ofClient]

end UC4Prune

/-- The merge functions, each with what it keeps for a client. -/
inductive MergeClass :
    {F S α β V : Type} → MergeFn F S α β → (UUID → F → V) → Prop
  | uc2 {A : Type} (gt : A → A → Bool) :
      MergeClass (uc2BankIdMergeFn gt) UC2BankId.ofClient
  | uc3 {T A : Type} (codec : LineCodec T) (paymentFormat : T → String) :
      MergeClass (uc3BankIdMergeFn (A := A) codec paymentFormat) UC3BankId.ofClient
  | uc4 (codec : LineCodec GraphSrc.Entry) (order : GraphSrc.NodeOrder) (side : ℕ → ℕ → ℕ) :
      MergeClass (uc4PruneMergeFn codec order side) UC4Prune.ofClient

theorem MergeClass.separate {F S α β V : Type} {fn : MergeFn F S α β}
    {view : UUID → F → V} (h : MergeClass fn view) : fn.Separate view := by
  cases h with
  | uc2 gt => exact UC2BankId.separate gt
  | uc3 codec paymentFormat => exact UC3BankId.separate codec paymentFormat
  | uc4 codec order side => exact UC4Prune.separate codec order side

/-! ## Two runs -/

namespace RingMerge

variable {F S α β V : Type} {fn : MergeFn F S α β} {view : UUID → F → V}

/-- What a client sees of the node is a function of the client's inputs. -/
theorem client_isolation (hclass : MergeClass fn view) (cfg : NodeConfig) (nShards : ℕ)
    (f : F) (d : UUID) {inputs inputs' : List (ℕ × Input α)}
    (hunique : UniqueStamps d inputs) (hunique' : UniqueStamps d inputs')
    (hsame : inputsOf d inputs = inputsOf d inputs') :
    ofClient view (stamps d inputs) d (run (ringMerge cfg nShards fn) f inputs) =
      ofClient view (stamps d inputs) d (run (ringMerge cfg nShards fn) f inputs') := by
  have hfn := hclass.separate
  have hids := stamps_eq_of_inputsOf hsame
  refine view_serveAll_eq ?_ ?_ ?_ hsame rfl
  · intro e he hother
    exact invisible_serve hfn (of_decide_eq_false hother) (ownStamps_of_unique hunique he) _
  · intro e he hother
    rw [hids]
    exact invisible_serve hfn (of_decide_eq_false hother) (ownStamps_of_unique hunique' he) _
  · intro i j input hmem hown
    exact agree_serve hfn (of_decide_eq_true hown) (ownStamps_of_unique hunique hmem) i j

/-- A node that is its own leader, with two outputs. -/
def soleNode : NodeConfig := ⟨⟨0, 1, 0⟩, 2, fun shard => BitVec.ofNat 128 shard⟩

/-- The inputs of a client: the largest amount and the name of one bank. -/
def bankInputs : List (Input (BankInput ℕ)) :=
  [.message .left (.data ⟨1, 7, 1, .maxByBank (Dict.empty.set "b" ("a", 5))⟩),
    .message .right (.eof 1 1),
    .message .right (.data ⟨1, 8, 1, .bankNames (Dict.empty.set "b" "Bank")⟩),
    .message .left (.eof 1 1)]

/-- The same among the inputs of two other clients, one of which is aborted. -/
def sharedInputs : List (Input (BankInput ℕ)) :=
  .message .left (.data ⟨2, 7, 2, .maxByBank (Dict.empty.set "b" ("c", 9))⟩) ::
    bankInputs.take 2 ++
      [.message .right (.eof 2 4), .message .left (.abort 2), .token ⟨3, 0, Dict.empty⟩] ++
    bankInputs.drop 2

/-- Each input with its place. -/
def placed (inputs : List (Input (BankInput ℕ))) : List (ℕ × Input (BankInput ℕ)) :=
  inputs.zipIdx.map Prod.swap

/-- The merge of banks with natural amounts. -/
def bankMerge : Controller Side (UC2BankId ℕ) (UC2BankId ℕ) MergeEofCounts (BankInput ℕ)
    (List (String × String × ℕ × String)) :=
  ringMerge soleNode 2 (uc2BankIdMergeFn fun a b => decide (b < a))

/-- Alone or among others, the client is sent its bank and the end-of-files. -/
theorem client_isolation_shared :
    (run bankMerge ⟨Dict.empty, Dict.empty⟩ (placed bankInputs)).log.filterMap
        (Event.outgoing 1) =
      [.eof 1 0, .eof 0 1, .data 0 [("b", "a", 5, "Bank")]] ∧
    ofClient UC2BankId.ofClient (stamps 1 (placed bankInputs)) 1
        (run bankMerge ⟨Dict.empty, Dict.empty⟩ (placed bankInputs)) =
      ofClient UC2BankId.ofClient (stamps 1 (placed bankInputs)) 1
        (run bankMerge ⟨Dict.empty, Dict.empty⟩ (placed sharedInputs)) := by
  constructor
  · decide
  · exact client_isolation (MergeClass.uc2 _) soleNode 2 _ 1 (by decide) (by decide) rfl

end RingMerge
