import Mathlib.Algebra.BigOperators.Group.Finset.Basic
import MoneyLaundering.Ring.BarrierSafety
import MoneyLaundering.Ring.ReplaySafety
import MoneyLaundering.Ring.StatelessHistory

/-!
# Count conservation of a ring

The end-of-file that the leader sends to a shard carries the number of distinct
messages that all nodes of the ring publish there for the client.  Three things
come together: an end-of-file carries a total with which the barrier was closed,
such a total is the sum of what the nodes reported, and what a node reports is
the number of its distinct messages.
-/

open Crash

/-! ## Properties of the history that every handler keeps -/

namespace Event

variable {β : Type}

/-- The entry is no message for a shard. -/
def isQuiet : Event β → Bool
  | .data _ _ _ _ => false
  | .eof _ _ _ => false
  | .abort _ _ => false
  | _ => true

theorem isQuiet_of_mem_closings {rc : RingCompletion} {actions : List BarrierAction}
    {e : Event β} (h : e ∈ RingNode.closings rc actions) : e.isQuiet = true := by
  obtain ⟨a, -, ha⟩ := List.mem_filterMap.mp h
  cases a with
  | forward t => simp at ha
  | downstreamEof c counts =>
      obtain rfl := Option.some.inj ha
      rfl

end Event

namespace RingNode

variable {Q F S E α β : Type} {C : Controller Q F S E α β} {c x : UUID}
  {aborts : UUID → Prop} {I : List (Event β) → Prop}

/-- An output that the node may send. -/
def MaySend (C : Controller Q F S E α β) (o : Output β) : Prop :=
  (∃ msg, o ∈ C.outputs msg) ∨ ∃ x f, o ∈ (C.getResult x f).1

/-- The entries under which a property of the history has to be stable for
handlers to keep it: an end-of-file follows the close of its barrier, a data
message is one of the node's outputs with a stamp for it, and an abort is of a
client in `aborts`. -/
structure LogRules (C : Controller Q F S E α β) (aborts : UUID → Prop)
    (I : List (Event β) → Prop) : Prop where
  quiet : ∀ e log, e.isQuiet = true → I log → I (e :: log)
  eof : ∀ shard y phase per log, .closed y phase per ∈ log → I log →
    I (.eof shard y (per.getD shard 0) :: log)
  data : ∀ seqs y o log, MaySend C o → I log →
    I (.data o.shard (C.stampOf seqs o) y o.payload :: log)
  abort : ∀ shard y log, aborts y → I log → I (.abort shard y :: log)

/-- The property, of the history of a node. -/
abbrev Logged (I : List (Event β) → Prop) (m : Node Q F S E β) : Prop := I m.log

theorem LogRules.append (rules : LogRules C aborts I) {es log : List (Event β)}
    (hes : ∀ e ∈ es, e.isQuiet = true) (h : I log) : I (es ++ log) := by
  induction es with
  | nil => exact h
  | cons e es ih =>
      refine rules.quiet e _ (hes e List.mem_cons_self) (ih fun e' he' => ?_)
      exact hes e' (List.mem_cons_of_mem _ he')

/-- A change of the providers and of a quiet entry. -/
theorem LogRules.keeps_quiet (rules : LogRules C aborts I) {l : Effect}
    {f : Node Q F S E β → Node Q F S E β}
    (hf : ∀ m, (f m).log = m.log ∨ ∃ e, e.isQuiet = true ∧ (f m).log = e :: m.log) :
    Keeps (Logged I) (Prog.change l f) := by
  refine Keeps.change fun m hm => ?_
  rcases hf m with heq | ⟨e, he, heq⟩
  · rw [Logged, heq]
    exact hm
  · rw [Logged, heq]
    exact rules.quiet e _ he hm

theorem keeps_send (rules : LogRules C aborts I) {o : Output β} (ho : MaySend C o) :
    Keeps (Logged I) (send C x o) := by
  refine Keeps.change fun m hm => ?_
  rw [published_eq]
  exact rules.data m.state.seqs x o m.log ho hm

/-- What is sent downstream has the totals of a closed barrier. -/
theorem spec_runBarrier_logged (rules : LogRules C aborts I) (actions : List BarrierAction) :
    Spec (fun m => Logged I m ∧ ∀ y per, .downstreamEof y per ∈ actions →
        ∃ phase, .closed y phase per ∈ m.log)
      (runBarrier C actions) (fun _ => Logged I) (Logged I) := by
  refine (Spec.forEach (I := fun _ m => Logged I m ∧ ∀ y per,
    .downstreamEof y per ∈ actions → ∃ phase, .closed y phase per ∈ m.log) actions
    ?_).post fun _ m hm => hm.1
  intro before a after hsplit
  cases a with
  | forward t =>
      refine Spec.change (fun m hm => hm.1) fun m hm => ⟨?_, fun y per hmem => ?_⟩
      · exact rules.quiet _ _ rfl hm.1
      · obtain ⟨phase, hclosed⟩ := hm.2 y per hmem
        exact ⟨phase, List.mem_cons_of_mem _ hclosed⟩
  | downstreamEof y per =>
      have hmem : BarrierAction.downstreamEof y per ∈ actions := by simp [hsplit]
      refine Spec.forEach (I := fun _ m => Logged I m ∧ ∀ y per,
        .downstreamEof y per ∈ actions → ∃ phase, .closed y phase per ∈ m.log) _
        fun _ shard _ _ => Spec.change (fun m hm => hm.1) fun m hm => ?_
      refine ⟨?_, fun y' per' hmem' => ?_⟩
      · obtain ⟨phase, hclosed⟩ := hm.2 y per hmem
        exact rules.eof shard y phase per m.log hclosed hm.1
      · obtain ⟨phase, hclosed⟩ := hm.2 y' per' hmem'
        exact ⟨phase, List.mem_cons_of_mem _ hclosed⟩

theorem closed_mem_closings {rc : RingCompletion} {actions : List BarrierAction}
    {y : UUID} {per : ShardCounts} (h : .downstreamEof y per ∈ actions) :
    .closed y (rc.client y).phase per ∈ (closings rc actions : List (Event β)) :=
  List.mem_filterMap.mpr ⟨_, h, rfl⟩

theorem keeps_emit (rules : LogRules C aborts I) (x : UUID) :
    Keeps (Logged I) (emit C x) := by
  refine Spec.bind (Keeps.modify fun m hm => rules.quiet _ _ rfl hm) fun _ => ?_
  refine Spec.bind (Q := fun outs m => (∃ f, outs = (C.getResult x f).1) ∧ Logged I m)
    (Spec.compute fun m hm => ⟨⟨m.state.fn, rfl⟩, hm⟩) fun outs =>
      Spec.of_pre fun houts => ?_
  obtain ⟨f, rfl⟩ := houts
  refine Spec.bind (Keeps.forEach _ fun o ho =>
    keeps_send rules (Or.inr ⟨x, f, ho⟩)) fun _ => ?_
  refine Spec.bind (Q := fun actions m => Logged I m ∧ ∀ y per,
    .downstreamEof y per ∈ actions → ∃ phase, .closed y phase per ∈ m.log)
    (Spec.compute fun m hm => ⟨?_, fun y per hmem => ?_⟩)
    fun actions => spec_runBarrier_logged rules actions
  · refine rules.append (fun e he => Event.isQuiet_of_mem_closings he) ?_
    exact rules.quiet _ _ rfl hm
  · exact ⟨_, List.mem_append_left _ (closed_mem_closings hmem)⟩

theorem keeps_runEmits (rules : LogRules C aborts I) (xs : List UUID) :
    Keeps (Logged I) (runEmits C xs) :=
  Keeps.forEach xs fun x _ => keeps_emit rules x

theorem keeps_free (rules : LogRules C aborts I) (xs : List UUID) :
    Keeps (Logged I) (Prog.forEach xs (free C)) :=
  Keeps.forEach xs fun _ _ =>
    rules.keeps_quiet fun _ => Or.inr ⟨.freed _, rfl, rfl⟩

theorem keeps_onData (rules : LogRules C aborts I) (q : Q) (msg : DataMsg α) :
    Keeps (Logged I) (onData C q msg) := by
  refine Spec.bind (Keeps.modify fun _ hm => hm) fun _ => ?_
  refine Spec.bind (Keeps.forEach _ fun o ho => ?_) fun _ => ?_
  · exact Spec.bind (keeps_send rules (Or.inl ⟨msg, ho⟩)) fun _ =>
      Keeps.modify fun _ hm => hm
  · exact Spec.bind (Keeps.compute fun _ hm => hm) fun emits =>
      keeps_runEmits rules emits

theorem log_noteEof (q : Q) (k : ℤ) (m : Node Q F S E β) :
    (noteEof C q x k m).2.log = m.log := by
  by_cases hnone : (C.noteEof q x k m.state.extra).1 = none
  · rw [noteEof_none hnone]
    rfl
  · obtain ⟨total, htotal⟩ := Option.ne_none_iff_exists'.mp hnone
    rw [noteEof_some htotal]
    rfl

section Handlers

variable [DecidableEq Q]

theorem keeps_flush (force : Bool) :
    Keeps (Logged I)
      (Checkpointer.flush C.provider force : NodeProg Q F S E β Unit) :=
  Checkpointer.spec_checkpointAndFlush (R := Logged I)
    (fun _ hm _ => ⟨hm, hm, hm⟩) (fun _ hm _ _ => hm) (fun _ _ _ hm _ => hm)
    fun _ hm => hm

theorem keeps_onEof (rules : LogRules C aborts I) (q : Q) (x : UUID) (k : ℤ) :
    Keeps (Logged I) (onEof C q x k) := by
  refine Spec.bind (Keeps.compute fun m hm => ?_) fun emits => ?_
  · rw [Logged, log_noteEof]
    exact hm
  refine Spec.bind (Keeps.when fun _ => keeps_flush true) fun _ => ?_
  refine Spec.bind (keeps_runEmits rules emits) fun _ => ?_
  exact Spec.bind (keeps_flush true) fun _ => keeps_free rules emits

theorem keeps_onAbort (rules : LogRules C aborts I) (hx : aborts x) :
    Keeps (Logged I) (onAbort C x) := by
  refine Spec.bind (Keeps.modify fun _ hm => hm) fun _ => ?_
  refine Spec.bind (rules.keeps_quiet fun _ => Or.inl rfl) fun _ => ?_
  refine Spec.bind (Keeps.modify fun _ hm => hm) fun _ => ?_
  refine Spec.bind (keeps_flush true) fun _ => ?_
  exact Keeps.forEach _ fun _ _ => Keeps.change fun _ hm => rules.abort _ x _ hx hm

theorem keeps_onRingMsg (rules : LogRules C aborts I) (t : BarrierToken) :
    Keeps (Logged I) (onRingMsg C t) := by
  refine Spec.bind (Q := fun actions m => Logged I m ∧ ∀ y per,
    .downstreamEof y per ∈ actions → ∃ phase, .closed y phase per ∈ m.log)
    (Spec.compute fun m hm => ?_) fun actions => ?_
  · rw [receiveToken_eq]
    refine ⟨rules.append (fun e he => Event.isQuiet_of_mem_closings he) hm, ?_⟩
    exact fun y per hmem => ⟨_, List.mem_append_left _ (closed_mem_closings hmem)⟩
  · exact Spec.bind (spec_runBarrier_logged rules actions) fun _ => keeps_flush true

theorem keeps_start (rules : LogRules C aborts I) : Keeps (Logged I) (start C) := by
  refine Spec.bind (Keeps.modify fun _ hm => rules.quiet _ _ rfl hm) fun _ => ?_
  refine Spec.bind (Q := fun _ => Logged I)
    (Checkpointer.spec_restore (fun _ hm => hm) (fun _ hm _ => hm)
      fun _ _ hm _ => hm) fun restored => ?_
  refine Spec.bind (Keeps.when fun _ => ?_) fun _ => Keeps.modify fun _ hm => hm
  refine Spec.bind Keeps.read fun m => ?_
  refine Spec.bind (keeps_runEmits rules _) fun _ => ?_
  refine Spec.bind Keeps.read fun m' => ?_
  exact Spec.bind (keeps_free rules _) fun _ => keeps_flush true

theorem keeps_call (rules : LogRules C aborts I)
    {arrivals : Q → ℕ → Option (Message α)}
    (haborts : ∀ q i x, arrivals q i = some (.abort x) → aborts x) (call : Call Q) :
    Keeps (Logged I) (handler C arrivals call) := by
  have hack : ∀ tag, Keeps (Logged I)
      (Checkpointer.ack tag : NodeProg Q F S E β Unit) :=
    fun tag => Keeps.change fun _ hm => hm
  cases call with
  | start => exact keeps_start rules
  | token t => exact keeps_onRingMsg rules t
  | deliver tag =>
      change Keeps _ (receive C tag (arrivals tag.1 tag.2))
      cases harrives : arrivals tag.1 tag.2 with
      | none => exact Keeps.pure
      | some msg =>
          refine Spec.bind (Keeps.modify fun _ hm => hm) fun _ => ?_
          refine Checkpointer.spec_dispatch (fun y k _ => ?_) (fun y hmsg => ?_)
            fun d _ => ?_
          · refine Spec.bind (keeps_flush false) fun _ => ?_
            exact Spec.bind (keeps_onEof rules tag.1 y k) fun _ => hack tag
          · refine Spec.bind (keeps_onAbort rules ?_) fun _ => hack tag
            exact haborts tag.1 tag.2 y (hmsg ▸ harrives)
          · refine Checkpointer.spec_handleData (R := Logged I)
              (fun _ hm _ => ⟨hm, hm⟩) (fun _ hm _ _ => ⟨hm, hm⟩) ?_ ?_
              fun _ hm _ => hm
            · exact ((keeps_onData rules tag.1 d).pre fun _ hm => hm.1).post
                fun _ _ hm => hm
            · exact (keeps_flush false).pre fun _ hm => hm.1

/-- So it holds of every history. -/
theorem logged_visits (rules : LogRules C aborts I) (hnil : I [])
    {arrivals : Q → ℕ → Option (Message α)}
    (haborts : ∀ q i x, arrivals q i = some (.abort x) → aborts x) {fifo : Bool}
    {crashable : Node Q F S E β → Prop} {f₀ : F} {m : Node Q F S E β}
    (h : (system C arrivals fifo crashable).Visits
      (Machine.initial (C.fresh f₀)) m) : I m.log := by
  have hcall : ∀ call, Spec (fun m => Logged I m ∧ Enabled arrivals fifo call m)
      (handler C arrivals call) (fun _ => Logged I) (Logged I) :=
    fun call => (keeps_call rules haborts call).pre fun _ hm => hm.1
  have hreach : ∀ m, (system C arrivals fifo crashable).Reach
      (Machine.initial (C.fresh f₀)) m → Logged I m := by
    intro m hm
    refine System.Reach.invariant (I := Logged I) hnil (fun call => ?_) ?_ hm
    · exact (hcall call).conseq (fun _ hm => hm) (fun _ _ hm => hm)
        fun _ hm _ _ => hm
    · exact fun _ _ _ hm _ => hm
  exact h.property (I := Logged I) (O := Logged I) hreach (fun _ hm => hm)
    fun call => (hcall call).post fun _ _ _ => trivial

end Handlers

end RingNode

/-! ## End-of-files and stamps -/

namespace Event

variable {β : Type}

/-- Every end-of-file carries the total of a barrier that was closed. -/
def EofsClosed (log : List (Event β)) : Prop :=
  ∀ shard y k, .eof shard y k ∈ log →
    ∃ phase per, .closed y phase per ∈ log ∧ k = per.getD shard 0

/-- Every message has a stamp of the output it went to. -/
def OwnStamps (producer : ℕ → ProducerId) (log : List (Event β)) : Prop :=
  ∀ shard id y pl, .data shard id y pl ∈ log → id.1 = producer shard

theorem EofsClosed.cons {e : Event β} {log : List (Event β)} (h : EofsClosed log)
    (he : ∀ shard y k, e = .eof shard y k →
      ∃ phase per, .closed y phase per ∈ log ∧ k = per.getD shard 0) :
    EofsClosed (e :: log) := by
  intro shard y k hmem
  have hold : ∃ phase per, .closed y phase per ∈ log ∧ k = per.getD shard 0 := by
    rcases List.mem_cons.mp hmem with heq | hmem
    · exact he shard y k heq.symm
    · exact h shard y k hmem
  obtain ⟨phase, per, hclosed, hk⟩ := hold
  exact ⟨phase, per, List.mem_cons_of_mem _ hclosed, hk⟩

end Event

namespace RingNode

variable {Q F S E α β : Type} {C : Controller Q F S E α β}

theorem eofsClosed_rules : LogRules C (fun _ => True) Event.EofsClosed where
  quiet e log he h := h.cons fun shard y k heq => by
    rw [heq] at he
    simp [Event.isQuiet] at he
  eof shard y phase per log hclosed h := h.cons fun shard' y' k heq => by
    simp only [Event.eof.injEq] at heq
    obtain ⟨rfl, rfl, rfl⟩ := heq
    exact ⟨phase, per, hclosed, rfl⟩
  data seqs y o log _ h := h.cons fun shard y k heq => by cases heq
  abort shard y log _ h := h.cons fun shard y k heq => by cases heq

theorem ownStamps_rules (hnone : ∀ o, MaySend C o → o.stamp = none) :
    LogRules C (fun _ => True) (Event.OwnStamps C.producer) where
  quiet e log he h := by
    intro shard id y pl hmem
    rcases List.mem_cons.mp hmem with rfl | hmem
    · simp [Event.isQuiet] at he
    · exact h shard id y pl hmem
  eof shard y phase per log _ h := by
    intro shard' id y' pl hmem
    exact h shard' id y' pl ((List.mem_cons.mp hmem).resolve_left (by simp))
  data seqs y o log ho h := by
    intro shard id y' pl hmem
    rcases List.mem_cons.mp hmem with heq | hmem
    · simp only [Event.data.injEq] at heq
      obtain ⟨rfl, rfl, -, -⟩ := heq
      rw [(Controller.stampOf_of_none seqs (hnone o ho)).1]
    · exact h shard id y' pl hmem
  abort shard y log _ h := by
    intro shard' id y' pl hmem
    exact h shard' id y' pl ((List.mem_cons.mp hmem).resolve_left (by simp))

/-- Without an abort of the client none is passed on. -/
theorem noAbort_rules (c : UUID) :
    LogRules C (fun y => y ≠ c) fun log => ∀ shard, .abort shard c ∉ log where
  quiet e log he h shard hmem := by
    rcases List.mem_cons.mp hmem with rfl | hmem
    · simp [Event.isQuiet] at he
    · exact h shard hmem
  eof shard y phase per log _ h shard' hmem :=
    h shard' ((List.mem_cons.mp hmem).resolve_left (by simp))
  data seqs y o log _ h shard hmem :=
    h shard ((List.mem_cons.mp hmem).resolve_left (by simp))
  abort shard y log hy h shard' hmem := by
    refine h shard' ((List.mem_cons.mp hmem).resolve_left fun heq => hy ?_)
    exact (Event.abort.inj heq).2.symm

end RingNode

/-! ## The ring -/

namespace AffinityRing

open RingNode

variable {Q F S E α β : Type} {R : AffinityRing Q F S E α β} {c : UUID}
  {s : ℕ → Node Q F S E β}

/-- The distinct messages of a client that all nodes published for a shard. -/
def distinctOn (R : AffinityRing Q F S E α β) (c : UUID) (shard : ℕ)
    (s : ℕ → Node Q F S E β) : Finset (ProducerId × ℕ) :=
  R.ids.toFinset.biUnion fun p => Event.distinctOn c shard (s p).log

variable [DecidableEq Q]

/-- The barrier carries sums of reports in every visited state. -/
theorem globalOk_visits (h : R.runs.Visits R.initial s) :
    R.GlobalOk c (views c s) := by
  refine System.par_visits (I := R.BarrierInv c)
    (O := fun s => R.GlobalOk c (views c s)) (fun s hs => barrierInv_reach hs)
    (fun s hs => hs.globalOk) ?_ h
  intro p call s hs he hg
  refine (spec_barrier hs he hg).conseq (fun _ h => h)
    (fun _ _ _ => trivial) fun m hm => ?_
  rw [views_update]
  exact hm.globalOk

/-- A node of the ring, seen alone. -/
theorem visits_node (h : R.runs.Visits R.initial s) (p : ℕ) :
    (RingNode.system (R.node p) (R.arrivals p) R.fifo fun _ => True).Visits
      (Machine.initial ((R.node p).fresh (R.fn₀ p))) (s p) :=
  h.component p

/-- An end-of-file carries the sum of what the nodes reported. -/
theorem eof_eq_sum (h : R.runs.Visits R.initial s) {shard p k : ℕ} (hp : p ∈ R.ids)
    (he : .eof shard c k ∈ (s p).log) :
    ∃ sent : ℕ → ShardCounts, (∀ q ∈ R.ids, .reported c (sent q) ∈ (s q).log) ∧
      k = (R.ids.map fun q => (sent q).getD shard 0).sum := by
  obtain ⟨phase, per, hclosed, rfl⟩ :=
    logged_visits eofsClosed_rules (by simp [Event.EofsClosed]) (fun _ _ _ _ => trivial)
      (visits_node h p)
      shard c k he
  obtain ⟨-, sent, hsent, hsum⟩ := (globalOk_visits h).closed p hp phase per
    ((Node.mem_view_log (by simp [Event.concerns])).mpr hclosed)
  exact ⟨sent, fun q hq =>
    (Node.mem_view_log (by simp [Event.concerns])).mp (hsent q hq), hsum shard⟩

/-- If nodes report what they publish and share no stamps, an end-of-file carries
the number of distinct messages of the whole ring. -/
theorem eof_eq_card (h : R.runs.Visits R.initial s) {shard p k : ℕ}
    (hcounts : ∀ q ∈ R.ids, ∀ sent, .reported c sent ∈ (s q).log →
      sent.getD shard 0 = (Event.distinctOn c shard (s q).log).card)
    (hdisjoint : ∀ q ∈ R.ids, ∀ q' ∈ R.ids, q ≠ q' →
      Disjoint (Event.distinctOn c shard (s q).log)
        (Event.distinctOn c shard (s q').log))
    (hp : p ∈ R.ids) (he : .eof shard c k ∈ (s p).log) :
    k = (R.distinctOn c shard s).card := by
  obtain ⟨sent, hsent, rfl⟩ := eof_eq_sum h hp he
  have hreported : ∀ q ∈ R.ids, (sent q).getD shard 0 =
      (Event.distinctOn c shard (s q).log).card :=
    fun q hq => hcounts q hq _ (hsent q hq)
  rw [List.map_congr_left hreported, distinctOn, Finset.card_biUnion]
  · exact (List.sum_toFinset _ R.nodup).symm
  · intro q hq q' hq' hne
    exact hdisjoint q (List.mem_toFinset.mp hq) q' (List.mem_toFinset.mp hq') hne

/-- Nodes stamp with producer ids of their own. -/
def SeparateProducers (R : AffinityRing Q F S E α β) : Prop :=
  ∀ p ∈ R.ids, ∀ q ∈ R.ids, p ≠ q → ∀ shard shard',
    (R.node p).producer shard ≠ (R.node q).producer shard'

omit [DecidableEq Q] in
theorem disjoint_ownStamps (hproducers : R.SeparateProducers) {p q : ℕ}
    (hp : p ∈ R.ids) (hq : q ∈ R.ids) (hne : p ≠ q) (shard : ℕ)
    (hown : Event.OwnStamps (R.node p).producer (s p).log)
    (hown' : Event.OwnStamps (R.node q).producer (s q).log) :
    Disjoint (Event.distinctOn c shard (s p).log)
      (Event.distinctOn c shard (s q).log) := by
  rw [Finset.disjoint_left]
  intro id hid hid'
  obtain ⟨pl, hmem⟩ := Event.mem_distinctOn.mp hid
  obtain ⟨pl', hmem'⟩ := Event.mem_distinctOn.mp hid'
  exact hproducers p hp q hq hne shard shard
    ((hown _ _ _ _ hmem).symm.trans (hown' _ _ _ _ hmem'))

end AffinityRing

/-! ## Rings of stateless nodes -/

namespace StatelessReplay

open RingNode

variable {F S α β : Type} {C : Controller Unit F S SentCounts α β}
  {arrivals : Unit → ℕ → Option (Message α)} {log : List (Event β)}

/-- The identities of the messages in the queue. -/
def Sources (arrivals : Unit → ℕ → Option (Message α)) : Set (ProducerId × ℕ) :=
  { id | ∃ j d, Carries arrivals ((), j) d ∧ d.identity = id }

/-- Outputs that keep the identity of their input have stamps of the queue. -/
theorem Justified.sources (h : Justified C arrivals log)
    (hkept : ∀ d, ∀ o ∈ C.outputs d, o.stamp = some d.identity) {shard : ℕ}
    {id : ProducerId × ℕ} {y : UUID} {pl : β} (he : .data shard id y pl ∈ log) :
    id ∈ Sources arrivals := by
  obtain ⟨n, hn⟩ := h.published shard id y pl he
  obtain ⟨d, hd, o, ho, seqs, -, rfl⟩ := Controller.mem_publishes hn
  obtain ⟨j, -, hj⟩ := Applied.mem_arrivals hd
  refine ⟨j, d, hj, ?_⟩
  simp [Controller.stampOf, hkept d o ho]

end StatelessReplay

namespace AffinityRing

open RingNode StatelessReplay

variable {α β : Type} {R : AffinityRing Unit Unit Unit SentCounts α β} {c : UUID}
  {s : ℕ → Node Unit Unit Unit SentCounts β}

/-- A ring of filters, of broadcast filters or of group-bys. -/
inductive StatelessRing (R : AffinityRing Unit Unit Unit SentCounts α β) : Prop
  | filters (nShards : ℕ) (f : DataMsg α → β)
      (hnode : ∀ p ∈ R.ids, ∃ cfg, R.node p = ringFilter cfg nShards f)
  | broadcastFilters (broadcastRoutes : List (DataMsg α → β))
      (shardedRoutes : List (ℕ × (DataMsg α → β)))
      (hpos : ∀ route ∈ shardedRoutes, 0 < route.1)
      (hnode : ∀ p ∈ R.ids, ∃ cfg,
        R.node p = ringBroadcastFilter cfg broadcastRoutes shardedRoutes)
  | groupBys (fleets : List ℕ) (groupBy : DataMsg α → List (β × ℤ))
      (hnode : ∀ p ∈ R.ids, ∃ cfg, R.node p = ringGroupBy cfg fleets groupBy)

theorem StatelessRing.node (h : StatelessRing R) {p : ℕ} (hp : p ∈ R.ids) :
    StatelessClass (R.node p) := by
  cases h with
  | filters nShards f hnode =>
      obtain ⟨cfg, heq⟩ := hnode p hp
      exact heq ▸ .filter cfg nShards f
  | broadcastFilters broadcastRoutes shardedRoutes hpos hnode =>
      obtain ⟨cfg, heq⟩ := hnode p hp
      exact heq ▸ .broadcastFilter cfg broadcastRoutes shardedRoutes hpos
  | groupBys fleets groupBy hnode =>
      obtain ⟨cfg, heq⟩ := hnode p hp
      exact heq ▸ .groupBy cfg fleets groupBy

/-- The nodes keep the identities of their inputs, or stamp anew. -/
theorem StatelessRing.stamps (h : StatelessRing R) :
    (∀ p ∈ R.ids, ∀ d, ∀ o ∈ (R.node p).outputs d, o.stamp = some d.identity) ∨
      ∀ p ∈ R.ids, ∀ d, ∀ o ∈ (R.node p).outputs d, o.stamp = none := by
  cases h with
  | filters nShards f hnode =>
      refine Or.inl fun p hp d o ho => ?_
      obtain ⟨cfg, heq⟩ := hnode p hp
      rw [heq] at ho
      rw [List.mem_singleton.mp ho]
  | broadcastFilters broadcastRoutes shardedRoutes hpos hnode =>
      refine Or.inl fun p hp d o ho => ?_
      obtain ⟨cfg, heq⟩ := hnode p hp
      rw [heq] at ho
      exact stamp_broadcastFilter d broadcastRoutes shardedRoutes o ho
  | groupBys fleets groupBy hnode =>
      refine Or.inr fun p hp d o ho => ?_
      obtain ⟨cfg, heq⟩ := hnode p hp
      rw [heq] at ho
      obtain ⟨g, -, hg⟩ := List.mem_flatMap.mp ho
      exact restamped_fanOut _ _ _ _ o hg

/-- What the queues and the producer ids of a ring have to promise: each queue
counts its messages, and no identity is used by two nodes. -/
structure StatelessSetup (R : AffinityRing Unit Unit Unit SentCounts α β) :
    Prop where
  fifo : R.fifo = true
  queues : ∀ p ∈ R.ids, CountedQueue (R.arrivals p)
  producers : R.SeparateProducers
  sources : ∀ p ∈ R.ids, ∀ q ∈ R.ids, p ≠ q →
    ∀ id ∈ Sources (R.arrivals p), id ∉ Sources (R.arrivals q)

theorem justified_node (hring : StatelessRing R) (hsetup : StatelessSetup R)
    (h : R.runs.Visits R.initial s) {p : ℕ} (hp : p ∈ R.ids) :
    Justified (R.node p) (R.arrivals p) (s p).log := by
  have hvisits := visits_node h p
  rw [hsetup.fifo] at hvisits
  exact justified_visits (hring.node hp).stateless (hsetup.queues p hp) hvisits

/-- No stamp is published by two nodes. -/
theorem disjoint_stamps (hring : StatelessRing R) (hsetup : StatelessSetup R)
    (h : R.runs.Visits R.initial s) {p q : ℕ} (hp : p ∈ R.ids) (hq : q ∈ R.ids)
    (hne : p ≠ q) {shard shard' : ℕ} {id : ProducerId × ℕ} {y y' : UUID} {pl pl' : β}
    (he : .data shard id y pl ∈ (s p).log) :
    .data shard' id y' pl' ∉ (s q).log := by
  intro he'
  rcases hring.stamps with hkept | hnone
  · have hid := (justified_node hring hsetup h hp).sources (hkept p hp) he
    have hid' := (justified_node hring hsetup h hq).sources (hkept q hq) he'
    exact hsetup.sources p hp q hq hne _ hid hid'
  · have hown : ∀ q ∈ R.ids, Event.OwnStamps (R.node q).producer (s q).log := by
      intro q hq
      refine logged_visits (ownStamps_rules fun o ho => ?_)
        (by simp [Event.OwnStamps]) (fun _ _ _ _ => trivial) (visits_node h q)
      rcases ho with ⟨d, ho⟩ | ⟨x, f, ho⟩
      · exact hnone q hq d o ho
      · rw [(hring.node hq).stateless.silent] at ho
        exact absurd ho List.not_mem_nil
    exact hsetup.producers p hp q hq hne shard shard'
      ((hown p hp _ _ _ _ he).symm.trans (hown q hq _ _ _ _ he'))

/-- All messages for one shard with one stamp are copies of one message. -/
theorem same_of_stateless (hring : StatelessRing R) (hsetup : StatelessSetup R)
    (h : R.runs.Visits R.initial s) {p q : ℕ} (hp : p ∈ R.ids) (hq : q ∈ R.ids)
    {shard : ℕ} {id : ProducerId × ℕ} {y y' : UUID} {pl pl' : β}
    (he : .data shard id y pl ∈ (s p).log) (he' : .data shard id y' pl' ∈ (s q).log) :
    y = y' ∧ pl = pl' := by
  by_cases hpq : p = q
  · subst hpq
    exact (justified_node hring hsetup h hp).same (hring.node hp).stateless he he'
  · exact absurd he' (disjoint_stamps hring hsetup h hp hq hpq he)

/-- An end-of-file carries the number of distinct messages. -/
theorem counted_of_stateless (hring : StatelessRing R) (hsetup : StatelessSetup R)
    (h : R.runs.Visits R.initial s) {p shard k : ℕ} {y : UUID} (hp : p ∈ R.ids)
    (he : .eof shard y k ∈ (s p).log) : k = (R.distinctOn y shard s).card := by
  refine eof_eq_card h (fun q hq sent hreported => ?_)
    (fun q hq q' hq' hne => ?_) hp he
  · exact (justified_node hring hsetup h hq).counts (hring.node hq).stateless
      (hsetup.queues q hq) hreported shard
  · rw [Finset.disjoint_left]
    intro id hid hid'
    obtain ⟨pl, hmem⟩ := Event.mem_distinctOn.mp hid
    obtain ⟨pl', hmem'⟩ := Event.mem_distinctOn.mp hid'
    exact disjoint_stamps hring hsetup h hq hq' hne hmem hmem'

/-- Count conservation of a stateless stage.  In every state that a ring of
stateless nodes passes through, whatever crashes and redeliveries: all messages
for one shard with one stamp have one payload, and an end-of-file that was sent
to a shard carries the number of distinct messages of its client that all nodes
together ever publish there. -/
theorem stateless_ring_conserves (hring : StatelessRing R)
    (hsetup : StatelessSetup R) (h : R.runs.Visits R.initial s) :
    (∀ p ∈ R.ids, ∀ q ∈ R.ids, ∀ shard id y y' pl pl',
      .data shard id y pl ∈ (s p).log → .data shard id y' pl' ∈ (s q).log →
        y = y' ∧ pl = pl') ∧
    ∀ p ∈ R.ids, ∀ shard y k, .eof shard y k ∈ (s p).log →
      k = (R.distinctOn y shard s).card :=
  ⟨fun _ hp _ hq _ _ _ _ _ _ he he' => same_of_stateless hring hsetup h hp hq he he',
    fun _ hp _ _ _ he => counted_of_stateless hring hsetup h hp he⟩

/-! ### Two nodes with one message each -/

theorem nodup_pair : ([0, 1] : List ℕ).Nodup := by decide

/-- Each of the two nodes stamps with a producer id of its own. -/
def pairConfig (p : ℕ) : NodeConfig :=
  ⟨Peer.ofIds p ([0, 1].erase p), 1, fun _ => BitVec.ofNat 128 (10 + p)⟩

/-- Two group-bys that make two groups of each input. -/
def twoSplitters : AffinityRing Unit Unit Unit SentCounts ℕ ℕ where
  ids := [0, 1]
  nodup := nodup_pair
  node p := ringGroupBy (pairConfig p) [2] fun d => [(d.body, 0), (d.body + 1, 1)]
  self_eq _ _ := rfl
  next p := 1 - p
  arrivals p _ := oneMessage (BitVec.ofNat 128 p)
  fifo := true
  fn₀ _ := ()

theorem carries_oneMessage {producerId : ProducerId} {j : ℕ} {d : DataMsg ℕ}
    (h : Carries (fun _ : Unit => oneMessage producerId) ((), j) d) :
    d = ⟨7, producerId, 1, 5⟩ := by
  match j, h with
  | 0, h => exact (Message.data.inj (Option.some.inj h)).symm
  | 1, h => cases h
  | _ + 2, h => cases h

theorem countedQueue_oneMessage (producerId : ProducerId) :
    CountedQueue fun _ : Unit => oneMessage producerId := by
  refine ⟨fun j d hd => ?_, ?_, fun i c k he => ?_⟩
  · rw [carries_oneMessage hd]
  · rintro ⟨⟨⟩, j⟩ ⟨⟨⟩, j'⟩ d d' hd hd' -
    rw [carries_oneMessage hd, carries_oneMessage hd']
  · have heof : c = 7 ∧ k = 1 := by
      match i, he with
      | 0, he => cases he
      | 1, he => exact ⟨(Message.eof.inj (Option.some.inj he)).1.symm,
          (Message.eof.inj (Option.some.inj he)).2.symm⟩
      | _ + 2, he => cases he
    obtain ⟨rfl, rfl⟩ := heof
    refine ⟨{(producerId, 1)}, by simp, fun id => ⟨fun hid => ?_, ?_⟩⟩
    · rw [Finset.mem_singleton.mp hid]
      exact ⟨0, ⟨7, producerId, 1, 5⟩, rfl, rfl, rfl⟩
    · rintro ⟨j, d, hd, -, rfl⟩
      rw [carries_oneMessage hd]
      exact Finset.mem_singleton_self _

theorem pair_ne {p q k : ℕ} (hp : p ∈ [0, 1]) (hq : q ∈ [0, 1]) (hne : p ≠ q) :
    BitVec.ofNat 128 (k + p) ≠ BitVec.ofNat 128 (k + q) := by
  simp only [List.mem_cons, List.not_mem_nil, or_false] at hp hq
  intro heq
  have hnat := congrArg BitVec.toNat heq
  simp only [BitVec.toNat_ofNat] at hnat
  omega

theorem statelessRing_twoSplitters : StatelessRing twoSplitters :=
  .groupBys [2] _ fun p _ => ⟨pairConfig p, rfl⟩

theorem statelessSetup_twoSplitters : StatelessSetup twoSplitters := by
  refine ⟨rfl, fun p _ => countedQueue_oneMessage _, ?_, ?_⟩
  · exact fun p hp q hq hne _ _ => pair_ne hp hq hne
  · intro p hp q hq hne
    rintro id ⟨j, d, hd, rfl⟩ ⟨j', d', hd', hid⟩
    rw [carries_oneMessage hd, carries_oneMessage hd'] at hid
    refine pair_ne (k := 0) hp hq hne ?_
    rw [Nat.zero_add, Nat.zero_add]
    exact (congrArg Prod.fst hid).symm

/-- The totals that both nodes report. -/
def onePerShard : ShardCounts := (Dict.empty.set 0 1).set 1 1

/-- The token as the leader starts it, and as the other node passes it on. -/
def halfToken : BarrierToken := ⟨7, 0, Dict.empty.set 0 onePerShard⟩

def wholeToken : BarrierToken :=
  { halfToken with sentBy := halfToken.sentBy.set 1 onePerShard }

/-- Node `1` crashes between the two messages that its input makes. -/
def crashedSplit : List (System.Move (ℕ × Call Unit) (UUID → ℕ → ℕ)) :=
  [.finish (0, .start), .finish (1, .start),
    .crash (1, .deliver ((), 0)) (fun _ n => n) 1, .finish (1, .start),
    .finish (1, .deliver ((), 0)), .finish (1, .deliver ((), 1)),
    .finish (0, .deliver ((), 0)), .finish (0, .deliver ((), 1)),
    .finish (1, .token halfToken), .finish (0, .token wholeToken)]

/-- The end-of-files that were sent, newest first. -/
def eofsIn (log : List (Event ℕ)) : List (ℕ × ℕ) :=
  log.filterMap fun
    | .eof shard _ k => some (shard, k)
    | _ => none

/-- Node `1` publishes one message twice, and both end-of-files carry `2`. -/
theorem stateless_ring_conserves_crashedSplit :
    ∃ s : ℕ → Node Unit Unit Unit SentCounts ℕ,
      twoSplitters.runs.playAll crashedSplit twoSplitters.initial = some s ∧
      eofsIn (s 0).log = [(1, 2), (0, 2)] ∧
      publishedIn (s 1).log = [(1, 2, 6), (0, 1, 5), (0, 1, 5)] ∧
      (∀ p ∈ twoSplitters.ids, ∀ q ∈ twoSplitters.ids, ∀ shard id y y' pl pl',
        .data shard id y pl ∈ (s p).log → .data shard id y' pl' ∈ (s q).log →
          y = y' ∧ pl = pl') ∧
      ∀ p ∈ twoSplitters.ids, ∀ shard y k, .eof shard y k ∈ (s p).log →
        k = (twoSplitters.distinctOn y shard s).card := by
  have hplays : (twoSplitters.runs.playAll crashedSplit
      twoSplitters.initial).map (fun s => (eofsIn (s 0).log, publishedIn (s 1).log)) =
        some ([(1, 2), (0, 2)], [(1, 2, 6), (0, 1, 5), (0, 1, 5)]) := by decide
  obtain ⟨s, hs, hobs⟩ := Option.map_eq_some_iff.mp hplays
  exact ⟨s, hs, congrArg Prod.fst hobs, congrArg Prod.snd hobs,
    stateless_ring_conserves statelessRing_twoSplitters statelessSetup_twoSplitters
      (.idle s (System.reach_of_playAll hs))⟩

end AffinityRing

/-! ## Rings of stateful nodes -/

namespace AffinityRing

open RingNode StatelessReplay

section Stateful

variable {Q F S E α β : Type} [DecidableEq Q] {R : AffinityRing Q F S E α β}
  {s : ℕ → Node Q F S E β}

omit [DecidableEq Q] in
/-- What such a node may send is stamped when it is sent. -/
theorem stamp_of_maySend {C : Controller Q F S E α β} (hC : Stateful C) {o : Output β}
    (ho : MaySend C o) : o.stamp = none := by
  rcases ho with ⟨d, ho⟩ | ⟨x, f, ho⟩
  · rw [hC.silent] at ho
    exact absurd ho List.not_mem_nil
  · exact hC.restamped x f o ho

theorem ownStamps_of_stateful (h : R.runs.Visits R.initial s) {p : ℕ}
    (hC : Stateful (R.node p)) : Event.OwnStamps (R.node p).producer (s p).log :=
  logged_visits (ownStamps_rules fun _ => stamp_of_maySend hC) (by simp [Event.OwnStamps])
    (fun _ _ _ _ => trivial) (visits_node h p)

/-- Count conservation of a stage of nodes that are replay-safe. -/
theorem conserves_of_replaySafe (hC : ∀ p ∈ R.ids, Stateful (R.node p))
    (hproducers : R.SeparateProducers) (h : R.runs.Visits R.initial s)
    (hsafe : ∀ p ∈ R.ids, ReplaySafe (s p).log) :
    (∀ p ∈ R.ids, ∀ q ∈ R.ids, ∀ shard shard' id y y' pl pl',
      .data shard id y pl ∈ (s p).log → .data shard' id y' pl' ∈ (s q).log →
        shard = shard' ∧ pl = pl') ∧
    ∀ p ∈ R.ids, ∀ shard y k, .eof shard y k ∈ (s p).log →
      k = (R.distinctOn y shard s).card := by
  have hown : ∀ p ∈ R.ids, Event.OwnStamps (R.node p).producer (s p).log :=
    fun p hp => ownStamps_of_stateful h (hC p hp)
  constructor
  · intro p hp q hq shard shard' id y y' pl pl' he he'
    by_cases hpq : p = q
    · subst hpq
      exact (hsafe p hp).same _ _ _ _ _ _ _ he he'
    · exact absurd ((hown p hp _ _ _ _ he).symm.trans (hown q hq _ _ _ _ he'))
        (hproducers p hp q hq hpq shard shard')
  · intro p hp shard y k he
    refine eof_eq_card h (fun q hq sent hreported => ?_)
      (fun q hq q' hq' hne => ?_) hp he
    · exact (hsafe q hq).counts y sent hreported shard
    · exact disjoint_ownStamps hproducers hq hq' hne shard (hown q hq) (hown q' hq')

/-- Count conservation of a stage of nodes that emit their results at the end. -/
theorem conserves_of_stateful (tracks : E → Q → UUID → Prop)
    (hC : ∀ p ∈ R.ids, Stateful (R.node p))
    (laws : ∀ p ∈ R.ids, TracksEofs (R.node p) tracks) (hfifo : R.fifo = true)
    (hqueues : ∀ p ∈ R.ids, OrderedQueues (R.arrivals p))
    (hproducers : R.SeparateProducers) (h : R.runs.Visits R.initial s) :
    (∀ p ∈ R.ids, ∀ q ∈ R.ids, ∀ shard shard' id y y' pl pl',
      .data shard id y pl ∈ (s p).log → .data shard' id y' pl' ∈ (s q).log →
        shard = shard' ∧ pl = pl') ∧
    ∀ p ∈ R.ids, ∀ shard y k, .eof shard y k ∈ (s p).log →
      k = (R.distinctOn y shard s).card := by
  refine conserves_of_replaySafe hC hproducers h fun p hp => ?_
  have hvisits := visits_node h p
  rw [hfifo] at hvisits
  exact replaySafe_visits (hC p hp) (laws p hp) (hqueues p hp) hvisits

end Stateful

/-- Count conservation of a ring of aggregates and of a ring of merges, whose
business state is described by its snapshots and whose queues redeliver in order,
with no data of a client behind an end-of-file of the client: all messages with
one stamp are copies of one message for one shard, and an end-of-file that was
sent to a shard carries the number of distinct messages of its client that all
nodes together ever publish there. -/
theorem stateful_ring_conserves {F S α β : Type} :
    (∀ (R : AffinityRing Unit F S Unit α β) (nShards : ℕ)
        (fn : AggregateFn F S α β) (broadcast : Bool)
        (s : ℕ → Node Unit F S Unit β),
      (∀ p ∈ R.ids, ∃ cfg, R.node p = ringAggregate cfg nShards fn broadcast) →
      DescribesAll fn.provider → R.fifo = true →
      (∀ p ∈ R.ids, OrderedQueues (R.arrivals p)) → R.SeparateProducers →
      R.runs.Visits R.initial s →
        (∀ p ∈ R.ids, ∀ q ∈ R.ids, ∀ shard shard' id y y' pl pl',
          .data shard id y pl ∈ (s p).log → .data shard' id y' pl' ∈ (s q).log →
            shard = shard' ∧ pl = pl') ∧
        ∀ p ∈ R.ids, ∀ shard y k, .eof shard y k ∈ (s p).log →
          k = (R.distinctOn y shard s).card) ∧
    (∀ (R : AffinityRing Side F S MergeEofCounts α β) (nShards : ℕ)
        (fn : MergeFn F S α β) (s : ℕ → Node Side F S MergeEofCounts β),
      (∀ p ∈ R.ids, ∃ cfg, R.node p = ringMerge cfg nShards fn) →
      DescribesAll fn.provider → R.fifo = true →
      (∀ p ∈ R.ids, OrderedQueues (R.arrivals p)) → R.SeparateProducers →
      R.runs.Visits R.initial s →
        (∀ p ∈ R.ids, ∀ q ∈ R.ids, ∀ shard shard' id y y' pl pl',
          .data shard id y pl ∈ (s p).log → .data shard' id y' pl' ∈ (s q).log →
            shard = shard' ∧ pl = pl') ∧
        ∀ p ∈ R.ids, ∀ shard y k, .eof shard y k ∈ (s p).log →
          k = (R.distinctOn y shard s).card) := by
  constructor
  · intro R nShards fn broadcast s hnode hwhole hfifo hqueues hproducers h
    refine conserves_of_stateful (fun _ _ _ => False) (fun p hp => ?_)
      (fun p hp => ?_) hfifo hqueues hproducers h
    · obtain ⟨cfg, heq⟩ := hnode p hp
      exact heq ▸ stateful_ringAggregate hwhole
    · obtain ⟨cfg, heq⟩ := hnode p hp
      exact heq ▸ tracksEofs_ringAggregate
  · intro R nShards fn s hnode hwhole hfifo hqueues hproducers h
    refine conserves_of_stateful MergeEofCounts.Announced
      (fun p hp => ?_) (fun p hp => ?_) hfifo hqueues hproducers h
    · obtain ⟨cfg, heq⟩ := hnode p hp
      exact heq ▸ stateful_ringMerge hwhole
    · obtain ⟨cfg, heq⟩ := hnode p hp
      exact heq ▸ tracksEofs_ringMerge

/-- Two aggregates that send two results each. -/
def twoTotals : AffinityRing Unit ℕ ℕ Unit ℕ ℕ where
  ids := [0, 1]
  nodup := nodup_pair
  node p := ringAggregate (pairConfig p) 2 totalAggregate false
  self_eq _ _ := rfl
  next p := 1 - p
  arrivals p _ := oneMessage (BitVec.ofNat 128 p)
  fifo := true
  fn₀ _ := 0

/-- Two merges that send two results each. -/
def twoMerges : AffinityRing Side (ℕ × ℕ) (ℕ × ℕ) MergeEofCounts ℕ ℕ where
  ids := [0, 1]
  nodup := nodup_pair
  node p := ringMerge (pairConfig p) 2 totalMerge
  self_eq _ _ := rfl
  next p := 1 - p
  arrivals _ q := oneMessage (sideProducer q)
  fifo := true
  fn₀ _ := (0, 0)

/-- Node `1` crashes in the middle of its emission and emits again. -/
def crashedTotal : List (System.Move (ℕ × Call Unit) (UUID → ℕ → ℕ)) :=
  [.finish (0, .start), .finish (1, .start), .finish (1, .deliver ((), 0)),
    .crash (1, .deliver ((), 1)) (fun _ n => n) 5, .finish (1, .start),
    .finish (0, .deliver ((), 0)), .finish (0, .deliver ((), 1)),
    .finish (1, .token halfToken), .finish (0, .token wholeToken)]

def crashedMerge : List (System.Move (ℕ × Call Side) (UUID → ℕ → ℕ)) :=
  [.finish (0, .start), .finish (1, .start), .finish (1, .deliver (.left, 0)),
    .finish (1, .deliver (.right, 0)), .finish (1, .deliver (.left, 1)),
    .crash (1, .deliver (.right, 1)) (fun _ n => n) 5, .finish (1, .start),
    .finish (0, .deliver (.left, 0)), .finish (0, .deliver (.right, 0)),
    .finish (0, .deliver (.right, 1)), .finish (0, .deliver (.left, 1)),
    .finish (1, .token halfToken), .finish (0, .token wholeToken)]

/-- In both rings node `1` publishes its result twice, and the end-of-files carry
the two distinct messages for each shard. -/
theorem stateful_ring_conserves_crashedEmissions :
    (∃ s : ℕ → Node Unit ℕ ℕ Unit ℕ,
      twoTotals.runs.playAll crashedTotal twoTotals.initial = some s ∧
      (eofsIn (s 0).log, publishedIn (s 1).log) = ([(1, 2), (0, 2)],
        [(1, 2, 6), (0, 1, 5), (1, 2, 6), (0, 1, 5)]) ∧
      (∀ p ∈ twoTotals.ids, ∀ q ∈ twoTotals.ids, ∀ shard shard' id y y' pl pl',
        .data shard id y pl ∈ (s p).log → .data shard' id y' pl' ∈ (s q).log →
          shard = shard' ∧ pl = pl') ∧
      ∀ p ∈ twoTotals.ids, ∀ shard y k, .eof shard y k ∈ (s p).log →
        k = (twoTotals.distinctOn y shard s).card) ∧
    ∃ s : ℕ → Node Side (ℕ × ℕ) (ℕ × ℕ) MergeEofCounts ℕ,
      twoMerges.runs.playAll crashedMerge twoMerges.initial = some s ∧
      (eofsIn (s 0).log, publishedIn (s 1).log) = ([(1, 2), (0, 2)],
        [(1, 2, 5), (0, 1, 5), (1, 2, 5), (0, 1, 5)]) ∧
      (∀ p ∈ twoMerges.ids, ∀ q ∈ twoMerges.ids, ∀ shard shard' id y y' pl pl',
        .data shard id y pl ∈ (s p).log → .data shard' id y' pl' ∈ (s q).log →
          shard = shard' ∧ pl = pl') ∧
      ∀ p ∈ twoMerges.ids, ∀ shard y k, .eof shard y k ∈ (s p).log →
        k = (twoMerges.distinctOn y shard s).card := by
  constructor
  · have hplays : (twoTotals.runs.playAll crashedTotal
        twoTotals.initial).map (fun s => (eofsIn (s 0).log, publishedIn (s 1).log)) =
          some ([(1, 2), (0, 2)], [(1, 2, 6), (0, 1, 5), (1, 2, 6), (0, 1, 5)]) := by
      decide
    obtain ⟨s, hs, hobs⟩ := Option.map_eq_some_iff.mp hplays
    refine ⟨s, hs, hobs, stateful_ring_conserves.1 twoTotals 2 totalAggregate false s
      (fun p _ => ⟨pairConfig p, rfl⟩) (fun _ _ => rfl) rfl (fun p _ => ?_)
      (fun p hp q hq hne _ _ => pair_ne hp hq hne)
      (.idle s (System.reach_of_playAll hs))⟩
    exact orderedQueues_oneMessage (p := fun _ : Unit => BitVec.ofNat 128 p)
      fun _ _ _ => Subsingleton.elim _ _
  · have hplays : (twoMerges.runs.playAll crashedMerge
        twoMerges.initial).map (fun s => (eofsIn (s 0).log, publishedIn (s 1).log)) =
          some ([(1, 2), (0, 2)], [(1, 2, 5), (0, 1, 5), (1, 2, 5), (0, 1, 5)]) := by
      decide
    obtain ⟨s, hs, hobs⟩ := Option.map_eq_some_iff.mp hplays
    refine ⟨s, hs, hobs, stateful_ring_conserves.2 twoMerges 2 totalMerge s
      (fun p _ => ⟨pairConfig p, rfl⟩) (fun _ _ => rfl) rfl (fun p _ => ?_)
      (fun p hp q hq hne _ _ => pair_ne hp hq hne)
      (.idle s (System.reach_of_playAll hs))⟩
    refine orderedQueues_oneMessage fun q q' heq => ?_
    cases q <;> cases q' <;> first | rfl | simp [sideProducer] at heq

end AffinityRing
