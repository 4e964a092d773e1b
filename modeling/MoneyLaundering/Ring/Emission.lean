import Mathlib.Data.Finset.Card
import MoneyLaundering.Ring.ClientView
import MoneyLaundering.Ring.Controllers

/-!
# Emissions

What a node publishes, as a function of the state it starts from: the stamps of a
list of outputs, the states a node passes through while it emits a client, and
the number of distinct messages a history has for one shard.
-/

open Crash

/-! ## What may still be emitted -/

namespace RingCompletion

variable {self : Peer} {rc : RingCompletion} {x c : UUID}

/-- The client is not emitted yet and may still be. -/
def Owed (rc : RingCompletion) (x : UUID) : Prop :=
  (rc.client x).phase = .processing ∧ rc.isAborted x = false

theorem advance_spec (self : Peer) (rc : RingCompletion) (t : BarrierToken) :
    (∀ y, (rc.advance self t).1.client y = rc.client y ∨
      y = t.clientId ∧ ((rc.advance self t).1.client y).phase = .done) ∧
    ∀ y, (rc.advance self t).1.isAborted y = rc.isAborted y := by
  rcases RingNode.advance_cases self rc t with heq | heq | heq <;> rw [heq]
  · exact ⟨fun _ => Or.inl rfl, fun _ => rfl⟩
  · exact ⟨fun _ => Or.inl rfl, fun _ => rfl⟩
  · refine ⟨fun y => ?_, fun _ => rfl⟩
    by_cases hy : y = t.clientId
    · exact Or.inr ⟨hy, by simp [hy]⟩
    · exact Or.inl (by simp [hy])

/-- A token leaves a client alone or moves it to its last phase. -/
theorem onToken_spec (self : Peer) (rc : RingCompletion) (t : BarrierToken) :
    (∀ y, (rc.onToken self t).1.client y = rc.client y ∨
      ((rc.onToken self t).1.client y).phase = .done) ∧
    ∀ y, (rc.onToken self t).1.isAborted y = rc.isAborted y := by
  unfold onToken
  split
  · exact ⟨fun _ => Or.inl rfl, fun _ => rfl⟩
  · obtain ⟨hclient, haborted⟩ := advance_spec self
      (rc.touch t.clientId) (stampToken self rc t)
    refine ⟨fun y => ?_, fun y => (haborted y).trans rfl⟩
    rcases hclient y with h | h
    · exact Or.inl (h.trans (client_touch rc _ y))
    · exact Or.inr h.2

/-- An aborted client ignores tokens. -/
theorem forgotten_onToken (self : Peer) (t : BarrierToken)
    (hrc : ∀ y, rc.isAborted y = true → rc.client y = .new) :
    ∀ y, (rc.onToken self t).1.isAborted y = true →
      (rc.onToken self t).1.client y = .new := by
  unfold onToken
  split
  · exact hrc
  · rename_i hab
    obtain ⟨hclient, haborted⟩ := advance_spec self
      (rc.touch t.clientId) (stampToken self rc t)
    intro y hy
    have hy' : rc.isAborted y = true := (haborted y).symm.trans hy
    rcases hclient y with h | ⟨h, -⟩
    · exact (h.trans (client_touch rc _ y)).trans (hrc y hy')
    · rw [clientId_stampToken] at h
      exact absurd (h ▸ hy') hab

/-- A report leaves the other clients alone. -/
theorem reportSent_frame (self : Peer) (rc : RingCompletion) (c : UUID)
    (sent : ShardCounts) :
    (∀ y, y ≠ c → (rc.reportSent self c sent).1.client y = rc.client y) ∧
    ∀ y, (rc.reportSent self c sent).1.isAborted y = rc.isAborted y := by
  have hmark : ∀ y, y ≠ c → (rc.markEmitted c sent).client y = rc.client y :=
    fun y hy => by simp [markEmitted, hy]
  unfold reportSent
  split
  · exact ⟨fun _ _ => rfl, fun _ => rfl⟩
  split
  · exact ⟨hmark, fun _ => rfl⟩
  · obtain ⟨hclient, haborted⟩ := advance_spec self
      (rc.markEmitted c sent) (firstToken self c sent)
    refine ⟨fun y hy => ?_, fun y => (haborted y).trans rfl⟩
    rcases hclient y with h | ⟨h, -⟩
    · exact h.trans (hmark y hy)
    · exact absurd h hy

/-- A report moves its client out of processing. -/
theorem phase_reportSent (self : Peer) (sent : ShardCounts)
    (hphase : (rc.client c).phase = .processing) :
    ((rc.reportSent self c sent).1.client c).phase ≠ .processing := by
  have hmark : ((rc.markEmitted c sent).client c).phase ≠ .processing := by
    simp [markEmitted]
  unfold reportSent
  rw [if_neg (by simpa using hphase)]
  split
  · exact hmark
  · rcases (advance_spec self (rc.markEmitted c sent)
      (firstToken self c sent)).1 c with h | ⟨-, h⟩
    · rw [h]
      exact hmark
    · simp [h]

/-- Counting an input keeps the phases, and so what is owed. -/
theorem Counts.phase_eq {r : RingCompletion × List UUID} (h : rc.Counts c r)
    (y : UUID) : (r.1.client y).phase = (rc.client y).phase := by
  rcases h with rfl | ⟨-, cl, hphase, -, rfl⟩
  · rfl
  · by_cases hy : y = c
    · simp [hy, hphase]
    · simp [hy]

theorem Counts.owed_iff {r : RingCompletion × List UUID} (h : rc.Counts c r)
    (y : UUID) : r.1.Owed y ↔ rc.Owed y := by
  have haborted : r.1.isAborted y = rc.isAborted y := by
    rcases h with rfl | ⟨-, cl, -, -, rfl⟩ <;> rfl
  rw [Owed, Owed, h.phase_eq y, haborted]

/-- The clients to emit after that: the counted one, if it is ready. -/
theorem Counts.emits {r : RingCompletion × List UUID} (h : rc.Counts c r) :
    r.2.Nodup ∧ ∀ y ∈ r.2, y = c ∧ (r.1.client y).ready = true := by
  rcases h with rfl | ⟨-, cl, -, -, rfl⟩
  · exact ⟨List.nodup_nil, by simp⟩
  · refine ⟨nodup_maybeLocalComplete _ _, fun y hy => ?_⟩
    obtain ⟨rfl, hready⟩ := mem_maybeLocalComplete.mp hy
    exact ⟨rfl, hready⟩

/-- If no client was ready, the emitted ones are the only ready ones. -/
theorem Counts.mem_iff {r : RingCompletion × List UUID} (h : rc.Counts c r)
    (hquiet : ∀ y, (rc.client y).ready = false) (y : UUID) :
    y ∈ r.2 ↔ (r.1.client y).ready = true := by
  rcases h with rfl | ⟨-, cl, -, -, rfl⟩
  · simp [hquiet]
  · rw [mem_maybeLocalComplete]
    by_cases hy : y = c
    · simp [hy]
    · simp [hy, hquiet]

/-- Only a client that is not aborted is counted. -/
theorem Counts.forgotten {r : RingCompletion × List UUID} (h : rc.Counts c r)
    (hrc : ∀ y, rc.isAborted y = true → rc.client y = .new) :
    ∀ y, r.1.isAborted y = true → r.1.client y = .new := by
  rcases h with rfl | ⟨hab, cl, -, -, rfl⟩
  · exact hrc
  · intro y hy
    have hne : y ≠ c := by
      rintro rfl
      rw [isAborted_put, hab] at hy
      cases hy
    rw [client_put, if_neg hne]
    exact hrc y hy

end RingCompletion

namespace Node

variable {Q F S E β : Type}

/-- The output counters of the last checkpoint. -/
def storedSeqs (m : Node Q F S E β) : ProducerId → ℕ :=
  match m.store with
  | none => fun _ => 0
  | some b => b.state.outSeq

end Node

/-! ## Stamps -/

namespace Controller

variable {Q F S E α β : Type} (C : Controller Q F S E α β)

/-- The identity with which an output is published. -/
def stampOf (seqs : ProducerId → ℕ) (o : Output β) : ProducerId × ℕ :=
  match o.stamp with
  | some id => id
  | none => (C.producer o.shard, seqs (C.producer o.shard) + 1)

/-- The counters after an output. -/
def bump (seqs : ProducerId → ℕ) (o : Output β) : ProducerId → ℕ :=
  match o.stamp with
  | some _ => seqs
  | none => Function.update seqs (C.producer o.shard)
      (seqs (C.producer o.shard) + 1)

/-- The counters after a list of outputs. -/
def seqsAfter (seqs : ProducerId → ℕ) (outs : List (Output β)) :
    ProducerId → ℕ :=
  outs.foldl C.bump seqs

/-- The entries of a list of outputs, oldest first. -/
def stampAll (x : UUID) : (ProducerId → ℕ) → List (Output β) → List (Event β)
  | _, [] => []
  | seqs, o :: outs =>
    .data o.shard (C.stampOf seqs o) x o.payload ::
      stampAll x (C.bump seqs o) outs

variable {C} {x c : UUID} {seqs : ProducerId → ℕ} {o : Output β}
  {outs : List (Output β)} {e : Event β}

theorem stampAll_append (seqs : ProducerId → ℕ) (outs outs' : List (Output β)) :
    C.stampAll x seqs (outs ++ outs') =
      C.stampAll x seqs outs ++ C.stampAll x (C.seqsAfter seqs outs) outs' := by
  induction outs generalizing seqs with
  | nil => rfl
  | cons o outs ih =>
      rw [List.cons_append, stampAll, stampAll, ih]
      rfl

theorem eq_data_of_mem_stampAll (h : e ∈ C.stampAll x seqs outs) :
    ∃ s id pl, e = .data s id x pl := by
  induction outs generalizing seqs with
  | nil => simp [stampAll] at h
  | cons o outs ih =>
      rcases List.mem_cons.mp h with rfl | h
      · exact ⟨_, _, _, rfl⟩
      · exact ih h

/-! ### Stamps from the counters -/

/-- Every output takes its stamp from the counters. -/
def Restamped (outs : List (Output β)) : Prop := ∀ o ∈ outs, o.stamp = none

theorem Restamped.tail (h : Restamped (o :: outs)) : Restamped outs :=
  fun o' ho' => h o' (List.mem_cons_of_mem _ ho')

theorem le_bump (seqs : ProducerId → ℕ) (o : Output β) (p : ProducerId) :
    seqs p ≤ C.bump seqs o p := by
  unfold bump
  cases o.stamp with
  | some id => exact le_rfl
  | none =>
      by_cases hp : p = C.producer o.shard
      · subst hp
        simp
      · simp [hp]

theorem le_seqsAfter (seqs : ProducerId → ℕ) (outs : List (Output β))
    (p : ProducerId) : seqs p ≤ C.seqsAfter seqs outs p := by
  induction outs generalizing seqs with
  | nil => exact le_rfl
  | cons o outs ih => exact (le_bump seqs o p).trans (ih (C.bump seqs o))

/-- A stamp from the counters is just past them. -/
theorem stampOf_of_none (seqs : ProducerId → ℕ) (h : o.stamp = none) :
    C.stampOf seqs o = (C.producer o.shard, seqs (C.producer o.shard) + 1) ∧
      C.bump seqs o (C.producer o.shard) = seqs (C.producer o.shard) + 1 := by
  simp [stampOf, bump, h]

/-- The stamps of a list of outputs lie between the counters before and after. -/
theorem bounds_of_mem_stampAll (hnone : Restamped outs) {s : ℕ}
    {id : ProducerId × ℕ} {pl : β}
    (h : .data s id c pl ∈ C.stampAll x seqs outs) :
    c = x ∧ seqs id.1 < id.2 ∧ id.2 ≤ C.seqsAfter seqs outs id.1 := by
  induction outs generalizing seqs with
  | nil => simp [stampAll] at h
  | cons o outs ih =>
      have hle := le_seqsAfter (C := C) (C.bump seqs o) outs
      rcases List.mem_cons.mp h with h | h
      · obtain ⟨hstamp, hbump⟩ := stampOf_of_none (C := C) seqs
          (hnone o List.mem_cons_self)
        rw [hstamp] at h
        cases h
        have hle' := hle (C.producer o.shard)
        rw [hbump] at hle'
        exact ⟨rfl, Nat.lt_succ_self _, hle'⟩
      · obtain ⟨hc, hlt, hle'⟩ := ih hnone.tail h
        exact ⟨hc, lt_of_le_of_lt (le_bump seqs o id.1) hlt, hle'⟩

/-- The stamp of an entry, if it is a published message. -/
def stampOfEvent : Event β → Option (ProducerId × ℕ)
  | .data _ id _ _ => some id
  | _ => none

/-- No two outputs get the same stamp. -/
theorem nodup_stampAll (hnone : Restamped outs) :
    ((C.stampAll x seqs outs).filterMap stampOfEvent).Nodup := by
  induction outs generalizing seqs with
  | nil => simp [stampAll]
  | cons o outs ih =>
      obtain ⟨hstamp, hbump⟩ := stampOf_of_none (C := C) seqs
        (hnone o List.mem_cons_self)
      rw [stampAll, List.filterMap_cons_some (by rfl), List.nodup_cons]
      refine ⟨fun hmem => ?_, ih hnone.tail⟩
      obtain ⟨e, he, hid⟩ := List.mem_filterMap.mp hmem
      obtain ⟨s, id, pl, rfl⟩ := eq_data_of_mem_stampAll he
      have hlt := (bounds_of_mem_stampAll hnone.tail he).2.1
      obtain rfl : id = C.stampOf seqs o := Option.some.inj hid
      rw [hstamp, hbump] at hlt
      exact absurd hlt (lt_irrefl _)

/-- The stamp determines the message. -/
theorem eq_of_stamp_eq {es : List (Event β)}
    (hnodup : (es.filterMap stampOfEvent).Nodup) {s s' : ℕ}
    {id : ProducerId × ℕ} {c c' : UUID} {pl pl' : β}
    (h : .data s id c pl ∈ es) (h' : .data s' id c' pl' ∈ es) :
    s = s' ∧ c = c' ∧ pl = pl' := by
  induction es with
  | nil => simp at h
  | cons e es ih =>
      have hout : ∀ {s c pl}, e = .data s id c pl →
          ∀ {s' c' pl'}, .data s' id c' pl' ∉ es := by
        rintro s c pl rfl s' c' pl' hmem
        rw [List.filterMap_cons_some (by rfl), List.nodup_cons] at hnodup
        exact hnodup.1 (List.mem_filterMap.mpr ⟨_, hmem, rfl⟩)
      have htail : (es.filterMap stampOfEvent).Nodup :=
        hnodup.sublist ((List.sublist_cons_self e es).filterMap stampOfEvent)
      rcases List.mem_cons.mp h with h | h
      · rcases List.mem_cons.mp h' with h' | h'
        · have heq := h.trans h'.symm
          simp only [Event.data.injEq] at heq
          exact ⟨heq.1, heq.2.2⟩
        · exact absurd h' (hout h.symm)
      · rcases List.mem_cons.mp h' with h' | h'
        · exact absurd h (hout h'.symm)
        · exact ih htail h h'

/-! ### Results of the stateful classes -/

theorem restamped_ringAggregate {F S : Type} {cfg : NodeConfig} {nShards : ℕ}
    {fn : AggregateFn F S α β} {broadcast : Bool} (f : F) :
    Restamped ((ringAggregate cfg nShards fn broadcast).getResult x f).1 := by
  intro o ho
  obtain ⟨e, -, he⟩ := List.mem_flatMap.mp ho
  unfold RingAggregate.route at he
  split at he
  · obtain ⟨s, -, rfl⟩ := List.mem_map.mp he
    rfl
  · rw [List.mem_singleton.mp he]

theorem restamped_ringMerge {F S : Type} {cfg : NodeConfig} {nShards : ℕ}
    {fn : MergeFn F S α β} (f : F) :
    Restamped ((ringMerge cfg nShards fn).getResult x f).1 := by
  intro o ho
  obtain ⟨e, -, rfl⟩ := List.mem_map.mp ho
  rfl

end Controller

/-! ## Distinct messages of a history -/

namespace Event

variable {β : Type}

/-- The stamp of a message of the client for the shard. -/
def stampOn (x : UUID) (shard : ℕ) : Event β → Option (ProducerId × ℕ)
  | .data s id c _ => if s = shard ∧ c = x then some id else none
  | _ => none

/-- The distinct messages of the client that were published for the shard. -/
def distinctOn (x : UUID) (shard : ℕ) (log : List (Event β)) :
    Finset (ProducerId × ℕ) :=
  (log.filterMap (stampOn x shard)).toFinset

variable {x : UUID} {shard : ℕ} {log : List (Event β)} {e : Event β}

theorem mem_distinctOn {id : ProducerId × ℕ} :
    id ∈ distinctOn x shard log ↔ ∃ pl, .data shard id x pl ∈ log := by
  rw [distinctOn, List.mem_toFinset, List.mem_filterMap]
  constructor
  · rintro ⟨e, he, hid⟩
    cases e with
    | data s id' c pl =>
        simp only [stampOn, Option.ite_none_right_eq_some,
          Option.some.injEq] at hid
        obtain ⟨⟨rfl, rfl⟩, rfl⟩ := hid
        exact ⟨pl, he⟩
    | _ => simp [stampOn] at hid
  · rintro ⟨pl, he⟩
    exact ⟨_, he, by simp [stampOn]⟩

/-- An entry that is known, or about something else, adds no distinct message. -/
theorem distinctOn_cons
    (h : ∀ id pl, e = .data shard id x pl → ∃ pl', .data shard id x pl' ∈ log) :
    distinctOn x shard (e :: log) = distinctOn x shard log := by
  ext id
  rw [mem_distinctOn, mem_distinctOn]
  constructor
  · rintro ⟨pl, hmem⟩
    rcases List.mem_cons.mp hmem with heq | hmem
    · exact h id pl heq.symm
    · exact ⟨pl, hmem⟩
  · rintro ⟨pl, hmem⟩
    exact ⟨pl, List.mem_cons_of_mem _ hmem⟩

end Event

namespace Event

variable {β : Type}

/-- A barrier message: neither a data message nor a report. -/
def isBarrier : Event β → Bool
  | .eof _ _ _ => true
  | .forward _ => true
  | _ => false

/-- The entry is neither a data message nor a report. -/
def Plain (e : Event β) : Prop :=
  (∀ s id x pl, e ≠ .data s id x pl) ∧ ∀ x sent, e ≠ .reported x sent

theorem plain_of_mem_closings {rc : RingCompletion}
    {actions : List BarrierAction} {e : Event β}
    (h : e ∈ RingNode.closings rc actions) : e.Plain := by
  obtain ⟨a, -, ha⟩ := List.mem_filterMap.mp h
  cases a with
  | forward t => simp at ha
  | downstreamEof c counts =>
      obtain rfl := Option.some.inj ha
      exact ⟨by simp, by simp⟩

theorem plain_of_isBarrier {e : Event β} (h : e.isBarrier = true) : e.Plain := by
  refine ⟨?_, ?_⟩
  · rintro s id x pl rfl
    cases h
  · rintro x sent rfl
    cases h

theorem distinctOn_append_plain {es log : List (Event β)}
    (h : ∀ e ∈ es, e.Plain) (x : UUID) (s : ℕ) :
    distinctOn x s (es ++ log) = distinctOn x s log := by
  induction es with
  | nil => rfl
  | cons e es ih =>
      rw [List.cons_append, distinctOn_cons, ih fun e he =>
        h e (List.mem_cons_of_mem _ he)]
      exact fun id pl heq => absurd heq ((h e List.mem_cons_self).1 s id x pl)

end Event

theorem getD_countShards {β : Type} (outs : List (Output β)) (s : ℕ) :
    (countShards outs).getD s 0 = (outs.filter fun o => o.shard = s).length := by
  have fold : ∀ (sent : ShardCounts),
      (outs.foldl (fun sent o => sent.set o.shard (sent.getD o.shard 0 + 1))
        sent).getD s 0 =
          sent.getD s 0 + (outs.filter fun o => o.shard = s).length := by
    induction outs with
    | nil => simp
    | cons o outs ih =>
        intro sent
        rw [List.foldl_cons, ih, Dict.getD_set, List.filter_cons]
        by_cases hs : o.shard = s
        · simp only [hs, if_true, decide_true, List.length_cons]
          omega
        · have hs' : ¬s = o.shard := fun h => hs h.symm
          simp [hs, hs']
  simpa [countShards] using fold Dict.empty

/-- The counts of a result are the numbers of its distinct messages. -/
theorem card_distinctOn_stampAll {Q F S E α β : Type}
    {C : Controller Q F S E α β} {x : UUID} (seqs : ProducerId → ℕ)
    {outs : List (Output β)} (hnone : Controller.Restamped outs) (s : ℕ) :
    (Event.distinctOn x s (C.stampAll x seqs outs)).card =
      (countShards outs).getD s 0 := by
  have hsub : ((C.stampAll x seqs outs).filterMap (Event.stampOn x s)).Sublist
      ((C.stampAll x seqs outs).filterMap Controller.stampOfEvent) := by
    clear hnone
    induction outs generalizing seqs with
    | nil => exact .slnil
    | cons o outs ih =>
        have hhead := @ih (C.bump seqs o)
        by_cases hs : o.shard = s
        · simpa [Controller.stampAll, Event.stampOn, Controller.stampOfEvent, hs]
            using hhead
        · simpa [Controller.stampAll, Event.stampOn, Controller.stampOfEvent, hs]
            using hhead.cons (C.stampOf seqs o)
  rw [Event.distinctOn, List.toFinset_card_of_nodup
    ((Controller.nodup_stampAll hnone).sublist hsub), getD_countShards]
  clear hsub hnone
  induction outs generalizing seqs with
  | nil => rfl
  | cons o outs ih =>
      rw [Controller.stampAll, List.filterMap_cons, List.filter_cons]
      by_cases hs : o.shard = s
      · simpa [Event.stampOn, hs] using ih (C.bump seqs o)
      · simpa [Event.stampOn, hs] using ih (C.bump seqs o)

/-! ## The states of an emission -/

namespace RingNode

variable {Q F S E α β : Type} {C : Controller Q F S E α β} {x : UUID}
  {m : Node Q F S E β}

theorem published_eq (C : Controller Q F S E α β) (x : UUID) (o : Output β)
    (m : Node Q F S E β) :
    published C x o m =
      (m.withState fun s => { s with seqs := C.bump s.seqs o }).logged
        (.data o.shard (C.stampOf m.state.seqs o) x o.payload) := by
  unfold published Controller.stampOf Controller.bump
  cases o.stamp <;> rfl

/-- What the client's result is, if it is emitted now. -/
def resultOf (C : Controller Q F S E α β) (x : UUID) (m : Node Q F S E β) :
    List (Output β) :=
  (C.getResult x m.state.fn).1

/-- The node after it took the result of the client and sent part of it. -/
def sending (C : Controller Q F S E α β) (x : UUID) (sent : List (Output β))
    (m : Node Q F S E β) : Node Q F S E β :=
  { m with
    state := { m.state with
      fn := (C.getResult x m.state.fn).2
      seqs := C.seqsAfter m.state.seqs sent }
    log := (C.stampAll x m.state.seqs sent).reverse ++ .emitting x :: m.log }

/-- The counts that the node reports for the client. -/
def countsOf (C : Controller Q F S E α β) (x : UUID) (m : Node Q F S E β) :
    ShardCounts :=
  (C.sentCounts x (resultOf C x m) m.state.extra).1

/-- The node after it sent the whole result and reported the counts. -/
def emitted (C : Controller Q F S E α β) (x : UUID) (m : Node Q F S E β) :
    Node Q F S E β :=
  { m with
    state :=
      { fn := (C.getResult x m.state.fn).2
        extra := (C.sentCounts x (resultOf C x m) m.state.extra).2
        seqs := C.seqsAfter m.state.seqs (resultOf C x m)
        rc := (m.rc.reportSent C.self x (countsOf C x m)).1 }
    log := closings (m.rc.markEmitted x (countsOf C x m))
        (m.rc.reportSent C.self x (countsOf C x m)).2 ++
      .reported x (countsOf C x m) ::
        ((C.stampAll x m.state.seqs (resultOf C x m)).reverse ++
          .emitting x :: m.log) }

theorem sending_concat (sent : List (Output β)) (o : Output β) :
    published C x o (sending C x sent m) = sending C x (sent ++ [o]) m := by
  rw [published_eq]
  simp only [sending, Node.withState, Machine.logged,
    Controller.stampAll_append, Controller.stampAll, List.reverse_append,
    List.reverse_cons, List.reverse_nil, List.nil_append, List.cons_append,
    Controller.seqsAfter, List.foldl_append, List.foldl_cons, List.foldl_nil]

/-- What barrier messages leave alone holds after the barrier. -/
theorem spec_runBarrier {P I : Node Q F S E β → Prop}
    (actions : List BarrierAction) (hI : ∀ m, P m → I m)
    (hbarrier : ∀ m e, e.isBarrier = true → P m → P (m.logged e)) :
    Spec P (runBarrier C actions) (fun _ => P) I := by
  refine Spec.forEach (I := fun _ => P) actions fun _ a _ _ => ?_
  cases a with
  | forward t =>
      exact Spec.change hI fun m hm => hbarrier m _ rfl hm
  | downstreamEof y counts =>
      refine Spec.forEach (I := fun _ => P) _ fun _ shard _ _ => ?_
      exact Spec.change hI fun m hm => hbarrier m _ rfl hm

/-- The emission of a client: `I` has to hold wherever a part of the result was
sent, and `R` once all of it was sent and reported. -/
theorem spec_emit {P R I : Node Q F S E β → Prop} (x : UUID)
    (hsend : ∀ m, P m → ∀ sent rest, resultOf C x m = sent ++ rest →
      I (sending C x sent m))
    (hdone : ∀ m, P m → R (emitted C x m)) (hI : ∀ m, R m → I m)
    (hbarrier : ∀ m e, e.isBarrier = true → R m → R (m.logged e)) :
    Spec P (emit C x) (fun _ => R) I := by
  refine Spec.bind (Q := fun _ t => ∃ m, P m ∧ t = m.logged (.emitting x))
    (Spec.modify fun m hm => ⟨m, hm, rfl⟩) fun _ => ?_
  refine Spec.bind (Q := fun outs t => ∃ m, P m ∧ outs = resultOf C x m ∧
      t = sending C x [] m) (Spec.compute ?_) fun outs => ?_
  · rintro _ ⟨m, hm, rfl⟩
    exact ⟨m, hm, rfl, rfl⟩
  refine Spec.bind (Q := fun _ t => ∃ m, P m ∧ outs = resultOf C x m ∧
      t = sending C x outs m) ?_ fun _ => ?_
  · refine Spec.forEach (I := fun sent t => ∃ m, P m ∧ outs = resultOf C x m ∧
      t = sending C x sent m) outs ?_
    rintro sent o rest hsplit
    refine Spec.change ?_ ?_
    · rintro _ ⟨m, hm, hres, rfl⟩
      exact hsend m hm sent (o :: rest) (hres.symm.trans hsplit)
    · rintro _ ⟨m, hm, hres, rfl⟩
      exact ⟨m, hm, hres, sending_concat sent o⟩
  refine Spec.bind (Q := fun _ => R) (Spec.compute ?_)
    fun actions => spec_runBarrier actions hI hbarrier
  rintro _ ⟨m, hm, rfl, rfl⟩
  exact hdone m hm

/-- What a token changes, in terms of the completion state. -/
theorem receiveToken_eq (C : Controller Q F S E α β) (t : BarrierToken)
    (m : Node Q F S E β) :
    receiveToken C t m = ((m.rc.onToken C.self t).2,
      { m with
        state := { m.state with rc := (m.rc.onToken C.self t).1 }
        log := closings m.rc (m.rc.onToken C.self t).2 ++ m.log }) := rfl

end RingNode
