import MoneyLaundering.Ring.StageProgress

/-!
# Stages in a row

What a stage publishes on a shard is what the next stage reads from a queue.  The module
shows that the queues behind a stateless stage keep the promises that the next stage needs,
whatever crashes fall and in whatever order and number the copies arrive, and that two
stateless stages in a row complete.
-/

open Crash RingNode

namespace AffinityRing

open StatelessReplay

/-! ## Queues behind a ring -/

section Queues

variable {Q F S E α β : Type} [DecidableEq Q] {R : AffinityRing Q F S E α β}
  {course : R.Course} {e e' : Event β} {n k p : ℕ}

/-- At some time a node of the ring published the entry. -/
def Publishes (course : R.Course) (e : Event β) : Prop :=
  ∃ n, ∃ p ∈ R.ids, e ∈ (course.state n p).log

/-- The message that an entry of the history puts on a shard. -/
def arrival (shard : ℕ) : Event β → Option (Message β)
  | .data s id y pl => if s = shard then some (.data ⟨y, id.1, id.2, pl⟩) else none
  | .eof s y k => if s = shard then some (.eof y k) else none
  | .abort s y => if s = shard then some (.abort y) else none
  | _ => none

/-- The queue is bound to a shard of the ring: it gets what is published there, each message
once or more often and in any order, and nothing else. -/
def Feeds (course : R.Course) (shard : ℕ) (queue : ℕ → Option (Message β)) : Prop :=
  ∀ msg, (∃ j, queue j = some msg) ↔ ∃ e, arrival shard e = some msg ∧ Publishes course e

section Arrivals

variable {shard : ℕ} {queue : ℕ → Option (Message β)} {y : UUID}

omit [DecidableEq Q] in
theorem arrival_eq_data {d : DataMsg β} : arrival shard e = some (.data d) ↔
    e = .data shard d.identity d.clientId d.body := by
  constructor
  · intro h
    unfold arrival at h
    split at h
    · split at h
      · next heq =>
          have hd := Message.data.inj (Option.some.inj h)
          rw [← hd, heq]
          rfl
      · cases h
    · split at h <;> cases h
    · split at h <;> cases h
    · cases h
  · rintro rfl
    simp [arrival, DataMsg.identity]

omit [DecidableEq Q] in
theorem arrival_eq_eof {i : ℤ} : arrival shard e = some (.eof y i) ↔
    ∃ k : ℕ, i = k ∧ e = .eof shard y k := by
  constructor
  · intro h
    unfold arrival at h
    split at h
    · split at h <;> cases h
    · split at h
      · next heq =>
          obtain ⟨hy, hi⟩ := Message.eof.inj (Option.some.inj h)
          exact ⟨_, hi.symm, by rw [heq, hy]⟩
      · cases h
    · split at h <;> cases h
    · cases h
  · rintro ⟨k, rfl, rfl⟩
    simp [arrival]

omit [DecidableEq Q] in
theorem arrival_eq_abort : arrival shard e = some (.abort y) ↔ e = .abort shard y := by
  constructor
  · intro h
    unfold arrival at h
    split at h
    · split at h <;> cases h
    · split at h <;> cases h
    · split at h
      · next heq => rw [heq, Message.abort.inj (Option.some.inj h)]
      · cases h
    · cases h
  · rintro rfl
    simp [arrival]

theorem Feeds.data (h : Feeds course shard queue) (d : DataMsg β) :
    (∃ j, queue j = some (.data d)) ↔
      Publishes course (.data shard d.identity d.clientId d.body) := by
  simp only [h _, arrival_eq_data, exists_eq_left]

theorem Feeds.eof (h : Feeds course shard queue) (y : UUID) (i : ℤ) :
    (∃ j, queue j = some (.eof y i)) ↔
      ∃ k : ℕ, i = k ∧ Publishes course (.eof shard y k) := by
  rw [h]
  constructor
  · rintro ⟨e, he, hpublished⟩
    obtain ⟨k, hk, rfl⟩ := arrival_eq_eof.mp he
    exact ⟨k, hk, hpublished⟩
  · rintro ⟨k, hk, hpublished⟩
    exact ⟨_, arrival_eq_eof.mpr ⟨k, hk, rfl⟩, hpublished⟩

theorem Feeds.abort (h : Feeds course shard queue) (y : UUID) :
    (∃ j, queue j = some (.abort y)) ↔ Publishes course (.abort shard y) := by
  simp only [h _, arrival_eq_abort, exists_eq_left]

end Arrivals

theorem visits_of_course (course : R.Course) (n : ℕ) :
    R.runs.Visits R.initial (course.state n) :=
  .idle _ (course.reach n)

/-- What was published stays published. -/
theorem mem_log_of_le (hle : n ≤ k) (h : e ∈ (course.state n p).log) :
    e ∈ (course.state k p).log :=
  course.keeps (P := fun s => e ∈ (s p).log)
    (fun _ _ hstep hmem => (log_suffix p hstep).subset hmem) hle h

theorem Publishes.together (h : Publishes course e) (h' : Publishes course e') :
    ∃ n, (∃ p ∈ R.ids, e ∈ (course.state n p).log) ∧
      ∃ p ∈ R.ids, e' ∈ (course.state n p).log := by
  obtain ⟨n, p, hp, hn⟩ := h
  obtain ⟨n', p', hp', hn'⟩ := h'
  exact ⟨max n n', ⟨p, hp, mem_log_of_le (le_max_left n n') hn⟩,
    ⟨p', hp', mem_log_of_le (le_max_right n n') hn'⟩⟩

omit [DecidableEq Q] in
theorem mem_distinctOn_iff {c : UUID} {shard : ℕ} {s : ℕ → Node Q F S E β}
    {id : ProducerId × ℕ} : id ∈ R.distinctOn c shard s ↔
      ∃ p ∈ R.ids, ∃ pl, .data shard id c pl ∈ (s p).log := by
  simp only [distinctOn, Finset.mem_biUnion, List.mem_toFinset, Event.mem_distinctOn]

theorem distinctOn_mono (course : R.Course) (c : UUID) (shard : ℕ) (hle : n ≤ k) :
    R.distinctOn c shard (course.state n) ⊆ R.distinctOn c shard (course.state k) := by
  intro id hid
  obtain ⟨p, hp, pl, hmem⟩ := mem_distinctOn_iff.mp hid
  exact mem_distinctOn_iff.mpr ⟨p, hp, pl, mem_log_of_le hle hmem⟩

/-- What the stage behind a ring relies on: numbers start with `1`, a stamp on a shard is of one
message, nodes share no stamps, and an end-of-file has the number of distinct messages. -/
structure Promises (course : R.Course) : Prop where
  seq : ∀ {shard id y pl}, Publishes course (.data shard id y pl) → 1 ≤ id.2
  same : ∀ {shard id y y' pl pl'}, Publishes course (.data shard id y pl) →
    Publishes course (.data shard id y' pl') → y = y' ∧ pl = pl'
  own : ∀ {n p q shard id y y' pl pl'}, p ∈ R.ids → q ∈ R.ids → p ≠ q →
    .data shard id y pl ∈ (course.state n p).log → .data shard id y' pl' ∉ (course.state n q).log
  counted : ∀ {n p shard y k}, p ∈ R.ids → .eof shard y k ∈ (course.state n p).log →
    k = (R.distinctOn y shard (course.state n)).card

/-- After an end-of-file no new message is published. -/
theorem Promises.published_before_eof (h : Promises course) {shard : ℕ} {c : UUID} {n k p : ℕ}
    (hp : p ∈ R.ids) (heof : .eof shard c k ∈ (course.state n p).log) {id : ProducerId × ℕ}
    {pl : β} (hpl : Publishes course (.data shard id c pl)) :
    id ∈ R.distinctOn c shard (course.state n) := by
  obtain ⟨n', q, hq, hmem⟩ := hpl
  have hle := distinctOn_mono course c shard (le_max_left n n')
  have hcard := h.counted hp heof
  rw [h.counted hp (mem_log_of_le (le_max_left n n') heof)] at hcard
  rw [Finset.eq_of_subset_of_card_le hle hcard.le]
  exact mem_distinctOn_iff.mpr ⟨q, hq, pl, mem_log_of_le (le_max_right n n') hmem⟩

/-- An end-of-file has the number of distinct messages that are ever published. -/
theorem Promises.counts_published (h : Promises course) {shard : ℕ} {y : UUID}
    (heof : Publishes course (.eof shard y k)) :
    ∃ ids : Finset (ProducerId × ℕ), k = ids.card ∧
      ∀ id, id ∈ ids ↔ ∃ pl, Publishes course (.data shard id y pl) := by
  obtain ⟨n, p, hp, hk⟩ := heof
  refine ⟨R.distinctOn y shard (course.state n), h.counted hp hk, fun id => ?_⟩
  constructor
  · intro hid
    obtain ⟨q, hq, pl, hmem⟩ := mem_distinctOn_iff.mp hid
    exact ⟨pl, n, q, hq, hmem⟩
  · intro hpublished
    obtain ⟨pl, hpl⟩ := hpublished
    exact h.published_before_eof hp hk hpl

/-- A queue behind such a stage promises what a stateless stage needs. -/
theorem Promises.countedQueue (h : Promises course) {shard : ℕ} {queue : ℕ → Option (Message β)}
    (hfeeds : Feeds course shard queue) : CountedQueue fun _ => queue where
  seq j d hd := h.seq ((hfeeds.data d).mp ⟨j, hd⟩)
  same := by
    rintro ⟨_, j⟩ ⟨_, j'⟩ d d' hd hd' hid
    have hpublished := (hfeeds.data d).mp ⟨j, hd⟩
    rw [hid] at hpublished
    obtain ⟨hclient, hbody⟩ := h.same hpublished ((hfeeds.data d').mp ⟨j', hd'⟩)
    obtain ⟨hproducer, hseq⟩ := Prod.mk.inj hid
    cases d
    cases d'
    subst hclient hbody hproducer hseq
    rfl
  counted i y e heof := by
    obtain ⟨k, rfl, hk⟩ := (hfeeds.eof y e).mp ⟨i, heof⟩
    obtain ⟨ids, hcard, hids⟩ := h.counts_published hk
    refine ⟨ids, by rw [hcard], fun id => (hids id).trans ?_⟩
    constructor
    · intro hpublished
      obtain ⟨pl, hpl⟩ := hpublished
      obtain ⟨j, hj⟩ := (hfeeds.data ⟨y, id.1, id.2, pl⟩).mpr hpl
      exact ⟨j, _, hj, rfl, rfl⟩
    · rintro ⟨j, d, hd, rfl, rfl⟩
      exact ⟨d.body, (hfeeds.data d).mp ⟨j, hd⟩⟩

/-- Once the stage has sent the end-of-file, the queue has exactly what the nodes publish,
whatever copies of it it holds. -/
theorem Promises.inputs_of_feeds (h : Promises course) {shard : ℕ}
    {queue : ℕ → Option (Message β)} (hfeeds : Feeds course shard queue) {c : UUID} {n k p : ℕ}
    (hp : p ∈ R.ids) (heof : .eof shard c k ∈ (course.state n p).log)
    {outs : ℕ → List (Output β)}
    (houts : ∀ p ∈ R.ids, Event.PublishedAs c (outs p) (course.state n p).log) :
    ∃ es : List (DataMsg β), Inputs (fun _ => queue) c es ∧
      es.map DataMsg.body = R.ids.flatMap fun p => sentTo shard (outs p) := by
  choose! msgs hmsgs using fun p hp => houts p hp shard
  let arrived : (ProducerId × ℕ) × β → DataMsg β := fun m => ⟨c, m.1.1, m.1.2, m.2⟩
  refine ⟨R.ids.flatMap fun p => (msgs p).map arrived, ⟨?_, fun d => ?_⟩, ?_⟩
  · have hids : (R.ids.flatMap fun p => (msgs p).map arrived).map DataMsg.identity =
        R.ids.flatMap fun p => (msgs p).map Prod.fst := by
      rw [List.map_flatMap]
      refine List.flatMap_congr fun p _ => ?_
      rw [List.map_map]
      rfl
    rw [hids, List.nodup_flatMap]
    refine ⟨fun p hp => (hmsgs p hp).1, R.nodup.imp_of_mem fun {p q} hp hq hne => ?_⟩
    intro id hid hid'
    obtain ⟨⟨_, pl⟩, hmem, rfl⟩ := List.mem_map.mp hid
    obtain ⟨⟨_, pl'⟩, hmem', rfl⟩ := List.mem_map.mp hid'
    exact h.own hp hq hne (((hmsgs p hp).2.1 _ pl).mp hmem) (((hmsgs q hq).2.1 _ pl').mp hmem')
  · rw [List.mem_flatMap]
    constructor
    · rintro ⟨q, hq, hd⟩
      obtain ⟨⟨id, pl⟩, hmem, rfl⟩ := List.mem_map.mp hd
      refine ⟨rfl, (hfeeds.data (arrived (id, pl))).mpr ⟨n, q, hq, ?_⟩⟩
      exact ((hmsgs q hq).2.1 id pl).mp hmem
    · rintro ⟨rfl, hd⟩
      have hpublished := (hfeeds.data d).mp hd
      obtain ⟨q, hq, pl, hmem⟩ :=
        mem_distinctOn_iff.mp (h.published_before_eof hp heof hpublished)
      obtain ⟨-, rfl⟩ := h.same ⟨n, q, hq, hmem⟩ hpublished
      exact ⟨q, hq, List.mem_map.mpr ⟨(d.identity, d.body),
        ((hmsgs q hq).2.1 _ _).mpr hmem, rfl⟩⟩
  · rw [List.map_flatMap]
    refine List.flatMap_congr fun p hp => ?_
    rw [← (hmsgs p hp).2.2, List.map_map]
    rfl

end Queues

/-! ## Behind a stateless stage -/

section Stateless

variable {α β : Type} {R : AffinityRing Unit Unit Unit SentCounts α β} {c : UUID}
  {course : R.Course} {shard : ℕ} {queue : ℕ → Option (Message β)}

/-- Where a published message comes from. -/
theorem exists_output (hring : StatelessRing R) (hsetup : StatelessSetup R)
    {id : ProducerId × ℕ} {y : UUID} {pl : β} {n p : ℕ} (hp : p ∈ R.ids)
    (h : .data shard id y pl ∈ (course.state n p).log) :
    ∃ d j, Carries (R.arrivals p) ((), j) d ∧ ∃ o ∈ (R.node p).outputs d, ∃ seqs,
      o.shard = shard ∧ (R.node p).stampOf seqs o = id := by
  obtain ⟨n', hn'⟩ :=
    (justified_node hring hsetup (visits_of_course course n) hp).published _ _ _ _ h
  obtain ⟨d, hd, o, ho, seqs, hshard, hid⟩ := Controller.mem_publishes hn'
  obtain ⟨j, -, hj⟩ := Applied.mem_arrivals hd
  exact ⟨d, j, hj, o, ho, seqs, hshard, hid⟩

/-- Published numbers start with `1`. -/
theorem one_le_seq (hring : StatelessRing R) (hsetup : StatelessSetup R)
    {id : ProducerId × ℕ} {y : UUID} {pl : β} {n p : ℕ} (hp : p ∈ R.ids)
    (h : .data shard id y pl ∈ (course.state n p).log) : 1 ≤ id.2 := by
  obtain ⟨d, j, hj, o, ho, seqs, -, rfl⟩ := exists_output hring hsetup hp h
  rcases hring.stamps with hkept | hnone
  · rw [Controller.stampOf, hkept p hp d o ho]
    exact (hsetup.queues p hp).seq j d hj
  · rw [(Controller.stampOf_of_none seqs (hnone p hp d o ho)).1]
    exact Nat.le_add_left 1 _

/-- The promises of a stateless stage. -/
theorem promises_of_stateless (hring : StatelessRing R) (hsetup : StatelessSetup R)
    (course : R.Course) : Promises course where
  seq h := by
    obtain ⟨n, p, hp, hmem⟩ := h
    exact one_le_seq hring hsetup hp hmem
  same h h' := by
    obtain ⟨n, ⟨p, hp, hmem⟩, q, hq, hmem'⟩ := h.together h'
    exact same_of_stateless hring hsetup (visits_of_course course n) hp hq hmem hmem'
  own hp hq hne hmem :=
    disjoint_stamps hring hsetup (visits_of_course course _) hp hq hne hmem
  counted hp heof := counted_of_stateless hring hsetup (visits_of_course course _) hp heof

/-- Count conservation over a whole run of a stateless stage, whatever crashes fall.  All
messages that are ever published on a shard with one stamp are copies of one message, and an
end-of-file that is ever sent to a shard has the number of distinct messages of its client
that all nodes together ever publish there. -/
theorem stateless_stage_conserves (hring : StatelessRing R) (hsetup : StatelessSetup R)
    (course : R.Course) :
    (∀ shard id y y' pl pl', Publishes course (.data shard id y pl) →
      Publishes course (.data shard id y' pl') → y = y' ∧ pl = pl') ∧
    ∀ shard y k, Publishes course (.eof shard y k) →
      ∃ ids : Finset (ProducerId × ℕ), k = ids.card ∧
        ∀ id, id ∈ ids ↔ ∃ pl, Publishes course (.data shard id y pl) := by
  have hpromises := promises_of_stateless hring hsetup course
  constructor
  · intro shard id y y' pl pl' h h'
    exact hpromises.same h h'
  · intro shard y k heof
    exact hpromises.counts_published heof

/-- Some shards of a stage that share no stamp: an input that keeps its identity makes an
output for at most one of them, and their producer ids differ. -/
structure Apart (R : AffinityRing Unit Unit Unit SentCounts α β) (shards : Set ℕ) :
    Prop where
  outputs : ∀ p ∈ R.ids, ∀ d, ∀ o ∈ (R.node p).outputs d, ∀ o' ∈ (R.node p).outputs d,
    o.stamp ≠ none → o.shard ∈ shards → o'.shard ∈ shards → o.shard = o'.shard
  producers : ∀ p ∈ R.ids, ∀ shard ∈ shards, ∀ shard' ∈ shards, shard ≠ shard' →
    (R.node p).producer shard ≠ (R.node p).producer shard'

theorem Apart.stamps {shards : Set ℕ} (hapart : Apart R shards) (hring : StatelessRing R)
    (hsetup : StatelessSetup R) {shard' : ℕ} (hshard : shard ∈ shards)
    (hshard' : shard' ∈ shards) (hne : shard ≠ shard') {id : ProducerId × ℕ} {y y' : UUID}
    {pl pl' : β} (h : Publishes course (.data shard id y pl)) :
    ¬Publishes course (.data shard' id y' pl') := by
  intro h'
  obtain ⟨n, ⟨p, hp, hmem⟩, q, hq, hmem'⟩ := h.together h'
  by_cases hpq : p = q
  · subst hpq
    obtain ⟨d, j, hj, o, ho, seqs, rfl, rfl⟩ := exists_output hring hsetup hp hmem
    obtain ⟨d', j', hj', o', ho', seqs', rfl, hid⟩ := exists_output hring hsetup hp hmem'
    rcases hring.stamps with hkept | hnone
    · simp only [Controller.stampOf, hkept p hp d o ho, hkept p hp d' o' ho'] at hid
      obtain rfl := (hsetup.queues p hp).same _ _ d' d hj' hj hid
      refine hne (hapart.outputs p hp d' o ho o' ho' ?_ hshard hshard')
      simp [hkept p hp d' o ho]
    · rw [(Controller.stampOf_of_none seqs (hnone p hp d o ho)).1,
        (Controller.stampOf_of_none seqs' (hnone p hp d' o' ho')).1] at hid
      exact hapart.producers p hp _ hshard _ hshard' hne (congrArg Prod.fst hid).symm
  · exact disjoint_stamps hring hsetup (visits_of_course course n) hp hq hpq hmem hmem'

/-! ### What the next stage gets -/

/-- An end-of-file is sent when every node has published its outputs. -/
theorem exists_outputs_of_eof (hring : StatelessRing R) (hsetup : StatelessSetup R)
    {n k p : ℕ} (hp : p ∈ R.ids) (heof : .eof shard c k ∈ (course.state n p).log) :
    ∃ ds : ℕ → List (DataMsg α),
      (∀ q ∈ R.ids, PublishesOutputs (R.node q) (R.arrivals q) c (ds q)
        (course.state n q).log) ∧
      k = (R.ids.map fun q =>
        (sentTo shard ((ds q).flatMap (R.node q).outputs)).length).sum := by
  obtain ⟨sent, hsent, -⟩ := eof_eq_sum (visits_of_course course n) hp heof
  have houtputs : ∀ q ∈ R.ids,
      ∃ ds, PublishesOutputs (R.node q) (R.arrivals q) c ds (course.state n q).log := by
    intro q hq
    obtain ⟨ds, hds, -⟩ :=
      (justified_node hring hsetup (visits_of_course course n) hq).publishesOutputs
        (hring.node hq).stateless (hsetup.queues q hq) (hsent q hq)
    exact ⟨ds, hds⟩
  choose! ds hds using houtputs
  exact ⟨ds, hds, eof_eq_outputs hring hsetup (visits_of_course course n) hp heof hds⟩

/-- What the next stage gets.  Whatever crashes fall in a stateless stage, and in whatever
order and number the copies arrive in a queue behind it: the queue keeps the promises that
the stage itself was given, and if it has an end-of-file of a client, its messages of the
client are exactly the outputs of the client's messages, and as many as the end-of-file
says. -/
theorem feeds_outputs (hring : StatelessRing R) (hsetup : StatelessSetup R)
    (course : R.Course) (hfeeds : Feeds course shard queue) :
    (CountedQueue fun _ => queue) ∧ ∀ c j k, queue j = some (.eof c k) →
      ∃ (ds : ℕ → List (DataMsg α)) (es : List (DataMsg β)),
        (∀ p ∈ R.ids, Inputs (R.arrivals p) c (ds p)) ∧ Inputs (fun _ => queue) c es ∧
          es.map DataMsg.body =
            (R.ids.flatMap fun p => sentTo shard ((ds p).flatMap (R.node p).outputs)) ∧
          k = es.length := by
  have hpromises := promises_of_stateless hring hsetup course
  refine ⟨hpromises.countedQueue hfeeds, fun c j k hj => ?_⟩
  obtain ⟨k, rfl, n, p, hp, heof⟩ := (hfeeds.eof c k).mp ⟨j, hj⟩
  obtain ⟨ds, hds, hsum⟩ := exists_outputs_of_eof hring hsetup hp heof
  obtain ⟨es, hinputs, hbodies⟩ := hpromises.inputs_of_feeds hfeeds hp heof
    fun p hp => (hds p hp).published
  refine ⟨ds, es, fun q hq => (hds q hq).toInputs, hinputs, hbodies, ?_⟩
  rw [hsum, ← List.length_map (f := DataMsg.body), hbodies, List.length_flatMap]

/-- Without an abort of the client the stage passes none on. -/
theorem no_abort_of_feeds (hkept : ∀ p ∈ R.ids, ∀ q i, R.arrivals p q i ≠ some (.abort c))
    (hfeeds : Feeds course shard queue) (j : ℕ) : queue j ≠ some (.abort c) := by
  intro hj
  obtain ⟨n, p, hp, hmem⟩ := (hfeeds.abort c).mp ⟨j, hj⟩
  refine logged_visits (noAbort_rules c) (by simp) (fun q i x hx heq => ?_)
    (visits_node (visits_of_course course n) p) shard hmem
  exact hkept p hp q i (heq ▸ hx)

end Stateless

/-! ## Two stages -/

section TwoStages

variable {α β γ : Type} {R : AffinityRing Unit Unit Unit SentCounts α β}
  {R' : AffinityRing Unit Unit Unit SentCounts β γ} {c : UUID} {course : R.Course}
  {bind : ℕ → ℕ}

/-- The second stage reads what the first one writes: its nodes are bound to shards of the
first stage, each to its own. -/
structure Reads (R' : AffinityRing Unit Unit Unit SentCounts β γ) (course : R.Course)
    (bind : ℕ → ℕ) : Prop where
  feeds : ∀ q ∈ R'.ids, Feeds course (bind q) (R'.arrivals q ())
  lt : ∀ q ∈ R'.ids, bind q < (R.node R.leader).nShards
  inj : ∀ q ∈ R'.ids, ∀ q' ∈ R'.ids, bind q = bind q' → q = q'
  apart : Apart R { shard | ∃ q ∈ R'.ids, bind q = shard }

/-- So the second stage is set up as the first one is. -/
theorem Reads.setup (hreads : Reads R' course bind) (hring : StatelessRing R)
    (hsetup : StatelessSetup R) (hfifo : R'.fifo = true) (hproducers : R'.SeparateProducers) :
    StatelessSetup R' where
  fifo := hfifo
  queues q hq := (promises_of_stateless hring hsetup course).countedQueue (hreads.feeds q hq)
  producers := hproducers
  sources q hq q' hq' hne := by
    rintro id ⟨j, d, hd, rfl⟩ ⟨j', d', hd', hid⟩
    have hpublished := ((hreads.feeds q' hq').data d').mp ⟨j', hd'⟩
    rw [hid] at hpublished
    exact hreads.apart.stamps hring hsetup ⟨q, hq, rfl⟩ ⟨q', hq', rfl⟩
      (fun heq => hne (hreads.inj q hq q' hq' heq))
      (((hreads.feeds q hq).data d).mp ⟨j, hd⟩) hpublished

/-- Two stateless stages in a row complete.  If the first stage gets a client's messages and
end-of-files, and whatever either stage publishes, passes on or is sent comes at last to
processes that stay up, then from some turn on the nodes of the second stage have published
exactly what they make of what the first stage makes of the client's messages, and every
shard has an end-of-file with the number of these outputs. -/
theorem two_stages_complete (hring : StatelessRing R) (hsetup : StatelessSetup R)
    (hne : R.ids ≠ []) (hwired : R.Wired)
    (hkept : ∀ p ∈ R.ids, ∀ q i, R.arrivals p q i ≠ some (.abort c))
    (heofs : ∀ p ∈ R.ids, ∃ i k, R.arrivals p () i = some (.eof c k))
    (htokens : TokensArrive course c) (hcopies : CopiesArrive course c)
    (hring' : StatelessRing R') (hfifo : R'.fifo = true) (hproducers : R'.SeparateProducers)
    (hne' : R'.ids ≠ []) (hwired' : R'.Wired) (hreads : Reads R' course bind)
    (course' : R'.Course) (htokens' : TokensArrive course' c)
    (hcopies' : CopiesArrive course' c) :
    ∃ ds : ℕ → List (DataMsg α), (∀ p ∈ R.ids, Inputs (R.arrivals p) c (ds p)) ∧
      ∀ᶠ n in Filter.atTop, ∃ es : ℕ → List (DataMsg β),
        (∀ q ∈ R'.ids, ((es q).map DataMsg.body).Perm
          (R.ids.flatMap fun p => sentTo (bind q) ((ds p).flatMap (R.node p).outputs))) ∧
        (∀ q ∈ R'.ids, PublishesOutputs (R'.node q) (R'.arrivals q) c (es q)
          (course'.state n q).log) ∧
        ∀ shard < (R'.node R'.leader).nShards,
          .eof shard c (R'.ids.map fun q =>
            (sentTo shard ((es q).flatMap (R'.node q).outputs)).length).sum ∈
              (course'.state n R'.leader).log := by
  obtain ⟨x, hx⟩ := List.exists_mem_of_ne_nil R.ids hne
  obtain ⟨n, hn⟩ :=
    (eventually_complete_and_ended hring hsetup hne hwired hkept heofs htokens hcopies).exists
  obtain ⟨ds, hds, heof⟩ := eofs_of_ended hring hsetup hne hn.1 hn.2
  have hended : ∀ q ∈ R'.ids, ∃ j k, R'.arrivals q () j = some (.eof c k) := by
    intro q hq
    obtain ⟨j, hj⟩ := ((hreads.feeds q hq).eof c _).mpr
      ⟨_, rfl, n, R.leader, leader_mem hx, heof (bind q) (hreads.lt q hq)⟩
    exact ⟨j, _, hj⟩
  have hkept' : ∀ q ∈ R'.ids, ∀ u i, R'.arrivals q u i ≠ some (.abort c) :=
    fun q hq u i => no_abort_of_feeds hkept (hreads.feeds q hq) i
  have hsetup' := hreads.setup hring hsetup hfifo hproducers
  have hcompletes := eventually_complete_and_ended hring' hsetup' hne' hwired' hkept' hended
    htokens' hcopies'
  refine ⟨ds, fun p hp => (hds p hp).toInputs, hcompletes.mono fun n' hn' => ?_⟩
  obtain ⟨es, hes, heof'⟩ := eofs_of_ended hring' hsetup' hne' hn'.1 hn'.2
  refine ⟨es, fun q hq => ?_, hes, heof'⟩
  obtain ⟨es', hinputs, hbodies⟩ := (promises_of_stateless hring hsetup course).inputs_of_feeds
    (hreads.feeds q hq) (leader_mem hx) (heof (bind q) (hreads.lt q hq))
    fun p hp => (hds p hp).published
  rw [← hbodies]
  exact ((hes q hq).toInputs.perm hinputs).map _

end TwoStages

/-! ## Two filters in front of two group-bys -/

section Scripts

variable {Q F S E α β : Type} [DecidableEq Q] [DecidableEq β] {R : AffinityRing Q F S E α β}

/-- What the nodes have put on a shard. -/
def sentOn (R : AffinityRing Q F S E α β) (shard : ℕ) (s : ℕ → Node Q F S E β) :
    List (Message β) :=
  R.ids.flatMap fun p => (s p).log.filterMap (arrival shard)

/-- A queue with the messages that a script puts on a shard. -/
theorem feeds_ofMoves {moves : List (System.Move (ℕ × Call Q) (UUID → ℕ → ℕ))}
    {s : ℕ → Node Q F S E β} (hs : R.runs.playAll moves R.initial = some s) {shard : ℕ}
    {queue : List (Message β)} (hqueue : ∀ msg, msg ∈ queue ↔ msg ∈ R.sentOn shard s) :
    Feeds (System.Course.ofMoves R.runs moves R.initial) shard (fun j => queue[j]?) := by
  intro msg
  rw [← List.mem_iff_getElem?, hqueue, sentOn, List.mem_flatMap]
  constructor
  · rintro ⟨p, hp, hmem⟩
    obtain ⟨e, he, harrival⟩ := List.mem_filterMap.mp hmem
    refine ⟨e, harrival, moves.length, p, hp, ?_⟩
    have hstate : (System.Course.ofMoves R.runs moves R.initial).state moves.length = s :=
      System.stateAfter_of_le hs le_rfl
    rwa [hstate]
  · rintro ⟨e, harrival, n, p, hp, hmem⟩
    refine ⟨p, hp, List.mem_filterMap.mpr ⟨e, ?_, harrival⟩⟩
    have hlast := mem_log_of_le (le_max_left n moves.length) hmem
    have hstate : (System.Course.ofMoves R.runs moves R.initial).state
        (max n moves.length) = s := System.stateAfter_of_le hs (le_max_right _ _)
    rwa [hstate] at hlast

end Scripts

/-- Two filters, each with one message of client `7`. -/
def filterStage : AffinityRing Unit Unit Unit SentCounts ℕ ℕ where
  ids := [0, 1]
  nodup := nodup_pair
  node p := ringFilter ⟨Peer.ofIds p ([0, 1].erase p), 1,
    fun shard => BitVec.ofNat 128 (10 + p + 2 * (shard % 2))⟩ 2 DataMsg.body
  self_eq _ _ := rfl
  next p := 1 - p
  arrivals p _ := oneMessage (BitVec.ofNat 128 p)
  fifo := true
  fn₀ _ := ()

/-- What each filter sends: one message, for the shard of the other's number. -/
def filterToken : BarrierToken := ⟨7, 0, Dict.empty.set 0 (Dict.empty.set 1 1)⟩

def filterTokens : BarrierToken :=
  { filterToken with sentBy := filterToken.sentBy.set 1 (Dict.empty.set 0 1) }

/-- Node `1` crashes after it sent its message and sends it again. -/
def filterScript : List (System.Move (ℕ × Call Unit) (UUID → ℕ → ℕ)) :=
  [.finish (0, .start), .finish (1, .start),
    .crash (1, .deliver ((), 0)) (fun _ n => n) 1, .finish (1, .start),
    .finish (1, .deliver ((), 0)), .finish (1, .deliver ((), 1)),
    .finish (0, .deliver ((), 0)), .finish (0, .deliver ((), 1)),
    .finish (1, .token filterToken), .finish (0, .token filterTokens)]

def filterCourse : filterStage.Course :=
  System.Course.ofMoves filterStage.runs filterScript filterStage.initial

theorem statelessRing_filterStage : StatelessRing filterStage :=
  .filters 2 DataMsg.body fun _ _ => ⟨_, rfl⟩

theorem producer_filterStage {p q shard shard' : ℕ} (hp : p ∈ [0, 1]) (hq : q ∈ [0, 1])
    (hne : p ≠ q ∨ shard % 2 ≠ shard' % 2) :
    (filterStage.node p).producer shard ≠ (filterStage.node q).producer shard' := by
  simp only [List.mem_cons, List.not_mem_nil, or_false] at hp hq
  intro heq
  have hnat := congrArg BitVec.toNat heq
  change (BitVec.ofNat 128 (10 + p + 2 * (shard % 2))).toNat =
    (BitVec.ofNat 128 (10 + q + 2 * (shard' % 2))).toNat at hnat
  simp only [BitVec.toNat_ofNat] at hnat
  omega

theorem statelessSetup_filterStage : StatelessSetup filterStage :=
  ⟨rfl, fun _ _ => countedQueue_oneMessage _,
    fun _ hp _ hq hne _ _ => producer_filterStage hp hq (Or.inl hne),
    statelessSetup_twoSplitters.sources⟩

/-- The queues behind the filters.  One copy comes after the end-of-file. -/
def behindFilters : ℕ → List (Message ℕ)
  | 0 => [.data ⟨7, 1, 1, 5⟩, .eof 7 1, .data ⟨7, 1, 1, 5⟩]
  | _ => [.data ⟨7, 0, 1, 5⟩, .eof 7 1]

/-- The two splitters behind the filters. -/
def splitStage : AffinityRing Unit Unit Unit SentCounts ℕ ℕ :=
  { twoSplitters with arrivals := fun p _ j => (behindFilters p)[j]? }

def splitScript : List (System.Move (ℕ × Call Unit) (UUID → ℕ → ℕ)) :=
  [.finish (0, .start), .finish (1, .start), .finish (0, .deliver ((), 0)),
    .finish (0, .deliver ((), 1)), .finish (0, .deliver ((), 2)),
    .crash (1, .deliver ((), 0)) (fun _ n => n) 1, .finish (1, .start),
    .finish (1, .deliver ((), 0)), .finish (1, .deliver ((), 1)),
    .finish (1, .token halfToken), .finish (0, .token wholeToken)]

def splitCourse : splitStage.Course :=
  System.Course.ofMoves splitStage.runs splitScript splitStage.initial

theorem feeds_behindFilters : ∀ shard ∈ ([0, 1] : List ℕ),
    Feeds filterCourse shard fun j => (behindFilters shard)[j]? := by
  have hplays : (filterStage.runs.playAll filterScript filterStage.initial).map
      (fun s => decide (∀ shard ∈ ([0, 1] : List ℕ),
        (∀ msg ∈ behindFilters shard, msg ∈ filterStage.sentOn shard s) ∧
          ∀ msg ∈ filterStage.sentOn shard s, msg ∈ behindFilters shard)) = some true := by
    decide
  obtain ⟨s, hs, hobs⟩ := Option.map_eq_some_iff.mp hplays
  intro shard hshard
  obtain ⟨hsub, hsup⟩ := of_decide_eq_true hobs shard hshard
  exact feeds_ofMoves hs fun msg => ⟨hsub msg, hsup msg⟩

/-- Node `1` publishes its message twice, and the end-of-file of the shard has the one
message. -/
theorem stateless_stage_conserves_filterCourse :
    Publishes filterCourse (.eof 0 7 1) ∧
      ∃ ids : Finset (ProducerId × ℕ), 1 = ids.card ∧
        ∀ id, id ∈ ids ↔ ∃ pl, Publishes filterCourse (.data 0 id 7 pl) := by
  obtain ⟨k, hk, heof⟩ := ((feeds_behindFilters 0 (by decide)).eof 7 1).mp ⟨1, rfl⟩
  obtain rfl : 1 = k := by exact_mod_cast hk
  have hconserves := stateless_stage_conserves statelessRing_filterStage
    statelessSetup_filterStage filterCourse
  exact ⟨heof, hconserves.2 0 7 1 heof⟩

/-- The queue of shard `0`, one copy of which comes after the end-of-file, holds the one
message that the filters send there. -/
theorem feeds_outputs_filterCourse :
    (CountedQueue fun _ j => (behindFilters 0)[j]?) ∧
      ∀ (c : UUID) (j : ℕ) (k : ℤ), (behindFilters 0)[j]? = some (Message.eof c k) →
        ∃ (ds : ℕ → List (DataMsg ℕ)) (es : List (DataMsg ℕ)),
          (∀ p ∈ filterStage.ids, Inputs (filterStage.arrivals p) c (ds p)) ∧
            Inputs (fun _ j => (behindFilters 0)[j]?) c es ∧
              es.map DataMsg.body = (filterStage.ids.flatMap fun p =>
                sentTo 0 ((ds p).flatMap (filterStage.node p).outputs)) ∧
              k = es.length :=
  feeds_outputs statelessRing_filterStage statelessSetup_filterStage filterCourse
    (feeds_behindFilters 0 (by decide))

/-- Each group-by reads the queue behind one shard of the filters. -/
theorem reads_splitStage : Reads splitStage filterCourse id where
  feeds q hq := feeds_behindFilters q hq
  lt := by decide
  inj _ _ _ _ h := h
  apart := by
    refine ⟨fun p _ d o ho o' ho' _ _ _ => ?_, fun p hp shard hs shard' hs' hne => ?_⟩
    · rw [List.mem_singleton.mp ho, List.mem_singleton.mp ho']
    · obtain ⟨q, hq, rfl⟩ := hs
      obtain ⟨q', hq', rfl⟩ := hs'
      refine producer_filterStage hp hp (Or.inr ?_)
      simp only [splitStage, twoSplitters, List.mem_cons, List.not_mem_nil, or_false] at hq hq'
      simp only [id] at hne ⊢
      omega

theorem filterScript_plays : ∃ s,
    filterStage.runs.playAll filterScript filterStage.initial = some s ∧
      ∀ p ∈ filterStage.ids, ∀ i < (2 : ℕ), HasRead s p i := by
  have hplays : (filterStage.runs.playAll filterScript filterStage.initial).map
      (fun s => decide (∀ p ∈ filterStage.ids, ∀ i < (2 : ℕ), HasRead s p i)) =
        some true := by decide
  obtain ⟨s, hs, hobs⟩ := Option.map_eq_some_iff.mp hplays
  exact ⟨s, hs, of_decide_eq_true hobs⟩

theorem splitScript_plays : ∃ s,
    splitStage.runs.playAll splitScript splitStage.initial = some s ∧
      ∀ p ∈ splitStage.ids, ∀ i < (behindFilters p).length, HasRead s p i := by
  have hplays : (splitStage.runs.playAll splitScript splitStage.initial).map
      (fun s => decide (∀ p ∈ splitStage.ids,
        ∀ i < (behindFilters p).length, HasRead s p i)) = some true := by decide
  obtain ⟨s, hs, hobs⟩ := Option.map_eq_some_iff.mp hplays
  exact ⟨s, hs, of_decide_eq_true hobs⟩

/-- The group-bys make two groups of each of the two messages that pass the filters. -/
theorem two_stages_complete_splitCourse :
    ∃ ds : ℕ → List (DataMsg ℕ),
      (∀ p ∈ filterStage.ids, Inputs (filterStage.arrivals p) 7 (ds p)) ∧
      ∀ᶠ n in Filter.atTop, ∃ es : ℕ → List (DataMsg ℕ),
        (∀ q ∈ splitStage.ids, ((es q).map DataMsg.body).Perm
          (filterStage.ids.flatMap fun p =>
            sentTo (id q) ((ds p).flatMap (filterStage.node p).outputs))) ∧
        (∀ q ∈ splitStage.ids, PublishesOutputs (splitStage.node q) (splitStage.arrivals q) 7
          (es q) (splitCourse.state n q).log) ∧
        ∀ shard < (splitStage.node splitStage.leader).nShards,
          .eof shard 7 (splitStage.ids.map fun q =>
            (sentTo shard ((es q).flatMap (splitStage.node q).outputs)).length).sum ∈
              (splitCourse.state n splitStage.leader).log := by
  obtain ⟨s, hs, hread⟩ := filterScript_plays
  obtain ⟨s', hs', hread'⟩ := splitScript_plays
  refine two_stages_complete statelessRing_filterStage statelessSetup_filterStage
    (List.cons_ne_nil _ _) (wired_of_pair rfl fun _ => rfl) (fun p _ q i heq => ?_)
    (fun p _ => ⟨1, 1, rfl⟩) ?_
    (copiesArrive_ofMoves hs fun p hp i hi => hread p hp i (lt_two_of_isSome hi))
    (.groupBys [2] _ fun p _ => ⟨pairConfig p, rfl⟩) rfl
    (fun p hp q hq hne _ _ => pair_ne hp hq hne) (List.cons_ne_nil _ _)
    (wired_of_pair rfl fun _ => rfl) reads_splitStage splitCourse ?_
    (copiesArrive_ofMoves hs' fun p hp i hi => hread' p hp i ?_)
  · match i with
    | 0 => cases heq
    | 1 => cases heq
    | _ + 2 => cases heq
  · refine tokensArrive_ofMoves hs [⟨7, 0, filterToken, 8⟩, ⟨8, 1, filterTokens, 9⟩]
      (by decide) fun h hmem => ?_
    rcases List.mem_cons.mp hmem with rfl | hmem
    · exact ⟨by decide, rfl⟩
    · rw [List.mem_singleton.mp hmem]
      exact ⟨by decide, rfl⟩
  · refine tokensArrive_ofMoves hs' [⟨3, 0, halfToken, 9⟩, ⟨9, 1, wholeToken, 10⟩]
      (by decide) fun h hmem => ?_
    rcases List.mem_cons.mp hmem with rfl | hmem
    · exact ⟨by decide, rfl⟩
    · rw [List.mem_singleton.mp hmem]
      exact ⟨by decide, rfl⟩
  · exact (List.getElem?_eq_some_iff.mp (Option.eq_some_of_isSome hi)).1

end AffinityRing
