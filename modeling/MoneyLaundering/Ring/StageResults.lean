import MoneyLaundering.Ring.LateCopies
import MoneyLaundering.Ring.ReportedClients
import MoneyLaundering.Ring.StageLink
import MoneyLaundering.Ring.StatefulResults

/-!
# What a stage hands to the next one

A stage of stateless nodes and a stage of nodes with their state in memory give the stage
behind them the same contract: the queues keep the promises on stamps and counts, and with
an end-of-file of a client they hold what the nodes send for the client's messages, each read
once.
-/

open Crash RingNode

/-- A message whose body is read as another type. -/
def Message.map {α β : Type} (wrap : β → α) : Message β → Message α
  | .data d => .data ⟨d.clientId, d.producerId, d.seq, wrap d.body⟩
  | .eof c k => .eof c k
  | .abort c => .abort c

/-- The number of instances of a stage and their configurations. -/
structure StageShape where
  size : ℕ
  pos : 0 < size
  config : ℕ → NodeConfig

/-- The instances with what arrives at them. -/
def StageShape.fleet {Q α : Type} (shape : StageShape) (arrivals : ℕ → List (Q × DataMsg α)) :
    Fleet Q α :=
  ⟨shape.size, shape.pos, shape.config, arrivals⟩

namespace AffinityRing

open StatelessReplay

/-! ## The contract -/

section Contract

variable {Q F S E α β : Type} [DecidableEq Q] {R : AffinityRing Q F S E α β}
  {course : R.Course} {c : UUID}

/-- What a stage leaves for the one behind it.  When an end-of-file was sent, every node has
published what it makes of the client's messages. -/
structure Contract (course : R.Course) : Prop extends Promises course where
  results : ∀ {n p shard c k}, p ∈ R.ids → .eof shard c k ∈ (course.state n p).log →
    ∃ ds : ℕ → List (Q × DataMsg α), ∀ q ∈ R.ids,
      PublishesResult (R.node q) (R.fn₀ q) (R.arrivals q) c (ds q) (course.state n q).log

/-- The end-of-file counts what all nodes send. -/
theorem Promises.count (h : Promises course) {n k p shard : ℕ} (hp : p ∈ R.ids)
    (heof : .eof shard c k ∈ (course.state n p).log) {outs : ℕ → List (Output β)}
    (houts : ∀ q ∈ R.ids, Event.PublishedAs c (outs q) (course.state n q).log) :
    k = (R.ids.map fun q => (sentTo shard (outs q)).length).sum := by
  have hcards : R.ids.map (fun q => (sentTo shard (outs q)).length) =
      R.ids.map fun q => (Event.distinctOn c shard (course.state n q).log).card :=
    List.map_congr_left fun q hq => ((houts q hq).card_distinctOn shard).symm
  rw [h.counted hp heof, distinctOn, hcards, Finset.card_biUnion, List.sum_toFinset _ R.nodup]
  intro q hq q' hq' hne
  refine Finset.disjoint_left.mpr fun id hid hid' => ?_
  obtain ⟨_, hmem⟩ := Event.mem_distinctOn.mp hid
  obtain ⟨_, hmem'⟩ := Event.mem_distinctOn.mp hid'
  exact h.own (List.mem_toFinset.mp hq) (List.mem_toFinset.mp hq') hne hmem hmem'

/-- What was published on some shards has been published by one time. -/
theorem exists_time {ι : Type} {e : ι → Event β} (xs : List ι)
    (h : ∀ x ∈ xs, Publishes course (e x)) :
    ∃ n, ∀ x ∈ xs, ∃ p ∈ R.ids, e x ∈ (course.state n p).log := by
  induction xs with
  | nil => exact ⟨0, fun x hx => absurd hx List.not_mem_nil⟩
  | cons x xs ih =>
      obtain ⟨n, hn⟩ := ih fun y hy => h y (List.mem_cons_of_mem x hy)
      obtain ⟨n', p, hp, hmem⟩ := h x List.mem_cons_self
      refine ⟨max n n', fun y hy => ?_⟩
      rcases List.mem_cons.mp hy with rfl | hy
      · exact ⟨p, hp, mem_log_of_le (le_max_right n n') hmem⟩
      · obtain ⟨q, hq, hold⟩ := hn y hy
        exact ⟨q, hq, mem_log_of_le (le_max_left n n') hold⟩

/-- What the queues behind a stage have of a client, if each of them has an end-of-file of
the client. -/
theorem Contract.inputs (h : Contract course) {next : List ℕ} (hne : next ≠ [])
    {queue : ℕ → ℕ → Option (Message β)} (hfeeds : ∀ p ∈ next, Feeds course p (queue p))
    (hended : ∀ p ∈ next, ∃ j k, queue p j = some (.eof c k)) :
    ∃ ds : ℕ → List (Q × DataMsg α), (∀ q ∈ R.ids, QueueInputs (R.arrivals q) c (ds q)) ∧
      ∀ p ∈ next, ∃ es, Inputs (fun _ => queue p) c es ∧ es.map DataMsg.body =
        R.ids.flatMap fun q => sentTo p ((R.node q).sends c (R.fn₀ q) (ds q)) := by
  have heofs : ∀ p ∈ next, ∃ k : ℕ, Publishes course (.eof p c k) := by
    intro p hp
    obtain ⟨j, k, hj⟩ := hended p hp
    obtain ⟨k, -, hk⟩ := ((hfeeds p hp).eof c k).mp ⟨j, hj⟩
    exact ⟨k, hk⟩
  choose! counts hcounts using heofs
  obtain ⟨n, hn⟩ := exists_time next hcounts
  obtain ⟨p, hp⟩ := List.exists_mem_of_ne_nil next hne
  obtain ⟨q, hq, heof⟩ := hn p hp
  obtain ⟨ds, hds⟩ := h.results hq heof
  refine ⟨ds, fun q hq => (hds q hq).toQueueInputs, fun p hp => ?_⟩
  obtain ⟨q, hq, heof⟩ := hn p hp
  exact h.inputs_of_feeds (hfeeds p hp) hq heof fun q hq => (hds q hq).published

end Contract

/-! ## Stateless stages -/

section Stateless

variable {α β : Type} {R : AffinityRing Unit Unit Unit SentCounts α β}

theorem queueInputs_of_inputs {arrivals : Unit → ℕ → Option (Message α)} {c : UUID}
    {ds : List (DataMsg α)} (h : Inputs arrivals c ds) :
    QueueInputs arrivals c (ds.map fun d => ((), d)) where
  nodup := by
    rw [List.map_map]
    exact h.nodup
  carried a ha := by
    obtain ⟨d, hd, rfl⟩ := List.mem_map.mp ha
    exact (h.mem_iff d).mp hd
  all tag d hd hc := by
    rw [List.map_map]
    exact List.mem_map.mpr ⟨d, (h.mem_iff d).mpr ⟨hc, tag.2, hd⟩, rfl⟩

/-- The order in which the messages were read does not matter. -/
theorem bodiesIn_perm {arrivals : Unit → ℕ → Option (Message α)} {c : UUID}
    {ds : List (Unit × DataMsg α)} (hds : QueueInputs arrivals c ds) {msgs : List (DataMsg α)}
    (hmsgs : Inputs arrivals c msgs) : (bodiesIn c () ds).Perm (msgs.map DataMsg.body) := by
  have hall : ds.filter (fun a => a.1 = () ∧ a.2.clientId = c) = ds :=
    List.filter_eq_self.mpr fun a ha => by simpa using (hds.carried a ha).1
  have hperm : (ds.map Prod.snd).Perm msgs := by
    refine (List.perm_ext_iff_of_nodup (.of_map DataMsg.identity ?_) (.of_map _ hmsgs.nodup)).mpr
      fun d => ?_
    · rw [List.map_map]
      exact hds.nodup
    · rw [hmsgs.mem_iff]
      constructor
      · intro hd
        obtain ⟨a, ha, rfl⟩ := List.mem_map.mp hd
        exact hds.carried a ha
      · rintro ⟨hc, j, hj⟩
        exact hds.all _ d hj hc
  have hbodies := hperm.map DataMsg.body
  rw [List.map_map] at hbodies
  rw [bodiesIn, hall]
  exact hbodies

/-- So every order gives what the stage receives. -/
theorem received_perm {shape : StageShape} {F S E β : Type} {R : AffinityRing Unit F S E α β}
    (hids : R.ids = List.range shape.size) {c : UUID} {ds : ℕ → List (Unit × DataMsg α)}
    (hds : ∀ p ∈ R.ids, QueueInputs (R.arrivals p) c (ds p)) {msgs : ℕ → List (DataMsg α)}
    (hmsgs : ∀ p ∈ R.ids, Inputs (R.arrivals p) c (msgs p)) :
    ((shape.fleet ds).received c ()).Perm (R.ids.flatMap fun p => (msgs p).map DataMsg.body) := by
  change ((List.range shape.size).flatMap fun p => bodiesIn c () (ds p)).Perm _
  rw [← hids]
  exact List.Perm.flatMap_left _ fun p hp => bodiesIn_perm (hds p hp) (hmsgs p hp)

/-- What is in the received batches. -/
theorem received_flatten_perm {shape : StageShape} {F S E β : Type}
    {R : AffinityRing Unit F S E (List α) β} (hids : R.ids = List.range shape.size) {c : UUID}
    {ds : ℕ → List (Unit × DataMsg (List α))}
    (hds : ∀ p ∈ R.ids, QueueInputs (R.arrivals p) c (ds p))
    {msgs : ℕ → List (DataMsg (List α))} (hmsgs : ∀ p ∈ R.ids, Inputs (R.arrivals p) c (msgs p)) :
    ((shape.fleet ds).received c ()).flatten.Perm
      (R.ids.flatMap fun p => (msgs p).flatMap DataMsg.body) := by
  have hflat : (R.ids.flatMap fun p => (msgs p).map DataMsg.body).flatten =
      R.ids.flatMap fun p => (msgs p).flatMap DataMsg.body := by
    simp only [List.flatMap_def, List.flatten_flatten, List.map_map, Function.comp_def]
  rw [← hflat]
  exact (received_perm hids hds hmsgs).flatten

theorem contract_of_stateless (hring : StatelessRing R) (hsetup : StatelessSetup R)
    (course : R.Course) : Contract course where
  toPromises := promises_of_stateless hring hsetup course
  results hp heof := by
    obtain ⟨ds, hds, -⟩ := exists_outputs_of_eof hring hsetup hp heof
    refine ⟨fun q => (ds q).map fun d => ((), d), fun q hq => ⟨?_, ?_⟩⟩
    · exact queueInputs_of_inputs (hds q hq).toInputs
    · rw [(hds q hq).toInputs.sends (hring.node hq).stateless]
      exact (hds q hq).published

end Stateless

/-! ## Stages with their state in memory -/

section InMemory

variable {Q F S E α β V : Type} [DecidableEq Q] {R : AffinityRing Q F S E α β}
  {view : UUID → F → V} {tracks : E → Q → UUID → Prop} {course : R.Course}

/-- A stage whose nodes keep their state in memory. -/
structure InMemorySetup (R : AffinityRing Q F S E α β) (view : UUID → F → V)
    (tracks : E → Q → UUID → Prop) : Prop where
  node : ∀ p ∈ R.ids, InMemoryClass (R.node p) view (R.fn₀ p) tracks
  fifo : R.fifo = true
  queues : ∀ p ∈ R.ids, FirstQueues (R.arrivals p)
  producers : R.SeparateProducers

omit [DecidableEq Q] in
/-- Numbers that are given out when a message is sent start with `1`. -/
theorem numbered_rules {C : Controller Q F S E α β} (hnone : ∀ o, MaySend C o → o.stamp = none) :
    LogRules C (fun _ => True)
      fun log => ∀ shard id y pl, .data shard id y pl ∈ log → 1 ≤ id.2 where
  quiet e log he h shard id y pl hmem := by
    rcases List.mem_cons.mp hmem with rfl | hmem
    · simp [Event.isQuiet] at he
    · exact h shard id y pl hmem
  eof _ _ _ _ _ _ h shard id y pl hmem :=
    h shard id y pl ((List.mem_cons.mp hmem).resolve_left (by simp))
  data seqs y o log ho h shard id y' pl hmem := by
    rcases List.mem_cons.mp hmem with heq | hmem
    · simp only [Event.data.injEq] at heq
      rw [heq.2.1, (Controller.stampOf_of_none seqs (hnone o ho)).1]
      exact Nat.le_add_left 1 _
    · exact h shard id y' pl hmem
  abort _ _ _ _ h shard id y pl hmem :=
    h shard id y pl ((List.mem_cons.mp hmem).resolve_left (by simp))

/-- Every node is replay-safe and has published the results of the clients that it reported. -/
theorem InMemorySetup.visits (hsetup : InMemorySetup R view tracks) {s : ℕ → Node Q F S E β}
    (h : R.runs.Visits R.initial s) {p : ℕ} (hp : p ∈ R.ids) :
    ReplaySafe (s p).log ∧
      Exact (R.node p) view (R.fn₀ p) (firsts (R.arrivals p)) (s p) := by
  have hclass := hsetup.node p hp
  have hvisits := visits_node h p
  rw [hsetup.fifo] at hvisits
  exact late_visits hclass.stateful hclass.apportioned hclass.startsFrom hclass.tracksEofs
    (hsetup.queues p hp) hvisits

theorem promises_of_inMemory (hsetup : InMemorySetup R view tracks) (course : R.Course) :
    Promises course := by
  have hstateful : ∀ p ∈ R.ids, Stateful (R.node p) := fun p hp => (hsetup.node p hp).stateful
  have hvisits := visits_of_course course
  have hconserves := fun n => conserves_of_replaySafe hstateful hsetup.producers (hvisits n)
    fun p hp => (hsetup.visits (hvisits n) hp).1
  have hown : ∀ {n p q shard id y y' pl pl'}, p ∈ R.ids → q ∈ R.ids → p ≠ q →
      .data shard id y pl ∈ (course.state n p).log →
        .data shard id y' pl' ∉ (course.state n q).log := by
    intro n p q shard id y y' pl pl' hp hq hne he he'
    have hproducer := ownStamps_of_stateful (hvisits n) (hstateful p hp) shard id y pl he
    have hproducer' := ownStamps_of_stateful (hvisits n) (hstateful q hq) shard id y' pl' he'
    exact hsetup.producers p hp q hq hne shard shard (hproducer.symm.trans hproducer')
  refine ⟨fun h => ?_, fun h h' => ?_, hown, fun hp heof => (hconserves _).2 _ hp _ _ _ heof⟩
  · obtain ⟨n, p, hp, hmem⟩ := h
    exact logged_visits (numbered_rules fun _ => stamp_of_maySend (hstateful p hp)) (by simp)
      (fun _ _ _ _ => trivial) (visits_node (hvisits n) p) _ _ _ _ hmem
  · obtain ⟨n, ⟨p, hp, hmem⟩, q, hq, hmem'⟩ := h.together h'
    refine ⟨?_, ((hconserves n).1 p hp q hq _ _ _ _ _ _ _ hmem hmem').2⟩
    by_cases hpq : p = q
    · subst hpq
      exact (hsetup.visits (hvisits n) hp).2.client _ _ _ _ _ _ _ hmem hmem'
    · exact absurd hmem' (hown hp hq hpq hmem)

theorem contract_of_inMemory (hsetup : InMemorySetup R view tracks) (course : R.Course) :
    Contract course where
  toPromises := promises_of_inMemory hsetup course
  results := by
    intro n p shard c k hp heof
    obtain ⟨sent, hsent, -⟩ := eof_eq_sum (visits_of_course course n) hp heof
    have hresults : ∀ q ∈ R.ids, ∃ ds,
        PublishesResult (R.node q) (R.fn₀ q) (R.arrivals q) c ds (course.state n q).log := by
      intro q hq
      have hexact := (hsetup.visits (visits_of_course course n) hq).2
      obtain ⟨ds, hds⟩ := (hexact.sent c (sent q) (hsent q hq)).publishesResult
        (hsetup.node q hq).stateful
      exact ⟨ds, (hsetup.queues q hq).queueInputs hds.toQueueInputs, hds.published⟩
    choose! ds hds using hresults
    exact ⟨ds, hds⟩

/-- Before an end-of-file of a client is sent, every queue of every node has handed over one. -/
theorem InMemorySetup.everyEof (hsetup : InMemorySetup R view tracks) {shard k : ℕ}
    (heof : Publishes course (.eof shard c k)) {p : ℕ} (hp : p ∈ R.ids) :
    EveryEof (R.arrivals p) c := by
  obtain ⟨n, p', hp', hmem⟩ := heof
  obtain ⟨sent, hsent, -⟩ := eof_eq_sum (visits_of_course course n) hp' hmem
  exact everyEof_of_reported (hsetup.node p hp).tracksEofs
    (visits_node (visits_of_course course n) p) (hsent p hp)

end InMemory

/-! ## Stages that read from each other -/

section Links

variable {Q F S E α β Q' F' S' E' α' β' : Type} [DecidableEq Q] {R : AffinityRing Q F S E α β}
  {R' : AffinityRing Q' F' S' E' α' β'} {course : R.Course} {q : Q'} {wrap : β → α'} {c : UUID}
  {p : ℕ}

/-- The broker keeps the order: what the stage had published of a client with an end-of-file
is in the queue before it. -/
def KeepsOrder (course : R.Course) (shard : ℕ) (queue : ℕ → Option (Message β)) : Prop :=
  ∀ i c k, queue i = some (.eof c k) → ∃ n, (∃ p ∈ R.ids, ∃ k' : ℕ,
      .eof shard c k' ∈ (course.state n p).log) ∧
    ∀ p ∈ R.ids, ∀ id pl, .data shard id c pl ∈ (course.state n p).log →
      ∃ j < i, queue j = some (.data ⟨c, id.1, id.2, pl⟩)

omit [DecidableEq Q] in
theorem map_wrap_id (msg : Option (Message β)) : msg.map (Message.map id) = msg := by
  cases msg with
  | none => rfl
  | some msg => cases msg <;> rfl

/-- A queue of every node is bound to the node's shard of a stage, whose bodies are read
with `wrap`. -/
def ReadsFrom (R' : AffinityRing Q' F' S' E' α' β') (q : Q') (course : R.Course)
    (wrap : β → α') : Prop :=
  ∀ p ∈ R'.ids, ∃ queue, (Feeds course p queue ∧ KeepsOrder course p queue) ∧
    ∀ j, R'.arrivals p q j = (queue j).map (Message.map wrap)

/-- A queue with a copy of every message before the end-of-files keeps the order. -/
theorem Feeds.keepsOrder {shard : ℕ} {queue : ℕ → Option (Message β)}
    (h : Feeds course shard queue) (hfirst : FirstBeforeEof fun _ : Unit => queue) :
    KeepsOrder course shard queue := by
  intro i c k heof
  obtain ⟨k', -, n, p, hp, hk'⟩ := (h.eof c k).mp ⟨i, heof⟩
  refine ⟨n, ⟨p, hp, k', hk'⟩, fun p hp id pl hmem => ?_⟩
  obtain ⟨j, hj⟩ := (h.data ⟨c, id.1, id.2, pl⟩).mpr ⟨n, p, hp, hmem⟩
  exact hfirst () i j _ hj ⟨k, heof⟩

/-- What such a queue carries was published. -/
theorem ReadsFrom.published (h : ReadsFrom R' q course wrap) (hp : p ∈ R'.ids) {j : ℕ}
    {d : DataMsg α'} (hd : Carries (R'.arrivals p) (q, j) d) :
    ∃ body, d.body = wrap body ∧ Publishes course (.data p d.identity d.clientId body) := by
  obtain ⟨queue, ⟨hfeeds, -⟩, hqueue⟩ := h p hp
  obtain ⟨msg, hmsg, hmap⟩ := Option.map_eq_some_iff.mp ((hqueue j).symm.trans hd)
  cases msg with
  | data d' =>
      obtain rfl := Message.data.inj hmap
      exact ⟨d'.body, rfl, (hfeeds.data d').mp ⟨j, hmsg⟩⟩
  | eof => cases hmap
  | abort => cases hmap

/-- An end-of-file in such a queue was published. -/
theorem ReadsFrom.eof_published (h : ReadsFrom R' q course wrap) (hp : p ∈ R'.ids) {j : ℕ}
    (heof : EofAt (R'.arrivals p) (q, j) c) : ∃ k : ℕ, Publishes course (.eof p c k) := by
  obtain ⟨queue, ⟨hfeeds, -⟩, hqueue⟩ := h p hp
  obtain ⟨k, hk⟩ := heof
  obtain ⟨msg, hmsg, hmap⟩ := Option.map_eq_some_iff.mp ((hqueue j).symm.trans hk)
  cases msg with
  | data => cases hmap
  | eof c' k' =>
      obtain ⟨rfl, rfl⟩ := Message.eof.inj hmap
      obtain ⟨n, -, hpublished⟩ := (hfeeds.eof c' k').mp ⟨j, hmsg⟩
      exact ⟨n, hpublished⟩
  | abort => cases hmap

/-- One message for each stamp. -/
theorem ReadsFrom.same (h : ReadsFrom R' q course wrap) (hpromises : Promises course)
    (hp : p ∈ R'.ids) {j j' : ℕ} {d d' : DataMsg α'} (hd : Carries (R'.arrivals p) (q, j) d)
    (hd' : Carries (R'.arrivals p) (q, j') d') (hid : d.identity = d'.identity) : d = d' := by
  obtain ⟨body, hbody, hpublished⟩ := h.published hp hd
  obtain ⟨body', hbody', hpublished'⟩ := h.published hp hd'
  rw [hid] at hpublished
  obtain ⟨hclient, rfl⟩ := hpromises.same hpublished hpublished'
  obtain ⟨hproducer, hseq⟩ := Prod.mk.inj hid
  cases d
  cases d'
  subst hclient hproducer hseq hbody hbody'
  rfl

/-- Of every message a copy comes before the end-of-files of its client. -/
theorem ReadsFrom.first (h : ReadsFrom R' q course wrap) (hpromises : Promises course)
    (hp : p ∈ R'.ids) {i j : ℕ} {d : DataMsg α'} (hd : Carries (R'.arrivals p) (q, j) d)
    (heof : EofAt (R'.arrivals p) (q, i) d.clientId) :
    ∃ j' < i, Carries (R'.arrivals p) (q, j') d := by
  obtain ⟨queue, ⟨-, horder⟩, hqueue⟩ := h p hp
  obtain ⟨body, hbody, hpublished⟩ := h.published hp hd
  obtain ⟨k, hk⟩ := heof
  obtain ⟨msg, hmsg, hmap⟩ := Option.map_eq_some_iff.mp ((hqueue i).symm.trans hk)
  cases msg with
  | data => cases hmap
  | abort => cases hmap
  | eof c' k' =>
      obtain ⟨rfl, rfl⟩ := Message.eof.inj hmap
      obtain ⟨n, ⟨p', hp', k', heof⟩, hbefore⟩ := horder i _ _ hmsg
      obtain ⟨p'', hp'', pl, hmem⟩ :=
        mem_distinctOn_iff.mp (hpromises.published_before_eof hp' heof hpublished)
      obtain ⟨-, rfl⟩ := hpromises.same ⟨n, p'', hp'', hmem⟩ hpublished
      obtain ⟨j', hj', hcopy⟩ := hbefore p'' hp'' _ _ hmem
      refine ⟨j', hj', (hqueue j').trans ?_⟩
      rw [hcopy]
      cases d
      cases hbody
      rfl

/-- A queue whose numbers start with `1`, whose stamps are of one message, and in which a copy
of every message comes before the end-of-files. -/
structure Stamped (arrivals : Q' → ℕ → Option (Message α')) (q : Q') : Prop where
  seq : ∀ {j d}, Carries arrivals (q, j) d → 1 ≤ d.seq
  same : ∀ {j j' d d'}, Carries arrivals (q, j) d → Carries arrivals (q, j') d' →
    d.identity = d'.identity → d = d'
  first : ∀ {i j d}, Carries arrivals (q, j) d → EofAt arrivals (q, i) d.clientId →
    ∃ j' < i, Carries arrivals (q, j') d

theorem ReadsFrom.stamped (h : ReadsFrom R' q course wrap) (hpromises : Promises course)
    (hp : p ∈ R'.ids) : Stamped (R'.arrivals p) q where
  seq hd := by
    obtain ⟨_, -, hpublished⟩ := h.published hp hd
    exact hpromises.seq hpublished
  same := h.same hpromises hp
  first := h.first hpromises hp

/-- If each queue is behind a stage, the queues of a node promise what it needs. -/
theorem firstQueues_of_stamped {arrivals : Q' → ℕ → Option (Message α')}
    (hone : OneQueue arrivals) (h : ∀ q, Stamped arrivals q) : FirstQueues arrivals where
  seq tag d hd := (h tag.1).seq hd
  same := by
    rintro ⟨q, j⟩ ⟨q', j'⟩ d d' hd hd' hid
    obtain rfl : q = q' := hone _ _ d d' hd hd' hid
    exact (h q).same hd hd' hid
  one := hone
  first q _ _ _ hd heof := (h q).first hd heof

/-- A published stamp has a producer id of a node. -/
theorem producer_of_publishes (hstateful : ∀ p ∈ R.ids, Stateful (R.node p)) {shard : ℕ}
    {id : ProducerId × ℕ} {y : UUID} {pl : β} (h : Publishes course (.data shard id y pl)) :
    ∃ p ∈ R.ids, id.1 = (R.node p).producer shard := by
  obtain ⟨n, p, hp, hmem⟩ := h
  exact ⟨p, hp, ownStamps_of_stateful (visits_of_course course n) (hstateful p hp) _ _ _ _ hmem⟩

/-- The bodies that a node reads of a client in a queue. -/
theorem ReadsFrom.bodies [DecidableEq Q'] {queue : ℕ → Option (Message β)}
    (hqueue : ∀ j, R'.arrivals p q j = (queue j).map (Message.map wrap))
    (hone : OneQueue (R'.arrivals p)) {ds : List (Q' × DataMsg α')}
    (hds : QueueInputs (R'.arrivals p) c ds) {es : List (DataMsg β)}
    (hes : Inputs (fun _ => queue) c es) :
    (bodiesIn c q ds).Perm ((es.map DataMsg.body).map wrap) := by
  let read : DataMsg β → DataMsg α' := fun d => ⟨d.clientId, d.producerId, d.seq, wrap d.body⟩
  have hcarries : ∀ {j d}, Carries (R'.arrivals p) (q, j) d ↔
      ∃ d', Carries (fun _ : Unit => queue) ((), j) d' ∧ read d' = d := by
    intro j d
    unfold Carries
    rw [hqueue]
    constructor
    · intro hd
      obtain ⟨msg, hmsg, hmap⟩ := Option.map_eq_some_iff.mp hd
      cases msg with
      | data d' => exact ⟨d', hmsg, Message.data.inj hmap⟩
      | eof => cases hmap
      | abort => cases hmap
    · rintro ⟨d', hd', rfl⟩
      exact Option.map_eq_some_iff.mpr ⟨_, hd', rfl⟩
  have hmine : ∀ a ∈ ds, a.2.clientId = c := fun a ha => (hds.carried a ha).1
  have hperm : ((ds.filter fun a => a.1 = q ∧ a.2.clientId = c).map Prod.snd).Perm
      (es.map read) := by
    refine (List.perm_ext_iff_of_nodup ?_ ?_).mpr fun d => ?_
    · refine .of_map DataMsg.identity ?_
      rw [List.map_map]
      exact hds.nodup.sublist (List.filter_sublist.map _)
    · refine .of_map DataMsg.identity ?_
      rw [List.map_map]
      exact hes.nodup
    · constructor
      · intro hd
        obtain ⟨a, ha, rfl⟩ := List.mem_map.mp hd
        obtain ⟨hmem, hq⟩ := List.mem_filter.mp ha
        obtain ⟨rfl, hc⟩ := of_decide_eq_true hq
        obtain ⟨-, j, hj⟩ := hds.carried a hmem
        obtain ⟨d', hd', heq⟩ := hcarries.mp hj
        rw [← heq] at hc ⊢
        exact List.mem_map_of_mem ((hes.mem_iff d').mpr ⟨hc, j, hd'⟩)
      · intro hd
        obtain ⟨d', hd', rfl⟩ := List.mem_map.mp hd
        obtain ⟨hc, j, hj⟩ := (hes.mem_iff d').mp hd'
        have hcarried := hcarries.mpr ⟨d', hj, rfl⟩
        obtain ⟨a, ha, heq⟩ := List.mem_map.mp (hds.all (q, j) (read d') hcarried hc)
        obtain ⟨-, j', hj'⟩ := hds.carried a ha
        have hq : a.1 = q := hone _ _ _ _ hj' hcarried (by rw [heq])
        exact List.mem_map.mpr ⟨a, List.mem_filter.mpr
          ⟨ha, decide_eq_true ⟨hq, hmine a ha⟩⟩, heq⟩
  have hbodies := hperm.map DataMsg.body
  rw [List.map_map, List.map_map] at hbodies
  rw [bodiesIn, List.map_map]
  exact hbodies

/-- The nodes of a stage are numbered from `0` and differ in their configuration only. -/
structure Deploys (R : AffinityRing Q F S E α β) (shape : StageShape)
    (node : NodeConfig → Controller Q F S E α β) (f₀ : F) : Prop where
  ids : R.ids = List.range shape.size
  node : ∀ p ∈ R.ids, R.node p = node (shape.config p)
  fn₀ : ∀ p ∈ R.ids, R.fn₀ p = f₀

omit [DecidableEq Q] in
/-- What the nodes send is what the instances of the stage send. -/
theorem Deploys.sends_node {shape : StageShape} {node : NodeConfig → Controller Q F S E α β}
    {f₀ : F} (h : Deploys R shape node f₀) (ds : ℕ → List (Q × DataMsg α)) (hp : p ∈ R.ids) :
    (R.node p).sends c (R.fn₀ p) (ds p) = (shape.fleet ds).sendsOf node c f₀ p := by
  rw [h.node p hp, h.fn₀ p hp]
  rfl

omit [DecidableEq Q] in
theorem Deploys.sentTo_sends {shape : StageShape} {node : NodeConfig → Controller Q F S E α β}
    {f₀ : F} (h : Deploys R shape node f₀) (ds : ℕ → List (Q × DataMsg α)) (shard : ℕ) :
    sentTo shard ((shape.fleet ds).sends node c f₀) =
      R.ids.flatMap fun p => sentTo shard ((R.node p).sends c (R.fn₀ p) (ds p)) := by
  rw [Fleet.sends, sentTo_flatMap, h.ids]
  refine List.flatMap_congr fun p hp => ?_
  rw [h.sends_node ds (h.ids ▸ hp)]

/-- With the end-of-files of a client in its queues, a stage receives what the stage before it
sends. -/
theorem Contract.receives [DecidableEq Q'] (h : Contract course) {shape shape' : StageShape}
    {node : NodeConfig → Controller Q F S E α β} {f₀ : F}
    (hdeploys : Deploys R shape node f₀) (hids : R'.ids = List.range shape'.size)
    (hreads : ReadsFrom R' q course wrap) (hone : ∀ p ∈ R'.ids, OneQueue (R'.arrivals p))
    (hended : ∀ p ∈ R'.ids, ∃ j, EofAt (R'.arrivals p) (q, j) c) :
    ∃ ds, (∀ p ∈ R.ids, QueueInputs (R.arrivals p) c (ds p)) ∧
      ∀ ds', (∀ p ∈ R'.ids, QueueInputs (R'.arrivals p) c (ds' p)) →
        (shape'.fleet ds').Receives c q wrap ((shape.fleet ds).sends node c f₀) := by
  choose! queue hreads hqueue using hreads
  have hfeeds := fun p hp => (hreads p hp).1
  have hne : R'.ids ≠ [] := by
    rw [hids]
    exact List.range_eq_nil.not.mpr shape'.pos.ne'
  have hqueues : ∀ p ∈ R'.ids, ∃ j k, queue p j = some (.eof c k) := by
    intro p hp
    obtain ⟨j, k, hj⟩ := hended p hp
    rw [hqueue p hp] at hj
    obtain ⟨msg, hmsg, hmap⟩ := Option.map_eq_some_iff.mp hj
    cases msg with
    | data => cases hmap
    | eof c' k' =>
        obtain ⟨rfl, rfl⟩ := Message.eof.inj hmap
        exact ⟨j, _, hmsg⟩
    | abort => cases hmap
  obtain ⟨ds, hds, hall⟩ := h.inputs hne hfeeds hqueues
  refine ⟨ds, hds, fun ds' hds' i hi => ?_⟩
  have hi' : i ∈ R'.ids := hids ▸ List.mem_range.mpr hi
  obtain ⟨es, hes, hbodies⟩ := hall i hi'
  rw [hdeploys.sentTo_sends, ← hbodies]
  exact ReadsFrom.bodies (hqueue i hi') (hone i hi') (hds' i hi') hes

end Links

end AffinityRing
