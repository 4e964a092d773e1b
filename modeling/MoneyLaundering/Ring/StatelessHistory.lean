import MoneyLaundering.Ring.StatelessReplay

/-!
# What stateless nodes publish

The history of a stateless node, whatever crashes it went through: one message
for each stamp and shard, counts that are the numbers of distinct messages, and
for every reported client the outputs of its messages, each taken once.
-/

open Crash

namespace StatelessReplay

open RingNode

variable {F S α β : Type} {C : Controller Unit F S SentCounts α β}
  {arrivals : Unit → ℕ → Option (Message α)} {n : ℕ} {x : UUID}

/-! ## What the history says -/

section History

variable {log : List (Event β)}

/-- Messages of two prefixes are messages of the longer one. -/
theorem Justified.published_together (h : Justified C arrivals log)
    {shard shard' : ℕ} {id id' : ProducerId × ℕ} {y y' : UUID} {pl pl' : β}
    (he : .data shard id y pl ∈ log) (he' : .data shard' id' y' pl' ∈ log) :
    ∃ n, .data shard id y pl ∈ publishedBy C arrivals n ∧
      .data shard' id' y' pl' ∈ publishedBy C arrivals n := by
  obtain ⟨n, hn⟩ := h.published _ _ _ _ he
  obtain ⟨n', hn'⟩ := h.published _ _ _ _ he'
  exact ⟨max n n', (publishedBy_mono C (le_max_left n n')).subset hn,
    (publishedBy_mono C (le_max_right n n')).subset hn'⟩

/-- Two messages for one shard with one stamp are one message. -/
theorem Justified.same (hC : Stateless C) (h : Justified C arrivals log)
    {shard : ℕ} {id : ProducerId × ℕ} {y y' : UUID} {pl pl' : β}
    (he : .data shard id y pl ∈ log) (he' : .data shard id y' pl' ∈ log) :
    y = y' ∧ pl = pl' := by
  obtain ⟨n, hn, hn'⟩ := h.published_together he he'
  have hnodup := Controller.nodup_keys (fun _ => 0) hC.stamps
    (Applied.nodup_identities (arrivals ()) n)
  have heq := eq_of_nodup_filterMap hnodup hn hn' (k := (shard, id)) rfl rfl
  simp only [Event.data.injEq] at heq
  exact heq.2.2

/-- Once all messages of a client are applied, nothing more is published of it. -/
theorem Complete.published_le
    (h : Complete arrivals x (read arrivals n).msgs) {n' shard : ℕ}
    {id : ProducerId × ℕ} {pl : β}
    (he : .data shard id x pl ∈ publishedBy C arrivals n') :
    .data shard id x pl ∈ publishedBy C arrivals n := by
  rcases le_total n' n with hle | hle
  · exact (publishedBy_mono C hle).subset he
  obtain ⟨rest, hrest⟩ := Applied.msgs_prefix (arrivals ()) hle
  rw [publishedBy, ← hrest, Controller.publishes_append] at he
  refine (List.mem_append.mp he).resolve_right fun hnew => ?_
  -- a later message of the client would have an identity that was applied before
  obtain ⟨d, hd, hc⟩ := Controller.client_of_mem_publishes hnew
  have hmem : d ∈ (read arrivals n').msgs := by
    rw [← hrest]
    exact List.mem_append_right _ hd
  obtain ⟨j, -, hj⟩ := Applied.mem_arrivals hmem
  obtain ⟨d', hd', hid⟩ := h j d hj hc
  have hnodup := Applied.nodup_identities (arrivals ()) n'
  rw [← hrest, List.map_append, List.nodup_append] at hnodup
  exact hnodup.2.2 _ (List.mem_map_of_mem hd') _ (List.mem_map_of_mem hd) hid

/-- The client's messages of a queue, each once. -/
structure Inputs (arrivals : Unit → ℕ → Option (Message α)) (x : UUID)
    (ds : List (DataMsg α)) : Prop where
  nodup : (ds.map DataMsg.identity).Nodup
  mem_iff : ∀ d, d ∈ ds ↔ d.clientId = x ∧ ∃ j, Carries arrivals ((), j) d

theorem Inputs.perm {ds ds' : List (DataMsg α)} (h : Inputs arrivals x ds)
    (h' : Inputs arrivals x ds') : ds.Perm ds' :=
  (List.perm_ext_iff_of_nodup (.of_map _ h.nodup) (.of_map _ h'.nodup)).mpr fun d =>
    (h.mem_iff d).trans (h'.mem_iff d).symm

/-- The messages of a reported client are the outputs of its messages, each
taken once. -/
structure PublishesOutputs (C : Controller Unit F S SentCounts α β)
    (arrivals : Unit → ℕ → Option (Message α)) (x : UUID) (ds : List (DataMsg α))
    (log : List (Event β)) : Prop extends Inputs arrivals x ds where
  published : ∀ shard, ∃ msgs : List ((ProducerId × ℕ) × β),
    (msgs.map Prod.fst).Nodup ∧
      (∀ id pl, (id, pl) ∈ msgs ↔ .data shard id x pl ∈ log) ∧
        msgs.map Prod.snd = sentTo shard (ds.flatMap C.outputs)

/-- A node that has applied all messages of a client published their outputs. -/
theorem Complete.publishesOutputs (hC : Stateless C) (hqueue : CountedQueue arrivals)
    (hcomplete : Complete arrivals x (read arrivals n).msgs)
    (h : Justified C arrivals log) (hlogged : ∀ e ∈ publishedBy C arrivals n, e ∈ log) :
    PublishesOutputs C arrivals x (ofClient x (read arrivals n).msgs) log := by
  have hkeys := Controller.nodup_keys (fun _ => 0) hC.stamps
    (Applied.nodup_identities (arrivals ()) n)
  refine ⟨⟨?_, fun d => ?_⟩, fun shard => ?_⟩
  · exact (Applied.nodup_identities _ _).sublist (List.filter_sublist.map _)
  · rw [ofClient, List.mem_filter, decide_eq_true_eq, and_comm]
    refine and_congr_right fun hc => ⟨fun hd => ?_, ?_⟩
    · obtain ⟨j, -, hj⟩ := Applied.mem_arrivals hd
      exact ⟨j, hj⟩
    · rintro ⟨j, hj⟩
      obtain ⟨d', hd', hid⟩ := hcomplete j d hj hc
      obtain ⟨j', -, hj'⟩ := Applied.mem_arrivals hd'
      have heq := hqueue.same ((), j') ((), j) d' d hj' hj hid
      rwa [← heq]
  · refine ⟨(publishedBy C arrivals n).filterMap (Event.messageOn x shard),
      Event.nodup_stamps hkeys x shard, fun id pl => ?_,
      Controller.payloads_publishes _ _⟩
    rw [Event.mem_messageOn]
    refine ⟨hlogged _, fun hmem => ?_⟩
    obtain ⟨n', hn'⟩ := h.published shard id x pl hmem
    exact hcomplete.published_le hn'

theorem Justified.publishesOutputs (hC : Stateless C) (hqueue : CountedQueue arrivals)
    (h : Justified C arrivals log) {sent : ShardCounts}
    (he : .reported x sent ∈ log) :
    ∃ ds, PublishesOutputs C arrivals x ds log ∧
      ∀ shard, sent.getD shard 0 =
        (sentTo shard (ds.flatMap C.outputs)).length := by
  obtain ⟨n, hcomplete, hlogged, hsent⟩ := h.reported x sent he
  exact ⟨_, hcomplete.publishesOutputs hC hqueue h hlogged, hsent⟩

/-- There are as many distinct messages as outputs. -/
theorem PublishesOutputs.card_distinctOn {ds : List (DataMsg α)}
    (h : PublishesOutputs C arrivals x ds log) (shard : ℕ) :
    (Event.distinctOn x shard log).card =
      (sentTo shard (ds.flatMap C.outputs)).length :=
  Event.PublishedAs.card_distinctOn h.published shard

/-- Reports count distinct messages. -/
theorem Justified.counts (hC : Stateless C) (hqueue : CountedQueue arrivals)
    (h : Justified C arrivals log) {sent : ShardCounts}
    (he : .reported x sent ∈ log) (shard : ℕ) :
    sent.getD shard 0 = (Event.distinctOn x shard log).card := by
  obtain ⟨ds, hds, hsent⟩ := h.publishesOutputs hC hqueue he
  rw [hsent, hds.card_distinctOn]

end History

/-! ## The classes of stateless nodes -/

/-- The nodes that emit each input as they process it.  No sharded route is
without shards. -/
inductive StatelessClass {α β : Type} :
    Controller Unit Unit Unit SentCounts α β → Prop
  | filter (cfg : NodeConfig) (nShards : ℕ) (f : DataMsg α → β) :
      StatelessClass (ringFilter cfg nShards f)
  | broadcastFilter (cfg : NodeConfig) (broadcastRoutes : List (DataMsg α → β))
      (shardedRoutes : List (ℕ × (DataMsg α → β)))
      (hpos : ∀ route ∈ shardedRoutes, 0 < route.1) :
      StatelessClass (ringBroadcastFilter cfg broadcastRoutes shardedRoutes)
  | groupBy (cfg : NodeConfig) (fleets : List ℕ)
      (groupBy : DataMsg α → List (β × ℤ)) :
      StatelessClass (ringGroupBy cfg fleets groupBy)

/-- The broadcast routes come first, one shard each. -/
theorem shards_broadcast (d : DataMsg α) (base : ℕ) (routes : List (DataMsg α → β)) :
    (RingBroadcastFilter.broadcast d base routes).map Output.shard =
      List.range' base routes.length := by
  induction routes generalizing base with
  | nil => rfl
  | cons route routes ih =>
      rw [RingBroadcastFilter.broadcast, List.map_cons, ih, List.length_cons,
        List.range'_succ]

/-- Every sharded route has its own stretch of the shards. -/
theorem shards_sharded (d : DataMsg α) (base : ℕ)
    (routes : List (ℕ × (DataMsg α → β))) (hpos : ∀ route ∈ routes, 0 < route.1) :
    (∀ shard ∈ (RingBroadcastFilter.sharded d base routes).map Output.shard,
      base ≤ shard) ∧
    ((RingBroadcastFilter.sharded d base routes).map Output.shard).Nodup := by
  induction routes generalizing base with
  | nil => exact ⟨by simp [RingBroadcastFilter.sharded], List.nodup_nil⟩
  | cons route routes ih =>
      obtain ⟨nshards, f⟩ := route
      obtain ⟨hle, hnodup⟩ := ih (base + nshards) fun r hr =>
        hpos r (List.mem_cons_of_mem _ hr)
      have hlt : shardOf d nshards < nshards :=
        Nat.mod_lt _ (hpos (nshards, f) List.mem_cons_self)
      rw [RingBroadcastFilter.sharded, List.map_cons]
      refine ⟨fun shard hmem => ?_, List.nodup_cons.mpr ⟨fun hmem => ?_, hnodup⟩⟩
      · rcases List.mem_cons.mp hmem with rfl | hmem
        · exact Nat.le_add_right _ _
        · exact (Nat.le_add_right _ _).trans (hle shard hmem)
      · have hge := hle _ hmem
        simp only at hge
        omega

/-- Every output of a broadcast filter keeps the identity of the input. -/
theorem stamp_broadcastFilter (d : DataMsg α) (broadcastRoutes : List (DataMsg α → β))
    (shardedRoutes : List (ℕ × (DataMsg α → β))) :
    ∀ o ∈ RingBroadcastFilter.broadcast d 0 broadcastRoutes ++
      RingBroadcastFilter.sharded d broadcastRoutes.length shardedRoutes,
        o.stamp = some d.identity := by
  have hbroadcast : ∀ (routes : List (DataMsg α → β)) base,
      ∀ o ∈ RingBroadcastFilter.broadcast d base routes,
        o.stamp = some d.identity := by
    intro routes
    induction routes with
    | nil => simp [RingBroadcastFilter.broadcast]
    | cons route routes ih =>
        intro base o ho
        rcases List.mem_cons.mp ho with rfl | ho
        · rfl
        · exact ih _ o ho
  have hsharded : ∀ (routes : List (ℕ × (DataMsg α → β))) base,
      ∀ o ∈ RingBroadcastFilter.sharded d base routes,
        o.stamp = some d.identity := by
    intro routes
    induction routes with
    | nil => simp [RingBroadcastFilter.sharded]
    | cons route routes ih =>
        intro base o ho
        rcases List.mem_cons.mp ho with rfl | ho
        · rfl
        · exact ih _ o ho
  intro o ho
  rcases List.mem_append.mp ho with ho | ho
  · exact hbroadcast _ _ o ho
  · exact hsharded _ _ o ho

theorem stamps_broadcastFilter (broadcastRoutes : List (DataMsg α → β))
    (shardedRoutes : List (ℕ × (DataMsg α → β)))
    (hpos : ∀ route ∈ shardedRoutes, 0 < route.1) :
    Controller.Stamps fun d : DataMsg α =>
      RingBroadcastFilter.broadcast d 0 broadcastRoutes ++
        RingBroadcastFilter.sharded d broadcastRoutes.length shardedRoutes := by
  refine Or.inr fun d =>
    ⟨stamp_broadcastFilter d broadcastRoutes shardedRoutes, ?_⟩
  obtain ⟨hle, hnodup⟩ :=
    shards_sharded d broadcastRoutes.length shardedRoutes hpos
  rw [List.map_append, shards_broadcast, List.nodup_append]
  refine ⟨List.nodup_range', hnodup, fun shard hmem shard' hmem' heq => ?_⟩
  have hlt := (List.mem_range'_1.mp hmem).2
  have hge := hle shard' hmem'
  omega

theorem restamped_fanOut (payload : β) (affinity : ℤ) (base : ℕ) (fleets : List ℕ) :
    Controller.Restamped (RingGroupBy.fanOut payload affinity base fleets) := by
  induction fleets generalizing base with
  | nil => simp [RingGroupBy.fanOut, Controller.Restamped]
  | cons fleet fleets ih =>
      intro o ho
      rcases List.mem_cons.mp ho with rfl | ho
      · rfl
      · exact ih _ o ho

theorem stateless_statelessRingNode {cfg : NodeConfig} {nShards : ℕ}
    {outputs : DataMsg α → List (Output β)} (h : Controller.Stamps outputs) :
    Stateless (statelessRingNode cfg nShards outputs) where
  stamps := h
  silent _ _ := rfl
  counts _ _ _ := rfl
  reports _ _ _ := rfl
  starts := rfl
  notes _ _ _ := rfl
  discards _ _ _ := rfl
  frees _ _ _ := rfl

theorem StatelessClass.stateless {C : Controller Unit Unit Unit SentCounts α β}
    (h : StatelessClass C) : Stateless C := by
  cases h with
  | filter cfg nShards f =>
      refine stateless_statelessRingNode (Or.inr fun d => ⟨fun o ho => ?_, by simp⟩)
      rw [List.mem_singleton.mp ho]
  | broadcastFilter cfg broadcastRoutes shardedRoutes hpos =>
      exact stateless_statelessRingNode
        (stamps_broadcastFilter broadcastRoutes shardedRoutes hpos)
  | groupBy cfg fleets groupBy =>
      refine stateless_statelessRingNode (Or.inl fun d o ho => ?_)
      obtain ⟨g, -, hg⟩ := List.mem_flatMap.mp ho
      exact restamped_fanOut _ _ _ _ o hg

/-- Replay-safe processing.  Whatever crashes and redeliveries a stateless node
goes through: two messages for one shard with one stamp are copies of one
message, and the counts it reports for a client are, for every shard, the
numbers of distinct messages of the client that it ever publishes there. -/
theorem stateless_replay_safe {C : Controller Unit Unit Unit SentCounts α β}
    (hclass : StatelessClass C) (arrivals : Unit → ℕ → Option (Message α))
    (hqueue : CountedQueue arrivals) (m : Node Unit Unit Unit SentCounts β)
    (h : (system C arrivals true fun _ => True).Visits
      (Machine.initial (C.fresh ())) m) :
    (∀ shard id y y' pl pl', .data shard id y pl ∈ m.log →
      .data shard id y' pl' ∈ m.log → y = y' ∧ pl = pl') ∧
    ∀ y sent, .reported y sent ∈ m.log → ∀ shard,
      sent.getD shard 0 = (Event.distinctOn y shard m.log).card := by
  have hjustified := justified_visits hclass.stateless hqueue h
  constructor
  · intro shard id y y' pl pl' he he'
    exact hjustified.same hclass.stateless he he'
  · intro y sent he shard
    exact hjustified.counts hclass.stateless hqueue he shard

/-- A group-by in front of two shards that makes two groups of each input. -/
def splitter : Controller Unit Unit Unit SentCounts ℕ ℕ :=
  ringGroupBy ⟨Peer.ofIds 0 [], 3, fun _ => 9⟩ [2]
    fun d => [(d.body, 0), (d.body + 1, 1)]

/-- Two messages of client `7`, the second one twice, and its end-of-file. -/
def twoMessages : Unit → ℕ → Option (Message ℕ)
  | _, 0 => some (.data ⟨7, 1, 1, 5⟩)
  | _, 1 => some (.data ⟨7, 1, 2, 8⟩)
  | _, 2 => some (.data ⟨7, 1, 2, 8⟩)
  | _, 3 => some (.eof 7 2)
  | _, _ => none

theorem carries_twoMessages {i : ℕ} {d : DataMsg ℕ}
    (h : Carries twoMessages ((), i) d) :
    d = ⟨7, 1, 1, 5⟩ ∨ d = ⟨7, 1, 2, 8⟩ := by
  match i, h with
  | 0, h => exact Or.inl (Message.data.inj (Option.some.inj h)).symm
  | 1, h => exact Or.inr (Message.data.inj (Option.some.inj h)).symm
  | 2, h => exact Or.inr (Message.data.inj (Option.some.inj h)).symm
  | 3, h => cases h
  | _ + 4, h => cases h

theorem countedQueue_twoMessages : CountedQueue twoMessages := by
  refine ⟨fun i d hd => ?_, ?_, fun i c k he => ?_⟩
  · rcases carries_twoMessages hd with rfl | rfl <;> decide
  · rintro ⟨⟨⟩, i⟩ ⟨⟨⟩, i'⟩ d d' hd hd' hid
    rcases carries_twoMessages hd with rfl | rfl <;>
      rcases carries_twoMessages hd' with rfl | rfl <;>
        first | rfl | exact absurd hid (by decide)
  · have heof : c = 7 ∧ k = 2 := by
      match i, he with
      | 0, he => cases he
      | 1, he => cases he
      | 2, he => cases he
      | 3, he => exact ⟨(Message.eof.inj (Option.some.inj he)).1.symm,
          (Message.eof.inj (Option.some.inj he)).2.symm⟩
      | _ + 4, he => cases he
    obtain ⟨rfl, rfl⟩ := heof
    refine ⟨{(1, 1), (1, 2)}, by decide, fun id => ⟨fun hid => ?_, ?_⟩⟩
    · simp only [Finset.mem_insert, Finset.mem_singleton] at hid
      rcases hid with rfl | rfl
      · exact ⟨0, ⟨7, 1, 1, 5⟩, rfl, rfl, rfl⟩
      · exact ⟨1, ⟨7, 1, 2, 8⟩, rfl, rfl, rfl⟩
    · rintro ⟨i, d, hd, -, rfl⟩
      rcases carries_twoMessages hd with rfl | rfl <;> decide

/-- The node crashes while it sends the groups of the second message, and after
it has reported the client. -/
def crashedRun : List (System.Move (Call Unit) (UUID → ℕ → ℕ)) :=
  [.finish .start, .finish (.deliver ((), 0)),
    .crash (.deliver ((), 1)) (fun _ n => n) 1, .finish .start,
    .finish (.deliver ((), 0)), .finish (.deliver ((), 1)),
    .finish (.deliver ((), 2)), .crash (.deliver ((), 3)) (fun _ n => n) 6,
    .finish .start]

/-- The messages that were published, newest first: shard, number, payload. -/
def publishedIn (log : List (Event ℕ)) : List (ℕ × ℕ × ℕ) :=
  log.filterMap fun
    | .data s id _ pl => some (s, id.2, pl)
    | _ => none

/-- What was reported, newest first. -/
def reportedIn (log : List (Event ℕ)) : List (UUID × ShardCounts) :=
  log.filterMap fun
    | .reported y sent => some (y, sent)
    | _ => none

theorem crashedRun_plays :
    ((system splitter twoMessages true fun _ => True).playAll crashedRun
      (Machine.initial (splitter.fresh ()))).map
        (fun m => (publishedIn m.log, reportedIn m.log)) =
      some ([(1, 4, 9), (0, 3, 8), (1, 2, 6), (0, 1, 5), (0, 3, 8), (1, 2, 6),
        (0, 1, 5)], List.replicate 2 (7, (Dict.empty.set 0 2).set 1 2)) := by
  decide

/-- All messages but one are sent twice, with the same stamps and payloads, and
the counts are those of the four distinct ones. -/
theorem stateless_replay_safe_crashedRun :
    ∃ m, (system splitter twoMessages true fun _ => True).playAll crashedRun
        (Machine.initial (splitter.fresh ())) = some m ∧
      publishedIn m.log = [(1, 4, 9), (0, 3, 8), (1, 2, 6), (0, 1, 5), (0, 3, 8),
        (1, 2, 6), (0, 1, 5)] ∧
      (∀ shard id y y' pl pl', .data shard id y pl ∈ m.log →
        .data shard id y' pl' ∈ m.log → y = y' ∧ pl = pl') ∧
      ∀ y sent, .reported y sent ∈ m.log → ∀ shard,
        sent.getD shard 0 = (Event.distinctOn y shard m.log).card := by
  obtain ⟨m, hm, hobs⟩ := Option.map_eq_some_iff.mp crashedRun_plays
  exact ⟨m, hm, congrArg Prod.fst hobs, stateless_replay_safe
    (.groupBy _ [2] _) twoMessages countedQueue_twoMessages m
    (.idle m (System.reach_of_playAll hm))⟩

/-- A node without crashes sends the outputs of the messages. -/
theorem Inputs.sends {ds : List (DataMsg α)} (h : Inputs arrivals x ds) (hC : Stateless C)
    (f : F) : C.sends x f (ds.map fun d => ((), d)) = ds.flatMap C.outputs := by
  have hall : ds.filter (fun d => d.clientId = x) = ds :=
    List.filter_eq_self.mpr fun d hd => by simpa using ((h.mem_iff d).mp hd).1
  rw [Controller.sends, hC.silent, List.append_nil, List.filter_map,
    List.flatMap_map]
  simp only [Function.comp_def, hall]

/-- A stateless node publishes for a client what a node without crashes sends
that gets each of the client's messages once: from the report of the client on,
the messages for each shard are, up to repetition, the outputs of these
messages. -/
theorem publishes_sends {C : Controller Unit Unit Unit SentCounts α β}
    (hclass : StatelessClass C) (arrivals : Unit → ℕ → Option (Message α))
    (hqueue : CountedQueue arrivals) (m : Node Unit Unit Unit SentCounts β)
    (h : (system C arrivals true fun _ => True).Visits
      (Machine.initial (C.fresh ())) m) (y : UUID) (sent : ShardCounts)
    (he : .reported y sent ∈ m.log) :
    ∃ ds : List (DataMsg α), (ds.map DataMsg.identity).Nodup ∧
      (∀ d, d ∈ ds ↔ d.clientId = y ∧ ∃ j, arrivals () j = some (.data d)) ∧
      ∀ shard, ∃ msgs : List ((ProducerId × ℕ) × β),
        (msgs.map Prod.fst).Nodup ∧
          (∀ id pl, (id, pl) ∈ msgs ↔ .data shard id y pl ∈ m.log) ∧
            msgs.map Prod.snd =
              sentTo shard (C.sends y () (ds.map fun d => ((), d))) := by
  have hC := hclass.stateless
  obtain ⟨ds, hds, -⟩ :=
    (justified_visits hC hqueue h).publishesOutputs hC hqueue he
  refine ⟨ds, hds.nodup, hds.mem_iff, fun shard => ?_⟩
  rw [hds.toInputs.sends hC]
  exact hds.published shard

/-- In the crashed run each shard gets one group of each of the two messages. -/
theorem publishes_sends_crashedRun :
    ∃ m sent, (system splitter twoMessages true fun _ => True).playAll crashedRun
        (Machine.initial (splitter.fresh ())) = some m ∧
      .reported 7 sent ∈ m.log ∧
      ∃ ds : List (DataMsg ℕ), (ds.map DataMsg.identity).Nodup ∧
        (∀ d, d ∈ ds ↔ d.clientId = 7 ∧ ∃ j, twoMessages () j = some (.data d)) ∧
        ∀ shard, ∃ msgs : List ((ProducerId × ℕ) × ℕ),
          (msgs.map Prod.fst).Nodup ∧
            (∀ id pl, (id, pl) ∈ msgs ↔ .data shard id 7 pl ∈ m.log) ∧
              msgs.map Prod.snd =
                sentTo shard (splitter.sends 7 () (ds.map fun d => ((), d))) := by
  obtain ⟨m, hm, hobs⟩ := Option.map_eq_some_iff.mp crashedRun_plays
  have hmem : ((7 : UUID), (Dict.empty.set 0 2).set 1 2) ∈ reportedIn m.log := by
    have hlist : reportedIn m.log = _ := congrArg Prod.snd hobs
    rw [hlist]
    decide
  have hreported : .reported 7 ((Dict.empty.set 0 2).set 1 2) ∈ m.log := by
    obtain ⟨e, he, heq⟩ := List.mem_filterMap.mp hmem
    cases e with
    | reported y sent =>
        simp only [Option.some.injEq, Prod.mk.injEq] at heq
        rwa [← heq.1, ← heq.2]
    | _ => cases heq
  exact ⟨m, _, hm, hreported, publishes_sends (.groupBy _ [2] _) twoMessages
    countedQueue_twoMessages m (.idle m (System.reach_of_playAll hm)) 7 _ hreported⟩

end StatelessReplay
