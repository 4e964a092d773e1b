import MoneyLaundering.Ring.Dataflow
import MoneyLaundering.Ring.Deliveries
import MoneyLaundering.Support.Reader

/-!
# What a stateless node does without crashes

A node that emits each input as it processes it, read as a function of its
queue: the messages it applies, each once, and the messages these make it
publish.  A published message is determined by its stamp and its shard, and the
counts for a client are the numbers of its distinct messages.
-/

/-! ## The messages that are applied -/

/-- What a node that reads its queue once has applied, and which clients were
aborted. -/
structure Applied (α : Type) where
  msgs : List (DataMsg α)
  aborted : Finset UUID

namespace Applied

variable {α : Type}

/-- The message would be dropped. -/
def Knows (s : Applied α) (d : DataMsg α) : Prop :=
  d.clientId ∈ s.aborted ∨ ∃ d' ∈ s.msgs, d'.identity = d.identity

instance (s : Applied α) : DecidablePred s.Knows := fun d =>
  inferInstanceAs (Decidable (_ ∨ ∃ d' ∈ s.msgs, d'.identity = d.identity))

/-- One more message is read. -/
def next : Message α → Applied α → Applied α
  | .eof _ _, s => s
  | .abort clientId, s => { s with aborted := insert clientId s.aborted }
  | .data d, s => if s.Knows d then s else { s with msgs := s.msgs ++ [d] }

theorem knows_next {s : Applied α} {d : DataMsg α} (h : s.Knows d)
    (msg : Message α) : (next msg s).Knows d := by
  cases msg with
  | eof clientId k => exact h
  | abort clientId => exact h.imp_left fun hmem => Finset.mem_insert_of_mem hmem
  | data d' =>
      simp only [next]
      split
      · exact h
      · refine h.imp_right ?_
        rintro ⟨d'', hmem, hid⟩
        exact ⟨d'', List.mem_append_left _ hmem, hid⟩

theorem knows_next_self (s : Applied α) (d : DataMsg α) :
    (next (.data d) s).Knows d := by
  by_cases h : s.Knows d
  · exact knows_next h _
  · exact Or.inr ⟨d, by simp [next, h], rfl⟩

theorem next_of_knows {s : Applied α} {d : DataMsg α} (h : s.Knows d) :
    next (.data d) s = s := by
  simp [next, h]

theorem knows_of_next {s : Applied α} {d : DataMsg α} (h : next (.data d) s = s) :
    s.Knows d := by
  by_contra hnot
  have hmsgs := congrArg Applied.msgs h
  simp [next, hnot] at hmsgs

theorem aborted_next {s : Applied α} {clientId : UUID} (h : clientId ∈ s.aborted)
    (msg : Message α) : clientId ∈ (next msg s).aborted := by
  cases msg with
  | eof c k => exact h
  | abort c => exact Finset.mem_insert_of_mem h
  | data d =>
      simp only [next]
      split <;> exact h

theorem next_abort {s : Applied α} {clientId : UUID} :
    next (.abort clientId) s = s ↔ clientId ∈ s.aborted := by
  constructor
  · intro h
    have haborted : insert clientId s.aborted = s.aborted :=
      congrArg Applied.aborted h
    exact Finset.insert_eq_self.mp haborted
  · intro h
    simp [next, h]

/-- Reading the messages of a queue once each. -/
def reader (α : Type) : Reader (Applied α) (Message α) where
  start := ⟨[], ∅⟩
  next := next
  again msg s := by
    cases msg with
    | eof c k => rfl
    | abort c => simp [next]
    | data d => exact next_of_knows (knows_next_self s d)
  stays msg msg' s h := by
    cases msg with
    | eof c k => rfl
    | abort c => exact next_abort.mpr (aborted_next (next_abort.mp h) msg')
    | data d => exact next_of_knows (knows_next (knows_of_next h) msg')

variable {arrivals : ℕ → Option (Message α)} {n k : ℕ}

/-- Messages are only added. -/
theorem msgs_prefix (arrivals : ℕ → Option (Message α)) (h : n ≤ k) :
    ((reader α).after arrivals n).msgs <+: ((reader α).after arrivals k).msgs := by
  refine Reader.after_induction (r := reader α)
    (P := fun s : Applied α => ((reader α).after arrivals n).msgs <+: s.msgs) h
    (List.prefix_refl _) fun i msg _ _ hpre => hpre.trans ?_
  cases msg with
  | eof c k => exact List.prefix_refl _
  | abort c => exact List.prefix_refl _
  | data d =>
      change _ <+: (next (.data d) _).msgs
      simp only [next]
      split
      · exact List.prefix_refl _
      · exact List.prefix_append _ _

/-- Every applied message comes from the queue. -/
theorem mem_arrivals {d : DataMsg α}
    (h : d ∈ ((reader α).after arrivals n).msgs) :
    ∃ i < n, arrivals i = some (.data d) := by
  induction n with
  | zero => exact absurd h List.not_mem_nil
  | succ n ih =>
      by_cases hnone : arrivals n = none
      · rw [Reader.idle_of_none (r := reader α) hnone] at h
        obtain ⟨i, hi, hmsg⟩ := ih h
        exact ⟨i, hi.trans (Nat.lt_succ_self n), hmsg⟩
      obtain ⟨msg, hmsg⟩ := Option.ne_none_iff_exists'.mp hnone
      rw [Reader.after_succ hmsg] at h
      have hold : d ∈ ((reader α).after arrivals n).msgs ∨ msg = .data d := by
        cases msg with
        | eof c k => exact Or.inl h
        | abort c => exact Or.inl h
        | data d' =>
            change d ∈ (next (.data d') _).msgs at h
            simp only [next] at h
            split at h
            · exact Or.inl h
            · simpa [eq_comm] using h
      rcases hold with hold | rfl
      · obtain ⟨i, hi, hmsg'⟩ := ih hold
        exact ⟨i, hi.trans (Nat.lt_succ_self n), hmsg'⟩
      · exact ⟨n, Nat.lt_succ_self n, hmsg⟩

/-- No identity is applied twice. -/
theorem nodup_identities (arrivals : ℕ → Option (Message α)) (n : ℕ) :
    (((reader α).after arrivals n).msgs.map DataMsg.identity).Nodup := by
  refine Reader.after_induction (r := reader α)
    (P := fun s : Applied α => (s.msgs.map DataMsg.identity).Nodup) (Nat.zero_le n)
    List.nodup_nil fun i msg _ _ hnodup => ?_
  cases msg with
  | eof c k => exact hnodup
  | abort c => exact hnodup
  | data d =>
      change ((next (.data d) _).msgs.map DataMsg.identity).Nodup
      simp only [next]
      split
      · exact hnodup
      · rename_i hnew
        rw [List.map_append, List.nodup_append]
        refine ⟨hnodup, List.nodup_singleton _, ?_⟩
        intro id hid id' hid' heq
        obtain ⟨d', hd', rfl⟩ := List.mem_map.mp hid
        rw [List.map_singleton, List.mem_singleton] at hid'
        exact hnew (Or.inr ⟨d', hd', heq.trans hid'⟩)

end Applied

/-! ## The messages that are published -/

/-- Entries with one key are one entry, if no key comes twice. -/
theorem eq_of_nodup_filterMap {ι κ : Type} {f : ι → Option κ} {xs : List ι}
    (hnodup : (xs.filterMap f).Nodup) {x y : ι} {k : κ} (hx : x ∈ xs) (hy : y ∈ xs)
    (hfx : f x = some k) (hfy : f y = some k) : x = y := by
  induction xs with
  | nil => exact absurd hx List.not_mem_nil
  | cons z zs ih =>
      have htail : (zs.filterMap f).Nodup :=
        hnodup.sublist ((List.sublist_cons_self z zs).filterMap f)
      have hhead : f z = some k → ∀ w ∈ zs, f w ≠ some k := by
        intro hz w hw hfw
        rw [List.filterMap_cons_some hz, List.nodup_cons] at hnodup
        exact hnodup.1 (List.mem_filterMap.mpr ⟨w, hw, hfw⟩)
      rcases List.mem_cons.mp hx with heq | hxs
      · rcases List.mem_cons.mp hy with heq' | hys
        · exact heq.trans heq'.symm
        · exact absurd hfy (hhead (heq ▸ hfx) y hys)
      · rcases List.mem_cons.mp hy with heq' | hys
        · exact absurd hfx (hhead (heq' ▸ hfy) x hxs)
        · exact ih htail hxs hys

namespace Event

variable {β : Type}

/-- Shard and stamp of a published message. -/
def key : Event β → Option (ℕ × ProducerId × ℕ)
  | .data s id _ _ => some (s, id)
  | _ => none

/-- Stamp and payload of a message of the client for the shard. -/
def messageOn (x : UUID) (shard : ℕ) : Event β → Option ((ProducerId × ℕ) × β)
  | .data s id c pl => if s = shard ∧ c = x then some (id, pl) else none
  | _ => none

theorem mem_messageOn {x : UUID} {shard : ℕ} {es : List (Event β)}
    {id : ProducerId × ℕ} {pl : β} :
    (id, pl) ∈ es.filterMap (messageOn x shard) ↔ .data shard id x pl ∈ es := by
  rw [List.mem_filterMap]
  constructor
  · rintro ⟨e, he, hmsg⟩
    unfold messageOn at hmsg
    split at hmsg
    · simp only [Option.ite_none_right_eq_some, Option.some.injEq,
        Prod.mk.injEq] at hmsg
      obtain ⟨⟨rfl, rfl⟩, rfl, rfl⟩ := hmsg
      exact he
    · cases hmsg
  · intro he
    exact ⟨_, he, by simp [messageOn]⟩

/-- The stamps for one shard are part of the keys. -/
theorem sublist_keys (x : UUID) (shard : ℕ) (es : List (Event β)) :
    ((es.filterMap (messageOn x shard)).map fun e => (shard, e.1)).Sublist
      (es.filterMap key) := by
  induction es with
  | nil => exact .slnil
  | cons e es ih =>
      unfold messageOn key at ih ⊢
      rw [List.filterMap_cons, List.filterMap_cons]
      split
      · split
        · exact ih
        · exact ih.cons _
      · rename_i hmsg
        split at hmsg
        · simp only [Option.ite_none_right_eq_some] at hmsg
          obtain ⟨⟨rfl, rfl⟩, hmsg⟩ := hmsg
          obtain rfl := Option.some.inj hmsg
          exact ih.cons_cons _
        · cases hmsg

/-- So no stamp comes twice on a shard, and the distinct messages are all
messages. -/
theorem nodup_stamps {es : List (Event β)} (hnodup : (es.filterMap key).Nodup)
    (x : UUID) (shard : ℕ) :
    ((es.filterMap (messageOn x shard)).map Prod.fst).Nodup := by
  have hkeys : (((es.filterMap (messageOn x shard)).map Prod.fst).map
      (Prod.mk shard)).Nodup := by
    rw [List.map_map]
    exact hnodup.sublist (sublist_keys x shard es)
  exact List.Nodup.of_map _ hkeys

/-- The client's messages in a history are the outputs: on every shard each of them has a
stamp of its own. -/
def PublishedAs (x : UUID) (outs : List (Output β)) (log : List (Event β)) : Prop :=
  ∀ shard, ∃ msgs : List ((ProducerId × ℕ) × β), (msgs.map Prod.fst).Nodup ∧
    (∀ id pl, (id, pl) ∈ msgs ↔ .data shard id x pl ∈ log) ∧
      msgs.map Prod.snd = sentTo shard outs

/-- There are as many distinct messages as outputs. -/
theorem PublishedAs.card_distinctOn {x : UUID} {outs : List (Output β)} {log : List (Event β)}
    (h : PublishedAs x outs log) (shard : ℕ) :
    (distinctOn x shard log).card = (sentTo shard outs).length := by
  obtain ⟨msgs, hnodup, hmem, hpayloads⟩ := h shard
  have hset : distinctOn x shard log = (msgs.map Prod.fst).toFinset := by
    ext id
    rw [mem_distinctOn, List.mem_toFinset, List.mem_map]
    constructor
    · rintro ⟨pl, hpl⟩
      exact ⟨(id, pl), (hmem id pl).mpr hpl, rfl⟩
    · rintro ⟨⟨id, pl⟩, hpl, rfl⟩
      exact ⟨pl, (hmem id pl).mp hpl⟩
  rw [← hpayloads, List.length_map, hset, List.toFinset_card_of_nodup hnodup,
    List.length_map]

end Event

namespace Controller

variable {Q F S E α β : Type} (C : Controller Q F S E α β)

/-- What is published while some messages are applied, oldest first. -/
def publishes : (ProducerId → ℕ) → List (DataMsg α) → List (Event β)
  | _, [] => []
  | seqs, d :: ds =>
    C.stampAll d.clientId seqs (C.outputs d) ++
      publishes (C.seqsAfter seqs (C.outputs d)) ds

/-- The counters after some messages. -/
def seqsOf (seqs : ProducerId → ℕ) (ds : List (DataMsg α)) : ProducerId → ℕ :=
  C.seqsAfter seqs (ds.flatMap C.outputs)

variable {C} {c x : UUID} {seqs : ProducerId → ℕ} {ds ds' : List (DataMsg α)}
  {s : ℕ} {id : ProducerId × ℕ} {pl : β} {outs : List (Output β)}

theorem seqsAfter_append (seqs : ProducerId → ℕ) (outs outs' : List (Output β)) :
    C.seqsAfter seqs (outs ++ outs') =
      C.seqsAfter (C.seqsAfter seqs outs) outs' :=
  List.foldl_append

theorem publishes_append (seqs : ProducerId → ℕ) (ds ds' : List (DataMsg α)) :
    C.publishes seqs (ds ++ ds') =
      C.publishes seqs ds ++ C.publishes (C.seqsOf seqs ds) ds' := by
  induction ds generalizing seqs with
  | nil => rfl
  | cons d ds ih =>
      rw [List.cons_append, publishes, publishes, ih, List.append_assoc]
      simp only [seqsOf, List.flatMap_cons, seqsAfter_append]

theorem client_of_mem_stampAll (h : .data s id c pl ∈ C.stampAll x seqs outs) :
    c = x := by
  induction outs generalizing seqs with
  | nil => simp [stampAll] at h
  | cons o outs ih =>
      rcases List.mem_cons.mp h with h | h
      · simp only [Event.data.injEq] at h
        exact h.2.2.1
      · exact ih h

/-- A published message is of the client of an applied one. -/
theorem client_of_mem_publishes (h : .data s id c pl ∈ C.publishes seqs ds) :
    ∃ d ∈ ds, d.clientId = c := by
  induction ds generalizing seqs with
  | nil => simp [publishes] at h
  | cons d ds ih =>
      rcases List.mem_append.mp h with h | h
      · exact ⟨d, List.mem_cons_self, (client_of_mem_stampAll h).symm⟩
      · obtain ⟨d', hmem, hc⟩ := ih h
        exact ⟨d', List.mem_cons_of_mem _ hmem, hc⟩

/-- What is published of a client for a shard, without the stamps. -/
theorem payloads_stampAll (seqs : ProducerId → ℕ) (outs : List (Output β)) :
    ((C.stampAll x seqs outs).filterMap (Event.messageOn c s)).map Prod.snd =
      if x = c then sentTo s outs else [] := by
  induction outs generalizing seqs with
  | nil => simp [stampAll, sentTo]
  | cons o outs ih =>
      have htail := ih (C.bump seqs o)
      by_cases hx : x = c
      · rw [if_pos hx] at htail ⊢
        by_cases hs : o.shard = s
        · simpa [stampAll, Event.messageOn, sentTo, hs, hx] using htail
        · simpa [stampAll, Event.messageOn, sentTo, hs] using htail
      · rw [if_neg hx] at htail ⊢
        simpa [stampAll, Event.messageOn, hx] using htail

/-- The messages of one result are the result. -/
theorem publishedAs_stampAll (hnone : Restamped outs) {log : List (Event β)}
    (hlog : ∀ s id pl, .data s id x pl ∈ log ↔ .data s id x pl ∈ C.stampAll x seqs outs) :
    Event.PublishedAs x outs log := by
  intro shard
  have hkeys : ((C.stampAll x seqs outs).filterMap Event.key).Nodup := by
    have hnodup : ((C.stampAll x seqs outs).filterMap stampOfEvent).Nodup := nodup_stampAll hnone
    refine List.Nodup.of_map Prod.snd ?_
    rw [List.map_filterMap]
    convert hnodup using 2 with e
    cases e <;> rfl
  refine ⟨(C.stampAll x seqs outs).filterMap (Event.messageOn x shard),
    Event.nodup_stamps hkeys x shard, fun id pl => ?_, ?_⟩
  · rw [Event.mem_messageOn, hlog]
  · rw [payloads_stampAll, if_pos rfl]

theorem payloads_publishes (seqs : ProducerId → ℕ) (ds : List (DataMsg α)) :
    ((C.publishes seqs ds).filterMap (Event.messageOn c s)).map Prod.snd =
      sentTo s ((ds.filter fun d => d.clientId = c).flatMap C.outputs) := by
  induction ds generalizing seqs with
  | nil => rfl
  | cons d ds ih =>
      rw [publishes, List.filterMap_append, List.map_append, payloads_stampAll, ih,
        List.filter_cons]
      by_cases hc : d.clientId = c
      · rw [if_pos hc, if_pos (by simpa using hc), List.flatMap_cons]
        simp [sentTo]
      · rw [if_neg hc, if_neg (by simpa using hc), List.nil_append]

/-- A published message is an output of an applied one, with a stamp for it. -/
theorem mem_publishes (h : .data s id c pl ∈ C.publishes seqs ds) :
    ∃ d ∈ ds, ∃ o ∈ C.outputs d, ∃ seqs',
      o.shard = s ∧ C.stampOf seqs' o = id := by
  have hall : ∀ (outs : List (Output β)) seqs,
      .data s id c pl ∈ C.stampAll c seqs outs →
        ∃ o ∈ outs, ∃ seqs', o.shard = s ∧ C.stampOf seqs' o = id := by
    intro outs
    induction outs with
    | nil => simp [stampAll]
    | cons o outs ih =>
        intro seqs h
        rcases List.mem_cons.mp h with h | h
        · simp only [Event.data.injEq] at h
          exact ⟨o, List.mem_cons_self, seqs, h.1.symm, h.2.1.symm⟩
        · obtain ⟨o', hmem, ho'⟩ := ih _ h
          exact ⟨o', List.mem_cons_of_mem _ hmem, ho'⟩
  induction ds generalizing seqs with
  | nil => simp [publishes] at h
  | cons d ds ih =>
      rcases List.mem_append.mp h with h | h
      · obtain rfl := client_of_mem_stampAll h
        obtain ⟨o, ho, hstamp⟩ := hall (C.outputs d) seqs h
        exact ⟨d, List.mem_cons_self, o, ho, hstamp⟩
      · obtain ⟨d', hmem, hd'⟩ := ih h
        exact ⟨d', List.mem_cons_of_mem _ hmem, hd'⟩

/-! ### Stamps -/

/-- Every output takes its stamp from the counters, or every output keeps the
identity of the input and no shard gets two of them. -/
def Stamps (outputs : DataMsg α → List (Output β)) : Prop :=
  (∀ d, Restamped (outputs d)) ∨
    ∀ d, (∀ o ∈ outputs d, o.stamp = some d.identity) ∧
      ((outputs d).map Output.shard).Nodup

theorem stamps_publishes (seqs : ProducerId → ℕ) (ds : List (DataMsg α)) (x : UUID) :
    (C.publishes seqs ds).filterMap stampOfEvent =
      (C.stampAll x seqs (ds.flatMap C.outputs)).filterMap stampOfEvent := by
  have hclient : ∀ (seqs : ProducerId → ℕ) (outs : List (Output β)) (y : UUID),
      (C.stampAll y seqs outs).filterMap stampOfEvent =
        (C.stampAll x seqs outs).filterMap stampOfEvent := by
    intro seqs outs y
    induction outs generalizing seqs with
    | nil => rfl
    | cons o outs ih =>
        rw [stampAll, stampAll, List.filterMap_cons_some (by rfl),
          List.filterMap_cons_some (by rfl), ih]
  induction ds generalizing seqs with
  | nil => rfl
  | cons d ds ih =>
      rw [publishes, List.filterMap_append, ih, hclient, List.flatMap_cons,
        stampAll_append, List.filterMap_append]

theorem keys_stampAll_kept {d : DataMsg α}
    (hkept : ∀ o ∈ outs, o.stamp = some d.identity) :
    (C.stampAll x seqs outs).filterMap Event.key =
      outs.map fun o => (o.shard, d.identity) := by
  induction outs generalizing seqs with
  | nil => rfl
  | cons o outs ih =>
      have hstamp : C.stampOf seqs o = d.identity := by
        simp [stampOf, hkept o List.mem_cons_self]
      rw [stampAll, hstamp, List.filterMap_cons_some (by rfl), List.map_cons,
        ih fun o' ho' => hkept o' (List.mem_cons_of_mem _ ho')]

/-- Stamp and shard determine a published message. -/
theorem nodup_keys (seqs : ProducerId → ℕ) (hstamps : Stamps C.outputs)
    (hnodup : (ds.map DataMsg.identity).Nodup) :
    ((C.publishes seqs ds).filterMap Event.key).Nodup := by
  rcases hstamps with hnone | hkept
  · have hall : Restamped (ds.flatMap C.outputs) := by
      intro o ho
      obtain ⟨d, -, hmem⟩ := List.mem_flatMap.mp ho
      exact hnone d o hmem
    have hstamps : ((C.stampAll 0 seqs (ds.flatMap C.outputs)).filterMap
        stampOfEvent).Nodup := nodup_stampAll hall
    rw [← stamps_publishes seqs ds 0] at hstamps
    have hkeys : ((C.publishes seqs ds).filterMap Event.key).map Prod.snd =
        (C.publishes seqs ds).filterMap stampOfEvent := by
      rw [List.map_filterMap]
      congr 1
      funext e
      cases e <;> rfl
    rw [← hkeys] at hstamps
    exact List.Nodup.of_map _ hstamps
  · have hkeys : (C.publishes seqs ds).filterMap Event.key =
        ds.flatMap fun d => (C.outputs d).map fun o => (o.shard, d.identity) := by
      clear hnodup
      induction ds generalizing seqs with
      | nil => rfl
      | cons d ds ih =>
          rw [publishes, List.filterMap_append, ih, List.flatMap_cons,
            keys_stampAll_kept (hkept d).1]
    rw [hkeys, List.nodup_flatMap]
    refine ⟨fun d _ => ?_, ?_⟩
    · have hshards : (((C.outputs d).map Output.shard).map
          fun s => (s, d.identity)).Nodup :=
        (hkept d).2.map fun s s' h => congrArg Prod.fst h
      rwa [List.map_map] at hshards
    · refine (List.pairwise_map.mp hnodup).imp ?_
      intro d d' hne k hk hk'
      obtain ⟨o, -, rfl⟩ := List.mem_map.mp hk
      obtain ⟨o', -, heq⟩ := List.mem_map.mp hk'
      exact hne (congrArg Prod.snd heq).symm

end Controller
