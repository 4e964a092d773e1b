import MoneyLaundering.Ring.Controllers

/-!
# Stages of a dataflow

A use case is a chain of stages, each with one or more instances.  What an instance sends for
a client is a function of the client's messages in the order of their arrival; what arrives
at the instances of the next stage is what was sent to them, in some order.
-/

namespace Controller

variable {Q F S E α β : Type} (C : Controller Q F S E α β)

/-- The business state after some messages. -/
def consume (arrivals : List (Q × DataMsg α)) (f : F) : F :=
  arrivals.foldl (fun f a => C.process a.1 a.2 f) f

/-- What a node sends for a client: while it processes the client's messages, and when it
emits the client after the last of them.  Messages of other clients may be in between. -/
def sends (clientId : UUID) (f : F) (arrivals : List (Q × DataMsg α)) : List (Output β) :=
  ((arrivals.filter fun a => a.2.clientId = clientId).flatMap fun a => C.outputs a.2) ++
    (C.getResult clientId (C.consume arrivals f)).1

end Controller

/-- The payloads for one shard. -/
def sentTo {β : Type} (shard : ℕ) (outs : List (Output β)) : List β :=
  (outs.filter fun o => o.shard = shard).map Output.payload

/-- The bodies of the messages of a client in one queue. -/
def bodiesIn {Q α : Type} [DecidableEq Q] (clientId : UUID) (q : Q)
    (arrivals : List (Q × DataMsg α)) : List α :=
  (arrivals.filter fun a => a.1 = q ∧ a.2.clientId = clientId).map fun a => a.2.body

/-- A part of the business state that changes with the messages of one client in one queue
only. -/
theorem Controller.view_consume {Q F S E α β V : Type} [DecidableEq Q]
    {C : Controller Q F S E α β} {clientId : UUID} {q : Q} (view : F → V) {add : V → α → V}
    (hown : ∀ msg f, msg.clientId = clientId →
      view (C.process q msg f) = add (view f) msg.body)
    (hother : ∀ q' msg f, q' ≠ q ∨ msg.clientId ≠ clientId →
      view (C.process q' msg f) = view f)
    (arrivals : List (Q × DataMsg α)) (f : F) :
    view (C.consume arrivals f) = (bodiesIn clientId q arrivals).foldl add (view f) := by
  induction arrivals generalizing f with
  | nil => rfl
  | cons a arrivals ih =>
      rw [consume, List.foldl_cons, ← consume, ih]
      unfold bodiesIn
      rw [List.filter_cons]
      by_cases ha : a.1 = q ∧ a.2.clientId = clientId
      · rw [if_pos (by simpa using ha), List.map_cons, List.foldl_cons, ← hown _ _ ha.2, ha.1]
      · rw [if_neg (by simpa using ha), hother _ _ _ (not_and_or.mp ha)]

/-- The instances of one stage, with their messages in the order of their arrival. -/
structure Fleet (Q α : Type) where
  size : ℕ
  pos : 0 < size
  config : ℕ → NodeConfig
  arrivals : ℕ → List (Q × DataMsg α)

namespace Fleet

variable {Q F S E α β γ : Type} (X : Fleet Q α)

/-- What one instance sends for a client, if the instances are `node`. -/
def sendsOf (node : NodeConfig → Controller Q F S E α β) (clientId : UUID) (f : F) (i : ℕ) :
    List (Output β) :=
  (node (X.config i)).sends clientId f (X.arrivals i)

/-- What all instances send for a client. -/
def sends (node : NodeConfig → Controller Q F S E α β) (clientId : UUID) (f : F) :
    List (Output β) :=
  (List.range X.size).flatMap (X.sendsOf node clientId f)

variable [DecidableEq Q]

/-- What all instances receive of a client in one queue. -/
def received (clientId : UUID) (q : Q) : List α :=
  (List.range X.size).flatMap fun i => bodiesIn clientId q (X.arrivals i)

/-- Every instance receives in queue `q` what was sent to it, in any order. -/
def Receives (clientId : UUID) (q : Q) (wrap : β → α) (outs : List (Output β)) : Prop :=
  ∀ i < X.size, (bodiesIn clientId q (X.arrivals i)).Perm ((sentTo i outs).map wrap)

instance [DecidableEq α] (clientId : UUID) (q : Q) (wrap : β → α) (outs : List (Output β)) :
    Decidable (X.Receives clientId q wrap outs) :=
  inferInstanceAs (Decidable (∀ i < X.size,
    (bodiesIn clientId q (X.arrivals i)).Perm ((sentTo i outs).map wrap)))

end Fleet

/-! ## What is sent to a shard -/

section SentTo

variable {β : Type} {outs : List (Output β)}

theorem sentTo_cons_of_ne {shard : ℕ} {o : Output β} (h : o.shard ≠ shard) :
    sentTo shard (o :: outs) = sentTo shard outs := by
  rw [sentTo, List.filter_cons_of_neg (by simpa using h)]
  rfl

theorem sentTo_flatMap {γ : Type} (shard : ℕ) (xs : List γ) (f : γ → List (Output β)) :
    sentTo shard (xs.flatMap f) = xs.flatMap fun x => sentTo shard (f x) := by
  simp [sentTo, List.filter_flatMap, List.map_flatMap]

/-- The shards share out what was sent. -/
theorem sentTo_shards (n : ℕ) (outs : List (Output β)) :
    ((List.range n).flatMap fun shard => sentTo shard outs).Perm
      ((outs.filter fun o => o.shard < n).map Output.payload) := by
  induction n with
  | zero => simp
  | succ n ih =>
      have hsplit := List.filter_append_perm (fun o : Output β => o.shard < n)
        (outs.filter fun o => o.shard < n + 1)
      have hlower : (outs.filter fun o => o.shard < n + 1).filter (fun o => o.shard < n) =
          outs.filter fun o => o.shard < n := by
        rw [List.filter_filter]
        apply List.filter_congr
        intro o _
        simp only [← Bool.decide_and, decide_eq_decide]
        omega
      have hlast : (outs.filter fun o => o.shard < n + 1).filter
          (fun o => !decide (o.shard < n)) = outs.filter fun o => o.shard = n := by
        rw [List.filter_filter]
        apply List.filter_congr
        intro o _
        rw [← decide_not, ← Bool.decide_and, decide_eq_decide]
        omega
      rw [hlower, hlast] at hsplit
      have hmapped := hsplit.map Output.payload
      rw [List.map_append] at hmapped
      rw [List.range_succ, List.flatMap_append, List.flatMap_singleton]
      exact (ih.append_right _).trans hmapped

/-- A result that is broadcast reaches every shard. -/
theorem sentTo_broadcast {shard n : ℕ} (h : shard < n) (result : List (β × ℤ)) :
    sentTo shard (result.flatMap (RingAggregate.route n true)) = result.map Prod.fst := by
  have hone (e : β × ℤ) : sentTo shard (RingAggregate.route n true e) = [e.1] := by
    have hrange : (List.range n).filter (fun s => s = shard) = [shard] := by
      rw [List.filter_eq, List.count_eq_one_of_mem List.nodup_range (List.mem_range.mpr h)]
      rfl
    simp [sentTo, RingAggregate.route, List.filter_map, Function.comp_def, hrange]
  rw [sentTo_flatMap, List.map_eq_flatMap]
  simp only [hone]

/-- A result that is sharded reaches the shard of its affinity. -/
theorem sentTo_sharded {shard n : ℕ} (h : shard < n) (result : List (β × ℤ)) :
    sentTo shard (result.flatMap (RingAggregate.route n false)) =
      (result.filter fun e => e.2 % (n : ℤ) = shard).map Prod.fst := by
  have hone (e : β × ℤ) : sentTo shard (RingAggregate.route n false e) =
      if e.2 % n = shard then [e.1] else [] := by
    have hnonneg : 0 ≤ e.2 % n := Int.emod_nonneg _ (by omega)
    have hiff : (e.2 % n).toNat = shard ↔ e.2 % n = shard := by omega
    by_cases hshard : e.2 % n = shard
    · simp [sentTo, RingAggregate.route, hshard]
    · simp [sentTo, RingAggregate.route, hshard, hiff]
  rw [sentTo_flatMap]
  simp only [hone]
  induction result with
  | nil => rfl
  | cons e result ih =>
      rw [List.flatMap_cons, ih, List.filter_cons]
      split <;> simp_all

end SentTo

namespace Fleet

variable {Q F S E α β : Type} [DecidableEq Q] {X : Fleet Q α} {clientId : UUID} {q : Q}
  {wrap : β → α} {outs : List (Output β)}

/-- Together the instances receive all that was sent. -/
theorem Receives.perm (h : X.Receives clientId q wrap outs)
    (hshards : ∀ o ∈ outs, o.shard < X.size) :
    (X.received clientId q).Perm (outs.map fun o => wrap o.payload) := by
  have hall : (X.received clientId q).Perm
      ((List.range X.size).flatMap fun i => (sentTo i outs).map wrap) := by
    apply List.Perm.flatMap_left
    exact fun i hi => h i (List.mem_range.mp hi)
  have hmapped := (sentTo_shards X.size outs).map wrap
  rw [List.filter_eq_self.mpr fun o ho => decide_eq_true (hshards o ho), List.map_map,
    List.map_flatMap] at hmapped
  exact hall.trans hmapped

end Fleet

/-! ## Stages of group-bys -/

section GroupBy

variable {α β : Type} {X : Fleet Unit α} {clientId : UUID} {n : ℕ}
  {groupBy : DataMsg α → List (β × ℤ)} {groups : α → List (β × ℤ)}

theorem filter_arrivals (arrivals : List (Unit × DataMsg α)) :
    ((arrivals.filter fun a => a.2.clientId = clientId).map fun a => a.2.body) =
      bodiesIn clientId () arrivals := by
  simp [bodiesIn]

/-- Group-bys send the groups of what they receive, each to every fleet. -/
theorem sends_groupBy_fleets (fleets : List ℕ) (hgroups : ∀ msg, groupBy msg = groups msg.body) :
    X.sends (fun cfg => ringGroupBy cfg fleets groupBy) clientId () =
      ((X.received clientId ()).flatMap groups).flatMap fun g =>
        RingGroupBy.fanOut g.1 g.2 0 fleets := by
  have hone (i : ℕ) : X.sendsOf (fun cfg => ringGroupBy cfg fleets groupBy) clientId () i =
      (bodiesIn clientId () (X.arrivals i)).flatMap fun body =>
        (groups body).flatMap fun g => RingGroupBy.fanOut g.1 g.2 0 fleets := by
    rw [← filter_arrivals, List.flatMap_map]
    simp [Fleet.sendsOf, Controller.sends, ringGroupBy, statelessRingNode, hgroups]
  rw [Fleet.received, List.flatMap_assoc, List.flatMap_assoc]
  exact congrArg (List.range X.size).flatMap (funext hone)

/-- In front of one fleet each group goes to its shard. -/
theorem sends_groupBy (hgroups : ∀ msg, groupBy msg = groups msg.body) :
    X.sends (fun cfg => ringGroupBy cfg [n] groupBy) clientId () =
      ((X.received clientId ()).flatMap groups).map fun g =>
        ⟨(g.2 % n).toNat, none, g.1⟩ := by
  rw [sends_groupBy_fleets [n] hgroups, List.map_eq_flatMap]
  simp [RingGroupBy.fanOut]

theorem sentTo_fanOut_of_lt {payload : β} {affinity : ℤ} {base shard : ℕ} (fleets : List ℕ)
    (h : shard < base) : sentTo shard (RingGroupBy.fanOut payload affinity base fleets) = [] := by
  induction fleets generalizing base with
  | nil => rfl
  | cons fleet fleets ih =>
      have hne : base + (affinity % (fleet : ℤ)).toNat ≠ shard := by omega
      rw [RingGroupBy.fanOut, sentTo_cons_of_ne hne]
      exact ih (by omega)

/-- A fleet gets a group at the shard of its affinity. -/
theorem sentTo_fanOut {payload : β} {affinity : ℤ} {before : List ℕ} (base : ℕ)
    (after : List ℕ) (hpos : ∀ fleet ∈ before, 0 < fleet) {shard : ℕ} (h : shard < n) :
    sentTo (base + before.sum + shard)
        (RingGroupBy.fanOut payload affinity base (before ++ n :: after)) =
      if (affinity % (n : ℤ)).toNat = shard then [payload] else [] := by
  induction before generalizing base with
  | nil =>
      have hrest : sentTo (base + shard)
          (RingGroupBy.fanOut payload affinity (base + n) after) = [] :=
        sentTo_fanOut_of_lt after (by omega)
      rw [sentTo] at hrest
      rw [List.nil_append, RingGroupBy.fanOut, List.sum_nil, Nat.add_zero, sentTo,
        List.filter_cons, apply_ite (List.map Output.payload), List.map_cons, hrest]
      simp
  | cons fleet before ih =>
      have hfleet := hpos fleet List.mem_cons_self
      have hnonneg : 0 ≤ affinity % (fleet : ℤ) := Int.emod_nonneg _ (by omega)
      have hlt : affinity % (fleet : ℤ) < fleet := Int.emod_lt_of_pos _ (by omega)
      have hrest := ih (base + fleet) fun fleet hmem => hpos fleet (List.mem_cons_of_mem _ hmem)
      have hne : base + (affinity % (fleet : ℤ)).toNat ≠
          base + (fleet :: before).sum + shard := by
        rw [List.sum_cons]
        omega
      have hsum : base + (fleet :: before).sum + shard = base + fleet + before.sum + shard := by
        rw [List.sum_cons]
        omega
      rw [List.cons_append, RingGroupBy.fanOut, sentTo_cons_of_ne hne, hsum]
      exact hrest

/-- The groups for one shard of a fleet. -/
theorem sentTo_groupBy_fleet {before : List ℕ} (after : List ℕ)
    (hgroups : ∀ msg, groupBy msg = groups msg.body) (hpos : ∀ fleet ∈ before, 0 < fleet)
    {shard : ℕ} (h : shard < n) :
    sentTo (before.sum + shard)
        (X.sends (fun cfg => ringGroupBy cfg (before ++ n :: after) groupBy) clientId ()) =
      (((X.received clientId ()).flatMap groups).filter fun g =>
        (g.2 % (n : ℤ)).toNat = shard).map Prod.fst := by
  have hone (g : β × ℤ) : sentTo (before.sum + shard)
      (RingGroupBy.fanOut g.1 g.2 0 (before ++ n :: after)) =
        if (g.2 % (n : ℤ)).toNat = shard then [g.1] else [] := by
    rw [← sentTo_fanOut 0 after hpos h, Nat.zero_add]
  rw [sends_groupBy_fleets _ hgroups, sentTo_flatMap]
  simp only [hone]
  induction (X.received clientId ()).flatMap groups with
  | nil => rfl
  | cons g gs ih =>
      rw [List.flatMap_cons, ih, List.filter_cons]
      by_cases hg : (g.2 % (n : ℤ)).toNat = shard <;> simp [hg]

/-- The groups for one shard. -/
theorem sentTo_groupBy (shard : ℕ) (hgroups : ∀ msg, groupBy msg = groups msg.body) :
    sentTo shard (X.sends (fun cfg => ringGroupBy cfg [n] groupBy) clientId ()) =
      (((X.received clientId ()).flatMap groups).filter fun g =>
        (g.2 % (n : ℤ)).toNat = shard).map Prod.fst := by
  rw [sends_groupBy hgroups, sentTo, List.filter_map, List.map_map]
  rfl

/-- Every group is sent to a shard, wherever its affinity comes from. -/
theorem shard_lt_groupBy (hn : 0 < n) :
    ∀ o ∈ X.sends (fun cfg => ringGroupBy cfg [n] groupBy) clientId (), o.shard < n := by
  intro o ho
  obtain ⟨i, -, ho⟩ := List.mem_flatMap.mp ho
  have hgroup : ∃ g : β × ℤ, (⟨(g.2 % n).toNat, none, g.1⟩ : Output β) = o := by
    simp only [Fleet.sendsOf, Controller.sends, ringGroupBy, statelessRingNode,
      RingGroupBy.fanOut, Nat.zero_add, List.append_nil, List.mem_flatMap,
      List.mem_singleton] at ho
    obtain ⟨_, -, g, -, rfl⟩ := ho
    exact ⟨g, rfl⟩
  obtain ⟨g, rfl⟩ := hgroup
  have hnonneg : 0 ≤ g.2 % n := Int.emod_nonneg _ (by omega)
  have hlt : g.2 % n < n := Int.emod_lt_of_pos _ (by omega)
  change (g.2 % n).toNat < n
  omega

/-- The payloads that are sent, if the rest of a message only says where they go. -/
theorem payloads_groupBy {payloads : α → List β}
    (hpayloads : ∀ msg, (groupBy msg).map Prod.fst = payloads msg.body) :
    (X.sends (fun cfg => ringGroupBy cfg [n] groupBy) clientId ()).map Output.payload =
      (X.received clientId ()).flatMap payloads := by
  have hone (i : ℕ) : (X.sendsOf (fun cfg => ringGroupBy cfg [n] groupBy) clientId () i).map
      Output.payload = (bodiesIn clientId () (X.arrivals i)).flatMap payloads := by
    rw [← filter_arrivals, List.flatMap_map]
    simp [Fleet.sendsOf, Controller.sends, ringGroupBy, statelessRingNode, ← hpayloads,
      RingGroupBy.fanOut, List.map_flatMap, Function.comp_def, ← List.map_eq_flatMap]
  rw [Fleet.sends, Fleet.received, List.map_flatMap, List.flatMap_assoc]
  exact congrArg (List.range X.size).flatMap (funext hone)

/-- So the next stage receives all groups. -/
theorem received_groups {Y : Fleet Unit β} {payloads : α → List β}
    (hpayloads : ∀ msg, (groupBy msg).map Prod.fst = payloads msg.body)
    (h : Y.Receives clientId () id
      (X.sends (fun cfg => ringGroupBy cfg [Y.size] groupBy) clientId ())) :
    (Y.received clientId ()).Perm ((X.received clientId ()).flatMap payloads) := by
  have hperm := h.perm (shard_lt_groupBy Y.pos)
  rwa [← payloads_groupBy hpayloads]

end GroupBy

/-! ## Fleets of filters -/

/-- Filters send one message for each that they receive. -/
theorem payloads_filter {α β : Type} (X : Fleet Unit α) (clientId : UUID) (n : ℕ)
    (filter : α → β) :
    (X.sends (fun cfg => ringFilter cfg n fun msg => filter msg.body) clientId ()).map
        Output.payload =
      (X.received clientId ()).map filter := by
  have hone (i : ℕ) : (X.sendsOf (fun cfg => ringFilter cfg n fun msg => filter msg.body)
      clientId () i).map Output.payload =
        (bodiesIn clientId () (X.arrivals i)).map filter := by
    rw [← filter_arrivals, List.map_map]
    simp [Fleet.sendsOf, Controller.sends, ringFilter, statelessRingNode,
      ← List.map_eq_flatMap, Function.comp_def]
  rw [Fleet.sends, Fleet.received, List.map_flatMap, List.map_flatMap]
  exact congrArg (List.range X.size).flatMap (funext hone)

theorem shard_lt_filter {α β : Type} {X : Fleet Unit α} {clientId : UUID} {n : ℕ} (hn : 0 < n)
    (filter : DataMsg α → β) :
    ∀ o ∈ X.sends (fun cfg => ringFilter cfg n filter) clientId (), o.shard < n := by
  intro o ho
  obtain ⟨i, -, ho⟩ := List.mem_flatMap.mp ho
  simp only [Fleet.sendsOf, Controller.sends, ringFilter, statelessRingNode, List.append_nil,
    List.mem_flatMap, List.mem_singleton] at ho
  obtain ⟨a, -, rfl⟩ := ho
  exact Nat.mod_lt _ hn

/-! ## Fleets of broadcast filters -/

/-- The outputs for one route: a fleet of `n` shards, the first of which is `base`. -/
def routeOf {β : Type} (base n : ℕ) (outs : List (Output β)) : List (Output β) :=
  (outs.filter fun o => base ≤ o.shard ∧ o.shard < base + n).map fun o =>
    { o with shard := o.shard - base }

section Route

variable {α β : Type} {base n : ℕ}

theorem routeOf_append (outs outs' : List (Output β)) :
    routeOf base n (outs ++ outs') = routeOf base n outs ++ routeOf base n outs' := by
  rw [routeOf, List.filter_append, List.map_append]
  rfl

theorem routeOf_cons (o : Output β) (outs : List (Output β)) :
    routeOf base n (o :: outs) = routeOf base n [o] ++ routeOf base n outs :=
  routeOf_append [o] outs

theorem routeOf_flatMap {γ : Type} (xs : List γ) (f : γ → List (Output β)) :
    routeOf base n (xs.flatMap f) = xs.flatMap fun x => routeOf base n (f x) := by
  simp [routeOf, List.filter_flatMap, List.map_flatMap]

theorem routeOf_eq_nil {outs : List (Output β)}
    (h : ∀ o ∈ outs, o.shard < base ∨ base + n ≤ o.shard) : routeOf base n outs = [] := by
  rw [routeOf, List.filter_eq_nil_iff.mpr, List.map_nil]
  intro o ho
  have hshard := h o ho
  simp only [decide_eq_true_eq]
  omega

theorem shard_lt_routeOf (outs : List (Output β)) :
    ∀ o ∈ routeOf base n outs, o.shard < n := by
  intro o ho
  obtain ⟨o', ho', rfl⟩ := List.mem_map.mp ho
  have hshard := of_decide_eq_true (List.mem_filter.mp ho').2
  change o'.shard - base < n
  omega

variable {msg : DataMsg α}

theorem shard_lt_broadcast {shard : ℕ} {routes : List (DataMsg α → β)} :
    ∀ o ∈ RingBroadcastFilter.broadcast msg shard routes, o.shard < shard + routes.length := by
  induction routes generalizing shard with
  | nil => simp [RingBroadcastFilter.broadcast]
  | cons filter routes ih =>
      intro o ho
      rw [List.length_cons]
      rcases List.mem_cons.mp ho with rfl | hrest
      · change shard < _
        omega
      · have hlt := ih o hrest
        omega

theorem le_shard_sharded {shard : ℕ} {routes : List (ℕ × (DataMsg α → β))} :
    ∀ o ∈ RingBroadcastFilter.sharded msg shard routes, shard ≤ o.shard := by
  induction routes generalizing shard with
  | nil => simp [RingBroadcastFilter.sharded]
  | cons route routes ih =>
      intro o ho
      rcases List.mem_cons.mp ho with rfl | hrest
      · exact Nat.le_add_right _ _
      · exact (Nat.le_add_right _ _).trans (ih o hrest)

/-- A route gets one message, at the shard of its identity. -/
theorem routeOf_sharded (hn : 0 < n) {before after : List (ℕ × (DataMsg α → β))}
    (hbefore : ∀ route ∈ before, 0 < route.1) (filter : DataMsg α → β) (shard : ℕ) :
    routeOf (shard + (before.map Prod.fst).sum) n
        (RingBroadcastFilter.sharded msg shard (before ++ (n, filter) :: after)) =
      [⟨shardOf msg n, some msg.identity, filter msg⟩] := by
  induction before generalizing shard with
  | nil =>
      have hlt : shardOf msg n < n := Nat.mod_lt _ hn
      have hafter : routeOf shard n (RingBroadcastFilter.sharded msg (shard + n) after) = [] :=
        routeOf_eq_nil fun o ho => .inr (le_shard_sharded o ho)
      have hown : routeOf shard n
          [(⟨shard + shardOf msg n, some msg.identity, filter msg⟩ : Output β)] =
            [⟨shardOf msg n, some msg.identity, filter msg⟩] := by
        simp [routeOf, hlt]
      rw [List.nil_append, RingBroadcastFilter.sharded, List.map_nil, List.sum_nil,
        Nat.add_zero, routeOf_cons, hafter, hown, List.append_nil]
  | cons route before ih =>
      have hlt : shardOf msg route.1 < route.1 :=
        Nat.mod_lt _ (hbefore route List.mem_cons_self)
      have hfirst : routeOf (shard + ((route :: before).map Prod.fst).sum) n
          [(⟨shard + shardOf msg route.1, some msg.identity, route.2 msg⟩ : Output β)] = [] := by
        apply routeOf_eq_nil
        intro o ho
        rw [List.mem_singleton.mp ho, List.map_cons, List.sum_cons]
        left
        change shard + shardOf msg route.1 < _
        omega
      have hrest := ih (fun route hmem => hbefore route (List.mem_cons_of_mem _ hmem))
        (shard + route.1)
      rw [List.cons_append, RingBroadcastFilter.sharded, routeOf_cons, hfirst, List.nil_append,
        List.map_cons, List.sum_cons, ← Nat.add_assoc]
      exact hrest

/-- Broadcast filters send every message through each of their sharded routes. -/
theorem payloads_routeOf_sends (X : Fleet Unit α) (clientId : UUID) (hn : 0 < n)
    (broadcastRoutes : List (DataMsg α → β)) {before after : List (ℕ × (DataMsg α → β))}
    (hbefore : ∀ route ∈ before, 0 < route.1) (filter : α → β) :
    (routeOf (broadcastRoutes.length + (before.map Prod.fst).sum) n
        (X.sends (fun cfg => ringBroadcastFilter cfg broadcastRoutes
          (before ++ (n, fun msg => filter msg.body) :: after)) clientId ())).map Output.payload =
      (X.received clientId ()).map filter := by
  have hmsg (msg : DataMsg α) : routeOf (broadcastRoutes.length + (before.map Prod.fst).sum) n
      (RingBroadcastFilter.broadcast msg 0 broadcastRoutes ++
        RingBroadcastFilter.sharded msg broadcastRoutes.length
          (before ++ (n, fun msg => filter msg.body) :: after)) =
        [⟨shardOf msg n, some msg.identity, filter msg.body⟩] := by
    rw [routeOf_append, routeOf_sharded hn hbefore, routeOf_eq_nil, List.nil_append]
    intro o ho
    have hlt := shard_lt_broadcast o ho
    omega
  have hone (i : ℕ) : (routeOf (broadcastRoutes.length + (before.map Prod.fst).sum) n
      (X.sendsOf (fun cfg => ringBroadcastFilter cfg broadcastRoutes
        (before ++ (n, fun msg => filter msg.body) :: after)) clientId () i)).map
          Output.payload = (bodiesIn clientId () (X.arrivals i)).map filter := by
    rw [← filter_arrivals, List.map_map]
    simp only [Fleet.sendsOf, Controller.sends, ringBroadcastFilter, statelessRingNode,
      List.append_nil, routeOf_flatMap, hmsg, ← List.map_eq_flatMap, List.map_map]
    rfl
  rw [Fleet.sends, Fleet.received, routeOf_flatMap, List.map_flatMap, List.map_flatMap]
  exact congrArg (List.range X.size).flatMap (funext hone)

/-- So the fleet of a route receives all messages, filtered. -/
theorem received_route {X : Fleet Unit α} {Y : Fleet Unit β} {clientId : UUID}
    {broadcastRoutes : List (DataMsg α → β)} {before after : List (ℕ × (DataMsg α → β))}
    (hbefore : ∀ route ∈ before, 0 < route.1) {filter : α → β}
    (h : Y.Receives clientId () id
      (routeOf (broadcastRoutes.length + (before.map Prod.fst).sum) Y.size
        (X.sends (fun cfg => ringBroadcastFilter cfg broadcastRoutes
          (before ++ (Y.size, fun msg => filter msg.body) :: after)) clientId ()))) :
    (Y.received clientId ()).Perm ((X.received clientId ()).map filter) := by
  have hperm := h.perm (shard_lt_routeOf _)
  rwa [← payloads_routeOf_sends X clientId Y.pos broadcastRoutes hbefore filter]

end Route

/-! ## Routes of merges -/

theorem payloads_route {β : Type} (n : ℕ) (merged : List β) :
    (RingMerge.route n merged).map Output.payload = merged := by
  rw [RingMerge.route, List.map_map]
  exact List.zipIdx_map_fst 0 merged

theorem shard_lt_route {β : Type} {n : ℕ} (hn : 0 < n) (merged : List β) :
    ∀ o ∈ RingMerge.route n merged, o.shard < n := by
  intro o ho
  obtain ⟨e, -, rfl⟩ := List.mem_map.mp ho
  exact Nat.mod_lt _ hn
