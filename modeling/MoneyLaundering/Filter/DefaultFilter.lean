import MoneyLaundering.Filter.FilterFns
import MoneyLaundering.Ring.Dataflow

/-!
# The default filter

The first fleet behind the gateway sends every batch of payments to all use cases, to each
what its filter keeps.  A use case whose route has shards receives the batches at the shards
of their identities; the others read one queue.
-/

open Messages

section DefaultFilter

variable {A : Type} [OfScientific A] [LT A] [DecidableLT A]

/-- `UC1Filter`. -/
def uc1Filter (el : List (Transaction A)) : List (Transaction A) := el.filter UC1Filter.keep

/-- The numbers of shards of the routes, `0` for a plain work queue. -/
structure RouteShards where
  uc1 : ℕ
  uc2 : ℕ
  uc3PeriodA : ℕ
  uc4 : ℕ
  uc5 : ℕ
  uc3PeriodB : ℕ

namespace RouteShards

variable (shards : RouteShards)

/-- `route_table`, in the order of the code. -/
def routeTable : List (ℕ × (List (Transaction A) → List (Transaction A))) :=
  [(shards.uc1, uc1Filter), (shards.uc2, List.filter UC2Filter.keep),
    (shards.uc3PeriodA, List.filter uc3FilterPeriodA), (shards.uc4, List.filter UC4Filter.keep),
    (shards.uc5, uc5Filter), (shards.uc3PeriodB, List.filter uc3FilterPeriodB)]

/-- `routes`. -/
def broadcastRoutes : List (DataMsg (List (Transaction A)) → List (Transaction A)) :=
  ((shards.routeTable.filter fun route => route.1 = 0).map fun route msg => route.2 msg.body)

/-- What `sharded_routes` are among some routes. -/
def sharded (routes : List (ℕ × (List (Transaction A) → List (Transaction A)))) :
    List (ℕ × (DataMsg (List (Transaction A)) → List (Transaction A))) :=
  (routes.filter fun route => route.1 ≠ 0).map fun route => (route.1, fun msg => route.2 msg.body)

end RouteShards

/-- `make_default_filter`. -/
def defaultFilter (cfg : NodeConfig) (shards : RouteShards) :
    Controller Unit Unit Unit SentCounts (List (Transaction A)) (List (Transaction A)) :=
  ringBroadcastFilter cfg shards.broadcastRoutes (RouteShards.sharded shards.routeTable)

namespace RouteShards

variable {shards : RouteShards}
  {before after : List (ℕ × (List (Transaction A) → List (Transaction A)))}

omit [OfScientific A] [LT A] [DecidableLT A] in
/-- A route without shards has none to count. -/
theorem sum_sharded (routes : List (ℕ × (List (Transaction A) → List (Transaction A)))) :
    ((sharded routes).map Prod.fst).sum = (routes.map Prod.fst).sum := by
  induction routes with
  | nil => rfl
  | cons route routes ih =>
      rw [List.map_cons, List.sum_cons, ← ih, sharded, sharded, List.filter_cons]
      by_cases hzero : route.1 = 0 <;> simp [hzero]

/-- The first shard of the route that comes after some others, over all shards. -/
def base (shards : RouteShards)
    (before : List (ℕ × (List (Transaction A) → List (Transaction A)))) : ℕ :=
  (shards.broadcastRoutes (A := A)).length + (before.map Prod.fst).sum

/-- The fleet of a route receives what its filter keeps of every batch. -/
theorem received_defaultFilter {X Y : Fleet Unit (List (Transaction A))} {clientId : UUID}
    {filter : List (Transaction A) → List (Transaction A)}
    (htable : shards.routeTable = before ++ (Y.size, filter) :: after)
    (h : Y.Receives clientId () id (routeOf (shards.base before) Y.size
      (X.sends (fun cfg => defaultFilter cfg shards) clientId ()))) :
    (Y.received clientId ()).Perm ((X.received clientId ()).map filter) := by
  have hsharded : sharded shards.routeTable =
      sharded before ++ (Y.size, fun msg => filter msg.body) :: sharded after := by
    rw [htable, sharded, List.filter_append, List.filter_cons_of_pos, List.map_append,
      List.map_cons]
    · rfl
    · simpa using Y.pos.ne'
  have hpos : ∀ route ∈ sharded before, 0 < route.1 := by
    intro route hroute
    obtain ⟨route', hmem, rfl⟩ := List.mem_map.mp hroute
    have hne := of_decide_eq_true (List.mem_filter.mp hmem).2
    exact Nat.pos_of_ne_zero hne
  apply received_route hpos
  rw [sum_sharded, ← hsharded]
  exact h

end RouteShards

end DefaultFilter
