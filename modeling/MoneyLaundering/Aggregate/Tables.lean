import MoneyLaundering.Merge.MergeFns
import MoneyLaundering.Ring.Dataflow

/-!
# Aggregates that keep a table

Three aggregates keep a small table of each client in memory: the largest amount of every
bank, the name of every bank, and the sum and the number of amounts of every payment format.
A result has one message for each entry of the table.
-/

/-- What such an aggregate does with the table of a client. -/
structure TableFn (D α β : Type) where
  blank : D
  /-- What a message changes in the table. -/
  add : α → D → D
  yields : D → List (β × ℤ)

namespace TableFn

variable {D α β : Type} (T : TableFn D α β)

/-- `aggregate`. -/
def aggregate (msg : DataMsg α) (tables : Dict UUID D) : Dict UUID D :=
  tables.set msg.clientId (T.add msg.body (tables.getD msg.clientId T.blank))

/-- `get_result`. -/
def getResult (clientId : UUID) (tables : Dict UUID D) : List (β × ℤ) × Dict UUID D :=
  match tables.get? clientId with
  | none => ([], tables)
  | some table => (T.yields table, tables.erase clientId)

/-- The business function of an aggregate. -/
def toAggregateFn : AggregateFn (Dict UUID D) (Dict UUID D) α β where
  provider := ⟨fun _ _ => Dict.empty, fun tables => (tables, tables), fun s _ => s, id⟩
  aggregate := T.aggregate
  getResult := T.getResult
  discard clientId tables := tables.erase clientId

/-! ### What is sent of a client -/

/-- The table of a client after some messages. -/
def tableOf (bodies : List α) : D := bodies.foldl (fun table body => T.add body table) T.blank

variable {T} {nShards : ℕ} {broadcast : Bool}

theorem getD_consume (clientId : UUID) (cfg : NodeConfig) (arrivals : List (Unit × DataMsg α))
    (tables : Dict UUID D) :
    ((ringAggregate cfg nShards T.toAggregateFn broadcast).consume arrivals tables).getD
        clientId T.blank =
      (bodiesIn clientId () arrivals).foldl (fun table body => T.add body table)
        (tables.getD clientId T.blank) := by
  apply Controller.view_consume fun tables => Dict.getD tables clientId T.blank
  · intro msg tables hc
    change (T.aggregate msg tables).getD clientId T.blank = _
    rw [aggregate, Dict.getD_set, if_pos hc.symm, hc]
  · intro q msg tables hne
    change (T.aggregate msg tables).getD clientId T.blank = _
    rw [aggregate, Dict.getD_set, if_neg]
    exact fun hc => (hne.resolve_left fun hq => hq rfl) hc.symm

/-- A client without a table yields what an empty one does: nothing. -/
theorem getResult_fst (hblank : T.yields T.blank = []) (clientId : UUID) (tables : Dict UUID D) :
    (T.getResult clientId tables).1 = T.yields (tables.getD clientId T.blank) := by
  unfold getResult Dict.getD
  cases tables.get? clientId with
  | none => exact hblank.symm
  | some table => rfl

theorem sendsOf_eq (hblank : T.yields T.blank = []) (X : Fleet Unit α) (clientId : UUID) (i : ℕ) :
    X.sendsOf (fun cfg => ringAggregate cfg nShards T.toAggregateFn broadcast) clientId
        Dict.empty i =
      (T.yields (T.tableOf (bodiesIn clientId () (X.arrivals i)))).flatMap
        (RingAggregate.route nShards broadcast) := by
  have houtputs : ((X.arrivals i).filter fun a => a.2.clientId = clientId).flatMap
      (fun _ => ([] : List (Output β))) = [] := by
    simp
  change _ ++ (T.getResult clientId _).1.flatMap _ = _
  rw [getResult_fst hblank, getD_consume]
  exact congrArg (· ++ _) houtputs

/-- The tables of a stage that broadcasts are sent to every shard. -/
theorem sentTo_sends_broadcast (hblank : T.yields T.blank = []) (X : Fleet Unit α)
    (clientId : UUID) {shard : ℕ} (h : shard < nShards) :
    sentTo shard (X.sends (fun cfg => ringAggregate cfg nShards T.toAggregateFn true) clientId
        Dict.empty) =
      (List.range X.size).flatMap fun i =>
        (T.yields (T.tableOf (bodiesIn clientId () (X.arrivals i)))).map Prod.fst := by
  unfold Fleet.sends
  rw [sentTo_flatMap]
  congr 1
  funext i
  rw [sendsOf_eq hblank, sentTo_broadcast h]

/-- The tables of a stage that shards are split by affinity. -/
theorem sentTo_sends_sharded (hblank : T.yields T.blank = []) (X : Fleet Unit α)
    (clientId : UUID) {shard : ℕ} (h : shard < nShards) :
    sentTo shard (X.sends (fun cfg => ringAggregate cfg nShards T.toAggregateFn false) clientId
        Dict.empty) =
      (List.range X.size).flatMap fun i =>
        ((T.yields (T.tableOf (bodiesIn clientId () (X.arrivals i)))).filter
          fun e => e.2 % (nShards : ℤ) = shard).map Prod.fst := by
  unfold Fleet.sends
  rw [sentTo_flatMap]
  congr 1
  funext i
  rw [sendsOf_eq hblank, sentTo_sharded h]

end TableFn

variable {A : Type} (hash : String → ℤ)

/-- `UC2MaxAmountAggregateFn`; `gt` compares amounts. -/
def uc2MaxAmount (gt : A → A → Bool) :
    TableFn (Dict String (String × A)) (Dict String (String × A))
      (Dict String (String × A)) where
  blank := Dict.empty
  add data maxes := data.entries.foldl (UC2BankId.keepMax gt) maxes
  yields maxes := maxes.entries.map fun e => (Dict.empty.set e.1 e.2, hash e.1)

/-- `UC2BankNamesAggregateFn`. -/
def uc2BankNames : TableFn (Dict String String) (Dict String String) (Dict String String) where
  blank := Dict.empty
  add data names := names.update data.entries
  yields names := names.entries.map fun e => (Dict.empty.set e.1 e.2, hash e.1)

namespace UC3Avg

/-- Add the sum and the number of one entry. -/
def addSum [Zero A] [Add A] (sumCounts : Dict String (A × ℕ)) (entry : String × A × ℕ) :
    Dict String (A × ℕ) :=
  let curr := sumCounts.getD entry.1 (0, 0)
  sumCounts.set entry.1 (curr.1 + entry.2.1, curr.2 + entry.2.2)

end UC3Avg

/-- `UC3AvgAggregateFn`. -/
def uc3Avg [Zero A] [Add A] [Div A] [NatCast A] :
    TableFn (Dict String (A × ℕ)) (Dict String (A × ℕ)) (Dict String A) where
  blank := Dict.empty
  add data sumCounts := data.entries.foldl UC3Avg.addSum sumCounts
  yields sumCounts := (sumCounts.mapVal fun v => v.1 / (v.2 : A)).entries.map fun e =>
    (Dict.empty.set e.1 e.2, hash e.1)
