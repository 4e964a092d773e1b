import MoneyLaundering.Aggregate.Spilled
import MoneyLaundering.Messages.GraphSrc

/-!
# Nodes of high degree

`UC4Degree` looks for the nodes with at least five predecessors or successors.  It keeps at
most five of each: which ones are left out depends on the order in which sets are gone
through and on spills.  Still a set is full if and only if there were five.
-/

namespace GraphSrc

/-- A set of texts. -/
abbrev TextSet : Type := OrderedSet (id : String → String)

/-- The order in which a set of texts is gone through. -/
abbrev TextOrder : Type := OrderedSet.Order (id : String → String)

namespace UC4Degree

/-- `MIN_DEGREE` and `SHARDING_FILES`. -/
def minDegree : ℕ := 5

def shardingFiles : ℕ := 500

/-- A node with its successors and its predecessors, in the order in which they are
written. -/
abbrev Line : Type := String × List String × List String

/-- `_serialize`. -/
def serialize (line : Line) : Json :=
  .list [.str line.1.toList, .list (line.2.1.map fun s => .str s.toList),
    .list (line.2.2.map fun s => .str s.toList)]

/-- The text of a value. -/
def textOf : Json → Option String
  | .str s => some (String.ofList s)
  | _ => none

/-- `_deserialize`. -/
def deserialize : Json → Option Line
  | .list [node, .list out, .list in_] => do
    return (← textOf node, ← out.mapM textOf, ← in_.mapM textOf)
  | _ => none

def codec (_ : UUID) : LineCodec Line := .json serialize deserialize

theorem faithful (clientId : UUID) : (codec clientId).Faithful fun _ => True := by
  apply LineCodec.json_faithful
  intro line _
  have htexts (ss : List String) :
      (ss.map fun s => Json.str s.toList).mapM textOf = some ss := by
    induction ss with
    | nil => rfl
    | cons s ss ih =>
        rw [List.map_cons, List.mapM_cons, ih, textOf, String.ofList_toList]
        rfl
  rw [serialize, deserialize, htexts, htexts, textOf, String.ofList_toList]
  rfl

/-! ## The function -/

variable (hash : String → ℤ) (order : TextOrder) (threshold : ℕ)

/-- `_sharding_hash`. -/
def shardingHash (node : String) : ℕ := (hash node % shardingFiles).toNat

/-- `_capped_update`, of neighbors in the order in which they are gone through. -/
def cappedUpdate (store : Dict String TextSet) (node : String) (neighbors : List String) :
    Dict String TextSet :=
  store.set node ((store.getD node .empty).addUpTo minDegree neighbors)

/-- What is in memory of a client: `_out` and `_in`. -/
structure Degrees where
  out : Dict String TextSet
  in_ : Dict String TextSet

/-- Nothing. -/
def Degrees.blank : Degrees := ⟨Dict.empty, Dict.empty⟩

/-- `{str(n) for n in nodes}`, as it is gone through. -/
def texts (nodes : NodeSet) : List String :=
  order.elems (.ofList id (nodes.elems.map Node.str))

/-- Note the neighbors of one node. -/
def note (degrees : Degrees) (entry : Entry) : Degrees where
  in_ := cappedUpdate degrees.in_ entry.1.str (texts order entry.2.1)
  out := cappedUpdate degrees.out entry.1.str (texts order entry.2.2)

/-- What `_spill_to_disk` writes. -/
def lines (_ : UUID) (degrees : Degrees) : List (ℕ × Line) :=
  (order.elems (.ofList id (degrees.out.keys ++ degrees.in_.keys))).map fun node =>
    (shardingHash hash node, (node, order.elems (degrees.out.getD node .empty),
      order.elems (degrees.in_.getD node .empty)))

/-- `aggregate`. -/
def aggregate (msg : DataMsg Nodes) (f : Spilled Degrees) : Spilled Degrees :=
  f.absorb codec (lines hash order) .blank (fun degrees => threshold ≤ degrees.out.size)
    (fun degrees => msg.body.entries.foldl (note order) degrees) msg.clientId

/-- Note what is read from one line. -/
def merge (degrees : Degrees) (line : Line) : Degrees where
  out := cappedUpdate degrees.out line.1 (order.elems (.ofList id line.2.1))
  in_ := cappedUpdate degrees.in_ line.1 (order.elems (.ofList id line.2.2))

/-- The nodes whose sets are full.  Every text is that of a node. -/
def high (store : Dict String TextSet) : NodeSet :=
  .ofList Node.key ((store.entries.filter fun e => minDegree ≤ e.2.size).filterMap
    fun e => Node.ofStr e.1)

/-- What is yielded of the lines of all shards: `hi_out` and `hi_in`. -/
def result (lines : List Line) : NodeSet × NodeSet :=
  let degrees := lines.foldl (merge order) .blank
  (high degrees.out, high degrees.in_)

end UC4Degree

/-- `UC4Degree`. -/
def uc4Degree (hash : String → ℤ) (order : TextOrder) (threshold : ℕ) :
    SpillFn UC4Degree.codec UC4Degree.Degrees Nodes (NodeSet × NodeSet) where
  lines := UC4Degree.lines hash order
  aggregate := UC4Degree.aggregate hash order threshold
  yields _ shards := [(UC4Degree.result order shards.flatten, 0)]

namespace UC4Degree

/-! ## Capped sets -/

/-- The set of a node. -/
def bucket (store : Dict String TextSet) (node : String) : TextSet := store.getD node .empty

/-- Several updates, one after the other. -/
def feed (store : Dict String TextSet) (updates : List (String × List String)) :
    Dict String TextSet :=
  updates.foldl (fun store u => cappedUpdate store u.1 u.2) store

variable {store : Dict String TextSet} {node s : String} {neighbors : List String}
  {updates : List (String × List String)}

theorem bucket_cappedUpdate (t : String) : bucket (cappedUpdate store node neighbors) t =
    if t = node then (bucket store node).addUpTo minDegree neighbors else bucket store t := by
  rw [bucket, cappedUpdate, Dict.getD_set]
  rfl

theorem mem_bucket_feed (h : s ∈ (bucket store node).elems) :
    s ∈ (bucket (feed store updates) node).elems := by
  induction updates generalizing store with
  | nil => exact h
  | cons u updates ih =>
      apply ih
      rw [bucket_cappedUpdate]
      split
      · rename_i heq
        rw [heq] at h
        exact OrderedSet.mem_elems_addUpTo h
      · exact h

theorem size_bucket_feed : (bucket store node).size ≤ (bucket (feed store updates) node).size := by
  have hsub : (bucket store node).elems ⊆ (bucket (feed store updates) node).elems :=
    fun s hs => mem_bucket_feed hs
  exact (List.subperm_of_subset (bucket store node).nodup.of_map hsub).length_le

/-- What is in a set was there or came with an update. -/
theorem of_mem_bucket_feed (h : s ∈ (bucket (feed store updates) node).elems) :
    s ∈ (bucket store node).elems ∨ ∃ u ∈ updates, u.1 = node ∧ s ∈ u.2 := by
  induction updates generalizing store with
  | nil => exact Or.inl h
  | cons u updates ih =>
      rcases ih h with hmem | ⟨u', hu', heq, hs⟩
      · rw [bucket_cappedUpdate] at hmem
        split at hmem
        · rename_i heq
          rw [heq]
          apply (OrderedSet.of_mem_addUpTo hmem).imp id
          exact fun hs => ⟨u, List.mem_cons_self, rfl, hs⟩
        · exact Or.inl hmem
      · exact Or.inr ⟨u', List.mem_cons_of_mem _ hu', heq, hs⟩

/-- A set is full, or has all that came with updates. -/
theorem full_or_mem_bucket_feed :
    minDegree ≤ (bucket (feed store updates) node).size ∨
      ∀ u ∈ updates, u.1 = node → ∀ s ∈ u.2, s ∈ (bucket (feed store updates) node).elems := by
  induction updates generalizing store with
  | nil => simp
  | cons u updates ih =>
      by_cases hnode : node = u.1
      · have hbucket : bucket (cappedUpdate store u.1 u.2) node =
            (bucket store u.1).addUpTo minDegree u.2 := by
          rw [bucket_cappedUpdate, if_pos hnode]
        have hcapped : minDegree ≤ ((bucket store u.1).addUpTo minDegree u.2).size ∨
            ∀ s ∈ u.2, OrderedSet.Mem s ((bucket store u.1).addUpTo minDegree u.2) :=
          OrderedSet.full_or_mem_addUpTo
        rcases hcapped with hfull | hall
        · rw [← hbucket] at hfull
          exact Or.inl (hfull.trans size_bucket_feed)
        · apply ih.imp id
          intro hrest u' hu' heq s hs
          rcases List.mem_cons.mp hu' with rfl | hmem
          · have hmem : s ∈ (bucket (cappedUpdate store u'.1 u'.2) node).elems := by
              rw [hbucket]
              simpa [OrderedSet.Mem] using hall s hs
            have hfed : s ∈ (bucket (feed (cappedUpdate store u'.1 u'.2) updates) node).elems :=
              mem_bucket_feed hmem
            exact hfed
          · exact hrest u' hmem heq s hs
      · apply ih.imp id
        intro hrest u' hu' heq s hs
        rcases List.mem_cons.mp hu' with rfl | hmem
        · exact absurd heq.symm hnode
        · exact hrest u' hmem heq s hs

/-! ## What was received -/

/-- The sets of one direction. -/
def Degrees.of (degrees : Degrees) : Direction → Dict String TextSet
  | .pred => degrees.in_
  | .succ => degrees.out

/-- The neighbors of one direction in a line. -/
def neighborsIn (line : Line) : Direction → List String
  | .pred => line.2.2
  | .succ => line.2.1

/-- The texts of the neighbors of a node in some messages. -/
def neighborTexts (d : Direction) (received : List Nodes) (node : String) : List String :=
  (received.flatMap KeyedDict.entries).flatMap fun entry =>
    if entry.1.str = node then (d.of entry.2).elems.map Node.str else []

/-- What is in memory and in the files is of what was received, and for every node a set is
full or nothing is missing. -/
structure Capped (d : Direction) (received : List Nodes) (m : Option Degrees)
    (logs : ℕ → List Line) : Prop where
  memory : ∀ degrees ∈ m, ∀ node, ∀ s ∈ (bucket (degrees.of d) node).elems,
    s ∈ neighborTexts d received node
  written : ∀ shard, ∀ line ∈ logs shard, ∀ s ∈ neighborsIn line d,
    s ∈ neighborTexts d received line.1
  whole : ∀ node,
    ((∃ degrees ∈ m, minDegree ≤ (bucket (degrees.of d) node).size) ∨
      ∃ shard, ∃ line ∈ logs shard, line.1 = node ∧
        minDegree ≤ (neighborsIn line d).dedup.length) ∨
    ∀ s ∈ neighborTexts d received node,
      (∃ degrees ∈ m, s ∈ (bucket (degrees.of d) node).elems) ∨
        ∃ shard, ∃ line ∈ logs shard, line.1 = node ∧ s ∈ neighborsIn line d

variable {order : TextOrder} {d : Direction} {received : List Nodes} {m : Option Degrees}
  {logs : ℕ → List Line} {degrees : Degrees}

theorem mem_texts {nodes : NodeSet} : s ∈ texts order nodes ↔ s ∈ nodes.elems.map Node.str := by
  have hkeys : s ∈ (OrderedSet.ofList id (nodes.elems.map Node.str)).elems.map id ↔
      s ∈ (nodes.elems.map Node.str).map id := OrderedSet.mem_keys_ofList
  rw [List.map_id, List.map_id] at hkeys
  rw [texts, (order.perm _).mem_iff, hkeys]

theorem mem_neighborTexts : s ∈ neighborTexts d received node ↔
    ∃ entry ∈ received.flatMap KeyedDict.entries,
      entry.1.str = node ∧ s ∈ (d.of entry.2).elems.map Node.str := by
  rw [neighborTexts, List.mem_flatMap]
  apply exists_congr
  intro entry
  apply and_congr_right
  intro _
  by_cases h : entry.1.str = node <;> simp [h]

theorem neighborTexts_append (body : Nodes) :
    neighborTexts d (received ++ [body]) node =
      neighborTexts d received node ++ neighborTexts d [body] node := by
  simp [neighborTexts]

/-- The updates of a message. -/
def updatesOf (order : TextOrder) (d : Direction) (body : Nodes) :
    List (String × List String) :=
  body.entries.map fun entry => (entry.1.str, texts order (d.of entry.2))

theorem of_foldl_note (body : Nodes) :
    (body.entries.foldl (note order) degrees).of d = feed (degrees.of d)
      (updatesOf order d body) := by
  rw [updatesOf]
  generalize body.entries = entries
  induction entries generalizing degrees with
  | nil => rfl
  | cons entry entries ih =>
      rw [List.foldl_cons, ih]
      cases d <;> rfl

theorem of_foldl_merge (lines : List Line) :
    (lines.foldl (merge order) degrees).of d = feed (degrees.of d)
      (lines.map fun line => (line.1, order.elems (.ofList id (neighborsIn line d)))) := by
  induction lines generalizing degrees with
  | nil => rfl
  | cons line lines ih =>
      rw [List.foldl_cons, ih]
      cases d <;> rfl

theorem mem_updatesOf {body : Nodes} :
    (∃ u ∈ updatesOf order d body, u.1 = node ∧ s ∈ u.2) ↔
      s ∈ neighborTexts d [body] node := by
  rw [mem_neighborTexts]
  simp [updatesOf, mem_texts]

theorem capped_initial : Capped d [] none fun _ => [] := by
  constructor
  · simp
  · simp
  · intro node
    apply Or.inr
    simp [neighborTexts]

theorem Capped.blank (h : Capped d received none logs) :
    Capped d received (some .blank) logs := by
  have hbucket (node : String) : bucket (Degrees.blank.of d) node = .empty := by
    cases d <;> rfl
  constructor
  · intro degrees hdegrees node s hs
    obtain rfl := Option.some.inj hdegrees
    rw [hbucket] at hs
    exact absurd hs List.not_mem_nil
  · exact h.written
  · intro node
    simpa [hbucket, OrderedSet.empty, OrderedSet.size, minDegree] using h.whole node

/-- A message keeps it, whatever is left out. -/
theorem Capped.note (h : Capped d received (some degrees) logs) (body : Nodes) :
    Capped d (received ++ [body]) (some (body.entries.foldl (note order) degrees)) logs := by
  constructor
  · intro degrees' hdegrees node s hs
    obtain rfl := Option.some.inj hdegrees
    rw [of_foldl_note] at hs
    rw [neighborTexts_append, List.mem_append]
    apply (of_mem_bucket_feed hs).imp
    · exact h.memory degrees rfl node s
    · exact mem_updatesOf.mp
  · intro shard line hline s hs
    rw [neighborTexts_append]
    exact List.mem_append_left _ (h.written shard line hline s hs)
  · intro node
    have hfeed : (body.entries.foldl (UC4Degree.note order) degrees).of d =
        feed (degrees.of d) (updatesOf order d body) := of_foldl_note body
    have hupdated : minDegree ≤ (bucket (feed (degrees.of d) (updatesOf order d body)) node).size ∨
        ∀ u ∈ updatesOf order d body, u.1 = node → ∀ s ∈ u.2,
          s ∈ (bucket (feed (degrees.of d) (updatesOf order d body)) node).elems :=
      full_or_mem_bucket_feed
    rw [← hfeed] at hupdated
    have hmono {s : String} (hs : s ∈ (bucket (degrees.of d) node).elems) :
        s ∈ (bucket ((body.entries.foldl (UC4Degree.note order) degrees).of d) node).elems := by
      rw [hfeed]
      exact mem_bucket_feed hs
    rcases hupdated with hfull | hnew
    · exact Or.inl (Or.inl ⟨_, rfl, hfull⟩)
    rcases h.whole node with (⟨degrees', hdegrees, hfull⟩ | hline) | hall
    · obtain rfl := Option.some.inj hdegrees
      apply Or.inl
      apply Or.inl
      refine ⟨_, rfl, ?_⟩
      rw [hfeed]
      exact hfull.trans size_bucket_feed
    · exact Or.inl (Or.inr hline)
    · apply Or.inr
      intro s hs
      rw [neighborTexts_append, List.mem_append] at hs
      rcases hs with hold | hs
      · rcases hall s hold with ⟨degrees', hdegrees, hmem⟩ | hline
        · obtain rfl := Option.some.inj hdegrees
          exact Or.inl ⟨_, rfl, hmono hmem⟩
        · exact Or.inr hline
      · obtain ⟨u, hu, heq, hmem⟩ := mem_updatesOf.mpr hs
        exact Or.inl ⟨_, rfl, hnew u hu heq s hmem⟩

/-- A node that has something in memory has a line when it is spilled. -/
theorem mem_lines (hash : String → ℤ) (order : TextOrder) (c : UUID)
    (hs : s ∈ (bucket (degrees.of d) node).elems) :
    ∃ line, (shardingHash hash node, line) ∈ lines hash order c degrees ∧ line.1 = node ∧
      (neighborsIn line d).Perm (bucket (degrees.of d) node).elems := by
  have hkeys : node ∈ degrees.out.keys ++ degrees.in_.keys := by
    have hkey {store : Dict String TextSet} (hs : s ∈ (bucket store node).elems) :
        node ∈ store.keys := by
      by_contra hnot
      rw [bucket, Dict.getD, Dict.get?_eq_none_iff.mpr hnot] at hs
      exact List.not_mem_nil hs
    cases d with
    | pred => exact List.mem_append_right _ (hkey hs)
    | succ => exact List.mem_append_left _ (hkey hs)
  have hnode : node ∈ order.elems (.ofList id (degrees.out.keys ++ degrees.in_.keys)) := by
    rw [(order.perm _).mem_iff]
    have hmem : node ∈ (OrderedSet.ofList id (degrees.out.keys ++ degrees.in_.keys)).elems.map id :=
      OrderedSet.mem_keys_ofList.mpr (by rwa [List.map_id])
    rwa [List.map_id] at hmem
  refine ⟨_, List.mem_map.mpr ⟨node, hnode, rfl⟩, rfl, ?_⟩
  cases d <;> exact order.perm _

/-- A line that is spilled has what the memory has. -/
theorem of_mem_lines {hash : String → ℤ} {c : UUID} {e : ℕ × Line}
    (he : e ∈ lines hash order c degrees) :
    (neighborsIn e.2 d).Perm (bucket (degrees.of d) e.2.1).elems := by
  obtain ⟨node, -, rfl⟩ := List.mem_map.mp he
  cases d <;> exact order.perm _

theorem mem_written {entries : List (ℕ × Line)} {shard : ℕ} {line : Line} :
    line ∈ Spilled.written logs entries shard ↔
      line ∈ logs shard ∨ (shard, line) ∈ entries := by
  rw [Spilled.written, List.mem_append]
  apply or_congr_right
  constructor
  · intro h
    obtain ⟨e, he, rfl⟩ := List.mem_map.mp h
    obtain ⟨hmem, hshard⟩ := List.mem_filter.mp he
    rw [decide_eq_true_eq] at hshard
    rw [← hshard]
    exact hmem
  · intro h
    exact List.mem_map.mpr ⟨_, List.mem_filter.mpr ⟨h, by simp⟩, rfl⟩

/-- Spilling keeps it. -/
theorem Capped.spilled {hash : String → ℤ} {c : UUID}
    (h : Capped d received (some degrees) logs) :
    Capped d received none (Spilled.written logs (lines hash order c degrees)) := by
  constructor
  · simp
  · intro shard line hline s hs
    rcases mem_written.mp hline with hold | hnew
    · exact h.written shard line hold s hs
    · exact h.memory degrees rfl line.1 s ((of_mem_lines hnew).mem_iff.mp hs)
  · intro node
    have hold {line : Line} {shard : ℕ} (hline : line ∈ logs shard) :
        line ∈ Spilled.written logs (lines hash order c degrees) shard :=
      mem_written.mpr (Or.inl hline)
    rcases h.whole node with (⟨degrees', hdegrees, hfull⟩ | ⟨shard, line, hline, hcond⟩) | hall
    · obtain rfl := Option.some.inj hdegrees
      have hne : (bucket (degrees.of d) node).elems ≠ [] := by
        intro hnil
        rw [OrderedSet.size, hnil] at hfull
        exact absurd hfull (by decide)
      obtain ⟨s, hs⟩ := List.exists_mem_of_ne_nil _ hne
      obtain ⟨line, hline, hnode, hperm⟩ := mem_lines hash order c hs
      refine Or.inl (Or.inr ⟨_, line, mem_written.mpr (Or.inr hline), hnode, ?_⟩)
      have hnodup : (neighborsIn line d).Nodup :=
        hperm.nodup_iff.mpr (bucket (degrees.of d) node).nodup.of_map
      rw [List.Nodup.dedup hnodup, hperm.length_eq]
      exact hfull
    · exact Or.inl (Or.inr ⟨shard, line, hold hline, hcond⟩)
    · apply Or.inr
      intro s hs
      apply Or.inr
      rcases hall s hs with ⟨degrees', hdegrees, hmem⟩ | ⟨shard, line, hline, hcond⟩
      · obtain rfl := Option.some.inj hdegrees
        obtain ⟨line, hline, hnode, hperm⟩ := mem_lines hash order c hmem
        exact ⟨_, line, mem_written.mpr (Or.inr hline), hnode, hperm.mem_iff.mpr hmem⟩
      · exact ⟨shard, line, hold hline, hcond⟩

variable {hash : String → ℤ} {threshold : ℕ} {c : UUID}

theorem laws : (uc4Degree hash order threshold).Laws (fun _ => True) (fun _ => True)
    (fun received m logs => ∀ d, Capped d received m logs) c := by
  have hspills (received : List Nodes) : Spilled.Spills (lines hash order) (fun _ => True)
      (fun m logs => ∀ d, Capped d received m logs) c :=
    fun degrees logs h => ⟨fun _ _ => trivial, fun d => (h d).spilled⟩
  constructor
  · exact hspills
  · intro msg f hother
    change Spilled.Same c f (aggregate hash order threshold msg f)
    exact Spilled.same_absorb (Ne.symm hother)
  · intro msg f received hown _ htracks
    subst hown
    apply htracks.absorb _ _ (hspills _)
    · exact fun logs h d => (h d).blank
    · exact fun degrees logs h d => (h d).note msg.body

/-! ## What is yielded -/

/-- The neighbors of a node in some messages. -/
def neighborsOf (d : Direction) (received : List Nodes) (node : Node) : List Node :=
  (received.flatMap KeyedDict.entries).flatMap fun entry =>
    if entry.1 = node then (d.of entry.2).elems else []

/-- The number of different predecessors, or successors, of a node in some messages. -/
def degree (d : Direction) (received : List Nodes) (node : Node) : ℕ :=
  (neighborsOf d received node).toFinset.card

theorem mem_neighborsOf {n a : Node} : a ∈ neighborsOf d received n ↔
    ∃ entry ∈ received.flatMap KeyedDict.entries, entry.1 = n ∧ a ∈ (d.of entry.2).elems := by
  rw [neighborsOf, List.mem_flatMap]
  apply exists_congr
  intro entry
  apply and_congr_right
  intro _
  by_cases h : entry.1 = n <;> simp [h]

theorem nodesOf_of_mem {n a : Node} (h : a ∈ neighborsOf d received n) :
    n ∈ nodesOf received ∧ a ∈ nodesOf received := by
  obtain ⟨entry, hentry, rfl, ha⟩ := mem_neighborsOf.mp h
  obtain ⟨body, hbody, hmem⟩ := List.mem_flatMap.mp hentry
  constructor
  · exact ⟨body, hbody, entry, hmem, Or.inl rfl⟩
  · refine ⟨body, hbody, entry, hmem, Or.inr ?_⟩
    cases d with
    | pred => exact Or.inl ha
    | succ => exact Or.inr ha

/-- Different nodes have different texts. -/
theorem card_neighborTexts (hreadable : ∀ n ∈ nodesOf received, n.CommaFree) {n : Node}
    (hn : n.CommaFree) : (neighborTexts d received n.str).dedup.length = degree d received n := by
  have htexts : (neighborTexts d received n.str).toFinset =
      (neighborsOf d received n).toFinset.image Node.str := by
    ext s
    rw [List.mem_toFinset, mem_neighborTexts, Finset.mem_image]
    constructor
    · rintro ⟨entry, hentry, hnode, hs⟩
      obtain ⟨body, hbody, hmem⟩ := List.mem_flatMap.mp hentry
      have hentrynode : entry.1 ∈ nodesOf received := ⟨body, hbody, entry, hmem, Or.inl rfl⟩
      obtain ⟨a, ha, rfl⟩ := List.mem_map.mp hs
      refine ⟨a, List.mem_toFinset.mpr (mem_neighborsOf.mpr ⟨entry, hentry, ?_, ha⟩), rfl⟩
      exact Node.str_inj (hreadable _ hentrynode) hn hnode
    · rintro ⟨a, ha, rfl⟩
      obtain ⟨entry, hentry, rfl, hmem⟩ := mem_neighborsOf.mp (List.mem_toFinset.mp ha)
      exact ⟨entry, hentry, rfl, List.mem_map_of_mem hmem⟩
  rw [← List.card_toFinset, htexts, degree]
  apply Finset.card_image_of_injOn
  intro a ha a' ha' heq
  rw [Finset.mem_coe, List.mem_toFinset] at ha ha'
  exact Node.str_inj (hreadable a (nodesOf_of_mem ha).2) (hreadable a' (nodesOf_of_mem ha').2) heq

/-- After all lines are merged, a set is full if and only if there were enough neighbors. -/
theorem Capped.full_iff (h : Capped d received none logs) {shards : List ℕ}
    (hempty : ∀ shard ∉ shards, logs shard = []) :
    minDegree ≤ (bucket (((shards.map logs).flatten.foldl (merge order) .blank).of d) node).size ↔
      minDegree ≤ (neighborTexts d received node).dedup.length := by
  rw [of_foldl_merge]
  generalize hupdates : (shards.map logs).flatten.map (fun line =>
    (line.1, order.elems (.ofList id (neighborsIn line d)))) = updates
  have hblank : bucket (Degrees.blank.of d) node = .empty := by
    cases d <;> rfl
  have hset (ss : List String) {s : String} : s ∈ order.elems (.ofList id ss) ↔ s ∈ ss := by
    have hkeys : s ∈ (OrderedSet.ofList id ss).elems.map id ↔ s ∈ ss.map id :=
      OrderedSet.mem_keys_ofList
    rw [List.map_id, List.map_id] at hkeys
    rw [(order.perm _).mem_iff, hkeys]
  have hupdate {shard : ℕ} {line : Line} (hline : line ∈ logs shard) :
      (line.1, order.elems (.ofList id (neighborsIn line d))) ∈ updates := by
    have hshard : shard ∈ shards := by
      by_contra hnot
      rw [hempty shard hnot] at hline
      exact List.not_mem_nil hline
    rw [← hupdates]
    apply List.mem_map_of_mem
    exact List.mem_flatten.mpr ⟨logs shard, List.mem_map_of_mem hshard, hline⟩
  have hnodup : (bucket (feed (Degrees.blank.of d) updates) node).elems.Nodup :=
    (bucket _ node).nodup.of_map
  constructor
  · intro hfull
    apply hfull.trans
    have hsub : (bucket (feed (Degrees.blank.of d) updates) node).elems ⊆
        (neighborTexts d received node).dedup := by
      intro s hs
      rcases of_mem_bucket_feed hs with hmem | ⟨u, hu, hnode, hmem⟩
      · rw [hblank] at hmem
        exact absurd hmem List.not_mem_nil
      · rw [← hupdates] at hu
        obtain ⟨line, hline, rfl⟩ := List.mem_map.mp hu
        obtain ⟨_, hlog, hline⟩ := List.mem_flatten.mp hline
        obtain ⟨shard, -, rfl⟩ := List.mem_map.mp hlog
        rw [List.mem_dedup, ← hnode]
        exact h.written shard line hline s ((hset _).mp hmem)
    exact (List.subperm_of_subset hnodup hsub).length_le
  · intro henough
    have hcapped : minDegree ≤ (bucket (feed (Degrees.blank.of d) updates) node).size ∨
        ∀ u ∈ updates, u.1 = node → ∀ s ∈ u.2,
          s ∈ (bucket (feed (Degrees.blank.of d) updates) node).elems :=
      full_or_mem_bucket_feed
    rcases hcapped with hfull | hall
    · exact hfull
    -- Nothing is left out of this set, so it has all of a full line or all that came.
    have hline {shard : ℕ} {line : Line} {s : String} (hline : line ∈ logs shard)
        (hnode : line.1 = node) (hs : s ∈ neighborsIn line d) :
        s ∈ (bucket (feed (Degrees.blank.of d) updates) node).elems :=
      hall _ (hupdate hline) hnode s ((hset _).mpr hs)
    have hlength {ss : List String} (hss : ∀ s ∈ ss,
        s ∈ (bucket (feed (Degrees.blank.of d) updates) node).elems) :
        ss.dedup.length ≤ (bucket (feed (Degrees.blank.of d) updates) node).size :=
      (List.subperm_of_subset (List.nodup_dedup ss)
        fun s hs => hss s (List.mem_dedup.mp hs)).length_le
    rcases h.whole node with (⟨degrees, hnone, -⟩ | ⟨shard, line, hmem, hnode, hfull⟩) | hwhole
    · exact absurd hnone (Option.not_mem_none degrees)
    · exact hfull.trans (hlength fun s hs => hline hmem hnode hs)
    · apply henough.trans
      apply hlength
      intro s hs
      rcases hwhole s hs with ⟨degrees, hnone, -⟩ | ⟨shard, line, hmem, hnode, hs⟩
      · exact absurd hnone (Option.not_mem_none degrees)
      · exact hline hmem hnode hs

/-- The nodes of the full sets, as they are read back. -/
theorem mem_high {store : Dict String TextSet} {n : Node} (h : n ∈ (high store).elems) :
    ∃ node, minDegree ≤ (bucket store node).size ∧ Node.ofStr node = some n := by
  rcases OrderedSet.mem_elems_update h with hmem | hmem
  · exact absurd hmem List.not_mem_nil
  · obtain ⟨e, he, hread⟩ := List.mem_filterMap.mp hmem
    obtain ⟨hentry, hfull⟩ := List.mem_filter.mp he
    have hget : store.get? e.1 = some e.2 := Dict.get?_eq_some_iff.mpr hentry
    refine ⟨e.1, ?_, hread⟩
    rw [bucket, Dict.getD, hget]
    simpa using hfull

theorem high_mem {store : Dict String TextSet} {n : Node} (hn : n.CommaFree)
    (h : minDegree ≤ (bucket store n.str).size) : OrderedSet.Mem n (high store) := by
  rw [high, OrderedSet.mem_ofList]
  apply List.mem_map_of_mem
  rw [List.mem_filterMap]
  cases hget : store.get? n.str with
  | none =>
      rw [bucket, Dict.getD, hget] at h
      exact absurd h (by decide)
  | some texts =>
      rw [bucket, Dict.getD, hget] at h
      have hentry : (n.str, texts) ∈ store.entries := Dict.get?_eq_some_iff.mp hget
      exact ⟨_, List.mem_filter.mpr ⟨hentry, by simpa using h⟩, Node.ofStr_str hn⟩

/-- A text that has a neighbor is that of a node that was received. -/
theorem exists_node_of_full {node : String}
    (h : minDegree ≤ (neighborTexts d received node).dedup.length) :
    ∃ n ∈ nodesOf received, n.str = node := by
  have hne : (neighborTexts d received node).dedup ≠ [] := by
    intro hnil
    rw [hnil] at h
    exact absurd h (by decide)
  obtain ⟨s, hs⟩ := List.exists_mem_of_ne_nil _ hne
  obtain ⟨entry, hentry, hnode, -⟩ := mem_neighborTexts.mp (List.mem_dedup.mp hs)
  obtain ⟨body, hbody, hmem⟩ := List.mem_flatMap.mp hentry
  exact ⟨entry.1, ⟨body, hbody, entry, hmem, Or.inl rfl⟩, hnode⟩

theorem Capped.high_enough (h : Capped d received none logs) {shards : List ℕ}
    (hempty : ∀ shard ∉ shards, logs shard = [])
    (hreadable : ∀ n ∈ nodesOf received, n.CommaFree) :
    let hi := high (((shards.map logs).flatten.foldl (merge order) .blank).of d)
    (∀ n ∈ hi.elems, minDegree ≤ degree d received n) ∧
      ∀ n, minDegree ≤ degree d received n → OrderedSet.Mem n hi := by
  constructor
  · intro n hn
    obtain ⟨node, hfull, hread⟩ := mem_high hn
    have henough := (h.full_iff hempty).mp hfull
    obtain ⟨n', hn', rfl⟩ := exists_node_of_full henough
    rw [Node.ofStr_str (hreadable n' hn')] at hread
    rw [← Option.some.inj hread, ← card_neighborTexts hreadable (hreadable n' hn')]
    exact henough
  · intro n henough
    have hne : neighborsOf d received n ≠ [] := by
      intro hnil
      rw [degree, hnil] at henough
      exact absurd henough (by decide)
    obtain ⟨a, ha⟩ := List.exists_mem_of_ne_nil _ hne
    have hn := hreadable n (nodesOf_of_mem ha).1
    apply high_mem hn
    rw [h.full_iff hempty, card_neighborTexts hreadable hn]
    exact henough

/-- Every run brings the files in a state from which the result is built. -/
theorem capped_run (hash : String → ℤ) (order : TextOrder) (threshold : ℕ) (c : UUID)
    (steps : List (TextOrder × SpillFn.Step Nodes)) (hkeeps : ∀ s ∈ steps, s.2.Keeps c) :
    ∃ (logs : ℕ → List Line) (shards : List ℕ),
      (∀ d, Capped d (SpillFn.bodies c (steps.map Prod.snd)) none logs) ∧
      (∀ shard ∉ shards, logs shard = []) ∧
      ((uc4Degree hash order threshold).getResult c (SpillFn.runAll
        (steps.map fun s => (uc4Degree hash s.1 threshold, s.2)))).1 =
        [(result order (shards.map logs).flatten, 0)] := by
  have hlaws (order : TextOrder) : (uc4Degree hash order threshold).Laws (fun _ => True)
      (fun _ => True) (fun received m logs => ∀ d, Capped d received m logs) c := laws
  obtain ⟨logs, shards, hcapped, -, hempty, hread⟩ := SpillFn.yielded_family hlaws
    (faithful c) (fun d => capped_initial) order steps hkeeps fun _ _ => trivial
  exact ⟨logs, shards, hcapped, hempty, hread⟩

/-- What every run yields has the nodes of high degree, of either kind. -/
theorem high_run (hash : String → ℤ) (order : TextOrder) (threshold : ℕ) (c : UUID)
    (steps : List (TextOrder × SpillFn.Step Nodes)) (hkeeps : ∀ s ∈ steps, s.2.Keeps c)
    (hreadable : ∀ n ∈ nodesOf (SpillFn.bodies c (steps.map Prod.snd)), n.CommaFree) :
    ∃ high : NodeSet × NodeSet,
      ((uc4Degree hash order threshold).getResult c (SpillFn.runAll
        (steps.map fun s => (uc4Degree hash s.1 threshold, s.2)))).1 = [(high, 0)] ∧
      ∀ d : Direction,
        (∀ n ∈ (d.of high.swap).elems,
          minDegree ≤ degree d (SpillFn.bodies c (steps.map Prod.snd)) n) ∧
        ∀ n, minDegree ≤ degree d (SpillFn.bodies c (steps.map Prod.snd)) n →
          (d.of high.swap).Mem n := by
  obtain ⟨logs, shards, hcapped, hempty, hread⟩ :=
    capped_run hash order threshold c steps hkeeps
  refine ⟨_, hread, ?_⟩
  intro d
  cases d with
  | pred => exact (hcapped .pred).high_enough hempty hreadable
  | succ => exact (hcapped .succ).high_enough hempty hreadable

/-- Keeping at most five neighbors loses no node of high degree: in whatever order sets are
gone through, and however they are spilled, what is yielded are the nodes with at least five
different successors and those with at least five different predecessors. -/
theorem high_exact (hash : String → ℤ) (order : TextOrder) (threshold : ℕ) (c : UUID)
    (steps : List (TextOrder × SpillFn.Step Nodes)) (hkeeps : ∀ s ∈ steps, s.2.Keeps c)
    (hreadable : ∀ n ∈ nodesOf (SpillFn.bodies c (steps.map Prod.snd)), n.CommaFree) :
    let received := SpillFn.bodies c (steps.map Prod.snd)
    ∃ hiOut hiIn : NodeSet,
      ((uc4Degree hash order threshold).getResult c (SpillFn.runAll
        (steps.map fun s => (uc4Degree hash s.1 threshold, s.2)))).1 = [((hiOut, hiIn), 0)] ∧
      (∀ n ∈ hiOut.elems, minDegree ≤ degree .succ received n) ∧
      (∀ n, minDegree ≤ degree .succ received n → OrderedSet.Mem n hiOut) ∧
      (∀ n ∈ hiIn.elems, minDegree ≤ degree .pred received n) ∧
      ∀ n, minDegree ≤ degree .pred received n → OrderedSet.Mem n hiIn := by
  intro received
  obtain ⟨high, hread, hhigh⟩ := high_run hash order threshold c steps hkeeps hreadable
  obtain ⟨houtSound, houtComplete⟩ := hhigh .succ
  obtain ⟨hinSound, hinComplete⟩ := hhigh .pred
  exact ⟨high.1, high.2, hread, houtSound, houtComplete, hinSound, hinComplete⟩

/-- Sets are gone through as they were filled. -/
def asAdded : TextOrder := .inserted id

/-- Account `m` with the given successors. -/
def oneSource (accounts : List String) : DataMsg Nodes :=
  ⟨7, 1, 1, KeyedDict.empty.assign ⟨"1", "m"⟩
    (.empty, .ofList Node.key (accounts.map fun account => ⟨"1", account⟩))⟩

/-- Two messages with three successors each, one of which is the same, are spilled apart. -/
theorem high_exact_oneSource :
    ∃ hiOut hiIn : NodeSet,
      ((uc4Degree (fun s => s.length) asAdded 1).getResult 7 (SpillFn.runAll
        ([(asAdded, .input (oneSource ["a", "b", "c"])), (asAdded, .restart fun _ _ => 0),
          (asAdded, .input (oneSource ["c", "d", "e"]))].map
          fun s : TextOrder × SpillFn.Step Nodes =>
            (uc4Degree (fun s => s.length) s.1 1, s.2)))).1 = [((hiOut, hiIn), 0)] ∧
      OrderedSet.Mem ⟨"1", "m"⟩ hiOut ∧ hiIn.elems = [] := by
  have hnodes : ∀ n ∈ nodesOf [(oneSource ["a", "b", "c"]).body, (oneSource ["c", "d", "e"]).body],
      n ∈ ["m", "a", "b", "c", "d", "e"].map fun account => Node.mk "1" account := by
    intro n ⟨body, hbody, entry, hentry, h⟩
    have hbody : body = (oneSource ["a", "b", "c"]).body ∨
        body = (oneSource ["c", "d", "e"]).body := by simpa using hbody
    rcases hbody with rfl | rfl
    · rw [List.mem_singleton.mp hentry] at h
      rcases h with rfl | h | h
      · decide
      · exact absurd h List.not_mem_nil
      · exact (show ∀ n ∈ ["a", "b", "c"].map fun account => Node.mk "1" account,
          n ∈ ["m", "a", "b", "c", "d", "e"].map fun account => Node.mk "1" account by decide) n h
    · rw [List.mem_singleton.mp hentry] at h
      rcases h with rfl | h | h
      · decide
      · exact absurd h List.not_mem_nil
      · exact (show ∀ n ∈ ["c", "d", "e"].map fun account => Node.mk "1" account,
          n ∈ ["m", "a", "b", "c", "d", "e"].map fun account => Node.mk "1" account by decide) n h
  have hexact := high_exact (fun s => s.length) asAdded 1 7
    [(asAdded, .input (oneSource ["a", "b", "c"])), (asAdded, .restart fun _ _ => 0),
      (asAdded, .input (oneSource ["c", "d", "e"]))]
    (by simp [SpillFn.Step.Keeps])
    (by
      intro n hn
      have hall : ∀ n ∈ ["m", "a", "b", "c", "d", "e"].map fun account => Node.mk "1" account,
          n.CommaFree := by decide
      exact hall n (hnodes n hn))
  obtain ⟨hiOut, hiIn, hyielded, -, hout, hin, -⟩ := hexact
  refine ⟨hiOut, hiIn, hyielded, hout _ (by decide), ?_⟩
  rw [List.eq_nil_iff_forall_not_mem]
  intro n hn
  have hnone : neighborsOf .pred [(oneSource ["a", "b", "c"]).body,
      (oneSource ["c", "d", "e"]).body] n = [] := by
    rw [List.eq_nil_iff_forall_not_mem]
    intro a ha
    obtain ⟨entry, hentry, -, hmem⟩ := mem_neighborsOf.mp ha
    have hblank : (Direction.pred.of entry.2).elems = [] := by
      rcases List.mem_cons.mp hentry with rfl | hentry
      · rfl
      · rw [List.mem_singleton.mp hentry]
        rfl
    rw [hblank] at hmem
    exact List.not_mem_nil hmem
  have henough : minDegree ≤ ([] : List Node).toFinset.card := hnone ▸ hin n hn
  exact absurd henough (by decide)

end UC4Degree

end GraphSrc
