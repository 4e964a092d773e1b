import MoneyLaundering.Aggregate.Spilled
import MoneyLaundering.Messages.GraphSrc
import MoneyLaundering.Support.Sums

/-!
# Aggregating graphs

`UC4AggregateGraphs` joins what the messages of a client say of every node.  In memory nodes
are told apart by their keys, in the shard files by their texts: what is yielded is the union
of what was received where the two agree.
-/

namespace GraphSrc

namespace UC4AggregateGraphs

/-- `SHARDING_FILES` and `AFFINITY_SHARDS`. -/
def shardingFiles : ℕ := 500

def affinityShards : ℕ := 100

/-- A node with its predecessors and successors, in the order in which they are written. -/
abbrev Line : Type := Node × List Node × List Node

instance : Inhabited Line := ⟨⟨⟨"", ""⟩, [], []⟩⟩

/-- `_serialize`. -/
def serialize (line : Line) : Json :=
  .list [.str line.1.str.toList, .list (line.2.1.map fun n => .str n.str.toList),
    .list (line.2.2.map fun n => .str n.str.toList)]

/-- `Node.from_str` of a value. -/
def nodeOf : Json → Option Node
  | .str s => Node.ofStr (String.ofList s)
  | _ => none

/-- `_deserialize`, which raises where `from_str` does. -/
def deserialize : Json → Option Line
  | .list [node, .list preds, .list succs] => do
    return (← nodeOf node, ← preds.mapM nodeOf, ← succs.mapM nodeOf)
  | _ => none

def codec (_ : UUID) : LineCodec Line := .json serialize deserialize

/-- No text has a comma. -/
def Readable (line : Line) : Prop :=
  line.1.CommaFree ∧ (∀ n ∈ line.2.1, n.CommaFree) ∧ ∀ n ∈ line.2.2, n.CommaFree

theorem deserialize_serialize {line : Line} (h : Readable line) :
    deserialize (serialize line) = some line := by
  have hnode {n : Node} (hn : n.CommaFree) : nodeOf (.str n.str.toList) = some n := by
    rw [nodeOf, String.ofList_toList, Node.ofStr_str hn]
  have hnodes (ns : List Node) (hns : ∀ n ∈ ns, n.CommaFree) :
      (ns.map fun n => Json.str n.str.toList).mapM nodeOf = some ns := by
    induction ns with
    | nil => rfl
    | cons n ns ih =>
        rw [List.map_cons, List.mapM_cons, hnode (hns n List.mem_cons_self),
          ih fun n hn => hns n (List.mem_cons_of_mem _ hn)]
        rfl
  rw [serialize, deserialize, hnode h.1, hnodes _ h.2.1, hnodes _ h.2.2]
  rfl

theorem faithful (clientId : UUID) : (codec clientId).Faithful Readable :=
  LineCodec.json_faithful fun _ h => deserialize_serialize h

/-! ## The function -/

variable (hash : String → ℤ) (order : NodeOrder) (threshold : ℕ)

/-- `sharding_hash`. -/
def shardingHash (node : Node) : ℕ := (hash node.str % shardingFiles).toNat

/-- `hash(node) % AFFINITY_SHARDS`. -/
def affinity (node : Node) : ℕ := (hash node.key % affinityShards).toNat

/-- `preds.setdefault(node, set()).update(..)`, and the same of `succs`, which has the same
keys. -/
def add (nodes : Nodes) (node : Node) (preds succs : NodeSet) : Nodes :=
  let old := nodes.getD node (.empty, .empty)
  nodes.assign node (old.1.update preds.elems, old.2.update succs.elems)

/-- What `_spill_to_disk` writes. -/
def lines (_ : UUID) (nodes : Nodes) : List (ℕ × Line) :=
  Spilled.byShard (fun line => shardingHash hash line.1)
    (nodes.entries.map fun e => (e.1, order.elems e.2.1, order.elems e.2.2))

/-- `aggregate`. -/
def aggregate (msg : DataMsg Nodes) (f : Spilled Nodes) : Spilled Nodes :=
  f.absorb codec (lines hash order) .empty (fun nodes => threshold ≤ nodes.size)
    (fun nodes => msg.body.entries.foldl (fun nodes e => add nodes e.1 e.2.1 e.2.2) nodes)
    msg.clientId

/-- The nodes of the lines of a shard. -/
def readLines (lines : List Line) : Nodes :=
  lines.foldl (fun nodes line => add nodes line.1 (.ofList Node.key line.2.1)
    (.ofList Node.key line.2.2)) .empty

/-- The nodes of a graph by their affinity. -/
def affinities (nodes : Nodes) : Dict ℕ Nodes :=
  .gather (fun e => affinity hash e.1) .empty (fun nodes e => nodes.assign e.1 e.2)
    nodes.entries

/-- What is yielded of the lines of a shard. -/
def yieldShard (lines : List Line) : List (Nodes × ℤ) :=
  (affinities hash (readLines lines)).entries.map fun e => (e.2, (e.1 : ℤ))

end UC4AggregateGraphs

/-- `UC4AggregateGraphs`. -/
def uc4AggregateGraphs (hash : String → ℤ) (order : NodeOrder) (threshold : ℕ) :
    SpillFn UC4AggregateGraphs.codec Nodes Nodes Nodes where
  lines := UC4AggregateGraphs.lines hash order
  aggregate := UC4AggregateGraphs.aggregate hash order threshold
  yields _ shards := shards.flatMap (UC4AggregateGraphs.yieldShard hash)

namespace UC4AggregateGraphs

/-! ## What is known of the nodes -/

/-- What a graph may say, by keys: that there is a node, and what is before or after it. -/
inductive Fact where
  | node (k : String)
  | edge (d : Direction) (k k' : String)

/-- The key of the node that a fact is about. -/
def Fact.subject : Fact → String
  | .node k => k
  | .edge _ k _ => k

/-- What a line says. -/
def Tells (line : Line) : Fact → Prop
  | .node k => line.1.key = k
  | .edge d k k' => line.1.key = k ∧ k' ∈ (d.of line.2).map Node.key

/-- The line of an entry. -/
def lineOf (entry : Entry) : Line := (entry.1, entry.2.1.elems, entry.2.2.elems)

/-- What a graph says. -/
def Knows (nodes : Nodes) (fact : Fact) : Prop :=
  ∃ entry ∈ nodes.entries, Tells (lineOf entry) fact

variable {nodes : Nodes} {fact : Fact}

theorem of_lineOf (d : Direction) (entry : Entry) :
    d.of (lineOf entry).2 = (d.of entry.2).elems := by
  cases d <;> rfl

theorem Tells.subject {line : Line} (h : Tells line fact) : line.1.key = fact.subject := by
  cases fact with
  | node k => exact h
  | edge d k k' => exact h.1

theorem knows_iff : Knows nodes fact ↔
    match fact with
    | .node k => ∃ v, nodes.find? k = some v
    | .edge d k k' => ∃ v, nodes.find? k = some v ∧ k' ∈ (d.of v).elems.map Node.key := by
  have hfind (k : String) (Q : NodeSet × NodeSet → Prop) :
      (∃ entry ∈ nodes.entries, entry.1.key = k ∧ Q entry.2) ↔
        ∃ v, nodes.find? k = some v ∧ Q v := by
    constructor
    · intro h
      obtain ⟨entry, hmem, rfl, hq⟩ := h
      exact ⟨entry.2, KeyedDict.find?_of_mem hmem, hq⟩
    · intro h
      obtain ⟨v, hv, hq⟩ := h
      obtain ⟨x, hkey, hmem⟩ := KeyedDict.find?_eq_some_iff.mp hv
      exact ⟨(x, v), hmem, hkey, hq⟩
  cases fact with
  | node k => simpa [Knows, Tells, lineOf] using hfind k fun _ => True
  | edge d k k' =>
      simp only [Knows, Tells, of_lineOf]
      exact hfind k fun v => k' ∈ (d.of v).elems.map Node.key

/-- Adding a line to a graph is a union. -/
theorem knows_add {node : Node} {preds succs : NodeSet} :
    Knows (add nodes node preds succs) fact ↔
      Knows nodes fact ∨ Tells (node, preds.elems, succs.elems) fact := by
  rw [knows_iff, knows_iff]
  cases fact with
  | node k =>
      simp only [add, KeyedDict.find?_assign, Tells]
      by_cases hk : k = node.key
      · simp [hk]
      · simp [hk, Ne.symm hk]
  | edge d k k' =>
      simp only [add, KeyedDict.find?_assign, Tells]
      by_cases hk : k = node.key
      · have hold : k' ∈ (d.of (nodes.getD node (.empty, .empty))).elems.map Node.key ↔
            ∃ v, nodes.find? node.key = some v ∧ k' ∈ (d.of v).elems.map Node.key := by
          rw [KeyedDict.getD, KeyedDict.get?]
          cases nodes.find? node.key with
          | none => cases d <;> simp [Direction.of, OrderedSet.empty]
          | some v => simp
        simp only [hk, if_true, Option.some.injEq, exists_eq_left', true_and]
        rw [← hold]
        cases d <;> exact OrderedSet.mem_keys_update
      · simp [hk, Ne.symm hk]

theorem knows_addAll (entries : List Entry) :
    Knows (entries.foldl (fun nodes e => add nodes e.1 e.2.1 e.2.2) nodes) fact ↔
      Knows nodes fact ∨ ∃ e ∈ entries, Tells (lineOf e) fact := by
  induction entries generalizing nodes with
  | nil => simp
  | cons e entries ih =>
      rw [List.foldl_cons, ih, knows_add, List.exists_mem_cons_iff, or_assoc]
      rfl

theorem tells_congr {line line' : Line} (hnode : line'.1 = line.1)
    (hsets : ∀ (d : Direction) k, k ∈ (d.of line'.2).map Node.key ↔
      k ∈ (d.of line.2).map Node.key) :
    Tells line' fact ↔ Tells line fact := by
  cases fact with
  | node k => rw [Tells, Tells, hnode]
  | edge d k k' => rw [Tells, Tells, hnode, hsets]

theorem readLines_eq (lines : List Line) :
    readLines lines = (lines.map fun line => ((line.1, .ofList Node.key line.2.1,
      .ofList Node.key line.2.2) : Entry)).foldl (fun nodes e => add nodes e.1 e.2.1 e.2.2)
        .empty := by
  rw [List.foldl_map]
  rfl

/-- The nodes that are read back say what the lines say. -/
theorem knows_readLines (lines : List Line) :
    Knows (readLines lines) fact ↔ ∃ line ∈ lines, Tells line fact := by
  have hempty : ¬Knows .empty fact := by
    intro h
    obtain ⟨entry, hmem, -⟩ := h
    exact List.not_mem_nil hmem
  have htells (line : Line) : Tells (lineOf (line.1, .ofList Node.key line.2.1,
      .ofList Node.key line.2.2)) fact ↔ Tells line fact := by
    apply tells_congr
    · rfl
    · intro d k
      cases d <;> exact OrderedSet.mem_keys_ofList
  rw [readLines_eq, knows_addAll, or_iff_right hempty]
  constructor
  · intro h
    obtain ⟨entry, hmem, hentry⟩ := h
    obtain ⟨line, hline, rfl⟩ := List.mem_map.mp hmem
    exact ⟨line, hline, (htells line).mp hentry⟩
  · intro h
    obtain ⟨line, hline, hfact⟩ := h
    exact ⟨_, List.mem_map.mpr ⟨line, hline, rfl⟩, (htells line).mpr hfact⟩

/-! ## The nodes of a client -/

/-- The nodes that a graph of a client may have, and the neighbors that its nodes may have,
by their keys. -/
structure Scope where
  nodes : Set Node
  neighbors : Direction → String → Set Node

/-- The same nodes everywhere. -/
def Scope.all (N : Set Node) : Scope := ⟨N, fun _ _ => N⟩

/-- No text of a scope has a comma. -/
structure Scope.Readable (S : Scope) : Prop where
  nodes : ∀ n ∈ S.nodes, n.CommaFree
  neighbors : ∀ d k, ∀ n ∈ S.neighbors d k, n.CommaFree

/-- All nodes of a line are in a scope. -/
def Within (S : Scope) (line : Line) : Prop :=
  line.1 ∈ S.nodes ∧ ∀ (d : Direction), ∀ n ∈ d.of line.2, n ∈ S.neighbors d line.1.key

/-- All nodes of a graph are. -/
def GraphWithin (S : Scope) (nodes : Nodes) : Prop :=
  ∀ entry ∈ nodes.entries, Within S (lineOf entry)

variable {S : Scope}

theorem GraphWithin.add {node : Node} {preds succs : NodeSet} (h : GraphWithin S nodes)
    (hline : Within S (node, preds.elems, succs.elems)) :
    GraphWithin S (add nodes node preds succs) := by
  have hold : ∀ (d : Direction), ∀ n ∈ (d.of (nodes.getD node (.empty, .empty))).elems,
      n ∈ S.neighbors d node.key := by
    intro d
    rw [KeyedDict.getD, KeyedDict.get?]
    cases hfind : nodes.find? node.key with
    | none => cases d <;> simp [Direction.of, OrderedSet.empty]
    | some v =>
        obtain ⟨x, hkey, hmem⟩ := KeyedDict.find?_eq_some_iff.mp hfind
        have hx := (h _ hmem).2 d
        rw [of_lineOf] at hx
        rw [← hkey]
        exact hx
  intro entry hentry
  rcases KeyedDict.mem_assign hentry with hmem | ⟨hvalue, hnode⟩
  · exact h entry hmem
  · have hkey : entry.1.key = node.key := hnode.elim (congrArg Node.key) And.left
    constructor
    · rcases hnode with heq | ⟨-, entry', hmem, heq⟩
      · change entry.1 ∈ S.nodes
        rw [heq]
        exact hline.1
      · change entry.1 ∈ S.nodes
        rw [← heq]
        exact (h entry' hmem).1
    · intro d n hn
      change n ∈ S.neighbors d entry.1.key
      rw [of_lineOf, hvalue] at hn
      rw [hkey]
      cases d with
      | pred =>
          exact (OrderedSet.mem_elems_update hn).elim (hold .pred n) (hline.2 .pred n)
      | succ =>
          exact (OrderedSet.mem_elems_update hn).elim (hold .succ n) (hline.2 .succ n)

theorem GraphWithin.addAll {entries : List Entry} (h : GraphWithin S nodes)
    (hentries : ∀ e ∈ entries, Within S (lineOf e)) :
    GraphWithin S
      (entries.foldl (fun nodes e => UC4AggregateGraphs.add nodes e.1 e.2.1 e.2.2) nodes) := by
  induction entries generalizing nodes with
  | nil => exact h
  | cons e entries ih =>
      rw [List.foldl_cons]
      exact ih (h.add (hentries e List.mem_cons_self))
        fun e' he' => hentries e' (List.mem_cons_of_mem _ he')

/-- What is in memory and in the files says together what was received, and every line is in
the file of its node. -/
structure Unites (hash : String → ℤ) (S : Scope) (received : List Nodes)
    (m : Option Nodes) (logs : ℕ → List Line) : Prop where
  known : ∀ fact, (∃ nodes ∈ m, Knows nodes fact) ∨
      (∃ shard, ∃ line ∈ logs shard, Tells line fact) ↔ ∃ body ∈ received, Knows body fact
  memory : ∀ nodes ∈ m, GraphWithin S nodes
  logs : ∀ shard, ∀ line ∈ logs shard, Within S line ∧ shardingHash hash line.1 = shard

variable {hash : String → ℤ} {order : NodeOrder} {threshold : ℕ} {c : UUID}
  {received : List Nodes} {logs : ℕ → List Line}

theorem unites_initial : Unites hash S [] none fun _ => [] := by
  constructor
  · simp
  · simp
  · exact fun _ _ hmem => absurd hmem List.not_mem_nil

theorem unites_spills (hS : S.Readable) :
    Spilled.Spills (lines hash order) Readable (Unites hash S received) c := by
  intro nodes logs h
  have hperm (d : Direction) (entry : Entry) :
      (d.of (order.elems entry.2.1, order.elems entry.2.2)).Perm (d.of (lineOf entry).2) := by
    cases d <;> exact order.perm _
  have hwithin : ∀ line ∈ nodes.entries.map fun e =>
      ((e.1, order.elems e.2.1, order.elems e.2.2) : Line), Within S line := by
    intro line hline
    obtain ⟨entry, hentry, rfl⟩ := List.mem_map.mp hline
    obtain ⟨hnode, hsets⟩ := h.memory nodes rfl entry hentry
    exact ⟨hnode, fun d n hn => hsets d n ((hperm d entry).mem_iff.mp hn)⟩
  have hwritten : ∀ shard line, line ∈ Spilled.written logs (lines hash order c nodes) shard ↔
      line ∈ logs shard ∨ line ∈ (nodes.entries.map fun e =>
        ((e.1, order.elems e.2.1, order.elems e.2.2) : Line)) ∧
          shardingHash hash line.1 = shard := by
    intro shard line
    rw [lines, Spilled.written_byShard, List.mem_append, List.mem_filter, decide_eq_true_eq]
  constructor
  · intro e he
    have hmem := (hwritten e.1 e.2).mp (List.mem_append_right _ (List.mem_map.mpr
      ⟨e, List.mem_filter.mpr ⟨he, by simp⟩, rfl⟩))
    have hline : Within S e.2 := hmem.elim (fun hold => (h.logs e.1 e.2 hold).1)
      fun hnew => hwithin e.2 hnew.1
    exact ⟨hS.nodes _ hline.1, fun n hn => hS.neighbors _ _ n (hline.2 .pred n hn),
      fun n hn => hS.neighbors _ _ n (hline.2 .succ n hn)⟩
  · constructor
    · intro fact
      rw [← h.known fact]
      have htells (entry : Entry) :
          Tells (entry.1, order.elems entry.2.1, order.elems entry.2.2) fact ↔
            Tells (lineOf entry) fact :=
        tells_congr rfl fun d _ => ((hperm d entry).map _).mem_iff
      simp only [hwritten, Option.mem_def, reduceCtorEq, false_and, exists_false, false_or,
        Option.some.injEq, exists_eq_left']
      constructor
      · intro hfact
        obtain ⟨shard, line, hold | ⟨hnew, -⟩, hline⟩ := hfact
        · exact Or.inr ⟨shard, line, hold, hline⟩
        · obtain ⟨entry, hentry, rfl⟩ := List.mem_map.mp hnew
          exact Or.inl ⟨entry, hentry, (htells entry).mp hline⟩
      · intro hfact
        rcases hfact with ⟨entry, hentry, hline⟩ | ⟨shard, line, hold, hline⟩
        · exact ⟨_, _, Or.inr ⟨List.mem_map.mpr ⟨entry, hentry, rfl⟩, rfl⟩,
            (htells entry).mpr hline⟩
        · exact ⟨shard, line, Or.inl hold, hline⟩
    · simp
    · intro shard line hline
      rcases (hwritten shard line).mp hline with hold | ⟨hnew, hshard⟩
      · exact h.logs shard line hold
      · exact ⟨hwithin line hnew, hshard⟩

theorem laws (hS : S.Readable) :
    (uc4AggregateGraphs hash order threshold).Laws Readable (GraphWithin S)
      (Unites hash S) c := by
  constructor
  · exact fun received => unites_spills hS
  · intro msg f hother
    change Spilled.Same c f (aggregate hash order threshold msg f)
    exact Spilled.same_absorb (Ne.symm hother)
  · intro msg f received hown hgood htracks
    subst hown
    apply htracks.absorb _ _ (unites_spills hS)
    · intro logs h
      constructor
      · intro fact
        rw [← h.known fact]
        simp [Knows, KeyedDict.empty]
      · intro nodes hnodes
        obtain rfl := Option.some.inj hnodes
        exact fun _ hmem => absurd hmem List.not_mem_nil
      · exact h.logs
    · intro nodes logs h
      constructor
      · intro fact
        simp only [List.mem_append, List.mem_singleton, Option.mem_def, Option.some.injEq,
          exists_eq_left', or_and_right, exists_or, exists_eq_left]
        rw [← h.known fact, knows_addAll]
        simp only [Option.mem_def, Option.some.injEq, exists_eq_left']
        exact or_right_comm
      · intro nodes' hnodes
        obtain rfl := Option.some.inj hnodes
        exact (h.memory nodes rfl).addAll hgood
      · exact h.logs

/-! ## What is yielded -/

/-- No two nodes have the same key. -/
def KeysDistinct (N : Set Node) : Prop := ∀ n ∈ N, ∀ n' ∈ N, n.key = n'.key → n = n'

/-- No two nodes that meet have the same key: two that have neighbors, or two neighbors of
one node. -/
structure Scope.KeysDistinct (S : Scope) : Prop where
  nodes : UC4AggregateGraphs.KeysDistinct S.nodes
  neighbors : ∀ d, ∀ n ∈ S.nodes, UC4AggregateGraphs.KeysDistinct (S.neighbors d n.key)

theorem KeysDistinct.all {N : Set Node} (h : KeysDistinct N) : (Scope.all N).KeysDistinct :=
  ⟨h, fun _ _ _ => h⟩

variable {n a : Node} {group : ℕ × Nodes}

/-- The graph of an affinity has the nodes of this affinity. -/
theorem get?_affinities (hash : String → ℤ) (nodes : Nodes) (i : ℕ) :
    ((affinities hash nodes).get? i).map KeyedDict.entries =
      if i ∈ nodes.entries.map fun e => affinity hash e.1 then
        some (nodes.entries.filter fun e => affinity hash e.1 = i)
      else none := by
  have hentries (es : List Entry) (h : (es.map fun e => e.1.key).Nodup) :
      (es.foldl (fun nodes e => nodes.assign e.1 e.2) (.empty : Nodes)).entries = es :=
    KeyedDict.entries_update (d := .empty) (by simpa using h)
  rw [affinities, Dict.get?_gather]
  split
  · rw [Option.map_some, hentries]
    exact nodes.nodup.sublist (List.filter_sublist.map _)
  · rfl

theorem entries_of_mem_affinities (h : group ∈ (affinities hash nodes).entries) :
    group.2.entries = nodes.entries.filter fun e => affinity hash e.1 = group.1 := by
  have hget := get?_affinities hash nodes group.1
  rw [Dict.get?_eq_some_iff.mpr h, Option.map_some] at hget
  split at hget
  · exact Option.some.inj hget
  · cases hget

theorem mem_yieldShard {lines : List Line} {e : Nodes × ℤ} (h : e ∈ yieldShard hash lines)
    {entry : Entry} (hentry : entry ∈ e.1.entries) :
    entry ∈ (readLines lines).entries ∧ e.2 = affinity hash entry.1 := by
  obtain ⟨group, hgroup, rfl⟩ := List.mem_map.mp h
  change entry ∈ group.2.entries at hentry
  rw [entries_of_mem_affinities hgroup, List.mem_filter, decide_eq_true_eq] at hentry
  exact ⟨hentry.1, congrArg Nat.cast hentry.2.symm⟩

/-- A node of a shard is in one of its graphs, and only one. -/
theorem countP_yieldShard {lines : List Line} (h : (readLines lines).Has n) :
    (yieldShard hash lines).countP (fun e => e.1.Has n) = 1 := by
  obtain ⟨entry, hentry, hkey⟩ := List.mem_map.mp h
  have haffinity {n' : Node} (hn' : n'.key = n.key) : affinity hash n' = affinity hash n := by
    rw [affinity, affinity, hn']
  have hget := get?_affinities hash (readLines lines) (affinity hash n)
  rw [if_pos (List.mem_map.mpr ⟨entry, hentry, haffinity hkey⟩)] at hget
  obtain ⟨graph, hgraph, hentries⟩ := Option.map_eq_some_iff.mp hget
  rw [yieldShard, List.countP_map]
  apply Dict.countP_of_unique (p := fun graph : Nodes => graph.Has n) hgraph
  · apply decide_eq_true
    rw [KeyedDict.Has, hentries]
    exact List.mem_map.mpr ⟨entry, List.mem_filter.mpr
      ⟨hentry, by simpa using haffinity hkey⟩, hkey⟩
  · intro group hgroup hhas
    rw [decide_eq_true_eq, KeyedDict.Has, entries_of_mem_affinities hgroup] at hhas
    obtain ⟨entry', hentry', hkey'⟩ := List.mem_map.mp hhas
    have hgroup' : affinity hash entry'.1 = group.1 := by
      simpa using (List.mem_filter.mp hentry').2
    rw [← hgroup', haffinity hkey']

theorem has_of_yieldShard {lines : List Line} {e : Nodes × ℤ} (h : e ∈ yieldShard hash lines)
    (hhas : e.1.Has n) : (readLines lines).Has n := by
  obtain ⟨entry, hentry, hkey⟩ := List.mem_map.mp hhas
  exact List.mem_map.mpr ⟨entry, (mem_yieldShard h hentry).1, hkey⟩

/-! ## Where keys are distinct -/

/-- All that was received of a node is in its shard. -/
theorem Unites.knows_shard (h : Unites hash S received none logs) (hkeys : S.KeysDistinct)
    (hn : n ∈ S.nodes) (hfact : fact.subject = n.key) :
    Knows (readLines (logs (shardingHash hash n))) fact ↔ ∃ body ∈ received, Knows body fact := by
  rw [knows_readLines, ← h.known fact]
  constructor
  · exact fun hline => Or.inr ⟨_, hline⟩
  · intro hknown
    obtain ⟨nodes, hnodes, -⟩ | ⟨shard, line, hline, htells⟩ := hknown
    · cases hnodes
    · obtain ⟨hwithin, hshard⟩ := h.logs shard line hline
      have heq : line.1 = n := hkeys.nodes _ hwithin.1 n hn (htells.subject.trans hfact)
      rw [heq] at hshard
      rw [hshard]
      exact ⟨line, hline, htells⟩

theorem graphWithin_readLines {lines : List Line} (h : ∀ line ∈ lines, Within S line) :
    GraphWithin S (readLines lines) := by
  rw [readLines_eq]
  apply GraphWithin.addAll (fun _ hmem => absurd hmem List.not_mem_nil)
  intro entry hentry
  obtain ⟨line, hline, rfl⟩ := List.mem_map.mp hentry
  obtain ⟨hnode, hsets⟩ := h line hline
  refine ⟨hnode, fun d n hn => hsets d n ?_⟩
  cases d <;> exact (OrderedSet.mem_elems_update hn).resolve_left List.not_mem_nil

theorem knows_edge_iff (hkeys : S.KeysDistinct) (hnodes : GraphWithin S nodes)
    (hn : n ∈ S.nodes) {d : Direction} (ha : a ∈ S.neighbors d n.key) :
    Knows nodes (.edge d n.key a.key) ↔
      ∃ entry ∈ nodes.entries, entry.1 = n ∧ a ∈ (d.of entry.2).elems := by
  apply exists_congr
  intro entry
  apply and_congr_right
  intro hentry
  obtain ⟨hnode, hsets⟩ := hnodes entry hentry
  have hsame : (lineOf entry).1.key = n.key ↔ entry.1 = n :=
    ⟨hkeys.nodes _ hnode n hn, congrArg Node.key⟩
  rw [Tells, of_lineOf, hsame]
  apply and_congr_right
  intro heq
  constructor
  · intro h
    obtain ⟨x, hx, hkey⟩ := List.mem_map.mp h
    have hxin : x ∈ S.neighbors d n.key := heq ▸ hsets d x (of_lineOf d entry ▸ hx)
    rw [← hkeys.neighbors d n hn x hxin a ha hkey]
    exact hx
  · exact fun h => List.mem_map_of_mem h

theorem knows_node_iff (hkeys : S.KeysDistinct) (hnodes : GraphWithin S nodes)
    (hn : n ∈ S.nodes) :
    Knows nodes (.node n.key) ↔ ∃ entry ∈ nodes.entries, entry.1 = n := by
  apply exists_congr
  intro entry
  apply and_congr_right
  intro hentry
  exact ⟨hkeys.nodes _ (hnodes entry hentry).1 n hn, congrArg Node.key⟩

/-- Two entries of a graph with the same node are one. -/
theorem entry_unique {entry entry' : Entry} (h : entry ∈ nodes.entries)
    (h' : entry' ∈ nodes.entries) (heq : entry'.1 = entry.1) : entry' = entry := by
  have hfind := KeyedDict.find?_of_mem h
  have hfind' := KeyedDict.find?_of_mem h'
  rw [heq, hfind] at hfind'
  exact Prod.ext heq (Option.some.inj hfind').symm

/-- The nodes that are read from a shard belong there. -/
theorem Unites.shard_of_entry (h : Unites hash S received none logs) (hkeys : S.KeysDistinct)
    {shard : ℕ} {entry : Entry} (hentry : entry ∈ (readLines (logs shard)).entries) :
    entry.1 ∈ S.nodes ∧ shardingHash hash entry.1 = shard := by
  have hwithin := graphWithin_readLines fun line hline => (h.logs shard line hline).1
  have hnode := (hwithin entry hentry).1
  have hknows : Knows (readLines (logs shard)) (.node entry.1.key) := ⟨entry, hentry, rfl⟩
  obtain ⟨line, hline, hkey⟩ := (knows_readLines _).mp hknows
  obtain ⟨hline', hshard⟩ := h.logs shard line hline
  rw [hkeys.nodes _ hline'.1 _ hnode hkey] at hshard
  exact ⟨hnode, hshard⟩

/-- What is yielded of the shards has every node once. -/
theorem Unites.countP_shards (h : Unites hash S received none logs) (hkeys : S.KeysDistinct)
    {shards : List ℕ} (hnodup : shards.Nodup) {entry : Entry} {shard : ℕ}
    (hshard : shard ∈ shards) (hentry : entry ∈ (readLines (logs shard)).entries) :
    ((shards.map logs).flatMap (yieldShard hash)).countP (fun e => e.1.Has entry.1) = 1 := by
  obtain ⟨hnode, hplace⟩ := h.shard_of_entry hkeys hentry
  rw [List.flatMap_map, List.countP_flatMap_of_unique hnodup hshard,
    countP_yieldShard (List.mem_map_of_mem hentry)]
  intro shard' _ hne e he hhas
  obtain ⟨entry', hentry', hkey⟩ := List.mem_map.mp
    (has_of_yieldShard he (by simpa using hhas))
  obtain ⟨hnode', hplace'⟩ := h.shard_of_entry hkeys hentry'
  rw [hkeys.nodes _ hnode' _ hnode hkey] at hplace'
  exact hne (hplace'.symm.trans hplace)

/-- The nodes of some messages, and their neighbors. -/
def scopeOf (received : List Nodes) : Scope where
  nodes := {n | ∃ body ∈ received, ∃ entry ∈ body.entries, entry.1 = n}
  neighbors d k := {a | ∃ body ∈ received, ∃ entry ∈ body.entries,
    entry.1.key = k ∧ a ∈ (d.of entry.2).elems}

theorem graphWithin_scopeOf {body : Nodes} (h : body ∈ received) :
    GraphWithin (scopeOf received) body := by
  intro entry hentry
  constructor
  · exact ⟨body, h, entry, hentry, rfl⟩
  · intro d n hn
    exact ⟨body, h, entry, hentry, rfl, of_lineOf d entry ▸ hn⟩

theorem nodes_scopeOf_subset : (scopeOf received).nodes ⊆ nodesOf received := by
  intro n hn
  obtain ⟨body, hbody, entry, hentry, rfl⟩ := hn
  exact ⟨body, hbody, entry, hentry, Or.inl rfl⟩

theorem neighbors_scopeOf_subset (d : Direction) (k : String) :
    (scopeOf received).neighbors d k ⊆ nodesOf received := by
  intro a ha
  obtain ⟨body, hbody, entry, hentry, -, ha⟩ := ha
  refine ⟨body, hbody, entry, hentry, Or.inr ?_⟩
  cases d with
  | pred => exact Or.inl ha
  | succ => exact Or.inr ha

/-- Where all nodes have different keys, those that meet have. -/
theorem keysDistinct_scopeOf (h : KeysDistinct (nodesOf received)) :
    (scopeOf received).KeysDistinct where
  nodes n hn n' hn' := h n (nodes_scopeOf_subset hn) n' (nodes_scopeOf_subset hn')
  neighbors d _ _ a ha a' ha' :=
    h a (neighbors_scopeOf_subset d _ ha) a' (neighbors_scopeOf_subset d _ ha')

/-- The sets that are read from a shard are the unions of those that were received. -/
theorem Unites.mem_set_iff (h : Unites hash S received none logs) (hkeys : S.KeysDistinct)
    (hbodies : ∀ body ∈ received, GraphWithin S body) {shard : ℕ} {entry : Entry}
    (hentry : entry ∈ (readLines (logs shard)).entries) (d : Direction) (a : Node) :
    a ∈ (d.of entry.2).elems ↔ ∃ body ∈ received, ∃ entry' ∈ body.entries,
      entry'.1 = entry.1 ∧ a ∈ (d.of entry'.2).elems := by
  have hwithin := graphWithin_readLines fun line hline => (h.logs shard line hline).1
  obtain ⟨hnode, hplace⟩ := h.shard_of_entry hkeys hentry
  have hknows : Knows (readLines (logs (shardingHash hash entry.1)))
      (.edge d entry.1.key a.key) ↔ ∃ body ∈ received,
        Knows body (.edge d entry.1.key a.key) := h.knows_shard hkeys hnode rfl
  rw [hplace] at hknows
  constructor
  · intro ha
    have hain : a ∈ S.neighbors d entry.1.key :=
      (hwithin entry hentry).2 d a (of_lineOf d entry ▸ ha)
    obtain ⟨body, hbody, hedge⟩ := hknows.mp
      ((knows_edge_iff hkeys hwithin hnode hain).mpr ⟨entry, hentry, rfl, ha⟩)
    exact ⟨body, hbody, (knows_edge_iff hkeys (hbodies body hbody) hnode hain).mp hedge⟩
  · intro hreceived
    obtain ⟨body, hbody, entry', hentry', heq, ha⟩ := hreceived
    have hain : a ∈ S.neighbors d entry.1.key :=
      heq ▸ (hbodies body hbody entry' hentry').2 d a (of_lineOf d entry' ▸ ha)
    have hedge := hknows.mpr ⟨body, hbody,
      (knows_edge_iff hkeys (hbodies body hbody) hnode hain).mpr ⟨entry', hentry', heq, ha⟩⟩
    obtain ⟨found, hfound, heq', ha'⟩ := (knows_edge_iff hkeys hwithin hnode hain).mp hedge
    rw [← entry_unique hentry hfound heq']
    exact ha'

/-- Every run brings the files in a state from which the result is built. -/
theorem unites_run (hash : String → ℤ) (order : NodeOrder) (threshold : ℕ)
    (steps : List (NodeOrder × SpillFn.Step Nodes)) (hkeeps : ∀ s ∈ steps, s.2.Keeps c)
    (hreadable : ∀ n ∈ nodesOf (SpillFn.bodies c (steps.map Prod.snd)), n.CommaFree) :
    ∃ (logs : ℕ → List Line) (shards : List ℕ),
      Unites hash (scopeOf (SpillFn.bodies c (steps.map Prod.snd)))
        (SpillFn.bodies c (steps.map Prod.snd)) none logs ∧ shards.Nodup ∧
      (∀ shard ∉ shards, logs shard = []) ∧
      ((uc4AggregateGraphs hash order threshold).getResult c (SpillFn.runAll
        (steps.map fun s => (uc4AggregateGraphs hash s.1 threshold, s.2)))).1 =
        (shards.map logs).flatMap (yieldShard hash) := by
  have hscope : (scopeOf (SpillFn.bodies c (steps.map Prod.snd))).Readable :=
    ⟨fun n hn => hreadable n (nodes_scopeOf_subset hn),
      fun d k n hn => hreadable n (neighbors_scopeOf_subset d k hn)⟩
  have hlaws (order : NodeOrder) : (uc4AggregateGraphs hash order threshold).Laws Readable
      (GraphWithin (scopeOf (SpillFn.bodies c (steps.map Prod.snd))))
      (Unites hash (scopeOf (SpillFn.bodies c (steps.map Prod.snd)))) c := laws hscope
  exact SpillFn.yielded_family hlaws (faithful c) unites_initial order steps hkeeps
    fun body hbody => graphWithin_scopeOf hbody

section Yielded

variable {shards : List ℕ}

theorem exists_shard_of_mem {e : Nodes × ℤ}
    (he : e ∈ (shards.map logs).flatMap (yieldShard hash)) :
    ∃ shard ∈ shards, e ∈ yieldShard hash (logs shard) := by
  rw [List.flatMap_map] at he
  exact List.mem_flatMap.mp he

/-- What is yielded of the shards has the nodes that were received. -/
theorem Unites.nodes_iff (h : Unites hash S received none logs) (hkeys : S.KeysDistinct)
    (hbodies : ∀ body ∈ received, GraphWithin S body) (hnodup : shards.Nodup)
    (hempty : ∀ shard ∉ shards, logs shard = []) (n : Node) :
    (∃ e ∈ (shards.map logs).flatMap (yieldShard hash), ∃ entry ∈ e.1.entries, entry.1 = n) ↔
      ∃ body ∈ received, ∃ entry ∈ body.entries, entry.1 = n := by
  have hwithin (shard : ℕ) : GraphWithin S (readLines (logs shard)) :=
    graphWithin_readLines fun line hline => (h.logs shard line hline).1
  constructor
  · intro hyielded
    obtain ⟨e, he, entry, hentry, rfl⟩ := hyielded
    obtain ⟨shard, -, he⟩ := exists_shard_of_mem he
    have hmem := (mem_yieldShard he hentry).1
    obtain ⟨hnode, hplace⟩ := h.shard_of_entry hkeys hmem
    have hknows : Knows (readLines (logs shard)) (.node entry.1.key) := ⟨entry, hmem, rfl⟩
    rw [← hplace, h.knows_shard hkeys hnode rfl] at hknows
    obtain ⟨body, hbody, hknows⟩ := hknows
    exact ⟨body, hbody, (knows_node_iff hkeys (hbodies body hbody) hnode).mp hknows⟩
  · intro hreceived
    obtain ⟨body, hbody, entry, hentry, rfl⟩ := hreceived
    have hnode : entry.1 ∈ S.nodes := (hbodies body hbody entry hentry).1
    have hknows := (h.knows_shard hkeys hnode rfl).mpr
      ⟨body, hbody, (⟨entry, hentry, rfl⟩ : Knows body (.node entry.1.key))⟩
    obtain ⟨entry', hmem, heq⟩ := (knows_node_iff hkeys (hwithin _) hnode).mp hknows
    have hlisted : shardingHash hash entry.1 ∈ shards := by
      by_contra hnot
      rw [hempty _ hnot] at hmem
      exact List.not_mem_nil hmem
    have hcount := h.countP_shards hkeys hnodup hlisted hmem
    rw [heq] at hcount
    obtain ⟨e, he, hhas⟩ := List.countP_pos_iff.mp (hcount ▸ Nat.one_pos)
    obtain ⟨found, hfound, hkey⟩ := List.mem_map.mp (of_decide_eq_true hhas)
    obtain ⟨shard, -, hshard⟩ := exists_shard_of_mem he
    have hfound' := (hwithin shard found (mem_yieldShard hshard hfound).1).1
    exact ⟨e, he, found, hfound, hkeys.nodes _ hfound' _ hnode hkey⟩

/-- Every node is yielded once, with the union of the sets that were received. -/
theorem Unites.of_entry (h : Unites hash S received none logs) (hkeys : S.KeysDistinct)
    (hbodies : ∀ body ∈ received, GraphWithin S body) (hnodup : shards.Nodup)
    {e : Nodes × ℤ} (he : e ∈ (shards.map logs).flatMap (yieldShard hash)) {entry : Entry}
    (hentry : entry ∈ e.1.entries) :
    ((shards.map logs).flatMap (yieldShard hash)).countP (fun e => e.1.Has entry.1) = 1 ∧
      e.2 = affinity hash entry.1 ∧
      ∀ (d : Direction) a, a ∈ (d.of entry.2).elems ↔
        ∃ body ∈ received, ∃ entry' ∈ body.entries,
          entry'.1 = entry.1 ∧ a ∈ (d.of entry'.2).elems := by
  obtain ⟨shard, hshard, he⟩ := exists_shard_of_mem he
  obtain ⟨hmem, haffinity⟩ := mem_yieldShard he hentry
  exact ⟨h.countP_shards hkeys hnodup hshard hmem, haffinity, h.mem_set_iff hkeys hbodies hmem⟩

end Yielded

/-- What is yielded has every node that was received, each once, with all predecessors and
successors that were received for it. -/
structure IsUnion (hash : String → ℤ) (received : List Nodes) (yielded : List (Nodes × ℤ)) :
    Prop where
  nodes : ∀ n, (∃ e ∈ yielded, ∃ entry ∈ e.1.entries, entry.1 = n) ↔
    ∃ body ∈ received, ∃ entry ∈ body.entries, entry.1 = n
  once : ∀ e ∈ yielded, ∀ entry ∈ e.1.entries, yielded.countP (fun e => e.1.Has entry.1) = 1
  shard : ∀ e ∈ yielded, ∀ entry ∈ e.1.entries, e.2 = affinity hash entry.1
  sets : ∀ e ∈ yielded, ∀ entry ∈ e.1.entries, ∀ (d : Direction) a,
    a ∈ (d.of entry.2).elems ↔ ∃ body ∈ received, ∃ entry' ∈ body.entries,
      entry'.1 = entry.1 ∧ a ∈ (d.of entry'.2).elems

/-- Every run ends in the union, where no two nodes that meet have the same key. -/
theorem isUnion_run (hash : String → ℤ) (order : NodeOrder) (threshold : ℕ) (c : UUID)
    (steps : List (NodeOrder × SpillFn.Step Nodes)) (hkeeps : ∀ s ∈ steps, s.2.Keeps c)
    (hreadable : ∀ n ∈ nodesOf (SpillFn.bodies c (steps.map Prod.snd)), n.CommaFree)
    (hkeys : (scopeOf (SpillFn.bodies c (steps.map Prod.snd))).KeysDistinct) :
    IsUnion hash (SpillFn.bodies c (steps.map Prod.snd))
      ((uc4AggregateGraphs hash order threshold).getResult c (SpillFn.runAll
        (steps.map fun s => (uc4AggregateGraphs hash s.1 threshold, s.2)))).1 := by
  obtain ⟨logs, shards, hunites, hnodup, hempty, hyielded⟩ :=
    unites_run hash order threshold steps hkeeps hreadable
  have hbodies : ∀ body ∈ SpillFn.bodies c (steps.map Prod.snd), GraphWithin (scopeOf _) body :=
    fun body hbody => graphWithin_scopeOf hbody
  rw [hyielded]
  have hentries {e : Nodes × ℤ} (he : e ∈ (shards.map logs).flatMap (yieldShard hash))
      {entry : Entry} (hentry : entry ∈ e.1.entries) :=
    hunites.of_entry hkeys hbodies hnodup he hentry
  constructor
  · exact hunites.nodes_iff hkeys hbodies hnodup hempty
  · exact fun e he entry hentry => (hentries he hentry).1
  · exact fun e he entry hentry => (hentries he hentry).2.1
  · exact fun e he entry hentry => (hentries he hentry).2.2

/-- Of a union, no two nodes that meet have the same key. -/
theorem IsUnion.keysDistinct {yielded : List (Nodes × ℤ)} (h : IsUnion hash received yielded) :
    (scopeOf received).KeysDistinct := by
  have hnodes : KeysDistinct (scopeOf received).nodes := by
    intro n hn n' hn' hkey
    obtain ⟨e, he, entry, hentry, rfl⟩ := (h.nodes n).mpr hn
    obtain ⟨e', he', entry', hentry', rfl⟩ := (h.nodes n').mpr hn'
    have hhas : e'.1.Has entry.1 := List.mem_map.mpr ⟨entry', hentry', hkey.symm⟩
    have heq : e' = e := List.eq_of_countP_eq_one (h.once e he entry hentry)
      he' (decide_eq_true hhas) he (decide_eq_true (List.mem_map_of_mem hentry))
    exact congrArg Prod.fst (List.inj_on_of_nodup_map e.1.nodup hentry (heq ▸ hentry') hkey)
  refine ⟨hnodes, ?_⟩
  intro d n hn a ha a' ha' hkey
  obtain ⟨e, he, entry, hentry, rfl⟩ := (h.nodes n).mpr hn
  have hset {a : Node} (ha : a ∈ (scopeOf received).neighbors d entry.1.key) :
      a ∈ (d.of entry.2).elems := by
    obtain ⟨body, hbody, entry', hentry', hkey', ha⟩ := ha
    have hsame := hnodes entry'.1 ⟨body, hbody, entry', hentry', rfl⟩ entry.1 hn hkey'
    exact (h.sets e he entry hentry d a).mpr ⟨body, hbody, entry', hentry', hsame, ha⟩
  exact List.inj_on_of_nodup_map (d.of entry.2).nodup (hset ha) (hset ha') hkey

/-- A run ends in the union of what was received if and only if no two nodes that meet have
the same key. -/
theorem union_exact (hash : String → ℤ) (order : NodeOrder) (threshold : ℕ) (c : UUID)
    (steps : List (NodeOrder × SpillFn.Step Nodes)) (hkeeps : ∀ s ∈ steps, s.2.Keeps c)
    (hreadable : ∀ n ∈ nodesOf (SpillFn.bodies c (steps.map Prod.snd)), n.CommaFree) :
    IsUnion hash (SpillFn.bodies c (steps.map Prod.snd))
      ((uc4AggregateGraphs hash order threshold).getResult c (SpillFn.runAll
        (steps.map fun s => (uc4AggregateGraphs hash s.1 threshold, s.2)))).1 ↔
      (scopeOf (SpillFn.bodies c (steps.map Prod.snd))).KeysDistinct := by
  constructor
  · exact IsUnion.keysDistinct
  · exact isUnion_run hash order threshold c steps hkeeps hreadable

/-- Sets are gone through as they were filled. -/
def asInserted : NodeOrder := .inserted Node.key

/-- Account `m` with one predecessor and one successor. -/
def oneNode : DataMsg Nodes :=
  ⟨7, 1, 1, KeyedDict.empty.assign ⟨"1", "m"⟩
    (.ofList Node.key [⟨"1", "a"⟩], .ofList Node.key [⟨"1", "b"⟩])⟩

/-- It comes twice, with a spill and a restart in between. -/
theorem union_exact_oneNode :
    ∃ e ∈ ((uc4AggregateGraphs (fun s => s.length) asInserted 100).getResult 7 (SpillFn.runAll
      ([(asInserted, .input oneNode), (asInserted, .restart fun _ _ => 0),
        (asInserted, .input oneNode)].map fun s : NodeOrder × SpillFn.Step Nodes =>
          (uc4AggregateGraphs (fun s => s.length) s.1 100, s.2)))).1,
      ∃ entry ∈ e.1.entries, entry.1 = ⟨"1", "m"⟩ := by
  have hnodes : ∀ n ∈ nodesOf [oneNode.body, oneNode.body],
      n ∈ [(⟨"1", "m"⟩ : Node), ⟨"1", "a"⟩, ⟨"1", "b"⟩] := by
    intro n hn
    obtain ⟨body, hbody, entry, hentry, h⟩ := hn
    have heq : body = oneNode.body := by simpa using hbody
    rw [heq] at hentry
    rw [List.mem_singleton.mp hentry] at h
    simpa [OrderedSet.ofList, OrderedSet.update, OrderedSet.add, OrderedSet.Mem,
      OrderedSet.empty] using h
  have hdistinct : KeysDistinct (nodesOf [oneNode.body, oneNode.body]) := by
    intro n hn n' hn' hkey
    have hall : ∀ n ∈ [(⟨"1", "m"⟩ : Node), ⟨"1", "a"⟩, ⟨"1", "b"⟩],
        ∀ n' ∈ [(⟨"1", "m"⟩ : Node), ⟨"1", "a"⟩, ⟨"1", "b"⟩], n.key = n'.key → n = n' := by
      decide
    exact hall n (hnodes n hn) n' (hnodes n' hn') hkey
  have hexact := union_exact (fun s => s.length) asInserted 100 7
    [(asInserted, .input oneNode), (asInserted, .restart fun _ _ => 0),
      (asInserted, .input oneNode)]
    (by simp [SpillFn.Step.Keeps])
    (by
      intro n hn
      have hall : ∀ n ∈ [(⟨"1", "m"⟩ : Node), ⟨"1", "a"⟩, ⟨"1", "b"⟩], n.CommaFree := by decide
      exact hall n (hnodes n hn))
  have hunion := hexact.mpr (keysDistinct_scopeOf hdistinct)
  exact (hunion.nodes ⟨"1", "m"⟩).mpr
    ⟨oneNode.body, List.mem_cons_self, _, List.mem_cons_self, rfl⟩

/-- The length of the bank, as a hash. -/
def bankLength (s : String) : ℤ := (s.toList.takeWhile (· ≠ ',')).length

/-- Account `12` of bank `1` with one successor. -/
def firstAccount : DataMsg Nodes :=
  ⟨7, 1, 1, KeyedDict.empty.assign ⟨"1", "12"⟩ (.empty, .ofList Node.key [⟨"3", "c"⟩])⟩

/-- Account `2` of bank `11`, which has the same key. -/
def secondAccount : DataMsg Nodes :=
  ⟨7, 1, 2, KeyedDict.empty.assign ⟨"11", "2"⟩ (.empty, .ofList Node.key [⟨"4", "d"⟩])⟩

/-- With a snapshot between them they are in two shards: two graphs have a node that is
equal to either.  Without one the second account is nowhere. -/
theorem not_union_sameKey :
    (Node.mk "1" "12").CommaFree ∧ (Node.mk "11" "2").CommaFree ∧
    ((uc4AggregateGraphs bankLength asInserted 100).getResult 7
      ((uc4AggregateGraphs bankLength asInserted 100).run
        [.input firstAccount, .snapshot, .input secondAccount])).1.countP
      (fun e => e.1.Has ⟨"1", "12"⟩) = 2 ∧
    ((uc4AggregateGraphs bankLength asInserted 100).getResult 7
      ((uc4AggregateGraphs bankLength asInserted 100).run
        [.input firstAccount, .input secondAccount])).1.countP
      (fun e => e.1.entries.any fun entry => entry.1 = ⟨"11", "2"⟩) = 0 := by
  constructor
  · decide
  constructor
  · decide
  constructor
  · have hshards : (Spilled.spillToDisk codec (lines bankLength asInserted) 7
        ((uc4AggregateGraphs bankLength asInserted 100).run
          [.input firstAccount, .snapshot, .input secondAccount])).spill.shardsOf 7 = [1, 2] :=
      MultiShardSpill.shardsOf_eq (by decide +kernel) (by decide)
    rw [SpillFn.getResult_fst]
    change ((uc4AggregateGraphs bankLength asInserted 100).yields 7 (Spilled.readShards codec 7
      ((Spilled.spillToDisk codec (lines bankLength asInserted) 7 _).spill.shardsOf 7) _).1).countP
        _ = _
    rw [hshards]
    decide +kernel
  · have hshards : (Spilled.spillToDisk codec (lines bankLength asInserted) 7
        ((uc4AggregateGraphs bankLength asInserted 100).run
          [.input firstAccount, .input secondAccount])).spill.shardsOf 7 = [1] :=
      MultiShardSpill.shardsOf_eq (by decide +kernel) (by decide)
    rw [SpillFn.getResult_fst]
    change ((uc4AggregateGraphs bankLength asInserted 100).yields 7 (Spilled.readShards codec 7
      ((Spilled.spillToDisk codec (lines bankLength asInserted) 7 _).spill.shardsOf 7) _).1).countP
        _ = _
    rw [hshards]
    decide +kernel

end UC4AggregateGraphs

end GraphSrc
