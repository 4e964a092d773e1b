import MoneyLaundering.Aggregate.Spilled
import MoneyLaundering.Messages.GraphSrc
import MoneyLaundering.Messages.Values
import MoneyLaundering.Support.Sums

/-!
# Counting paths

`UC4CountPaths` counts, for every pair of accounts, the nodes that lie between them.  A hub
makes millions of pairs of one message, so the counts are spilled while a message is being
handled.  However they are spilled, the counts of what is yielded add up to the number of
nodes that were received between the two, as long as no two pairs have the same key.
-/

namespace GraphSrc

open Messages (uuidStr uuidOfStr uuidOfStr_uuidStr)

instance : Inhabited Node := ⟨⟨"", ""⟩⟩

instance : Inhabited Path := ⟨⟨default, default⟩⟩

/-- `str(path)`. -/
def Path.str (path : Path) : String := path.origin.str ++ "_" ++ path.destination.str

/-- The two nodes of a path are equal to `a` and `b`. -/
def Path.Joins (path : Path) (a b : Node) : Prop :=
  path.origin.key = a.key ∧ path.destination.key = b.key

instance (path : Path) (a b : Node) : Decidable (path.Joins a b) :=
  inferInstanceAs (Decidable (_ ∧ _))

theorem Path.Joins.key_eq {path : Path} {a b : Node} (h : path.Joins a b) :
    path.key = (Path.mk a b).key := by
  rw [Path.key, Path.key, h.1, h.2]

/-- A number for each path. -/
abbrev PathTable : Type := KeyedDict Path.key ℕ

/-! ## Lines -/

namespace PathTable

/-- `node.fields()`. -/
def nodeFields (node : Node) : Json := .list [.str node.bank.toList, .str node.account.toList]

/-- `_fields` of a `PathMsg`. -/
def fields (clientId : UUID) (entry : Path × ℕ) : Json :=
  .list [.str (uuidStr clientId).toList,
    .list [nodeFields entry.1.origin, nodeFields entry.1.destination],
    .num (.ofNat entry.2)]

/-- `_from_fields` of a `PathMsg`: the path and the count. -/
def ofFields : Json → Option (Path × ℕ)
  | .list [.str clientId,
      .list [.list [.str obank, .str oaccount], .list [.str dbank, .str daccount]],
      .num count] =>
    (uuidOfStr (String.ofList clientId)).map fun _ =>
      (⟨⟨String.ofList obank, String.ofList oaccount⟩,
        ⟨String.ofList dbank, String.ofList daccount⟩⟩, count.toNat)
  | _ => none

/-- `_serialize` and `_deserialize`. -/
def codec (clientId : UUID) : LineCodec (Path × ℕ) := .json (fields clientId) ofFields

theorem faithful (clientId : UUID) : (codec clientId).Faithful fun _ => True := by
  apply LineCodec.json_faithful
  intro entry _
  simp [fields, nodeFields, ofFields, uuidOfStr_uuidStr]

/-- `_sharding_hash`, of `SHARDING_FILES` files. -/
def shardingHash (hash : String → ℤ) (shardingFiles : ℕ) (path : Path) (clientId : UUID) : ℕ :=
  (hash (uuidStr clientId ++ "_" ++ path.str) % shardingFiles).toNat

/-- What `_spill_to_disk` writes. -/
def lines (hash : String → ℤ) (shardingFiles : ℕ) (clientId : UUID) (paths : PathTable) :
    List (ℕ × (Path × ℕ)) :=
  Spilled.byShard (fun e => shardingHash hash shardingFiles e.1 clientId) paths.entries

/-- What is in memory. -/
def held (m : Option PathTable) : List (Path × ℕ) := (m.map KeyedDict.entries).getD []

/-- The counts in memory and in the files add up to some totals, and every line is in the file
of its path. -/
structure Kept (hash : String → ℤ) (shardingFiles : ℕ) (clientId : UUID) (total : String → ℕ)
    (Ok : Path × ℕ → Prop) (m : Option PathTable) (logs : ℕ → List (Path × ℕ)) : Prop where
  total : ∀ k, KeyedDict.sumAt Path.key k (held m) +
      ∑ shard ∈ Finset.range shardingFiles, KeyedDict.sumAt Path.key k (logs shard) = total k
  memory : ∀ e ∈ held m, Ok e
  logs : ∀ shard, ∀ e ∈ logs shard,
    Ok e ∧ shardingHash hash shardingFiles e.1 clientId = shard

section Kept

theorem shardingHash_lt (hash : String → ℤ) (c : UUID) {shardingFiles : ℕ}
    (hpos : 0 < shardingFiles) (path : Path) :
    shardingHash hash shardingFiles path c < shardingFiles := by
  have hlt := Int.emod_lt_of_pos (hash (uuidStr c ++ "_" ++ path.str))
    (Int.natCast_pos.mpr hpos)
  unfold shardingHash
  omega

variable {hash : String → ℤ} {shardingFiles : ℕ} {c : UUID} {total : String → ℕ}
  {Ok : Path × ℕ → Prop} {m : Option PathTable} {logs : ℕ → List (Path × ℕ)}

theorem Kept.spills (hpos : 0 < shardingFiles) :
    Spilled.Spills (lines hash shardingFiles) (fun _ => True)
      (Kept hash shardingFiles c total Ok) c := by
  intro m logs h
  refine ⟨fun _ _ => trivial, ?_⟩
  constructor
  · intro k
    have hwritten (shard : ℕ) : KeyedDict.sumAt Path.key k (Spilled.written logs
        (lines hash shardingFiles c m) shard) =
          KeyedDict.sumAt Path.key k (logs shard) + KeyedDict.sumAt Path.key k
            (m.entries.filter fun e => shardingHash hash shardingFiles e.1 c = shard) := by
      rw [lines, Spilled.written_byShard, KeyedDict.sumAt_append]
    simp only [hwritten]
    rw [Finset.sum_add_distrib,
      KeyedDict.sum_sumAt_filter fun e _ => shardingHash_lt hash c hpos e.1, ← h.total k]
    simp [held, KeyedDict.sumAt_nil, Nat.add_comm]
  · exact fun e he => absurd he List.not_mem_nil
  · intro shard e he
    rw [lines, Spilled.written_byShard] at he
    rcases List.mem_append.mp he with hold | hnew
    · exact h.logs shard e hold
    · obtain ⟨hmem, hshard⟩ := List.mem_filter.mp hnew
      exact ⟨h.memory e hmem, by simpa using hshard⟩

theorem Kept.eq_nil (h : Kept hash shardingFiles c total Ok m logs) (hpos : 0 < shardingFiles)
    {shard : ℕ} (hshard : shardingFiles ≤ shard) : logs shard = [] := by
  rw [List.eq_nil_iff_forall_not_mem]
  intro e he
  have hlt := shardingHash_lt hash c hpos e.1
  rw [(h.logs shard e he).2] at hlt
  omega

/-- After a spill the files have all of it. -/
theorem Kept.sum_shards (h : Kept hash shardingFiles c total Ok none logs)
    (hpos : 0 < shardingFiles) {shards : List ℕ} (hnodup : shards.Nodup)
    (hempty : ∀ shard ∉ shards, logs shard = []) (k : String) :
    (shards.map fun shard => KeyedDict.sumAt Path.key k (logs shard)).sum = total k := by
  have htotal := h.total k
  rw [held, Option.map_none, Option.getD_none, KeyedDict.sumAt_nil, Nat.zero_add] at htotal
  rw [← htotal]
  exact KeyedDict.sum_listed hnodup hempty fun shard => h.eq_nil hpos

end Kept

end PathTable

/-! ## The function -/

namespace UC4CountPaths

/-- `SHARDING_FILES` and `AFFINITY_SHARDS`. -/
def shardingFiles : ℕ := 500

def affinityShards : ℕ := 10

/-- While a message is handled: the state, the dictionary to which the name `paths` is
bound, and whether this is the dictionary that is stored under the client. -/
structure Loop where
  state : Spilled PathTable
  paths : PathTable
  stored : Bool

namespace Loop

variable (hash : String → ℤ) (threshold : ℕ) (clientId : UUID)

/-- `paths = self._paths[client_id]`. -/
def bind (state : Spilled PathTable) : Loop :=
  ⟨state, state.memory.getD clientId .empty, true⟩

/-- Change the dictionary `paths`. -/
def mutate (g : PathTable → PathTable) (s : Loop) : Loop :=
  { s with
    state := if s.stored then s.state.put clientId (g s.paths) else s.state
    paths := g s.paths }

/-- Count one pair. -/
def count (a : Node) (s : Loop) (c : Node) : Loop :=
  if a.key = c.key then s else mutate clientId (fun paths => paths.bump ⟨a, c⟩ 1) s

/-- `_spill_to_disk` takes the stored dictionary out. -/
def spillToDisk (s : Loop) : Loop :=
  { s with
    state := s.state.spillToDisk PathTable.codec (PathTable.lines hash shardingFiles) clientId
    stored := false }

/-- `self._paths[client_id] = {}`, and `paths` is bound to it. -/
def renew (s : Loop) : Loop := bind clientId (s.state.put clientId .empty)

/-- Count the pairs of one predecessor. -/
def predecessor (succs : NodeSet) (s : Loop) (a : Node) : Loop :=
  let s := succs.elems.foldl (count clientId a) s
  if threshold ≤ s.paths.size then renew clientId (spillToDisk hash clientId s) else s

/-- Count the pairs of one node. -/
def node (s : Loop) (entry : Entry) : Loop :=
  entry.2.1.elems.foldl (predecessor hash threshold clientId entry.2.2) s

end Loop

variable (hash : String → ℤ) (threshold : ℕ)

/-- The loop over the nodes of a message. -/
def handle (msg : DataMsg Nodes) (f : Spilled PathTable) : Loop :=
  msg.body.entries.foldl (Loop.node hash threshold msg.clientId)
    (.bind msg.clientId (f.ensure msg.clientId .empty))

/-- `aggregate`. -/
def aggregate (msg : DataMsg Nodes) (f : Spilled PathTable) : Spilled PathTable :=
  let s := handle hash threshold msg f
  if threshold ≤ s.paths.size then (s.spillToDisk hash msg.clientId).state else s.state

/-- `hash(path) % AFFINITY_SHARDS`. -/
def affinity (path : Path) : ℕ := (hash path.key % affinityShards).toNat

/-- The paths of a table by their affinity. -/
def affinities (paths : PathTable) : Dict ℕ PathTable :=
  .gather (fun e => affinity hash e.1) .empty (fun d e => d.bump e.1 e.2) paths.entries

/-- What is yielded of the lines of one shard. -/
def yieldShard (entries : List (Path × ℕ)) : List (PathTable × ℤ) :=
  (affinities hash (KeyedDict.empty.bumpAll entries)).entries.map fun e => (e.2, (e.1 : ℤ))

end UC4CountPaths

/-- `UC4CountPaths`. -/
def uc4CountPaths (hash : String → ℤ) (threshold : ℕ) :
    SpillFn PathTable.codec PathTable Nodes PathTable where
  lines := PathTable.lines hash UC4CountPaths.shardingFiles
  aggregate := UC4CountPaths.aggregate hash threshold
  yields _ shards := shards.flatMap (UC4CountPaths.yieldShard hash)

namespace UC4CountPaths

/-! ## What was received -/

/-- The pairs that a node lies between. -/
def pairsOf (entry : Entry) : List Path :=
  entry.2.1.elems.flatMap fun a =>
    entry.2.2.elems.flatMap fun c => if a.key = c.key then [] else [⟨a, c⟩]

/-- The pairs of some messages, once for every node between them. -/
def pairs (received : List Nodes) : List Path :=
  received.flatMap fun body => body.entries.flatMap pairsOf

open PathTable (held Kept)

variable {hash : String → ℤ} {threshold : ℕ}

/-- The counts in memory and in the files are those of some pairs, and every line is in the
file of its path. -/
structure Counted (hash : String → ℤ) (clientId : UUID) (pairs : List Path)
    (m : Option PathTable) (logs : ℕ → List (Path × ℕ)) : Prop where
  total : ∀ k, KeyedDict.sumAt Path.key k (held m) +
      ∑ shard ∈ Finset.range shardingFiles, KeyedDict.sumAt Path.key k (logs shard) =
    pairs.countP fun path => path.key = k
  memory : ∀ e ∈ held m, 0 < e.2 ∧ e.1 ∈ pairs
  logs : ∀ shard, ∀ e ∈ logs shard, 0 < e.2 ∧ e.1 ∈ pairs ∧
    PathTable.shardingHash hash shardingFiles e.1 clientId = shard

theorem shardingFiles_pos : 0 < shardingFiles := by decide

variable {c : UUID} {ps : List Path}

theorem counted_initial : Counted hash c [] none fun _ => [] := by
  constructor
  · intro k
    simp [held, KeyedDict.sumAt_nil]
  · exact fun e he => absurd he List.not_mem_nil
  · exact fun _ e he => absurd he List.not_mem_nil

theorem counted_iff {m : Option PathTable} {logs : ℕ → List (Path × ℕ)} :
    Counted hash c ps m logs ↔
      Kept hash shardingFiles c (fun k => ps.countP fun path => path.key = k)
        (fun e => 0 < e.2 ∧ e.1 ∈ ps) m logs := by
  constructor
  · exact fun h => ⟨h.total, h.memory, fun shard e he => and_assoc.mpr (h.logs shard e he)⟩
  · exact fun h => ⟨h.total, h.memory, fun shard e he => and_assoc.mp (h.logs shard e he)⟩

theorem counted_spills :
    Spilled.Spills (PathTable.lines hash shardingFiles) (fun _ => True)
      (Counted hash c ps) c := by
  intro m logs h
  have hspills := Kept.spills shardingFiles_pos m logs (counted_iff.mp h)
  exact ⟨hspills.1, counted_iff.mpr hspills.2⟩

theorem Counted.bump {m : PathTable} {logs : ℕ → List (Path × ℕ)}
    (h : Counted hash c ps (some m) logs) (path : Path) :
    Counted hash c (ps ++ [path]) (some (m.bump path 1)) logs := by
  constructor
  · intro k
    have htotal := h.total k
    have hheld (m : PathTable) : held (some m) = m.entries := rfl
    rw [hheld] at htotal ⊢
    rw [KeyedDict.sumAt_bump, List.countP_append, List.countP_singleton, ← htotal]
    simp only [decide_eq_true_eq]
    omega
  · intro e he
    rcases KeyedDict.mem_bump he with hmem | ⟨hle, hpath | ⟨e', he', heq⟩⟩
    · exact (h.memory e hmem).imp id (List.mem_append_left _)
    · exact ⟨hle, List.mem_append_right _ (by simp [hpath])⟩
    · exact ⟨hle, List.mem_append_left _ (heq ▸ (h.memory e' he').2)⟩
  · intro shard e he
    obtain ⟨hpos, hmem, hshard⟩ := h.logs shard e he
    exact ⟨hpos, List.mem_append_left _ hmem, hshard⟩

theorem Counted.empty {logs : ℕ → List (Path × ℕ)} (h : Counted hash c ps none logs) :
    Counted hash c ps (some .empty) logs :=
  ⟨h.total, h.memory, h.logs⟩

/-! ## Handling a message -/

namespace Loop

/-- `paths` is the dictionary that is stored, and the counts are those of some pairs. -/
structure Counts (hash : String → ℤ) (clientId : UUID) (ps : List Path) (s : Loop) : Prop where
  stored : s.stored = true
  bound : s.state.memory.get? clientId = some s.paths
  tracks : Spilled.Tracks PathTable.codec (fun _ => True) (Counted hash clientId ps) clientId
    s.state

variable {s : Loop} {x : UUID}

theorem counts_bind {state : Spilled PathTable} {paths : PathTable}
    (hbound : state.memory.get? c = some paths)
    (h : Spilled.Tracks PathTable.codec (fun _ => True) (Counted hash c ps) c state) :
    Counts hash c ps (bind c state) := by
  refine ⟨rfl, ?_, h⟩
  rw [bind, Dict.getD, hbound]
  rfl

theorem Counts.count (h : Counts hash c ps s) (a b : Node) :
    Counts hash c (ps ++ if a.key = b.key then [] else [⟨a, b⟩]) (count c a s b) := by
  unfold Loop.count
  by_cases hkey : a.key = b.key
  · rw [if_pos hkey, if_pos hkey, List.append_nil]
    exact h
  · rw [if_neg hkey, if_neg hkey]
    have hstate : (mutate c (fun paths => paths.bump ⟨a, b⟩ 1) s).state =
        s.state.put c (s.paths.bump ⟨a, b⟩ 1) := if_pos h.stored
    obtain ⟨logs, hholds, hcounted⟩ := h.tracks
    rw [h.bound] at hcounted
    constructor
    · exact h.stored
    · rw [hstate]
      exact Dict.get?_set_self _ _ _
    · rw [hstate]
      refine ⟨logs, hholds, ?_⟩
      rw [Spilled.put, Dict.get?_set_self]
      exact hcounted.bump ⟨a, b⟩

theorem Counts.foldl {X : Type} {op : Loop → X → Loop} {g : X → List Path}
    (hop : ∀ s ps x, Counts hash c ps s → Counts hash c (ps ++ g x) (op s x))
    (h : Counts hash c ps s) (xs : List X) :
    Counts hash c (ps ++ xs.flatMap g) (xs.foldl op s) := by
  induction xs generalizing s ps with
  | nil =>
      rw [List.flatMap_nil, List.append_nil]
      exact h
  | cons x xs ih =>
      rw [List.flatMap_cons, ← List.append_assoc]
      exact ih (hop s ps x h)

theorem tracks_spillToDisk
    (h : Spilled.Tracks PathTable.codec (fun _ => True) (Counted hash c ps) c s.state) :
    Spilled.Tracks PathTable.codec (fun _ => True) (Counted hash c ps) c
      (spillToDisk hash c s).state :=
  h.spillToDisk counted_spills

/-- After a spill the name is bound to a new dictionary, which is stored. -/
theorem Counts.renew (h : Counts hash c ps s) :
    Counts hash c ps (renew c (spillToDisk hash c s)) := by
  apply counts_bind (Dict.get?_set_self _ _ _)
  apply (tracks_spillToDisk h.tracks).put
  intro logs hcounted
  rw [spillToDisk, Spilled.get?_spillToDisk_self] at hcounted
  exact hcounted.empty

theorem Counts.node (h : Counts hash c ps s) (entry : Entry) :
    Counts hash c (ps ++ pairsOf entry) (node hash threshold c s entry) := by
  apply Counts.foldl _ h
  intro s ps a hs
  have hcounted : Counts hash c (ps ++ entry.2.2.elems.flatMap fun b =>
      if a.key = b.key then [] else [⟨a, b⟩]) (entry.2.2.elems.foldl (Loop.count c a) s) :=
    Counts.foldl (fun s ps b hs => hs.count a b) hs _
  unfold predecessor
  dsimp only
  split
  · exact hcounted.renew
  · exact hcounted

/-! Other clients -/

theorem same_count (h : x ≠ c) (a b : Node) : Spilled.Same x s.state (count c a s b).state := by
  unfold count
  split
  · exact .refl x _
  · unfold mutate
    dsimp only
    split
    · exact Spilled.same_put _ h
    · exact .refl x _

theorem same_foldl {X : Type} {op : Loop → X → Loop}
    (hop : ∀ s y, Spilled.Same x s.state (op s y).state) (ys : List X) :
    Spilled.Same x s.state (ys.foldl op s).state := by
  induction ys generalizing s with
  | nil => exact .refl x _
  | cons y ys ih => exact (hop s y).trans ih

theorem same_spillToDisk (h : x ≠ c) :
    Spilled.Same x s.state (spillToDisk hash c s).state :=
  Spilled.same_spillToDisk h

theorem same_node (h : x ≠ c) (entry : Entry) :
    Spilled.Same x s.state (node hash threshold c s entry).state := by
  apply same_foldl
  intro s a
  have hcount : Spilled.Same x s.state (entry.2.2.elems.foldl (count c a) s).state :=
    same_foldl (fun s b => same_count h a b) _
  unfold predecessor
  dsimp only
  split
  · exact (hcount.trans (same_spillToDisk h)).trans (Spilled.same_put _ h)
  · exact hcount

end Loop

/-! ## Runs -/

theorem pairs_append (received : List Nodes) (body : Nodes) :
    pairs (received ++ [body]) = pairs received ++ body.entries.flatMap pairsOf := by
  simp [pairs]

theorem same_handle {x : UUID} {f : Spilled PathTable} {msg : DataMsg Nodes}
    (h : x ≠ msg.clientId) : Spilled.Same x f (handle hash threshold msg f).state := by
  apply (Spilled.same_ensure .empty h).trans
  exact Loop.same_foldl (s := .bind msg.clientId _) (fun s entry => Loop.same_node h entry) _

theorem counts_handle {f : Spilled PathTable} {msg : DataMsg Nodes}
    (h : Spilled.Tracks PathTable.codec (fun _ => True) (Counted hash msg.clientId ps)
      msg.clientId f) :
    Loop.Counts hash msg.clientId (ps ++ msg.body.entries.flatMap pairsOf)
      (handle hash threshold msg f) := by
  obtain ⟨paths, hbound, htracks⟩ := h.ensure fun logs hcounted => hcounted.empty
  exact Loop.Counts.foldl (fun s ps entry hs => hs.node entry)
    (Loop.counts_bind hbound htracks) _

theorem laws : (uc4CountPaths hash threshold).Laws (fun _ => True) (fun _ => True)
    (fun received => Counted hash c (pairs received)) c := by
  constructor
  · exact fun received => counted_spills
  · intro msg f hother
    have hsame : Spilled.Same c f (handle hash threshold msg f).state :=
      same_handle (Ne.symm hother)
    change Spilled.Same c f (aggregate hash threshold msg f)
    unfold aggregate
    dsimp only
    split
    · exact hsame.trans (Loop.same_spillToDisk (Ne.symm hother))
    · exact hsame
  · intro msg f received hown _ htracks
    subst hown
    have hcounts : Loop.Counts hash msg.clientId (pairs (received ++ [msg.body]))
        (handle hash threshold msg f) := by
      rw [pairs_append]
      exact counts_handle htracks
    change Spilled.Tracks _ _ _ _ (aggregate hash threshold msg f)
    unfold aggregate
    dsimp only
    split
    · exact Loop.tracks_spillToDisk hcounts.tracks
    · exact hcounts.tracks

/-! ## What is yielded -/

/-- What the tables that are yielded have for a path, added up. -/
def yieldedCount (yielded : List (PathTable × ℤ)) (path : Path) : ℕ :=
  (yielded.map fun e => e.1.getD path 0).sum

/-- The nodes of some messages between two accounts. -/
def between (received : List Nodes) (a b : Node) : ℕ :=
  (received.flatMap KeyedDict.entries).countP fun entry =>
    entry.2.1.Mem a ∧ entry.2.2.Mem b

/-- Different pairs of some accounts have different keys. -/
def PathKeysDistinct (accounts : List Node) : Prop :=
  ∀ a ∈ accounts, ∀ b ∈ accounts, ∀ a' ∈ accounts, ∀ b' ∈ accounts,
    a.key ≠ b.key → a'.key ≠ b'.key →
      (Path.mk a b).key = (Path.mk a' b').key → a = a' ∧ b = b'

/-- The predecessors and successors of some messages. -/
def neighbours (received : List Nodes) : List Node :=
  (received.flatMap KeyedDict.entries).flatMap fun entry =>
    entry.2.1.elems ++ entry.2.2.elems

variable {es : List (Path × ℕ)} {path : Path}

theorem yieldedCount_yieldShard :
    yieldedCount (yieldShard hash es) path = KeyedDict.sumAt Path.key path.key es := by
  have hadd (d : PathTable) (e : Path × ℕ) :
      KeyedDict.sumAt Path.key path.key (d.bump e.1 e.2).entries =
        KeyedDict.sumAt Path.key path.key d.entries +
          if e.1.key = path.key then e.2 else 0 :=
    KeyedDict.sumAt_bump
  have hempty : KeyedDict.sumAt Path.key path.key (.empty : PathTable).entries = 0 := rfl
  have htotal : Dict.total (fun d : PathTable => KeyedDict.sumAt Path.key path.key d.entries)
      (affinities hash (KeyedDict.empty.bumpAll es)) =
        ((KeyedDict.empty.bumpAll es : PathTable).entries.map fun e =>
          if e.1.key = path.key then e.2 else 0).sum :=
    Dict.total_gather (fun d : PathTable => KeyedDict.sumAt Path.key path.key d.entries)
      hempty hadd _
  rw [← KeyedDict.sumAt_eq_sum_map, KeyedDict.sumAt_bumpAll, KeyedDict.entries_empty,
    KeyedDict.sumAt_nil, Nat.zero_add] at htotal
  rw [← htotal, yieldedCount, yieldShard, List.map_map, Dict.total]
  simp only [KeyedDict.sumAt_entries, Function.comp_def]

theorem get?_affinities (hash : String → ℤ) (paths : PathTable) (i : ℕ) :
    (affinities hash paths).get? i =
      if i ∈ paths.entries.map fun e => affinity hash e.1 then
        some (KeyedDict.empty.bumpAll (paths.entries.filter fun e => affinity hash e.1 = i))
      else none :=
  Dict.get?_gather _ _ _ _ _

/-- The table of an affinity has the paths of this affinity. -/
theorem eq_of_mem_affinities {paths : PathTable} {group : ℕ × PathTable}
    (h : group ∈ (affinities hash paths).entries) :
    group.2 = KeyedDict.empty.bumpAll
      (paths.entries.filter fun e => affinity hash e.1 = group.1) := by
  have hget := Dict.get?_eq_some_iff.mpr h
  rw [get?_affinities] at hget
  split at hget
  · exact (Option.some.inj hget).symm
  · cases hget

theorem mem_entries_of_yieldShard (hpos : ∀ e ∈ es, 0 < e.2) {e : PathTable × ℤ}
    (h : e ∈ yieldShard hash es) {entry : Path × ℕ} (hentry : entry ∈ e.1.entries) :
    0 < entry.2 ∧ e.2 = affinity hash entry.1 ∧ ∃ line ∈ es, line.1 = entry.1 := by
  obtain ⟨group, hgroup, rfl⟩ := List.mem_map.mp h
  have hsum : ∀ e ∈ (KeyedDict.empty.bumpAll es : PathTable).entries,
      0 < e.2 ∧ ∃ e' ∈ es, e'.1 = e.1 :=
    fun e he => KeyedDict.mem_bumpAll he hpos fun _ hmem => absurd hmem List.not_mem_nil
  change entry ∈ group.2.entries at hentry
  rw [eq_of_mem_affinities hgroup] at hentry
  obtain ⟨hpos', e', he', heq⟩ := KeyedDict.mem_bumpAll hentry
    (fun e he => (hsum e (List.mem_of_mem_filter he)).1)
    fun _ hmem => absurd hmem List.not_mem_nil
  obtain ⟨hmem, haffinity⟩ := List.mem_filter.mp he'
  obtain ⟨-, line, hline, hpath⟩ := hsum e' hmem
  refine ⟨hpos', ?_, line, hline, hpath.trans heq⟩
  rw [← heq]
  exact congrArg Nat.cast (by simpa using haffinity : affinity hash e'.1 = group.1).symm

theorem affinity_congr {path' : Path} (h : path'.key = path.key) :
    affinity hash path' = affinity hash path := by
  rw [affinity, affinity, h]

/-- A path of a shard is in one of its tables, and only one. -/
theorem countP_yieldShard (hpath : ∃ e ∈ es, e.1.key = path.key) :
    (yieldShard hash es).countP (fun e => e.1.Has path) = 1 := by
  have hhas : (KeyedDict.empty.bumpAll es : PathTable).Has path :=
    KeyedDict.has_bumpAll.mpr (Or.inr hpath)
  obtain ⟨e, he, hkey⟩ := List.mem_map.mp hhas
  have hget := get?_affinities hash (KeyedDict.empty.bumpAll es) (affinity hash path)
  rw [if_pos (List.mem_map.mpr ⟨e, he, affinity_congr hkey⟩)] at hget
  rw [yieldShard, List.countP_map]
  apply Dict.countP_of_unique (p := fun table : PathTable => table.Has path) hget
  · apply decide_eq_true
    apply KeyedDict.has_bumpAll.mpr
    exact Or.inr ⟨e, List.mem_filter.mpr ⟨he, by simpa using affinity_congr hkey⟩, hkey⟩
  · intro group hgroup hhas'
    rw [decide_eq_true_eq, eq_of_mem_affinities hgroup, KeyedDict.has_bumpAll] at hhas'
    obtain ⟨e', he', hkey'⟩ := hhas'.resolve_left List.not_mem_nil
    have haffinity : affinity hash e'.1 = group.1 := by simpa using (List.mem_filter.mp he').2
    rw [affinity_congr hkey'] at haffinity
    exact haffinity.symm

/-- A table has the paths of its shard only. -/
theorem exists_of_has {e : PathTable × ℤ} (h : e ∈ yieldShard hash es)
    (hhas : e.1.Has path) : ∃ line ∈ es, line.1.key = path.key := by
  obtain ⟨group, hgroup, rfl⟩ := List.mem_map.mp h
  change group.2.Has path at hhas
  rw [eq_of_mem_affinities hgroup, KeyedDict.has_bumpAll] at hhas
  obtain ⟨entry, hentry, hkey⟩ := hhas.resolve_left List.not_mem_nil
  have hsum : (KeyedDict.empty.bumpAll es : PathTable).Has path :=
    List.mem_map.mpr ⟨entry, List.mem_of_mem_filter hentry, hkey⟩
  exact (KeyedDict.has_bumpAll.mp hsum).resolve_left List.not_mem_nil

variable {shards : List ℕ} {logs : ℕ → List (Path × ℕ)}

/-- A path that is in one shard only is in one table. -/
theorem countP_shards (hnodup : shards.Nodup) {shard : ℕ} (hshard : shard ∈ shards)
    (hpath : ∃ e ∈ logs shard, e.1.key = path.key)
    (honly : ∀ shard', ∀ e ∈ logs shard', e.1.key = path.key → shard' = shard) :
    ((shards.map logs).flatMap (yieldShard hash)).countP (fun e => e.1.Has path) = 1 := by
  rw [List.flatMap_map, List.countP_flatMap_of_unique hnodup hshard, countP_yieldShard hpath]
  intro shard' _ hne e he hhas
  obtain ⟨line, hline, hkey⟩ := exists_of_has he (by simpa using hhas)
  exact hne (honly shard' line hline hkey)

/-! ## Pairs and the nodes between them -/

theorem mem_pairsOf {entry : Entry} :
    path ∈ pairsOf entry ↔ path.origin ∈ entry.2.1.elems ∧
      path.destination ∈ entry.2.2.elems ∧ path.origin.key ≠ path.destination.key := by
  rw [pairsOf, List.mem_flatMap]
  constructor
  · intro h
    obtain ⟨a, ha, hmem⟩ := h
    obtain ⟨b, hb, hpath⟩ := List.mem_flatMap.mp hmem
    split at hpath
    · exact absurd hpath List.not_mem_nil
    · rename_i hkey
      rw [List.mem_singleton.mp hpath]
      exact ⟨ha, hb, hkey⟩
  · intro h
    obtain ⟨ha, hb, hkey⟩ := h
    refine ⟨path.origin, ha, List.mem_flatMap.mpr ⟨path.destination, hb, ?_⟩⟩
    rw [if_neg hkey]
    exact List.mem_singleton.mpr rfl

variable {accounts : List Node} {received : List Nodes} {a b : Node}

theorem neighbours_of_mem {entry : Entry}
    (hentry : entry ∈ received.flatMap KeyedDict.entries) {node : Node}
    (hnode : node ∈ entry.2.1.elems ∨ node ∈ entry.2.2.elems) : node ∈ neighbours received :=
  List.mem_flatMap.mpr ⟨entry, hentry, List.mem_append.mpr hnode⟩

theorem mem_pairs (h : path ∈ pairs received) :
    path.origin ∈ neighbours received ∧ path.destination ∈ neighbours received ∧
      path.origin.key ≠ path.destination.key := by
  obtain ⟨body, hbody, hmem⟩ := List.mem_flatMap.mp h
  obtain ⟨entry, hentry, hpair⟩ := List.mem_flatMap.mp hmem
  obtain ⟨ho, hd, hkey⟩ := mem_pairsOf.mp hpair
  have hreceived : entry ∈ received.flatMap KeyedDict.entries :=
    List.mem_flatMap.mpr ⟨body, hbody, hentry⟩
  exact ⟨neighbours_of_mem hreceived (Or.inl ho), neighbours_of_mem hreceived (Or.inr hd), hkey⟩

/-- The pairs of a node are those of its two sets, without an account and itself. -/
theorem pairsOf_eq_filter (entry : Entry) :
    pairsOf entry = (entry.2.1.elems.flatMap fun a => entry.2.2.elems.map (Path.mk a)).filter
      fun p => p.origin.key ≠ p.destination.key := by
  rw [pairsOf, List.filter_flatMap]
  congr 1
  funext a
  induction entry.2.2.elems with
  | nil => rfl
  | cons c succs ih =>
      rw [List.flatMap_cons, ih, List.map_cons, List.filter_cons]
      by_cases hkey : a.key = c.key <;> simp [hkey]

/-- A node has one pair of two accounts that it lies between. -/
theorem countP_pairsOf_joins (hkey : a.key ≠ b.key) (entry : Entry) :
    (pairsOf entry).countP (fun p => p.Joins a b) =
      if entry.2.1.Mem a ∧ entry.2.2.Mem b then 1 else 0 := by
  have hside (s : NodeSet) (x : Node) :
      s.elems.countP (fun y => y.key = x.key) = if s.Mem x then 1 else 0 := by
    have hcount := List.Nodup.count s.nodup (a := x.key)
    rw [List.count, List.countP_map] at hcount
    exact hcount
  have hjoins (p : Path) : decide (p.Joins a b) = (decide (p.Joins a b) &&
      decide (p.origin.key ≠ p.destination.key)) := by
    by_cases h : p.Joins a b
    · simp [h, h.1, h.2, hkey]
    · simp [h]
  calc (pairsOf entry).countP (fun p => p.Joins a b)
      = (entry.2.1.elems.flatMap fun x => entry.2.2.elems.map (Path.mk x)).countP
          fun p => p.Joins a b := by
        rw [pairsOf_eq_filter, List.countP_filter]
        exact List.countP_congr fun p _ => by rw [← hjoins]
    _ = entry.2.1.elems.countP (fun x => x.key = a.key) *
          entry.2.2.elems.countP (fun y => y.key = b.key) :=
        List.countP_flatMap_map fun x y => Bool.decide_and _ _
    _ = if entry.2.1.Mem a ∧ entry.2.2.Mem b then 1 else 0 := by
        rw [hside, hside]
        by_cases ha : entry.2.1.Mem a <;> by_cases hb : entry.2.2.Mem b <;> simp [ha, hb]

theorem countP_pairs_joins (hkey : a.key ≠ b.key) :
    (pairs received).countP (fun p => p.Joins a b) = between received a b := by
  have hpairs : pairs received = (received.flatMap KeyedDict.entries).flatMap pairsOf := by
    rw [pairs, List.flatMap_assoc]
  rw [hpairs, between]
  induction received.flatMap KeyedDict.entries with
  | nil => rfl
  | cons entry entries ih =>
      rw [List.flatMap_cons, List.countP_append, countP_pairsOf_joins hkey, ih,
        List.countP_cons, Nat.add_comm]
      simp only [decide_eq_true_eq]

/-- The pairs with the key of two accounts are as many as the nodes between the two if and only
if no other pair has this key. -/
theorem countP_pairs_eq_iff (hkey : a.key ≠ b.key) :
    (pairs received).countP (fun p => p.key = (Path.mk a b).key) = between received a b ↔
      ∀ p ∈ pairs received, p.key = (Path.mk a b).key → p.Joins a b := by
  have hsplit := List.countP_eq_countP_filter_add (pairs received)
    (fun p => p.key = (Path.mk a b).key) fun p => p.Joins a b
  have hjoins : ((pairs received).filter fun p => p.Joins a b).countP
      (fun p => p.key = (Path.mk a b).key) = between received a b := by
    rw [← countP_pairs_joins hkey, List.countP_filter]
    refine List.countP_congr fun p _ => ?_
    simpa using Path.Joins.key_eq
  rw [hsplit, hjoins, Nat.add_eq_left, List.countP_eq_zero]
  simp only [List.mem_filter, and_imp, decide_eq_true_eq, Bool.not_eq_true',
    decide_eq_false_iff_not]
  exact forall₂_congr fun p _ => not_imp_not

/-- A pair that was received has a node between its accounts. -/
theorem between_pos (h : path ∈ pairs received) :
    0 < between received path.origin path.destination := by
  rw [← countP_pairs_joins (mem_pairs h).2.2, List.countP_pos_iff]
  exact ⟨path, h, decide_eq_true ⟨rfl, rfl⟩⟩

/-- No pair that was received has the key of another pair of some accounts. -/
def PairsApart (accounts : List Node) (received : List Nodes) : Prop :=
  ∀ p ∈ pairs received, ∀ a ∈ accounts, ∀ b ∈ accounts, a.key ≠ b.key →
    p.key = (Path.mk a b).key → p.Joins a b

theorem PathKeysDistinct.path_eq (h : PathKeysDistinct accounts)
    (hall : ∀ node ∈ neighbours received, node ∈ accounts) (hpath : path ∈ pairs received)
    (ha : a ∈ accounts) (hb : b ∈ accounts) (hkey : a.key ≠ b.key)
    (heq : path.key = (Path.mk a b).key) : path = ⟨a, b⟩ := by
  obtain ⟨ho, hd, hne⟩ := mem_pairs hpath
  obtain ⟨horigin, hdestination⟩ := h _ (hall _ ho) _ (hall _ hd) a ha b hb hne hkey heq
  cases path
  cases horigin
  cases hdestination
  rfl

theorem PathKeysDistinct.pairsApart (h : PathKeysDistinct accounts)
    (hall : ∀ node ∈ neighbours received, node ∈ accounts) : PairsApart accounts received := by
  intro p hp a ha b hb hkey heq
  rw [h.path_eq hall hp ha hb hkey heq]
  exact ⟨rfl, rfl⟩

/-! ## The result of a run -/

/-- What is yielded of all shards. -/
theorem yieldedCount_flatMap :
    yieldedCount ((shards.map logs).flatMap (yieldShard hash)) path =
      (shards.map fun shard => KeyedDict.sumAt Path.key path.key (logs shard)).sum := by
  induction shards with
  | nil => rfl
  | cons shard shards ih =>
      have happend (xs ys : List (PathTable × ℤ)) :
          yieldedCount (xs ++ ys) path = yieldedCount xs path + yieldedCount ys path := by
        rw [yieldedCount, List.map_append, List.sum_append, yieldedCount, yieldedCount]
      rw [List.map_cons, List.flatMap_cons, happend, ih, yieldedCount_yieldShard,
        List.map_cons, List.sum_cons]

/-- The steps of a run count the pairs that they bring, however they are spilled. -/
theorem counted_run (hash : String → ℤ) (threshold : ℕ) (steps : List (SpillFn.Step Nodes))
    (hkeeps : ∀ s ∈ steps, s.Keeps c) :
    ∃ (logs : ℕ → List (Path × ℕ)) (shards : List ℕ),
      Counted hash c (pairs (SpillFn.bodies c steps)) none logs ∧ shards.Nodup ∧
      (∀ shard ∉ shards, logs shard = []) ∧
      ((uc4CountPaths hash threshold).getResult c ((uc4CountPaths hash threshold).run steps)).1 =
        (shards.map logs).flatMap (yieldShard hash) := by
  have hlaws : (uc4CountPaths hash threshold).Laws (fun _ => True) (fun _ => True)
      (fun received => Counted hash c (pairs received)) c := laws
  exact SpillFn.yielded_run hlaws (PathTable.faithful c) counted_initial steps hkeeps
    fun _ _ => trivial

/-- What is yielded for a path adds up to the number of its pairs. -/
theorem yieldedCount_run (hash : String → ℤ) (threshold : ℕ)
    (steps : List (SpillFn.Step Nodes)) (hkeeps : ∀ s ∈ steps, s.Keeps c) (path : Path) :
    yieldedCount ((uc4CountPaths hash threshold).getResult c
        ((uc4CountPaths hash threshold).run steps)).1 path =
      (pairs (SpillFn.bodies c steps)).countP fun p => p.key = path.key := by
  obtain ⟨logs, shards, hcounted, hnodup, hempty, hyielded⟩ :=
    counted_run hash threshold steps hkeeps
  rw [hyielded, yieldedCount_flatMap]
  exact (counted_iff.mp hcounted).sum_shards shardingFiles_pos hnodup hempty path.key

/-- This is the number of nodes between two accounts if and only if no other pair has their
key. -/
theorem yieldedCount_eq_between_iff (hash : String → ℤ) (threshold : ℕ)
    {steps : List (SpillFn.Step Nodes)} (hkeeps : ∀ s ∈ steps, s.Keeps c) (hkey : a.key ≠ b.key) :
    yieldedCount ((uc4CountPaths hash threshold).getResult c
        ((uc4CountPaths hash threshold).run steps)).1 ⟨a, b⟩ =
          between (SpillFn.bodies c steps) a b ↔
      ∀ p ∈ pairs (SpillFn.bodies c steps), p.key = (Path.mk a b).key → p.Joins a b := by
  rw [yieldedCount_run hash threshold steps hkeeps]
  exact countP_pairs_eq_iff hkey

/-- A path that is yielded has a pair, and its table the affinity of the path. -/
theorem entry_run (hash : String → ℤ) (threshold : ℕ) (steps : List (SpillFn.Step Nodes))
    (hkeeps : ∀ s ∈ steps, s.Keeps c) :
    ∀ e ∈ ((uc4CountPaths hash threshold).getResult c
        ((uc4CountPaths hash threshold).run steps)).1, ∀ entry ∈ e.1.entries,
      0 < entry.2 ∧ entry.1 ∈ pairs (SpillFn.bodies c steps) ∧
        e.2 = affinity hash entry.1 := by
  obtain ⟨logs, shards, hcounted, -, -, hyielded⟩ := counted_run hash threshold steps hkeeps
  intro e he entry hmem
  rw [hyielded] at he
  obtain ⟨lines, hlines, he⟩ := List.mem_flatMap.mp he
  obtain ⟨shard, -, rfl⟩ := List.mem_map.mp hlines
  obtain ⟨hpos, haffinity, line, hline, hpath⟩ := mem_entries_of_yieldShard
    (fun e he => (hcounted.logs shard e he).1) he hmem
  exact ⟨hpos, hpath ▸ (hcounted.logs shard line hline).2.1, haffinity⟩

/-- Where keys are distinct, the path of two accounts is in one table if a node lies between
them, and in none otherwise. -/
theorem countP_has_run (hash : String → ℤ) (threshold : ℕ) {steps : List (SpillFn.Step Nodes)}
    (hkeeps : ∀ s ∈ steps, s.Keeps c)
    (hall : ∀ node ∈ neighbours (SpillFn.bodies c steps), node ∈ accounts)
    (hdistinct : PathKeysDistinct accounts) (ha : a ∈ accounts) (hb : b ∈ accounts)
    (hkey : a.key ≠ b.key) :
    ((uc4CountPaths hash threshold).getResult c ((uc4CountPaths hash threshold).run
      steps)).1.countP (fun e => e.1.Has ⟨a, b⟩) =
        if 0 < between (SpillFn.bodies c steps) a b then 1 else 0 := by
  obtain ⟨logs, shards, hcounted, hnodup, hempty, hyielded⟩ :=
    counted_run hash threshold steps hkeeps
  have hbetween := (countP_pairs_eq_iff hkey).mpr fun p hp =>
    hdistinct.pairsApart hall p hp a ha b hb hkey
  have hvalue {e : Path × ℕ} {shard : ℕ} (he : e ∈ logs shard)
      (hpath : e.1.key = (Path.mk a b).key) :
      shard = PathTable.shardingHash hash shardingFiles ⟨a, b⟩ c := by
    obtain ⟨-, hpair, hshard⟩ := hcounted.logs shard e he
    rw [← hshard, hdistinct.path_eq hall hpair ha hb hkey hpath]
  rw [hyielded]
  split
  · rename_i hpos
    have htotal := hcounted.total (Path.mk a b).key
    rw [hbetween, held, Option.map_none, Option.getD_none, KeyedDict.sumAt_nil,
      Nat.zero_add] at htotal
    obtain ⟨shard, -, hne⟩ := Finset.exists_ne_zero_of_sum_ne_zero (htotal ▸ hpos.ne')
    obtain ⟨e, he, hpath⟩ := KeyedDict.mem_keys_of_sumAt_pos (Nat.pos_of_ne_zero hne)
    have hshard : shard ∈ shards := by
      by_contra hnot
      rw [hempty shard hnot] at he
      exact List.not_mem_nil he
    apply countP_shards hnodup hshard ⟨e, he, hpath⟩
    intro shard' e' he' hpath'
    rw [hvalue he' hpath', hvalue he hpath]
  · rename_i hzero
    rw [List.countP_eq_zero]
    intro e he hhas
    obtain ⟨lines, hlines, he⟩ := List.mem_flatMap.mp he
    obtain ⟨shard, -, rfl⟩ := List.mem_map.mp hlines
    obtain ⟨line, hline, hpath⟩ := exists_of_has he (by simpa using hhas)
    apply hzero
    rw [← hbetween, List.countP_pos_iff]
    exact ⟨line.1, (hcounted.logs shard line hline).2.1, by simpa using hpath⟩

/-- What is yielded counts, for every two accounts, the nodes that were received between them.
A path that is yielded is one that a node lies between, its table has the affinity of the path,
and where keys are distinct there is one such table. -/
structure CountsNodes (hash : String → ℤ) (accounts : List Node) (received : List Nodes)
    (yielded : List (PathTable × ℤ)) : Prop where
  count : ∀ a ∈ accounts, ∀ b ∈ accounts, a.key ≠ b.key →
    yieldedCount yielded ⟨a, b⟩ = between received a b
  positive : ∀ e ∈ yielded, ∀ entry ∈ e.1.entries,
    0 < entry.2 ∧ 0 < between received entry.1.origin entry.1.destination
  affinity : ∀ e ∈ yielded, ∀ entry ∈ e.1.entries, e.2 = affinity hash entry.1
  once : PathKeysDistinct accounts → ∀ a ∈ accounts, ∀ b ∈ accounts, a.key ≠ b.key →
    yielded.countP (fun e => e.1.Has ⟨a, b⟩) = if 0 < between received a b then 1 else 0

/-- Counting does not depend on spilling: however the messages are mixed with those of other
clients, snapshots and restarts, the nodes between two accounts are counted, if and only if no
pair that was received has the key of another one. -/
theorem result_exact_iff (hash : String → ℤ) (threshold : ℕ) (c : UUID)
    (steps : List (SpillFn.Step Nodes)) (hkeeps : ∀ s ∈ steps, s.Keeps c)
    (accounts : List Node)
    (hall : ∀ node ∈ neighbours (SpillFn.bodies c steps), node ∈ accounts) :
    CountsNodes hash accounts (SpillFn.bodies c steps)
        ((uc4CountPaths hash threshold).getResult c
          ((uc4CountPaths hash threshold).run steps)).1 ↔
      PairsApart accounts (SpillFn.bodies c steps) := by
  have hentries := entry_run hash threshold steps hkeeps
  constructor
  · intro h p hp a ha b hb hkey
    exact (yieldedCount_eq_between_iff hash threshold hkeeps hkey).mp
      (h.count a ha b hb hkey) p hp
  · intro hapart
    constructor
    · intro a ha b hb hkey
      exact (yieldedCount_eq_between_iff hash threshold hkeeps hkey).mpr
        fun p hp => hapart p hp a ha b hb hkey
    · intro e he entry hentry
      obtain ⟨hpos, hpair, -⟩ := hentries e he entry hentry
      exact ⟨hpos, between_pos hpair⟩
    · exact fun e he entry hentry => (hentries e he entry hentry).2.2
    · exact fun hdistinct a ha b hb hkey =>
        countP_has_run hash threshold hkeeps hall hdistinct ha hb hkey

/-- A node between two accounts. -/
def oneBetween (seq : ℕ) (node a b : Node) : DataMsg Nodes :=
  ⟨7, 1, seq, KeyedDict.empty.assign node (.ofList Node.key [a], .ofList Node.key [b])⟩

/-- Accounts `m` and `n` between accounts `a` and `b`, with a spill and a restart in between. -/
def twoBetween : List (SpillFn.Step Nodes) :=
  [.input (oneBetween 1 ⟨"1", "m"⟩ ⟨"1", "a"⟩ ⟨"1", "b"⟩), .snapshot, .restart fun _ _ => 0,
    .input (oneBetween 2 ⟨"1", "n"⟩ ⟨"1", "a"⟩ ⟨"1", "b"⟩)]

theorem result_exact_iff_twoBetween :
    yieldedCount ((uc4CountPaths (fun s => s.length) 1).getResult 7
      ((uc4CountPaths (fun s => s.length) 1).run twoBetween)).1
        ⟨⟨"1", "a"⟩, ⟨"1", "b"⟩⟩ = 2 := by
  have hcounts := (result_exact_iff (fun s => s.length) 1 7 twoBetween
    (by simp [twoBetween, SpillFn.Step.Keeps]) [⟨"1", "a"⟩, ⟨"1", "b"⟩] (by decide)).mpr
      (by unfold PairsApart; decide)
  rw [hcounts.count ⟨"1", "a"⟩ (by decide) ⟨"1", "b"⟩ (by decide) (by decide)]
  decide

/-- Account `m` from account `1` of bank `1` to account `2` of bank `11`, and account `n` from
account `11` of bank `1` to account `2` of bank `1`. -/
def sameKey : List (SpillFn.Step Nodes) :=
  [.input (oneBetween 1 ⟨"1", "m"⟩ ⟨"1", "1"⟩ ⟨"11", "2"⟩),
    .input (oneBetween 2 ⟨"1", "n"⟩ ⟨"1", "11"⟩ ⟨"1", "2"⟩)]

/-- The two pairs have one key, so each of them gets the number of both. -/
theorem not_countsNodes_sameKey :
    let yielded := ((uc4CountPaths (fun s => s.length) 500000).getResult 7
      ((uc4CountPaths (fun s => s.length) 500000).run sameKey)).1
    yieldedCount yielded ⟨⟨"1", "1"⟩, ⟨"11", "2"⟩⟩ = 2 ∧
      yieldedCount yielded ⟨⟨"1", "11"⟩, ⟨"1", "2"⟩⟩ = 2 ∧
      between (SpillFn.bodies 7 sameKey) ⟨"1", "1"⟩ ⟨"11", "2"⟩ = 1 ∧
      between (SpillFn.bodies 7 sameKey) ⟨"1", "11"⟩ ⟨"1", "2"⟩ = 1 ∧
      ¬CountsNodes (fun s => s.length) (neighbours (SpillFn.bodies 7 sameKey))
        (SpillFn.bodies 7 sameKey) yielded := by
  intro yielded
  have hcount (path : Path) : yieldedCount yielded path =
      (pairs (SpillFn.bodies 7 sameKey)).countP fun p => p.key = path.key :=
    yieldedCount_run _ _ sameKey (by simp [sameKey, SpillFn.Step.Keeps]) path
  have htwo : yieldedCount yielded ⟨⟨"1", "1"⟩, ⟨"11", "2"⟩⟩ = 2 := (hcount _).trans (by decide)
  have hone : between (SpillFn.bodies 7 sameKey) ⟨"1", "1"⟩ ⟨"11", "2"⟩ = 1 := by decide
  refine ⟨htwo, (hcount _).trans (by decide), hone, by decide, ?_⟩
  intro hcounts
  have heq := hcounts.count ⟨"1", "1"⟩ (by decide) ⟨"11", "2"⟩ (by decide) (by decide)
  rw [htwo, hone] at heq
  exact absurd heq (by decide)

end UC4CountPaths

end GraphSrc
