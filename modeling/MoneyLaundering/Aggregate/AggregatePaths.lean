import MoneyLaundering.Aggregate.CountPaths

/-!
# Aggregating paths

`UC4AggregatePaths` adds up the counts of a path that several nodes counted, and yields the
paths that have at least five nodes in between.
-/

namespace GraphSrc

namespace UC4AggregatePaths

/-- `SHARDING_FILES` and `MIN_PATH_COUNT`. -/
def shardingFiles : ℕ := 500

def minPathCount : ℕ := 5

/-- `aggregate`. -/
def aggregate (hash : String → ℤ) (threshold : ℕ) (msg : DataMsg PathTable)
    (f : Spilled PathTable) : Spilled PathTable :=
  f.absorb PathTable.codec (PathTable.lines hash shardingFiles) .empty
    (fun paths => threshold ≤ paths.size) (fun paths => paths.bumpAll msg.body.entries)
    msg.clientId

/-- The paths of a table with enough nodes in between. -/
def qualifying (paths : PathTable) : PathTable :=
  ⟨paths.entries.filter fun e => minPathCount ≤ e.2,
    paths.nodup.sublist (List.filter_sublist.map fun e : Path × ℕ => e.1.key)⟩

/-- What is yielded of the lines of one shard. -/
def yieldShard (entries : List (Path × ℕ)) : PathTable × ℤ :=
  (qualifying (KeyedDict.empty.bumpAll entries), 0)

end UC4AggregatePaths

/-- `UC4AggregatePaths`. -/
def uc4AggregatePaths (hash : String → ℤ) (threshold : ℕ) :
    SpillFn PathTable.codec PathTable PathTable PathTable where
  lines := PathTable.lines hash UC4AggregatePaths.shardingFiles
  aggregate := UC4AggregatePaths.aggregate hash threshold
  yields _ shards := shards.map UC4AggregatePaths.yieldShard

namespace UC4AggregatePaths

open PathTable (Kept)

/-- The counts of some messages. -/
def countsOf (received : List PathTable) : List (Path × ℕ) := received.flatMap KeyedDict.entries

/-- A path that is counted has a positive count. -/
def Counting (table : PathTable) : Prop := ∀ e ∈ table.entries, 0 < e.2

/-- A count of a path that came with a message. -/
def CountOf (received : List PathTable) (e : Path × ℕ) : Prop :=
  0 < e.2 ∧ ∃ e' ∈ countsOf received, e'.1 = e.1

/-- The counts in memory and in the files add up to those that were received. -/
def Summed (hash : String → ℤ) (clientId : UUID) (received : List PathTable)
    (m : Option PathTable) (logs : ℕ → List (Path × ℕ)) : Prop :=
  Kept hash shardingFiles clientId (fun k => KeyedDict.sumAt Path.key k (countsOf received))
    (CountOf received) m logs

variable {hash : String → ℤ} {threshold : ℕ} {c : UUID} {received : List PathTable}
  {logs : ℕ → List (Path × ℕ)} {table : PathTable}

theorem shardingFiles_pos : 0 < shardingFiles := by decide

theorem countsOf_append (received : List PathTable) (table : PathTable) :
    countsOf (received ++ [table]) = countsOf received ++ table.entries := by
  simp [countsOf]

theorem summed_initial : Summed hash c [] none fun _ => [] := by
  constructor
  · intro k
    simp [PathTable.held, countsOf, KeyedDict.sumAt_nil]
  · exact fun e he => absurd he List.not_mem_nil
  · exact fun _ e he => absurd he List.not_mem_nil

theorem Summed.empty (h : Summed hash c received none logs) :
    Summed hash c received (some .empty) logs :=
  ⟨h.total, h.memory, h.logs⟩

theorem CountOf.append {e : Path × ℕ} (h : CountOf received e) (table : PathTable) :
    CountOf (received ++ [table]) e := by
  obtain ⟨hpos, e', he', hpath⟩ := h
  rw [CountOf, countsOf_append]
  exact ⟨hpos, e', List.mem_append_left _ he', hpath⟩

/-- A message keeps it. -/
theorem Summed.bumpAll {m : PathTable} (h : Summed hash c received (some m) logs)
    (hpos : Counting table) :
    Summed hash c (received ++ [table]) (some (m.bumpAll table.entries)) logs := by
  constructor
  · intro k
    have htotal := h.total k
    change KeyedDict.sumAt Path.key k m.entries + _ = _ at htotal
    change KeyedDict.sumAt Path.key k (m.bumpAll table.entries).entries + _ = _
    rw [KeyedDict.sumAt_bumpAll, countsOf_append, KeyedDict.sumAt_append, ← htotal]
    omega
  · intro e he
    obtain ⟨hpos', e', he', hpath⟩ :=
      KeyedDict.mem_bumpAll he hpos fun e he => (h.memory e he).1
    rcases List.mem_append.mp he' with hold | hnew
    · obtain ⟨-, e'', he'', hpath'⟩ := h.memory e' hold
      rw [CountOf, countsOf_append]
      exact ⟨hpos', e'', List.mem_append_left _ he'', hpath'.trans hpath⟩
    · rw [CountOf, countsOf_append]
      exact ⟨hpos', e', List.mem_append_right _ hnew, hpath⟩
  · intro shard e he
    obtain ⟨hcount, hshard⟩ := h.logs shard e he
    exact ⟨hcount.append table, hshard⟩

theorem laws : (uc4AggregatePaths hash threshold).Laws (fun _ => True) Counting
    (Summed hash c) c := by
  constructor
  · exact fun received => Kept.spills shardingFiles_pos
  · intro msg f hother
    change Spilled.Same c f (aggregate hash threshold msg f)
    exact Spilled.same_absorb (Ne.symm hother)
  · intro msg f received hown hpos htracks
    subst hown
    apply htracks.absorb _ _ (Kept.spills shardingFiles_pos)
    · exact fun logs h => h.empty
    · exact fun m logs h => h.bumpAll hpos

/-! ## What is yielded -/

/-- Different paths of some messages have different keys. -/
def KeysDistinct (received : List PathTable) : Prop :=
  ∀ e ∈ countsOf received, ∀ e' ∈ countsOf received, e.1.key = e'.1.key → e.1 = e'.1

variable {path : Path} {shard : ℕ} {e : Path × ℕ}

/-- An entry that is yielded has the sum of its shard. -/
theorem mem_yieldShard {es : List (Path × ℕ)} (hpos : ∀ e ∈ es, 0 < e.2)
    (h : e ∈ (yieldShard es).1.entries) :
    minPathCount ≤ e.2 ∧ e.2 = KeyedDict.sumAt Path.key e.1.key es ∧ ∃ e' ∈ es, e'.1 = e.1 := by
  obtain ⟨hmem, henough⟩ := List.mem_filter.mp h
  exact ⟨by simpa using henough, KeyedDict.eq_sumAt_of_mem hmem,
    (KeyedDict.mem_bumpAll hmem hpos fun _ hmem => absurd hmem List.not_mem_nil).2⟩

/-- A path whose counts add up to enough is yielded. -/
theorem exists_of_enough {es : List (Path × ℕ)}
    (h : minPathCount ≤ KeyedDict.sumAt Path.key path.key es) :
    ∃ e ∈ (yieldShard es).1.entries, e.1.key = path.key := by
  have hpos : 0 < KeyedDict.sumAt Path.key path.key es := lt_of_lt_of_le (by decide) h
  have hhas : (KeyedDict.empty.bumpAll es : PathTable).Has path :=
    KeyedDict.has_bumpAll.mpr (Or.inr (KeyedDict.mem_keys_of_sumAt_pos hpos))
  obtain ⟨e, he, hkey⟩ := List.mem_map.mp hhas
  have hsum : e.2 = KeyedDict.sumAt Path.key e.1.key es := KeyedDict.eq_sumAt_of_mem he
  rw [hkey] at hsum
  exact ⟨e, List.mem_filter.mpr ⟨he, by simpa [hsum] using h⟩, hkey⟩

/-- Where keys are distinct, all counts of a path are in one shard. -/
theorem Summed.sum_shard (h : Summed hash c received none logs) (hkeys : KeysDistinct received)
    {shards : List ℕ} (hnodup : shards.Nodup) (hempty : ∀ shard ∉ shards, logs shard = [])
    (hpath : ∃ e ∈ countsOf received, e.1 = path) :
    KeyedDict.sumAt Path.key path.key
        (logs (PathTable.shardingHash hash shardingFiles path c)) =
      KeyedDict.sumAt Path.key path.key (countsOf received) := by
  have hother (shard : ℕ) (hne : shard ≠ PathTable.shardingHash hash shardingFiles path c) :
      KeyedDict.sumAt Path.key path.key (logs shard) = 0 := by
    by_contra hpos
    obtain ⟨e, he, hkey⟩ := KeyedDict.mem_keys_of_sumAt_pos (Nat.pos_of_ne_zero hpos)
    obtain ⟨⟨-, e', he', heq⟩, hshard⟩ := h.logs shard e he
    obtain ⟨e'', he'', rfl⟩ := hpath
    rw [← hkeys e' he' e'' he'' (by rw [heq, hkey]), heq] at hne
    exact hne hshard.symm
  rw [← h.sum_shards shardingFiles_pos hnodup hempty,
    List.sum_map_eq_nsmul_single _ _ fun shard hne _ => hother shard hne]
  by_cases hmem : PathTable.shardingHash hash shardingFiles path c ∈ shards
  · rw [List.count_eq_one_of_mem hnodup hmem, one_nsmul]
  · rw [hempty _ hmem, KeyedDict.sumAt_nil, nsmul_zero]

/-- The counts that are yielded. -/
def emitted (yielded : List (PathTable × ℤ)) : List (Path × ℕ) :=
  countsOf (yielded.map Prod.fst)

/-- What is yielded has every path once that was counted often enough, with the sum of its
counts. -/
theorem emitted_run (hash : String → ℤ) (threshold : ℕ) (steps : List (SpillFn.Step PathTable))
    (hkeeps : ∀ s ∈ steps, s.Keeps c)
    (hpos : ∀ table ∈ SpillFn.bodies c steps, Counting table)
    (hkeys : KeysDistinct (SpillFn.bodies c steps)) :
    let yielded := ((uc4AggregatePaths hash threshold).getResult c
      ((uc4AggregatePaths hash threshold).run steps)).1
    ((emitted yielded).map Prod.fst).Nodup ∧
    ∀ e, e ∈ emitted yielded ↔ (∃ e' ∈ countsOf (SpillFn.bodies c steps), e'.1 = e.1) ∧
      minPathCount ≤ e.2 ∧
      e.2 = KeyedDict.sumAt Path.key e.1.key (countsOf (SpillFn.bodies c steps)) := by
  intro yielded
  have hlaws : (uc4AggregatePaths hash threshold).Laws (fun _ => True) Counting
      (Summed hash c) c := laws
  obtain ⟨logs, shards, hsummed, hnodup, hempty, hyielded⟩ :=
    SpillFn.yielded_run hlaws (PathTable.faithful c) summed_initial steps hkeeps hpos
  have hemitted : emitted yielded =
      shards.flatMap fun shard => (yieldShard (logs shard)).1.entries := by
    change emitted ((uc4AggregatePaths hash threshold).getResult c _).1 = _
    rw [hyielded]
    change countsOf ((((shards.map logs).map yieldShard).map Prod.fst)) = _
    rw [countsOf, List.flatMap_map, List.flatMap_map, List.flatMap_map]
  have hof {shard : ℕ} {e : Path × ℕ} (he : e ∈ (yieldShard (logs shard)).1.entries) :
      minPathCount ≤ e.2 ∧ e.2 = KeyedDict.sumAt Path.key e.1.key (logs shard) ∧
        (∃ e' ∈ countsOf (SpillFn.bodies c steps), e'.1 = e.1) ∧
          PathTable.shardingHash hash shardingFiles e.1 c = shard := by
    obtain ⟨henough, hsum, line, hline, hpath⟩ :=
      mem_yieldShard (fun e he => (hsummed.logs shard e he).1.1) he
    obtain ⟨⟨-, e', he', heq⟩, hshard⟩ := hsummed.logs shard line hline
    rw [hpath] at heq hshard
    exact ⟨henough, hsum, ⟨e', he', heq⟩, hshard⟩
  rw [hemitted]
  constructor
  · rw [List.map_flatMap]
    apply List.nodup_flatMap_of_owner
      (fun path => PathTable.shardingHash hash shardingFiles path c) hnodup
    · intro shard _
      apply List.Nodup.of_map Path.key
      rw [List.map_map]
      exact (yieldShard (logs shard)).1.nodup
    · intro shard _ path hpath
      obtain ⟨e, he, rfl⟩ := List.mem_map.mp hpath
      exact (hof he).2.2.2
  · intro e
    constructor
    · intro he
      obtain ⟨shard, -, he⟩ := List.mem_flatMap.mp he
      obtain ⟨henough, hsum, hpath, rfl⟩ := hof he
      exact ⟨hpath, henough, hsum.trans (hsummed.sum_shard hkeys hnodup hempty hpath)⟩
    · intro h
      obtain ⟨hpath, henough, hsum⟩ := h
      have hshard := hsummed.sum_shard hkeys hnodup hempty hpath
      rw [← hsum] at hshard
      obtain ⟨e', he', hkey⟩ := exists_of_enough (hshard ▸ henough)
      obtain ⟨-, hsum', ⟨e₁, he₁, hpath₁⟩, -⟩ := hof he'
      obtain ⟨e₂, he₂, hpath₂⟩ := hpath
      have hsame : e'.1 = e.1 := by
        rw [← hpath₁, ← hpath₂]
        apply hkeys e₁ he₁ e₂ he₂
        rw [hpath₁, hpath₂, hkey]
      have heq : e' = e := Prod.ext hsame (by rw [hsum', hkey, hshard])
      rw [heq] at he'
      refine List.mem_flatMap.mpr ⟨_, ?_, he'⟩
      by_contra hnot
      rw [hempty _ hnot] at he'
      exact List.not_mem_nil he'

end UC4AggregatePaths

end GraphSrc
