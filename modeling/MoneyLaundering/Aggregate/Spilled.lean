import MoneyLaundering.Ring.Controllers
import MoneyLaundering.Spill.LineCodec

/-!
# Aggregates that spill their memory

Four aggregates keep something in memory for each client and write it to the shard files
of the client, as lines, when it grows, when a snapshot is taken, and before the result is
built from the lines.  What they have of a client is a memory, which may be missing, and
the entries of each shard.
-/

/-- What such an aggregate keeps. -/
structure Spilled (M : Type) where
  memory : Dict UUID M
  spill : MultiShardSpill

namespace Spilled

/-! ## Operations

`codec` writes the entries of a client; `lines` are the entries of a memory in the order in
which they are written, each with its shard. -/

variable {M T : Type} (codec : UUID → LineCodec T) (lines : UUID → M → List (ℕ × T))

/-- Nothing was received. -/
def initial : Spilled M := ⟨Dict.empty, Dict.empty⟩

/-- Write some entries to the shards of a client. -/
def write (clientId : UUID) (entries : List (ℕ × T)) (files : MultiShardSpill) :
    MultiShardSpill :=
  entries.foldl (fun files e => (codec clientId).spillShard clientId e.1 files e.2) files

/-- `_spill_to_disk`, of a client that has a memory. -/
def spillToDisk (clientId : UUID) (f : Spilled M) : Spilled M :=
  match f.memory.get? clientId with
  | none => f
  | some m => ⟨f.memory.erase clientId, write codec clientId (lines clientId m) f.spill⟩

/-- Read some shards of a client, one after the other. -/
def readShards (clientId : UUID) : List ℕ → MultiShardSpill → List (List T) × MultiShardSpill
  | [], files => ([], files)
  | shard :: shards, files =>
    let entries := (codec clientId).shardEntries clientId shard files
    let rest := readShards clientId shards entries.2
    (entries.1 :: rest.1, rest.2)

/-- Spill what a client has in memory, and read all of its shards. -/
def collect (clientId : UUID) (f : Spilled M) : List (List T) × Spilled M :=
  let f := spillToDisk codec lines clientId f
  let entries := readShards codec clientId (f.spill.shardsOf clientId) f.spill
  (entries.1, ⟨f.memory.erase clientId, entries.2⟩)

/-- `discard`; a crash may cut it short when `n` files are removed. -/
def discard (clientId : UUID) (f : Spilled M) : Spilled M :=
  ⟨f.memory.erase clientId,
    f.spill.clear (f.spill.shardsOf clientId).length clientId⟩

/-- Spill the memories of all clients. -/
def spillAll (f : Spilled M) : Spilled M :=
  f.memory.keys.foldl (fun f clientId => spillToDisk codec lines clientId f) f

/-- `snapshot_state`. -/
def snapshotState (f : Spilled M) : Dict (UUID × ℕ) ℕ × Spilled M :=
  let f := spillAll codec lines f
  (f.spill.snapshotState.1, { f with spill := f.spill.snapshotState.2 })

/-- `restore_state`. -/
def restoreState (snapshot : Dict (UUID × ℕ) ℕ) (f : Spilled M) : Spilled M :=
  ⟨Dict.empty, f.spill.restoreState snapshot.size snapshot⟩

/-- What it puts into a checkpoint. -/
def provider : Snapshotable (Spilled M) (Dict (UUID × ℕ) ℕ) where
  fresh drained f := ⟨Dict.empty, f.spill.restarted drained⟩
  snapshotState := snapshotState codec lines
  restoreState := restoreState
  clearStaleSpill f := { f with spill := f.spill.clearAll }

/-- `by_shard`: entries of one shard are written one after the other. -/
def byShard (shard : T → ℕ) (entries : List T) : List (ℕ × T) :=
  (Dict.gather shard [] (fun es e => es ++ [e]) entries).entries.flatMap fun group =>
    group.2.map (Prod.mk group.1)

/-- Store the memory of a client. -/
def put (clientId : UUID) (m : M) (f : Spilled M) : Spilled M :=
  { f with memory := f.memory.set clientId m }

/-- Begin a memory for a client that has none. -/
def ensure (clientId : UUID) (blank : M) (f : Spilled M) : Spilled M :=
  if (f.memory.get? clientId).isNone then put clientId blank f else f

/-- Change the memory of a client, and spill it when it is full. -/
def absorb (blank : M) (full : M → Bool) (update : M → M) (clientId : UUID) (f : Spilled M) :
    Spilled M :=
  let f := f.ensure clientId blank
  let m := update (f.memory.getD clientId blank)
  let f := f.put clientId m
  if full m then spillToDisk codec lines clientId f else f

/-! ## The share of a client -/

/-- Nothing of client `c` differs. -/
structure Same (c : UUID) (f f' : Spilled M) : Prop where
  memory : f'.memory.get? c = f.memory.get? c
  content : ∀ shard, SpillFiles.content f'.spill (c, shard) =
    SpillFiles.content f.spill (c, shard)
  absent : ∀ shard, f.spill.get? (c, shard) = none → f'.spill.get? (c, shard) = none

/-- The entries of the shards when some more are written. -/
def written (logs : ℕ → List T) (entries : List (ℕ × T)) (shard : ℕ) : List T :=
  logs shard ++ (entries.filter fun e => e.1 = shard).map Prod.snd

/-- The memory of client `c` and the entries of its shards have a property. -/
def Tracks (codec : UUID → LineCodec T) (dom : T → Prop)
    (Inv : Option M → (ℕ → List T) → Prop) (c : UUID) (f : Spilled M) : Prop :=
  ∃ logs, (codec c).HoldsShards dom f.spill c logs ∧ Inv (f.memory.get? c) logs

variable {codec lines} {dom : T → Prop} {Inv : Option M → (ℕ → List T) → Prop} {c x : UUID}
  {f f' f'' : Spilled M}

theorem Same.refl (c : UUID) (f : Spilled M) : Same c f f :=
  ⟨rfl, fun _ => rfl, fun _ => id⟩

theorem Same.trans (h : Same c f f') (h' : Same c f' f'') : Same c f f'' := by
  constructor
  · exact h'.memory.trans h.memory
  · exact fun shard => (h'.content shard).trans (h.content shard)
  · exact fun shard hnone => h'.absent shard (h.absent shard hnone)

theorem Tracks.of_same (h : Tracks codec dom Inv c f) (hsame : Same c f f') :
    Tracks codec dom Inv c f' := by
  obtain ⟨logs, hholds, hinv⟩ := h
  refine ⟨logs, hholds.of_content hsame.content, ?_⟩
  rw [hsame.memory]
  exact hinv

/-! ## Writing -/

theorem get?_write {key : UUID × ℕ} (h : key.1 ≠ x) (entries : List (ℕ × T))
    (files : MultiShardSpill) :
    (write codec x entries files).get? key = files.get? key := by
  induction entries generalizing files with
  | nil => rfl
  | cons e entries ih =>
      change (write codec x entries _).get? key = _
      rw [ih]
      apply (SpillFiles.get?_append _ _ _ _).trans (if_neg _)
      intro heq
      exact h (congrArg Prod.fst heq)

theorem same_spillToDisk (h : c ≠ x) : Same c f (spillToDisk codec lines x f) := by
  unfold spillToDisk
  split
  · exact .refl c f
  · constructor
    · exact (Dict.get?_erase _ _ _).trans (if_neg h)
    · exact fun shard => SpillFiles.content_congr (get?_write h _ _)
    · intro shard hnone
      exact (get?_write h _ _).trans hnone

theorem same_put (m : M) (h : c ≠ x) : Same c f (put x m f) :=
  ⟨Dict.get?_set_of_ne _ _ h, fun _ => rfl, fun _ => id⟩

theorem same_ensure (blank : M) (h : c ≠ x) : Same c f (ensure x blank f) := by
  unfold ensure
  split
  · exact same_put blank h
  · exact .refl c f

theorem written_cons (logs : ℕ → List T) (e : ℕ × T) (entries : List (ℕ × T)) :
    written logs (e :: entries) =
      written (Function.update logs e.1 (logs e.1 ++ [e.2])) entries := by
  funext shard
  by_cases h : shard = e.1
  · subst h
    simp [written]
  · simp [written, h, Ne.symm h]

theorem holdsShards_write {entries : List (ℕ × T)} {logs : ℕ → List T}
    {files : MultiShardSpill} (h : (codec c).HoldsShards dom files c logs)
    (hentries : ∀ e ∈ entries, dom e.2) :
    (codec c).HoldsShards dom (write codec c entries files) c (written logs entries) := by
  induction entries generalizing logs files with
  | nil =>
      have hlogs : written logs [] = logs := by
        funext shard
        simp [written]
      rw [hlogs]
      exact h
  | cons e entries ih =>
      rw [written_cons]
      exact ih (h.spillShard_self (hentries e List.mem_cons_self))
        fun e' he' => hentries e' (List.mem_cons_of_mem _ he')

/-- In every shard the entries stay in order. -/
theorem filter_byShard (shard : T → ℕ) (entries : List T) (k : ℕ) :
    ((byShard shard entries).filter fun e => e.1 = k).map Prod.snd =
      entries.filter fun e => shard e = k := by
  have hgroup : ∀ group : ℕ × List T, ((group.2.map (Prod.mk group.1)).filter
      fun e => e.1 = k).map Prod.snd = if group.1 = k then group.2 else [] := by
    intro group
    by_cases h : group.1 = k <;> simp [List.filter_map, Function.comp_def, h]
  have hfold (es : List T) : es.foldl (fun es e => es ++ [e]) [] = es := by
    induction es using List.reverseRecOn with
    | nil => rfl
    | append_singleton es e ih => rw [List.foldl_append, ih, List.foldl_cons, List.foldl_nil]
  have hget := Dict.get?_gather shard [] (fun es e => es ++ [e]) entries k
  rw [hfold] at hget
  rw [byShard, List.filter_flatMap, List.map_flatMap]
  simp only [hgroup]
  rw [Dict.flatMap_entries, hget]
  split
  · rfl
  · rename_i hnot
    have hnil : entries.filter (fun e => shard e = k) = [] := by
      rw [List.filter_eq_nil_iff]
      intro e he heq
      exact hnot (List.mem_map.mpr ⟨e, he, by simpa using heq⟩)
    rw [hnil, Option.getD_none]

theorem written_byShard (logs : ℕ → List T) (shard : T → ℕ) (entries : List T) (k : ℕ) :
    written logs (byShard shard entries) k =
      logs k ++ entries.filter fun e => shard e = k := by
  rw [written, filter_byShard]

/-- What a property has to say of a memory that is written down. -/
def Spills (lines : UUID → M → List (ℕ × T)) (dom : T → Prop)
    (Inv : Option M → (ℕ → List T) → Prop) (c : UUID) : Prop :=
  ∀ m logs, Inv (some m) logs → (∀ e ∈ lines c m, dom e.2) ∧
    Inv none (written logs (lines c m))

theorem Tracks.spillToDisk (h : Tracks codec dom Inv c f) (hspills : Spills lines dom Inv c) :
    Tracks codec dom Inv c (spillToDisk codec lines c f) := by
  unfold Spilled.spillToDisk
  split
  · exact h
  · rename_i m hm
    obtain ⟨logs, hholds, hinv⟩ := h
    rw [hm] at hinv
    obtain ⟨hdom, hnone⟩ := hspills m logs hinv
    refine ⟨_, holdsShards_write hholds hdom, ?_⟩
    rw [Dict.get?_erase_self]
    exact hnone

theorem get?_spillToDisk_self : (spillToDisk codec lines c f).memory.get? c = none := by
  unfold spillToDisk
  split
  · assumption
  · exact Dict.get?_erase_self _ _

theorem Tracks.put {Inv' : Option M → (ℕ → List T) → Prop} {m : M}
    (h : Tracks codec dom Inv c f)
    (hinv : ∀ logs, Inv (f.memory.get? c) logs → Inv' (some m) logs) :
    Tracks codec dom Inv' c (put c m f) := by
  obtain ⟨logs, hholds, hold⟩ := h
  refine ⟨logs, hholds, ?_⟩
  rw [Spilled.put, Dict.get?_set_self]
  exact hinv logs hold

/-- Beginning a memory is no change if `Inv` does not tell a blank one from none. -/
theorem Tracks.ensure {blank : M} (h : Tracks codec dom Inv c f)
    (hblank : ∀ logs, Inv none logs → Inv (some blank) logs) :
    ∃ m, (ensure c blank f).memory.get? c = some m ∧
      Tracks codec dom Inv c (ensure c blank f) := by
  unfold Spilled.ensure
  cases hget : f.memory.get? c with
  | none =>
      refine ⟨blank, Dict.get?_set_self _ _ _, h.put ?_⟩
      rw [hget]
      exact hblank
  | some m => exact ⟨m, hget, h⟩

theorem same_absorb {blank : M} {full : M → Bool} {update : M → M} (h : c ≠ x) :
    Same c f (absorb codec lines blank full update x f) := by
  have hput : Same c f ((f.ensure x blank).put x
      (update ((f.ensure x blank).memory.getD x blank))) :=
    (same_ensure blank h).trans (same_put _ h)
  unfold absorb
  dsimp only
  split
  · exact hput.trans (same_spillToDisk h)
  · exact hput

theorem Tracks.absorb {Inv' : Option M → (ℕ → List T) → Prop} {blank : M}
    {full : M → Bool} {update : M → M} (h : Tracks codec dom Inv c f)
    (hblank : ∀ logs, Inv none logs → Inv (some blank) logs)
    (hupdate : ∀ m logs, Inv (some m) logs → Inv' (some (update m)) logs)
    (hspills : Spills lines dom Inv' c) :
    Tracks codec dom Inv' c (absorb codec lines blank full update c f) := by
  obtain ⟨m, hm, htracks⟩ := h.ensure hblank
  have hput : Tracks codec dom Inv' c ((f.ensure c blank).put c
      (update ((f.ensure c blank).memory.getD c blank))) := by
    apply htracks.put
    intro logs hinv
    rw [hm] at hinv
    rw [Dict.getD, hm]
    exact hupdate m logs hinv
  unfold Spilled.absorb
  dsimp only
  split
  · exact hput.spillToDisk hspills
  · exact hput

/-! ## Reading -/

theorem content_readShards (key : UUID × ℕ) (shards : List ℕ) (files : MultiShardSpill) :
    SpillFiles.content (readShards codec x shards files).2 key =
      SpillFiles.content files key := by
  induction shards generalizing files with
  | nil => rfl
  | cons shard shards ih =>
      rw [readShards, ih]
      exact SpillFiles.content_change SpillFile.content_closed key _ files

theorem absent_readShards {key : UUID × ℕ} {files : MultiShardSpill}
    (h : files.get? key = none) (shards : List ℕ) :
    (readShards codec x shards files).2.get? key = none := by
  induction shards generalizing files with
  | nil => exact h
  | cons shard shards ih =>
      apply ih
      change (SpillFiles.change SpillFile.closed (x, shard) files).get? key = none
      rw [SpillFiles.get?_change]
      split
      · rename_i heq
        rw [← heq, h, Option.map_none]
      · exact h

theorem readShards_fst {logs : ℕ → List T} {files : MultiShardSpill}
    (hcodec : (codec c).Faithful dom)
    (h : (codec c).HoldsShards dom files c logs) (shards : List ℕ) :
    (readShards codec c shards files).1 = shards.map logs := by
  induction shards generalizing files with
  | nil => rfl
  | cons shard shards ih =>
      have hholds : (codec c).HoldsShards dom ((codec c).shardEntries c shard files).2 c logs :=
        h.of_content fun _ => SpillFiles.content_change SpillFile.content_closed _ _ files
      have hrest := ih hholds
      rw [readShards, List.map_cons, hcodec.shardEntries_eq h, ← hrest]

theorem same_collect (h : c ≠ x) : Same c f (collect codec lines x f).2 := by
  have hspilled : Same c f (spillToDisk codec lines x f) := same_spillToDisk h
  apply hspilled.trans
  constructor
  · exact (Dict.get?_erase _ _ _).trans (if_neg h)
  · exact fun shard => content_readShards _ _ _
  · exact fun shard hnone => absent_readShards hnone _

/-- The result of a client is built from the entries of its shards.  A shard that is not
read is empty. -/
theorem Tracks.collect (h : Tracks codec dom Inv c f)
    (hcodec : (codec c).Faithful dom) (hspills : Spills lines dom Inv c) :
    ∃ (logs : ℕ → List T) (shards : List ℕ), Inv none logs ∧ shards.Nodup ∧
      (∀ shard ∉ shards, logs shard = []) ∧
      (Spilled.collect codec lines c f).1 = shards.map logs := by
  obtain ⟨logs, hholds, hinv⟩ := h.spillToDisk hspills
  rw [get?_spillToDisk_self] at hinv
  refine ⟨logs, _, hinv, MultiShardSpill.nodup_shardsOf c _, ?_, readShards_fst hcodec hholds _⟩
  intro shard hshard
  have hcontent := (hholds shard).1
  rw [MultiShardSpill.content_of_notMem hshard] at hcontent
  exact LineCodec.eq_nil_of_text_eq_nil hcontent.symm

/-! ## Checkpoints -/

theorem same_discard (h : c ≠ x) : Same c f (discard x f) := by
  have hget (shard : ℕ) : (discard x f).spill.get? (c, shard) = f.spill.get? (c, shard) :=
    MultiShardSpill.get?_clear _ h
  constructor
  · exact (Dict.get?_erase _ _ _).trans (if_neg h)
  · exact fun shard => SpillFiles.content_congr (hget shard)
  · exact fun shard hnone => (hget shard).trans hnone

theorem Tracks.spillAll (h : Tracks codec dom Inv c f) (hspills : Spills lines dom Inv c) :
    Tracks codec dom Inv c (spillAll codec lines f) := by
  unfold Spilled.spillAll
  generalize f.memory.keys = clients
  induction clients generalizing f with
  | nil => exact h
  | cons x clients ih =>
      rw [List.foldl_cons]
      by_cases hx : c = x
      · subst hx
        exact ih (h.spillToDisk hspills)
      · exact ih (h.of_same (same_spillToDisk hx))

theorem get?_spillAll : (spillAll codec lines f).memory.get? c = none := by
  have hloop (clients : List UUID) (f : Spilled M)
      (h : f.memory.get? c = none ∨ c ∈ clients) :
      (clients.foldl (fun f clientId => spillToDisk codec lines clientId f) f).memory.get? c =
        none := by
    induction clients generalizing f with
    | nil => exact h.resolve_right List.not_mem_nil
    | cons x clients ih =>
        rw [List.foldl_cons]
        apply ih
        by_cases hx : c = x
        · subst hx
          exact Or.inl get?_spillToDisk_self
        · rw [(same_spillToDisk hx).memory]
          exact h.imp id fun hmem => (List.mem_cons.mp hmem).resolve_left hx
  apply hloop
  by_cases hc : c ∈ f.memory.keys
  · exact Or.inr hc
  · exact Or.inl (Dict.get?_eq_none_iff.mpr hc)

theorem same_snapshotState :
    Same c (spillAll codec lines f) (snapshotState codec lines f).2 := by
  constructor
  · rfl
  · exact fun _ => SpillFiles.content_flushAll _ _
  · intro shard hnone
    exact (SpillFiles.get?_flushAll _ _).trans (by rw [hnone, Option.map_none])

/-- A process that is restarted with the snapshot that was just taken. -/
def restarted (codec : UUID → LineCodec T)
    (lines : UUID → M → List (ℕ × T)) (drained : UUID → ℕ → ℕ) (f : Spilled M) :
    Spilled M :=
  (provider codec lines).restoreState (snapshotState codec lines f).1
    ((provider codec lines).fresh drained (snapshotState codec lines f).2)

theorem same_restarted (drained : UUID → ℕ → ℕ) :
    Same c (spillAll codec lines f) (restarted codec lines drained f) := by
  constructor
  · exact get?_spillAll.symm
  · exact fun shard => MultiShardSpill.content_restored drained _ _
  · exact fun shard hnone => MultiShardSpill.absent_restored drained hnone

/-! ## What is released -/

/-- Nothing is kept of client `c`, in memory or on disk. -/
structure Bare (c : UUID) (f : Spilled M) : Prop where
  memory : f.memory.get? c = none
  spill : ∀ shard, f.spill.get? (c, shard) = none

theorem Bare.of_same (h : Bare c f) (hsame : Same c f f') : Bare c f' := by
  constructor
  · exact hsame.memory.trans h.memory
  · exact fun shard => hsame.absent shard (h.spill shard)

theorem bare_discard (f : Spilled M) : Bare c (discard c f) := by
  constructor
  · exact Dict.get?_erase_self _ _
  · exact MultiShardSpill.get?_clear_self

theorem Bare.snapshotState (h : Bare c f) : Bare c (snapshotState codec lines f).2 := by
  have hall (clients : List UUID) {f : Spilled M} (hf : Bare c f) :
      Bare c (clients.foldl (fun f clientId => spillToDisk codec lines clientId f) f) := by
    induction clients generalizing f with
    | nil => exact hf
    | cons x clients ih =>
        apply ih
        by_cases hx : c = x
        · subst hx
          have hnone : spillToDisk codec lines c f = f := by
            unfold spillToDisk
            rw [hf.memory]
          change Bare c (spillToDisk codec lines c f)
          rw [hnone]
          exact hf
        · exact hf.of_same (same_spillToDisk hx)
  exact (hall f.memory.keys h).of_same same_snapshotState

end Spilled

/-! ## Functions -/

/-- What such an aggregate does with a message and what it yields of the entries of its
shards. -/
structure SpillFn {T : Type} (codec : UUID → LineCodec T) (M α β : Type) where
  lines : UUID → M → List (ℕ × T)
  aggregate : DataMsg α → Spilled M → Spilled M
  yields : UUID → List (List T) → List (β × ℤ)

namespace SpillFn

variable {M T α β : Type} {codec : UUID → LineCodec T}

/-- `get_result`. -/
def getResult (R : SpillFn codec M α β) (clientId : UUID) (f : Spilled M) :
    List (β × ℤ) × Spilled M :=
  let collected := Spilled.collect codec R.lines clientId f
  (R.yields clientId collected.1, collected.2)

/-- The business function of an aggregate. -/
def toAggregateFn (R : SpillFn codec M α β) :
    AggregateFn (Spilled M) (Dict (UUID × ℕ) ℕ) α β where
  provider := Spilled.provider codec R.lines
  aggregate := R.aggregate
  getResult := R.getResult
  discard := Spilled.discard

theorem getResult_fst (R : SpillFn codec M α β) (clientId : UUID) (f : Spilled M) :
    (R.getResult clientId f).1 = R.yields clientId (Spilled.readShards codec clientId
      ((Spilled.spillToDisk codec R.lines clientId f).spill.shardsOf clientId)
      (Spilled.spillToDisk codec R.lines clientId f).spill).1 := rfl

/-- What can happen to such an aggregate, apart from crashes that lose something. -/
inductive Step (α : Type) where
  | input (msg : DataMsg α)
  | snapshot
  /-- A restart with the snapshot that was just taken. -/
  | restart (drained : UUID → ℕ → ℕ)
  | emit (clientId : UUID)
  | discard (clientId : UUID)

/-- One step. -/
def Step.run (R : SpillFn codec M α β) : Step α → Spilled M → Spilled M
  | .input msg, f => R.aggregate msg f
  | .snapshot, f => (Spilled.snapshotState codec R.lines f).2
  | .restart drained, f => Spilled.restarted codec R.lines drained f
  | .emit clientId, f => (R.getResult clientId f).2
  | .discard clientId, f => Spilled.discard clientId f

/-- The step does not end client `c`. -/
def Step.Keeps (c : UUID) : Step α → Prop
  | .emit clientId => clientId ≠ c
  | .discard clientId => clientId ≠ c
  | _ => True

/-- What the step brings of client `c`. -/
def Step.bodyOf (c : UUID) : Step α → Option α
  | .input msg => if msg.clientId = c then some msg.body else none
  | _ => none

/-- What some steps bring of client `c`. -/
def bodies (c : UUID) (steps : List (Step α)) : List α := steps.filterMap (Step.bodyOf c)

/-- Some steps, one after the other, each with a function of its own: functions may differ
in the order in which they go through a set. -/
def runAll (steps : List (SpillFn codec M α β × Step α)) : Spilled M :=
  steps.foldl (fun f s => s.2.run s.1 f) .initial

/-- Some steps of one function. -/
def run (R : SpillFn codec M α β) (steps : List (Step α)) : Spilled M :=
  runAll (steps.map (Prod.mk R))

/-- What a function has to do so that `Inv` holds of what was received of client `c`, if all
of it is `Good`. -/
structure Laws (R : SpillFn codec M α β) (dom : T → Prop) (Good : α → Prop)
    (Inv : List α → Option M → (ℕ → List T) → Prop) (c : UUID) : Prop where
  spills : ∀ received, Spilled.Spills R.lines dom (Inv received) c
  other : ∀ msg f, msg.clientId ≠ c → Spilled.Same c f (R.aggregate msg f)
  own : ∀ msg f received, msg.clientId = c → Good msg.body →
    Spilled.Tracks codec dom (Inv received) c f →
    Spilled.Tracks codec dom (Inv (received ++ [msg.body])) c (R.aggregate msg f)

variable {R : SpillFn codec M α β} {dom : T → Prop} {Good : α → Prop}
  {Inv : List α → Option M → (ℕ → List T) → Prop} {c : UUID} {received : List α}
  {f : Spilled M}

theorem Laws.step (h : R.Laws dom Good Inv c) (step : Step α) (hkeeps : step.Keeps c)
    (hgood : ∀ body, step.bodyOf c = some body → Good body)
    (hf : Spilled.Tracks codec dom (Inv received) c f) :
    Spilled.Tracks codec dom (Inv (received ++ (step.bodyOf c).toList)) c (step.run R f) := by
  have hquiet {f' : Spilled M} (hf' : Spilled.Tracks codec dom (Inv received) c f') :
      Spilled.Tracks codec dom (Inv (received ++ [])) c f' := by
    rw [List.append_nil]
    exact hf'
  cases step with
  | input msg =>
      by_cases hc : msg.clientId = c
      · rw [Step.bodyOf, if_pos hc]
        exact h.own msg f received hc (hgood _ (if_pos hc)) hf
      · rw [Step.bodyOf, if_neg hc]
        exact hquiet (hf.of_same (h.other msg f hc))
  | snapshot =>
      exact hquiet ((hf.spillAll (h.spills received)).of_same Spilled.same_snapshotState)
  | restart drained =>
      exact hquiet ((hf.spillAll (h.spills received)).of_same (Spilled.same_restarted drained))
  | emit clientId => exact hquiet (hf.of_same (Spilled.same_collect (Ne.symm hkeeps)))
  | discard clientId => exact hquiet (hf.of_same (Spilled.same_discard (Ne.symm hkeeps)))

theorem tracks_initial (hinitial : Inv [] none fun _ => []) :
    Spilled.Tracks codec dom (Inv []) c (.initial : Spilled M) :=
  ⟨fun _ => [], fun _ => ⟨rfl, fun _ hmem => absurd hmem List.not_mem_nil⟩, hinitial⟩

/-- A property that every step keeps holds after every run. -/
theorem tracks_runAll (hinitial : Inv [] none fun _ => [])
    (steps : List (SpillFn codec M α β × Step α))
    (hlaws : ∀ s ∈ steps, s.1.Laws dom Good Inv c) (hkeeps : ∀ s ∈ steps, s.2.Keeps c)
    (hgood : ∀ body ∈ bodies c (steps.map Prod.snd), Good body) :
    Spilled.Tracks codec dom (Inv (bodies c (steps.map Prod.snd))) c (runAll steps) := by
  induction steps using List.reverseRecOn with
  | nil => exact tracks_initial hinitial
  | append_singleton steps s ih =>
      have hlast : s ∈ steps ++ [s] := List.mem_append_right _ List.mem_cons_self
      have hbodies : bodies c ((steps ++ [s]).map Prod.snd) =
          bodies c (steps.map Prod.snd) ++ (s.2.bodyOf c).toList := by
        rw [List.map_append, bodies, List.filterMap_append, bodies]
        cases hbody : s.2.bodyOf c <;> simp [hbody]
      rw [hbodies] at hgood
      rw [hbodies, runAll, List.foldl_append]
      apply (hlaws s hlast).step s.2 (hkeeps s hlast)
      · intro body hbody
        exact hgood body (List.mem_append_right _ (by simp [hbody]))
      · apply ih
        · exact fun s' hs' => hlaws s' (List.mem_append_left _ hs')
        · exact fun s' hs' => hkeeps s' (List.mem_append_left _ hs')
        · exact fun body hbody => hgood body (List.mem_append_left _ hbody)

/-- What is yielded of a client after a run. -/
theorem yielded_runAll (hR : R.Laws dom Good Inv c) (hcodec : (codec c).Faithful dom)
    (hinitial : Inv [] none fun _ => []) (steps : List (SpillFn codec M α β × Step α))
    (hlaws : ∀ s ∈ steps, s.1.Laws dom Good Inv c) (hkeeps : ∀ s ∈ steps, s.2.Keeps c)
    (hgood : ∀ body ∈ bodies c (steps.map Prod.snd), Good body) :
    ∃ (logs : ℕ → List T) (shards : List ℕ),
      Inv (bodies c (steps.map Prod.snd)) none logs ∧ shards.Nodup ∧
      (∀ shard ∉ shards, logs shard = []) ∧
      (R.getResult c (runAll steps)).1 = R.yields c (shards.map logs) := by
  obtain ⟨logs, shards, hinv, hnodup, hempty, hread⟩ :=
    (tracks_runAll hinitial steps hlaws hkeeps hgood).collect hcodec (hR.spills _)
  exact ⟨logs, shards, hinv, hnodup, hempty, congrArg (R.yields c) hread⟩

/-- The same, of functions that belong together. -/
theorem yielded_family {O : Type} {fn : O → SpillFn codec M α β}
    (hlaws : ∀ o, (fn o).Laws dom Good Inv c) (hcodec : (codec c).Faithful dom)
    (hinitial : Inv [] none fun _ => []) (last : O) (steps : List (O × Step α))
    (hkeeps : ∀ s ∈ steps, s.2.Keeps c)
    (hgood : ∀ body ∈ bodies c (steps.map Prod.snd), Good body) :
    ∃ (logs : ℕ → List T) (shards : List ℕ),
      Inv (bodies c (steps.map Prod.snd)) none logs ∧ shards.Nodup ∧
      (∀ shard ∉ shards, logs shard = []) ∧
      ((fn last).getResult c (runAll (steps.map fun s => (fn s.1, s.2)))).1 =
        (fn last).yields c (shards.map logs) := by
  have hsteps : (steps.map fun s => (fn s.1, s.2)).map Prod.snd = steps.map Prod.snd := by
    rw [List.map_map]
    rfl
  have hyielded := yielded_runAll (hlaws last) hcodec hinitial
    (steps.map fun s => (fn s.1, s.2))
  rw [hsteps] at hyielded
  apply hyielded
  · intro s hs
    obtain ⟨s, -, rfl⟩ := List.mem_map.mp hs
    exact hlaws s.1
  · intro s hs
    obtain ⟨s', hs', rfl⟩ := List.mem_map.mp hs
    exact hkeeps s' hs'
  · exact hgood

theorem yielded_run (hR : R.Laws dom Good Inv c) (hcodec : (codec c).Faithful dom)
    (hinitial : Inv [] none fun _ => []) (steps : List (Step α))
    (hkeeps : ∀ s ∈ steps, s.Keeps c) (hgood : ∀ body ∈ bodies c steps, Good body) :
    ∃ (logs : ℕ → List T) (shards : List ℕ), Inv (bodies c steps) none logs ∧ shards.Nodup ∧
      (∀ shard ∉ shards, logs shard = []) ∧
      (R.getResult c (R.run steps)).1 = R.yields c (shards.map logs) := by
  have hsteps : (steps.map (Prod.mk ())).map Prod.snd = steps := by
    rw [List.map_map]
    exact List.map_id steps
  have hruns : (steps.map (Prod.mk ())).map (fun s => (R, s.2)) = steps.map (Prod.mk R) := by
    rw [List.map_map]
    rfl
  have hlaws : ∀ o : Unit, ((fun _ => R) o).Laws dom Good Inv c := fun _ => hR
  have hyielded := yielded_family hlaws hcodec hinitial () (steps.map (Prod.mk ()))
  rw [hsteps, hruns] at hyielded
  apply hyielded
  · intro s hs
    obtain ⟨step, hstep, rfl⟩ := List.mem_map.mp hs
    exact hkeeps step hstep
  · exact hgood

end SpillFn
