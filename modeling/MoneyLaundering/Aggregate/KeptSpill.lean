import MoneyLaundering.Aggregate.AggregateGraphs
import MoneyLaundering.Aggregate.AggregatePaths
import MoneyLaundering.Aggregate.Degree
import MoneyLaundering.Ring.Recording
import MoneyLaundering.Ring.Spilling
import MoneyLaundering.Spill.Settled

/-!
# The spill of the aggregates

The aggregates only append to their shard files, and what one yields of a client that is in
no memory is a function of what is on disk.  So their spill is what a checkpoint needs.
-/

namespace Spilled

variable {M T : Type} {codec : UUID → LineCodec T} {lines : UUID → M → List (ℕ × T)} {c x : UUID}
  {f g : Spilled M} {key : UUID × ℕ}

/-! ## What is appended -/

theorem grows_write (entries : List (ℕ × T)) (files : MultiShardSpill) :
    SpillFiles.Grows key files (write codec x entries files) := by
  induction entries generalizing files with
  | nil => exact .refl key files
  | cons e entries ih => exact (SpillFiles.grows_append _).trans (ih _)

theorem grows_spillToDisk : SpillFiles.Grows key f.spill (spillToDisk codec lines x f).spill := by
  unfold spillToDisk
  split
  · exact .refl key f.spill
  · exact grows_write _ _

theorem grows_spillAll : SpillFiles.Grows key f.spill (spillAll codec lines f).spill := by
  unfold spillAll
  generalize f.memory.keys = clients
  induction clients generalizing f with
  | nil => exact .refl key f.spill
  | cons x clients ih => exact grows_spillToDisk.trans ih

theorem spill_ensure (blank : M) : (ensure x blank f).spill = f.spill := by
  unfold ensure
  split <;> rfl

theorem grows_absorb {blank : M} {full : M → Bool} {update : M → M} :
    SpillFiles.Grows key f.spill (absorb codec lines blank full update x f).spill := by
  have hput : SpillFiles.Grows key f.spill ((f.ensure x blank).put x
      (update ((f.ensure x blank).memory.getD x blank))).spill := by
    change SpillFiles.Grows key f.spill (f.ensure x blank).spill
    rw [spill_ensure]
    exact .refl key f.spill
  unfold absorb
  dsimp only
  split
  · exact hput.trans grows_spillToDisk
  · exact hput

theorem grows_readShards (shards : List ℕ) (files : MultiShardSpill) :
    SpillFiles.Grows key files (readShards codec x shards files).2 := by
  induction shards generalizing files with
  | nil => exact .refl key files
  | cons shard shards ih =>
      exact (SpillFiles.grows_change fun _ => List.prefix_append _ _).trans (ih _)

theorem grows_collect : SpillFiles.Grows key f.spill (collect codec lines x f).2.spill :=
  grows_spillToDisk.trans (grows_readShards _ _)

theorem grows_snapshotState :
    SpillFiles.Grows key f.spill (snapshotState codec lines f).2.spill :=
  grows_spillAll.trans SpillFiles.grows_flushAll

/-! ## What is left as it is -/

/-- Nothing of client `c` is in memory, and on disk is what `g` has there. -/
structure Settled (c : UUID) (g f : Spilled M) : Prop where
  memory : f.memory.get? c = none
  spill : ∀ shard, SpillFiles.Settled (c, shard) g.spill f.spill

theorem spillToDisk_of_none (h : f.memory.get? c = none) : spillToDisk codec lines c f = f := by
  unfold spillToDisk
  rw [h]

theorem get?_spillToDisk (h : key.1 ≠ x) :
    (spillToDisk codec lines x f).spill.get? key = f.spill.get? key := by
  unfold spillToDisk
  split
  · rfl
  · exact get?_write h _ _

theorem Settled.spillToDisk (h : Settled c g f) (x : UUID) :
    Settled c g (spillToDisk codec lines x f) := by
  by_cases hx : c = x
  · subst hx
    rw [spillToDisk_of_none h.memory]
    exact h
  · exact ⟨(same_spillToDisk hx).memory.trans h.memory,
      fun shard => (h.spill shard).of_get?_eq (get?_spillToDisk hx)⟩

theorem Settled.spillAll (h : Settled c g f) : Settled c g (spillAll codec lines f) := by
  unfold Spilled.spillAll
  generalize f.memory.keys = clients
  induction clients generalizing f with
  | nil => exact h
  | cons x clients ih => exact ih (h.spillToDisk x)

theorem Settled.snapshotState (h : Settled c g f) :
    Settled c g (snapshotState codec lines f).2 :=
  ⟨h.spillAll.memory, fun shard => (h.spillAll.spill shard).flushAll⟩

theorem Settled.collect (h : Settled c g f) (x : UUID) :
    Settled c g (collect codec lines x f).2 := by
  have hread (shards : List ℕ) (files : MultiShardSpill)
      (hfiles : ∀ shard, SpillFiles.Settled (c, shard) g.spill files) :
      ∀ shard, SpillFiles.Settled (c, shard) g.spill
        (readShards codec x shards files).2 := by
    induction shards generalizing files with
    | nil => exact hfiles
    | cons k shards ih =>
        refine ih _ fun shard => (hfiles shard).change (fun file hfile => ?_) (x, k)
        exact ⟨hfile, (SpillFile.content_closed file).trans hfile⟩
  have hspilled : Settled c g (Spilled.spillToDisk codec lines x f) := h.spillToDisk x
  constructor
  · change ((Spilled.spillToDisk codec lines x f).memory.erase x).get? c = none
    rw [Dict.get?_erase]
    split
    · rfl
    · exact hspilled.memory
  · exact hread _ _ hspilled.spill

theorem Settled.discard (h : Settled c g f) (hx : c ≠ x) : Settled c g (discard x f) :=
  ⟨(same_discard hx).memory.trans h.memory,
    fun shard => (h.spill shard).of_get?_eq (MultiShardSpill.get?_clear _ hx)⟩

theorem settled_snapshotState (f : Spilled M) :
    Settled c (Spilled.snapshotState codec lines f).2 (Spilled.snapshotState codec lines f).2 :=
  ⟨get?_spillAll, fun shard => SpillFiles.settled_flushAll _ (c, shard)⟩

theorem Settled.restoreState (h : Settled c (Spilled.snapshotState codec lines g).2 f) :
    Settled c (Spilled.snapshotState codec lines g).2
      (restoreState (Spilled.snapshotState codec lines g).1 f) :=
  ⟨rfl, fun shard => MultiShardSpill.settled_restored (h.spill shard) _⟩

theorem readShards_congr {files files' : MultiShardSpill}
    (h : ∀ shard, SpillFiles.content files (c, shard) = SpillFiles.content files' (c, shard))
    (shards : List ℕ) :
    (readShards codec c shards files).1 = (readShards codec c shards files').1 := by
  induction shards generalizing files files' with
  | nil => rfl
  | cons shard shards ih =>
      have hclosed (files : MultiShardSpill) (k : ℕ) :
          SpillFiles.content ((codec c).shardEntries c shard files).2 (c, k) =
            SpillFiles.content files (c, k) :=
        SpillFiles.content_change SpillFile.content_closed _ _ files
      have hentries : ((codec c).shardEntries c shard files).1 =
          ((codec c).shardEntries c shard files').1 := by
        change (Lines.lines _ (PersistentSpill.universalNewlines
          (SpillFiles.content ((codec c).shardEntries c shard files).2 (c, shard)))).map _ =
            (Lines.lines _ (PersistentSpill.universalNewlines
              (SpillFiles.content ((codec c).shardEntries c shard files').2 (c, shard)))).map _
        rw [hclosed, hclosed, h]
      have hrest : (readShards codec c shards ((codec c).shardEntries c shard files).2).1 =
          (readShards codec c shards ((codec c).shardEntries c shard files').2).1 := by
        apply ih
        intro k
        rw [hclosed, hclosed, h]
      exact congrArg₂ List.cons hentries hrest

/-- What is collected of a client is on disk. -/
theorem collect_congr {f' : Spilled M} (h : Settled c g f) (h' : Settled c g f') :
    (Spilled.collect codec lines c f).1 = (Spilled.collect codec lines c f').1 := by
  have hshards : f.spill.shardsOf c = f'.spill.shardsOf c := by
    apply MultiShardSpill.shardsOf_congr
    intro shard
    have hbytes := (h.spill shard).bytes.trans (h'.spill shard).bytes.symm
    simpa using congrArg Option.isSome hbytes
  have hcollect {f : Spilled M} (h : Settled c g f) : (Spilled.collect codec lines c f).1 =
      (readShards codec c (f.spill.shardsOf c) f.spill).1 := by
    unfold Spilled.collect
    rw [spillToDisk_of_none h.memory]
  rw [hcollect h, hcollect h', hshards]
  exact readShards_congr (fun shard => (h.spill shard).content_eq.trans
    (h'.spill shard).content_eq.symm) _

end Spilled

namespace SpillFn

variable {M T α β : Type} {codec : UUID → LineCodec T} (R : SpillFn codec M α β)
  (cfg : NodeConfig) (nShards : ℕ) (broadcast : Bool)

/-- A function that only appends to its files. -/
def Appends : Prop :=
  ∀ (msg : DataMsg α) (f : Spilled M) (key : UUID × ℕ),
    SpillFiles.Grows key f.spill (R.aggregate msg f).spill

variable {R}

/-- What an aggregate does to the files of a client. -/
def spilling (h : R.Appends) (c : UUID) :
    Spilling (ringAggregate cfg nShards R.toAggregateFn broadcast).recording c where
  old := Prod.snd
  alike _ := True
  Keeps f f' := ∀ shard, SpillFiles.Grows (c, shard) f.spill f'.spill
  Settled := Spilled.Settled c
  silent _ := rfl
  old_eq _ := rfl
  refl f _ := .refl _ f.spill
  trans _ _ _ h h' shard := (h shard).trans (h' shard)
  process _ msg f shard := h msg f (c, shard)
  discard _ _ _ hx _ := .of_get?_eq (MultiShardSpill.get?_clear _ (Ne.symm hx))
  free _ _ _ hx := ⟨fun _ => .of_get?_eq (MultiShardSpill.get?_clear _ (Ne.symm hx)),
    fun _ hg => hg.discard (Ne.symm hx)⟩
  getResult x _ := ⟨fun _ => Spilled.grows_collect, fun _ hg => hg.collect x⟩
  snapshot _ := ⟨fun _ => Spilled.grows_snapshotState, fun _ hg => hg.snapshotState⟩
  fresh drained f := ⟨fun _ => MultiShardSpill.grows_restart drained f.spill,
    fun _ hg => ⟨rfl, fun shard => MultiShardSpill.settled_restart (hg.spill shard) drained⟩⟩
  settled_snapshot f := Spilled.settled_snapshotState f
  restore _ _ h shard := MultiShardSpill.grows_restored (h shard) _
  settled_restore _ _ h := h.restoreState
  result f _ _ h := congrArg (List.flatMap (RingAggregate.route nShards broadcast))
    (congrArg (R.yields c) (Spilled.collect_congr h.restoreState
      (Spilled.settled_snapshotState f)))

end SpillFn

/-! ## The functions -/

namespace GraphSrc

variable (hash : String → ℤ) (threshold : ℕ)

theorem appends_uc4AggregateGraphs (order : NodeOrder) :
    (uc4AggregateGraphs hash order threshold).Appends :=
  fun _ _ _ => Spilled.grows_absorb

theorem appends_uc4AggregatePaths : (uc4AggregatePaths hash threshold).Appends :=
  fun _ _ _ => Spilled.grows_absorb

theorem appends_uc4Degree (order : TextOrder) : (uc4Degree hash order threshold).Appends :=
  fun _ _ _ => Spilled.grows_absorb

namespace UC4CountPaths.Loop

variable {hash threshold} {x : UUID} {s : Loop} {key : UUID × ℕ}

theorem spill_mutate (g : PathTable → PathTable) :
    (mutate x g s).state.spill = s.state.spill := by
  rw [mutate]
  split <;> rfl

theorem spill_count (a c : Node) : (count x a s c).state.spill = s.state.spill := by
  unfold count
  split
  · rfl
  · exact spill_mutate _

theorem grows_predecessor (succs : NodeSet) (a : Node) :
    SpillFiles.Grows key s.state.spill (predecessor hash threshold x succs s a).state.spill := by
  have hcounts (nodes : List Node) (s : Loop) :
      (nodes.foldl (count x a) s).state.spill = s.state.spill := by
    induction nodes generalizing s with
    | nil => rfl
    | cons c nodes ih => exact (ih _).trans (spill_count a c)
  have hcounted : SpillFiles.Grows key s.state.spill
      (succs.elems.foldl (count x a) s).state.spill := by
    rw [hcounts]
    exact .refl key _
  unfold predecessor
  dsimp only
  split
  · exact hcounted.trans Spilled.grows_spillToDisk
  · exact hcounted

theorem grows_node (entry : Entry) :
    SpillFiles.Grows key s.state.spill (node hash threshold x s entry).state.spill := by
  unfold node
  generalize entry.2.1.elems = preds
  induction preds generalizing s with
  | nil => exact .refl key _
  | cons a preds ih => exact (grows_predecessor entry.2.2 a).trans ih

end UC4CountPaths.Loop

theorem appends_uc4CountPaths : (uc4CountPaths hash threshold).Appends := by
  intro msg f key
  have hnodes (entries : List Entry) (s : UC4CountPaths.Loop) :
      SpillFiles.Grows key s.state.spill (entries.foldl
        (UC4CountPaths.Loop.node hash threshold msg.clientId) s).state.spill := by
    induction entries generalizing s with
    | nil => exact .refl key _
    | cons e entries ih => exact (UC4CountPaths.Loop.grows_node e).trans (ih _)
  have hhandled : SpillFiles.Grows key f.spill
      (UC4CountPaths.handle hash threshold msg f).state.spill := by
    refine SpillFiles.Grows.trans ?_ (hnodes _ _)
    change SpillFiles.Grows key f.spill (f.ensure msg.clientId .empty).spill
    rw [Spilled.spill_ensure]
    exact .refl key _
  change SpillFiles.Grows key f.spill (UC4CountPaths.aggregate hash threshold msg f).spill
  unfold UC4CountPaths.aggregate
  dsimp only
  split
  · exact hhandled.trans Spilled.grows_spillToDisk
  · exact hhandled

end GraphSrc
