import MoneyLaundering.Merge.PruneReplay
import MoneyLaundering.Ring.Recording
import MoneyLaundering.Ring.Spilling
import MoneyLaundering.Spill.Settled

/-!
# The spill of the merges

Two merges append one of their inputs to a file for each client.  What they yield of a client
is a function of the file and of what the snapshot has, unless a process cuts its result from
lists that are made of sets.
-/

namespace MergeFn

variable {F S α β : Type}

/-- Every process has a function of its own; the number of the process rides no checkpoint. -/
def perProcess (fns : ℕ → MergeFn F S α β) : MergeFn (ℕ × F) S α β where
  provider :=
    { fresh drained f := (f.1 + 1, (fns f.1).provider.fresh drained f.2)
      snapshotState f := (((fns f.1).provider.snapshotState f.2).1,
        (f.1, ((fns f.1).provider.snapshotState f.2).2))
      restoreState s f := (f.1, (fns f.1).provider.restoreState s f.2)
      clearStaleSpill f := (f.1, (fns f.1).provider.clearStaleSpill f.2) }
  left msg f := (f.1, (fns f.1).left msg f.2)
  right msg f := (f.1, (fns f.1).right msg f.2)
  getResult c f := (((fns f.1).getResult c f.2).1, (f.1, ((fns f.1).getResult c f.2).2))
  discard c f := (f.1, (fns f.1).discard c f.2)

/-- What a merge does to its files: it appends to them, reads them for a result, and clears
them with a client. -/
structure SpillsTo (fn : MergeFn F S α β) (files : F → PersistentSpill) : Prop where
  left : ∀ c msg f, SpillFiles.Grows c (files f) (files (fn.left msg f))
  right : ∀ c msg f, SpillFiles.Grows c (files f) (files (fn.right msg f))
  getResult : ∀ x f, files (fn.getResult x f).2 = ((files f).iterLines x).2
  discard : ∀ x f, files (fn.discard x f) = (files f).clear x
  snapshotState : ∀ f, files (fn.provider.snapshotState f).2 = (files f).snapshotState.2
  fresh : ∀ drained f, files (fn.provider.fresh drained f) = (files f).restarted drained
  restoreState : ∀ f f', files (fn.provider.restoreState (fn.provider.snapshotState f).1 f') =
    (files f').restoreState (files f).snapshotState.1

/-- A restored state yields what the state yields that the snapshot was taken of, if this state
is `alike`. -/
def Restores (fn : MergeFn F S α β) (files : F → PersistentSpill) (alike : F → Prop)
    (c : UUID) : Prop :=
  ∀ f f', alike (fn.provider.snapshotState f).2 →
    SpillFiles.Settled c (files f).snapshotState.2 (files f') →
      (fn.getResult c (fn.provider.restoreState (fn.provider.snapshotState f).1 f')).1 =
        (fn.getResult c (fn.provider.snapshotState f).2).1

variable {fn : MergeFn F S α β} {files : F → PersistentSpill} {alike : F → Prop} {c : UUID}

/-- What such a merge does to the file of a client. -/
def spilling (h : fn.SpillsTo files) (hresult : fn.Restores files alike c) (cfg : NodeConfig)
    (nShards : ℕ) : Spilling (ringMerge cfg nShards fn).recording c where
  old := Prod.snd
  alike := alike
  Keeps f f' := SpillFiles.Grows c (files f) (files f')
  Settled g f := SpillFiles.Settled c (files g) (files f)
  silent _ := rfl
  old_eq _ := rfl
  refl f := .refl c (files f)
  trans _ _ _ := SpillFiles.Grows.trans
  process
    | .left, msg, f => h.left c msg f
    | .right, msg, f => h.right c msg f
  discard x f _ hx := by
    change SpillFiles.Grows c (files f) (files (fn.discard x f))
    rw [h.discard]
    exact .of_get?_eq (PersistentSpill.get?_clear_of_ne (Ne.symm hx))
  free x f _ hx := by
    change SpillFiles.Grows c (files f) (files (fn.discard x f)) ∧ ∀ g, _ →
      SpillFiles.Settled c (files g) (files (fn.discard x f))
    rw [h.discard]
    have hget : ((files f).clear x).get? c = (files f).get? c :=
      PersistentSpill.get?_clear_of_ne (Ne.symm hx)
    exact ⟨.of_get?_eq hget, fun _ hg => SpillFiles.Settled.of_get?_eq hg hget⟩
  getResult x f := by
    change SpillFiles.Grows c (files f) (files (fn.getResult x f).2) ∧ ∀ g, _ →
      SpillFiles.Settled c (files g) (files (fn.getResult x f).2)
    rw [h.getResult]
    exact ⟨PersistentSpill.grows_iterLines, fun _ hg => PersistentSpill.settled_iterLines hg⟩
  snapshot f := by
    change SpillFiles.Grows c (files f) (files (fn.provider.snapshotState f).2) ∧ ∀ g, _ →
      SpillFiles.Settled c (files g) (files (fn.provider.snapshotState f).2)
    rw [h.snapshotState]
    exact ⟨SpillFiles.grows_flushAll, fun _ hg => SpillFiles.Settled.flushAll hg⟩
  fresh drained f := by
    change SpillFiles.Grows c (files f) (files (fn.provider.fresh drained f)) ∧ ∀ g, _ →
      SpillFiles.Settled c (files g) (files (fn.provider.fresh drained f))
    rw [h.fresh]
    exact ⟨PersistentSpill.grows_restart drained _,
      fun _ hg => PersistentSpill.settled_restart hg drained⟩
  settled_snapshot f := by
    change SpillFiles.Settled c (files (fn.provider.snapshotState f).2)
      (files (fn.provider.snapshotState f).2)
    rw [h.snapshotState]
    exact SpillFiles.settled_flushAll (files f) c
  restore f f' hkept := by
    change SpillFiles.Grows c (files (fn.provider.snapshotState f).2) (files f') at hkept
    change SpillFiles.Grows c (files (fn.provider.snapshotState f).2)
      (files (fn.provider.restoreState (fn.provider.snapshotState f).1 f'))
    rw [h.snapshotState] at hkept ⊢
    rw [h.restoreState]
    exact PersistentSpill.grows_restored hkept
  settled_restore f f' hsettled := by
    change SpillFiles.Settled c (files (fn.provider.snapshotState f).2) (files f') at hsettled
    change SpillFiles.Settled c (files (fn.provider.snapshotState f).2)
      (files (fn.provider.restoreState (fn.provider.snapshotState f).1 f'))
    rw [h.snapshotState] at hsettled ⊢
    rw [h.restoreState]
    exact PersistentSpill.settled_restored hsettled
  result f f' halike hsettled := by
    change SpillFiles.Settled c (files (fn.provider.snapshotState f).2) (files f') at hsettled
    rw [h.snapshotState] at hsettled
    exact congrArg (RingMerge.route nShards) (hresult f f' halike hsettled)

end MergeFn

namespace UC3BankId

variable {T A : Type} {codec : LineCodec T} {paymentFormat : T → String}

theorem spillsTo : (uc3BankIdMergeFn (A := A) codec paymentFormat).SpillsTo spill := by
  refine ⟨fun c msg f => ?_, fun c msg f => ?_, fun _ _ => rfl, fun _ _ => rfl, fun _ => rfl,
    fun _ _ => rfl, fun _ _ => rfl⟩
  · change SpillFiles.Grows c f.spill (left msg f).spill
    unfold left
    split <;> exact .refl c f.spill
  · change SpillFiles.Grows c f.spill (right codec msg f).spill
    unfold right
    split
    · exact .refl c f.spill
    · exact PersistentSpill.grows_spilled _ _

theorem restores (c : UUID) :
    (uc3BankIdMergeFn (A := A) codec paymentFormat).Restores spill (fun _ => True) c :=
  fun f _ _ h => congrArg (chunks paymentFormat chunkSize (f.averages.getD c Dict.empty))
    (PersistentSpill.entries_congr (PersistentSpill.settled_restored h)
      (SpillFiles.settled_flushAll f.spill c))

end UC3BankId

namespace UC4Prune

open GraphSrc

/-- The processes of a merge that prunes: each goes through sets in an order of its own. -/
def processes (serialize : ℕ → Entry → Bytes) (deserialize : Bytes → Entry)
    (order : ℕ → NodeOrder) (side : ℕ → ℕ → ℕ) : MergeFn (ℕ × UC4Prune)
      (Dict UUID NodeSet × Dict UUID NodeSet × Dict UUID ℕ) PruneInput Nodes :=
  .perProcess fun n => uc4PruneMergeFn ⟨serialize n, deserialize⟩ (order n) side

/-- No node that was spilled for a client is sent in tiles. -/
def UntiledOf (deserialize : Bytes → Entry) (c : UUID) (f : ℕ × UC4Prune) : Prop :=
  Untiled (f.2.hiOut.getD c .empty) (f.2.hiIn.getD c .empty)
    (LineCodec.entries ⟨fun _ => [], deserialize⟩ c f.2.spill)

variable {serialize : ℕ → Entry → Bytes} {deserialize : Bytes → Entry} {order : ℕ → NodeOrder}
  {side : ℕ → ℕ → ℕ}

theorem spillsTo :
    (processes serialize deserialize order side).SpillsTo fun f => f.2.spill := by
  refine ⟨fun c msg f => ?_, fun c msg f => ?_, fun _ _ => rfl, fun _ _ => rfl, fun _ => rfl,
    fun _ _ => rfl, fun _ _ => rfl⟩
  · change SpillFiles.Grows c f.2.spill (left msg f.2).spill
    unfold left
    split <;> exact .refl c f.2.spill
  · change SpillFiles.Grows c f.2.spill (right ⟨serialize f.1, deserialize⟩ msg f.2).spill
    unfold right
    split
    · exact .refl c f.2.spill
    · exact PersistentSpill.grows_spilled _ _

/-- Two processes yield the same of the same file, if no node is sent in tiles. -/
theorem getResult_settled {c : UUID} {files : PersistentSpill} {f g : ℕ × UC4Prune}
    (h : SpillFiles.Settled c files f.2.spill) (h' : SpillFiles.Settled c files g.2.spill)
    (hout : f.2.hiOut = g.2.hiOut) (hin : f.2.hiIn = g.2.hiIn)
    (huntiled : UntiledOf deserialize c g) :
    ((processes serialize deserialize order side).getResult c f).1 =
      ((processes serialize deserialize order side).getResult c g).1 := by
  have hresult (f : ℕ × UC4Prune) : ((processes serialize deserialize order side).getResult c f).1 =
      graphs (order f.1) side (f.2.hiOut.getD c .empty) (f.2.hiIn.getD c .empty)
        (LineCodec.entries ⟨fun _ => [], deserialize⟩ c f.2.spill) := rfl
  rw [hresult, hresult, PersistentSpill.entries_congr h h', hout, hin]
  exact graphs_eq huntiled (order f.1) (order g.1)

theorem restores (c : UUID) : (processes serialize deserialize order side).Restores
    (fun f => f.2.spill) (UntiledOf deserialize c) c :=
  fun f f' huntiled h => getResult_settled
    (f := (f'.1, provider.restoreState (provider.snapshotState f.2).1 f'.2))
    (g := (f.1, (provider.snapshotState f.2).2)) (PersistentSpill.settled_restored h)
    (SpillFiles.settled_flushAll f.2.spill c) rfl rfl huntiled

end UC4Prune
