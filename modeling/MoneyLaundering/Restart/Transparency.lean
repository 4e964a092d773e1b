import MoneyLaundering.Restart.Results
import MoneyLaundering.Restart.Tables

/-!
# A restart does not show

Whatever of a controller rides its checkpoint comes back from a packed snapshot as an
instance that no sequence of operations tells from the one that was lost: it returns the
same results in the same order, the lists made of sets up to their order.
-/

open Messages

variable {A : Type}

/-- What a controller snapshots, with what it is built with. -/
inductive Provider (A : Type) where
  | ringCompletion (self : Peer)
  | sentCounts
  | mergeEofCounts
  | joinCounts
  /-- `gt` compares amounts. -/
  | uc2MaxAmountAggregateFn (hash : String → ℤ) (gt : A → A → Bool)
  | uc2BankNamesAggregateFn (hash : String → ℤ)
  | uc3AvgAggregateFn (hash : String → ℤ)
  | uc2BankIdMergeFn (gt : A → A → Bool)
  /-- `str` is the text of an amount. -/
  | uc2Join (str : A → String)
  | uc4Join
  | uc5Join

namespace Provider

variable [Zero A] [Add A] [Div A] [NatCast A] (M : MsgPack A)

/-- Its operations, its snapshot, and how it is restored. -/
def component : Provider A → Component (PyValue A)
  | ringCompletion self => RingCompletion.component self
  | sentCounts => SentCounts.component
  | mergeEofCounts => MergeEofCounts.component
  | joinCounts => JoinCounts.component
  | uc2MaxAmountAggregateFn hash gt =>
    (uc2MaxAmount hash gt).component UC2MaxAmount.dump UC2MaxAmount.load
  | uc2BankNamesAggregateFn hash => (uc2BankNames hash).component dumpNames loadNames
  | uc3AvgAggregateFn hash => (uc3Avg hash).component UC3Avg.dump UC3Avg.load
  | uc2BankIdMergeFn gt => UC2BankId.component gt
  | uc2Join str => JoinRouteHandler.component M JoinRouteHandler.uc2Carrier
    (fun _ : Unit => JoinRouteHandler.uc2Join str) Eq
  | uc4Join => JoinRouteHandler.component M JoinRouteHandler.uc4Carrier
    JoinRouteHandler.uc4Join JoinRouteHandler.SameLines
  | uc5Join => JoinRouteHandler.component M JoinRouteHandler.uc5Carrier
    (fun _ : Unit => JoinRouteHandler.uc5Join) Eq

/-- What its snapshot packs by itself: the fields of the messages in it. -/
def payloads : (p : Provider A) → (p.component M).State → List (Value A)
  | uc2Join _, state => JoinRouteHandler.uc2Carrier.payloads state
  | uc4Join, state => JoinRouteHandler.uc4Carrier.payloads state
  | uc5Join, state => JoinRouteHandler.uc5Carrier.payloads state
  | _, _ => []

variable {M}

/-- A repacked snapshot restores a state that cannot be told from the old one. -/
theorem exists_restore_repacked (p : Provider A) (s : (p.component M).State)
    (choice : (p.component M).Choice)
    (hM : ∀ fields ∈ p.payloads M s, M.unpackb (M.packb fields) = some fields) :
    ∃ s', (p.component M).restore ((p.component M).snapshot choice s).repacked = some s' ∧
      (p.component M).Indistinguishable s s' := by
  cases p with
  | ringCompletion self =>
      exact ⟨s, RingCompletion.restoreState_snapshotState choice s,
        RingCompletion.indistinguishable_component self s⟩
  | sentCounts =>
      exact ⟨s, SentCounts.restoreState_snapshotState s,
        Component.indistinguishable_of_step_eq rfl fun _ _ _ _ => rfl⟩
  | mergeEofCounts =>
      exact ⟨s, MergeEofCounts.restoreState_snapshotState s,
        Component.indistinguishable_of_step_eq rfl fun _ _ _ _ => rfl⟩
  | joinCounts =>
      exact ⟨_, JoinCounts.restoreState_snapshotState choice s,
        JoinCounts.isSimulation_same.indistinguishable (JoinCounts.same_restored choice s)⟩
  | uc2MaxAmountAggregateFn hash gt =>
      exact ⟨s, TableFn.restoreState_snapshotState UC2MaxAmount.load_dump s,
        Component.indistinguishable_of_step_eq rfl fun _ _ _ _ => rfl⟩
  | uc2BankNamesAggregateFn hash =>
      exact ⟨s, TableFn.restoreState_snapshotState loadNames_dumpNames s,
        Component.indistinguishable_of_step_eq rfl fun _ _ _ _ => rfl⟩
  | uc3AvgAggregateFn hash =>
      exact ⟨s, TableFn.restoreState_snapshotState UC3Avg.load_dump s,
        Component.indistinguishable_of_step_eq rfl fun _ _ _ _ => rfl⟩
  | uc2BankIdMergeFn gt =>
      exact ⟨s, UC2BankId.restoreState_snapshotState s,
        Component.indistinguishable_of_step_eq rfl fun _ _ _ _ => rfl⟩
  | uc2Join str =>
      exact ⟨s, JoinRouteHandler.Carrier.restoreState_snapshotState hM,
        JoinRouteHandler.indistinguishable_uc2Join s⟩
  | uc4Join =>
      exact ⟨s, JoinRouteHandler.Carrier.restoreState_snapshotState hM,
        JoinRouteHandler.indistinguishable_uc4Join s⟩
  | uc5Join =>
      exact ⟨s, JoinRouteHandler.Carrier.restoreState_snapshotState hM,
        JoinRouteHandler.indistinguishable_uc5Join s⟩

end Provider

/-- An instance that is restored from the packed snapshot of a state returns the same
results for every sequence of operations, up to the order of what is listed from a set. -/
theorem restart_transparent [Zero A] [Add A] [Div A] [NatCast A] (M : MsgPack A)
    (P : PyPacker A) (p : Provider A) (s : (p.component M).State)
    (choice : (p.component M).Choice)
    (hM : ∀ fields ∈ p.payloads M s, M.unpackb (M.packb fields) = some fields)
    (hP : P.unpackb (P.packb ((p.component M).snapshot choice s)) =
      some ((p.component M).snapshot choice s).repacked) :
    ∃ s', (P.unpackb (P.packb ((p.component M).snapshot choice s))).bind
        (p.component M).restore = some s' ∧ (p.component M).Indistinguishable s s' := by
  rw [hP, Option.bind_some]
  exact p.exists_restore_repacked s choice hM

/-- The counts of a client whose seven transactions were counted. -/
def sevenCounted : Dict UUID ℕ := Dict.empty.set 7 7

/-- The bytes of a snapshot of one client and its count of seven: a dictionary of one entry,
with a text of thirty-six characters and forty-three bytes. -/
def sevenCountedBytes : Bytes :=
  [129, 217, 36] ++ JoinRouteHandler.encode (uuidStr 7) ++ [196, 43] ++
    [MessageType.count.toByte] ++ uuidBytes 7 ++ List.replicate 16 0 ++
      List.replicate 8 0 ++ [145, 7]

/-- The packing of one snapshot into the given bytes. -/
def packer (bytes : Bytes) (v : PyValue A) : PyPacker A :=
  ⟨fun _ => bytes, fun raw => if raw = bytes then some v.repacked else none⟩

/-- The packing of the count in its message. -/
def sevenPacking : MsgPack ℕ := packing [145, 7] [.int 7]

/-- The join of the fifth use case. -/
def countJoin : Component (PyValue ℕ) := Provider.uc5Join.component sevenPacking

/-- The packing of the snapshot. -/
def sevenPacker : PyPacker ℕ := packer sevenCountedBytes (countJoin.snapshot () sevenCounted)

/-- A count of seven survives a restart. -/
theorem restart_transparent_count :
    ∃ s', (sevenPacker.unpackb (sevenPacker.packb (countJoin.snapshot () sevenCounted))).bind
        countJoin.restore = some s' ∧ countJoin.Indistinguishable sevenCounted s' := by
  have hM : ∀ fields ∈ Provider.uc5Join.payloads sevenPacking sevenCounted,
      sevenPacking.unpackb (sevenPacking.packb fields) = some fields := by
    intro fields hfields
    obtain rfl := List.mem_singleton.mp hfields
    rfl
  exact restart_transparent sevenPacking sevenPacker .uc5Join sevenCounted () hM (if_pos rfl)
