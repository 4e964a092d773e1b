import MoneyLaundering.Messages.RoundTrip
import MoneyLaundering.Restart.Counts

/-!
# The snapshots of the results in memory

Three joins accumulate the result of a client in a message and snapshot the message as it
would go on the wire.  The state comes back as it was; only the fourth use case goes through
a set when it writes its result, so the lines of its result may come in another order.
-/

open Messages

namespace JoinRouteHandler

variable {A V T : Type}

/-! ## Texts up to the order of their lines -/

/-- A text of a header and some lines. -/
def joinLines (header : String) (lines : List String) : String :=
  lines.foldl (fun text line => text ++ "\n" ++ line) header

/-- The same text up to the order of the lines between the first and the last one. -/
def SameLines (text text' : String) : Prop :=
  ∃ (header last : String) (lines lines' : List String), lines.Perm lines' ∧
    text = joinLines header (lines ++ [last]) ∧ text' = joinLines header (lines' ++ [last])

/-! ## Messages that carry a value -/

/-- A class of messages whose instances for a client stand for the values of a type. -/
structure Carrier (A V : Type) where
  cls : MessageType
  body : UUID → V → Body A
  value? : Body A → Option V
  type_body : ∀ clientId v, (body clientId v).type = cls
  wellTyped_body : ∀ clientId v, (body clientId v).WellTyped
  received_body : ∀ clientId v, (body clientId v).received = body clientId v
  value?_body : ∀ clientId v, value? (body clientId v) = some v

namespace Carrier

variable (K : Carrier A V) (M : MsgPack A)

/-- The message of a client, which no producer has stamped. -/
def message (e : UUID × V) : Messages.Message A := ⟨List.replicate 16 0, 0, K.body e.1 e.2⟩

/-- `m.serialize()`: the sequence number of an unstamped message fits its eight bytes. -/
def serialize (e : UUID × V) : Bytes := ((K.message e).serialize M).getD []

/-- `{str(c): m.serialize() for c, m in state.items()}`. -/
def snapshotState (state : Dict UUID V) : PyValue A :=
  .ofDict uuidStr (fun e => .bytes (K.serialize M e)) state

/-- `{UUID(c): deserialize(b) for c, b in snapshot.items()}`. -/
def restoreState (v : PyValue A) : Option (Dict UUID V) :=
  v.dict? uuidOfStr fun b => do
    let m ← deserialize M K.cls (← b.bytes?)
    K.value? m.body

/-- What a snapshot packs for the messages in it. -/
def payloads (state : Dict UUID V) : List (Value A) :=
  state.entries.map fun e => .list (K.body e.1 e.2).fields

variable {K M}

theorem deserialize_serialize {e : UUID × V}
    (h : M.unpackb (M.packb (.list (K.body e.1 e.2).fields)) =
      some (.list (K.body e.1 e.2).fields)) :
    deserialize M K.cls (K.serialize M e) = some (K.message e) := by
  have hproducer : (K.message e).producerId.length = 16 := by simp [message]
  have hseq : (K.message e).seq < 2 ^ 64 := by simp [message]
  obtain ⟨raw, hraw, -, hback⟩ := Messages.deserialize_serialize (m := K.message e)
    (K.wellTyped_body e.1 e.2) hproducer hseq h
  have hmessage : (K.message e).body = K.body e.1 e.2 := rfl
  rw [hmessage, K.type_body, K.received_body] at hback
  rw [serialize, hraw, Option.getD_some, hback]
  rfl

/-- The messages of a snapshot are read back. -/
theorem restoreState_snapshotState {state : Dict UUID V}
    (h : ∀ fields ∈ K.payloads state, M.unpackb (M.packb fields) = some fields) :
    K.restoreState M (K.snapshotState M state).repacked = some state := by
  apply PyValue.dict?_ofDict uuidOfStr_uuidStr
  intro e he
  have hback := deserialize_serialize (h _ (List.mem_map_of_mem he))
  rw [PyValue.repacked_bytes, PyValue.bytes?_bytes, Option.bind_eq_bind, Option.bind_some,
    hback]
  exact K.value?_body e.1 e.2

end Carrier

/-! ## Joins in memory -/

inductive Op (T : Type) where
  | join (el : DataMsg T)
  | getResponses (clientId : UUID)
  | discard (clientId : UUID)

inductive Result where
  | nothing
  | responses (chunks : List (String × Bool))

/-- The same chunks, with texts that are the same up to `R`. -/
def SameChunks (R : String → String → Prop) (chunks chunks' : List (String × Bool)) : Prop :=
  List.Forall₂ (fun chunk chunk' => R chunk.1 chunk'.1 ∧ chunk.2 = chunk'.2) chunks chunks'

/-- The same result up to `R`. -/
inductive Result.Agree (R : String → String → Prop) : Result → Result → Prop where
  | nothing : Agree R .nothing .nothing
  | responses {chunks chunks' : List (String × Bool)} (h : SameChunks R chunks chunks') :
      Agree R (.responses chunks) (.responses chunks')

/-- A join that accumulates one value for each client; it may go through a set. -/
def component {Choice : Type} (M : MsgPack A) (K : Carrier A V)
    (fn : Choice → JoinFn (Dict UUID V) (Dict UUID V) T) (R : String → String → Prop) :
    Component (PyValue A) where
  State := Dict UUID V
  Op := Op T
  Result := Result
  Choice := Choice
  step
    | choice, .join el, state => (.nothing, (fn choice).join el state)
    | choice, .getResponses clientId, state =>
      (.responses ((fn choice).getResponses clientId state).1,
        ((fn choice).getResponses clientId state).2)
    | choice, .discard clientId, state => (.nothing, (fn choice).discard clientId state)
  snapshot _ := K.snapshotState M
  restore := K.restoreState M
  Agree := Result.Agree R

/-- Two joins that differ in the texts of their results only, up to `R`. -/
structure AgreeUpTo (R : String → String → Prop)
    (J J' : JoinFn (Dict UUID V) (Dict UUID V) T) : Prop where
  join : J.join = J'.join
  discard : J.discard = J'.discard
  taken : ∀ clientId state, (J.getResponses clientId state).2 = (J'.getResponses clientId state).2
  responses : ∀ clientId state,
    SameChunks R (J.getResponses clientId state).1 (J'.getResponses clientId state).1

theorem agreeUpTo_memoryJoin {R : String → String → Prop} {empty : V} {add : T → V → V}
    {body body' : V → String} (h : ∀ v, R (body v) (body' v)) :
    AgreeUpTo R (memoryJoin empty add body) (memoryJoin empty add body') where
  join := rfl
  discard := rfl
  taken _ _ := rfl
  responses clientId state := .cons ⟨h (state.getD clientId empty), rfl⟩ .nil

/-- What is left open shows in the texts of the results only. -/
theorem indistinguishable_component {Choice : Type} {M : MsgPack A} {K : Carrier A V}
    {fn : Choice → JoinFn (Dict UUID V) (Dict UUID V) T} {R : String → String → Prop}
    (h : ∀ choice choice', AgreeUpTo R (fn choice) (fn choice')) (state : Dict UUID V) :
    (component M K fn R).Indistinguishable state state := by
  apply Component.indistinguishable_self
  intro choice choice' op state
  have hagree := h choice choice'
  cases op with
  | join el => exact ⟨.nothing, congrFun (congrFun hagree.join el) state⟩
  | getResponses clientId =>
      exact ⟨.responses (hagree.responses clientId state), hagree.taken clientId state⟩
  | discard clientId =>
      exact ⟨.nothing, congrFun (congrFun hagree.discard clientId) state⟩

/-! ## The fourth use case -/

/-- The line of an account in its result. -/
def uc4Line (e : String × String) : String :=
  "bank: " ++ padRight 20 e.1 ++ " account: " ++ e.2

theorem uc4Body_eq (order : SetOrder (String × String)) (counts : KeyedDict GraphSrc.Path.key ℤ) :
    uc4Body order counts = joinLines "--- UC4 ---"
      ((order.elems (pathAccounts counts)).map uc4Line ++ [""]) := by
  have hline : ∀ (text : String) (e : String × String),
      text ++ ("\nbank: " ++ padRight 20 e.1 ++ " account: " ++ e.2) =
        text ++ "\n" ++ uc4Line e := by
    intro text e
    have hbank : "\nbank: " = "\n" ++ "bank: " := rfl
    simp only [uc4Line, hbank, String.append_assoc]
  simp only [uc4Body, joinLines, hline, List.foldl_append, List.foldl_map, List.foldl_cons,
    List.foldl_nil, String.append_empty]

/-- The order of the set shows in the order of the lines only. -/
theorem sameLines_uc4Body (order order' : SetOrder (String × String))
    (counts : KeyedDict GraphSrc.Path.key ℤ) :
    SameLines (uc4Body order counts) (uc4Body order' counts) := by
  have hperm := (order.perm (pathAccounts counts)).trans (order'.perm _).symm
  exact ⟨"--- UC4 ---", "", _, _, hperm.map uc4Line, uc4Body_eq order counts,
    uc4Body_eq order' counts⟩

/-! ## The three carriers -/

/-- `MergedBankData`. -/
def uc2Carrier : Carrier A (BankEntries A) where
  cls := .mergedBankData
  body clientId entries := .mergedBankData ⟨clientId, entries⟩
  value?
    | .mergedBankData m => some m.entries
    | _ => none
  type_body _ _ := rfl
  wellTyped_body _ _ := trivial
  received_body _ _ := rfl
  value?_body _ _ := rfl

/-- `PathCounts`. -/
def uc4Carrier : Carrier A (KeyedDict GraphSrc.Path.key ℤ) where
  cls := .pathCounts
  body clientId counts := .pathCounts ⟨clientId, counts⟩
  value?
    | .pathCounts m => some m.counts
    | _ => none
  type_body _ _ := rfl
  wellTyped_body _ _ := trivial
  received_body _ _ := rfl
  value?_body _ _ := rfl

/-- `TransactionCount`. -/
def uc5Carrier : Carrier A ℕ where
  cls := .count
  body clientId count := .count ⟨clientId, count⟩
  value?
    | .count m => m.count.toNat?
    | _ => none
  type_body _ _ := rfl
  wellTyped_body _ _ := trivial
  received_body _ _ := rfl
  value?_body _ _ := rfl

/-! ## What is left open -/

variable {M : MsgPack A}

theorem indistinguishable_uc2Join {str : A → String} (state : Dict UUID (BankEntries A)) :
    (component M uc2Carrier (fun _ : Unit => uc2Join str) Eq).Indistinguishable state state :=
  indistinguishable_component (fun _ _ => agreeUpTo_memoryJoin fun _ => rfl) state

theorem indistinguishable_uc4Join (state : Dict UUID (KeyedDict GraphSrc.Path.key ℤ)) :
    (component M uc4Carrier uc4Join SameLines).Indistinguishable state state :=
  indistinguishable_component
    (fun order order' => agreeUpTo_memoryJoin (sameLines_uc4Body order order')) state

theorem indistinguishable_uc5Join (state : Dict UUID ℕ) :
    (component M uc5Carrier (fun _ : Unit => uc5Join) Eq).Indistinguishable state state := by
  rw [uc5Join_eq]
  exact indistinguishable_component (fun _ _ => agreeUpTo_memoryJoin fun _ => rfl) state

end JoinRouteHandler
