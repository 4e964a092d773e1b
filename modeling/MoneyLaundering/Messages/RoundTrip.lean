import MoneyLaundering.Messages.Classes

/-!
# Messages on the wire

A message is written as one byte for its class, sixteen bytes each for its client and its
producer, eight bytes for its sequence number, and its packed fields.  Reading it back gives
the same message, unless it is a message of merged transactions: the times of these are
written as texts and not parsed again.
-/

namespace Messages

variable {A : Type}

/-- An instance of one of the classes of messages. -/
inductive Body (A : Type) where
  | eof (m : EOF)
  | transactions (m : Transactions A)
  | accounts (m : Accounts)
  | fin (m : FIN)
  | response (m : Response)
  | maxByBank (m : MaxByBank A)
  | bankNames (m : BankNames)
  | mergedBankData (m : MergedBankData A)
  | graph (m : Graph)
  | pathCounts (m : PathCounts)
  | count (m : TransactionCount)
  | sumByPaymentFormat (m : SumByPaymentFormat A)
  | avgByFormat (m : AvgByFormat A)
  | mergedTransactions (m : MergedTransactions A)
  | ringDone (m : RingDone)
  | nodeMsg (m : NodeMsg)
  | pathMsg (m : PathMsg)
  | ringSentData (m : RingSentData)
  | highDegree (m : HighDegree)
  | hello
  | helloAck (m : HelloAck)
  | ringBarrier (m : RingBarrier)
  | abort (m : Abort)
  | supervisorElection
  | supervisorAck
  | supervisorLeader (m : SupervisorLeader)
deriving DecidableEq

namespace Body

/-- `_type`. -/
@[simp] def type : Body A → MessageType
  | eof _ => .eof
  | transactions _ => .transactions
  | accounts _ => .accounts
  | fin _ => .fin
  | response _ => .response
  | maxByBank _ => .maxByBank
  | bankNames _ => .bankNames
  | mergedBankData _ => .mergedBankData
  | graph _ => .graph
  | pathCounts _ => .pathCounts
  | count _ => .count
  | sumByPaymentFormat _ => .sumByPaymentFormat
  | avgByFormat _ => .avgByFormat
  | mergedTransactions _ => .mergedTransactions
  | ringDone _ => .ringDone
  | nodeMsg _ => .nodeMsg
  | pathMsg _ => .pathMsg
  | ringSentData _ => .ringSentData
  | highDegree _ => .highDegree
  | hello => .hello
  | helloAck _ => .helloAck
  | ringBarrier _ => .ringBarrier
  | abort _ => .abort
  | supervisorElection => .supervisorElection
  | supervisorAck => .supervisorAck
  | supervisorLeader _ => .supervisorLeader

/-- The client identifier, if the class has one. -/
@[simp] def clientId : Body A → Option UUID
  | eof m => some m.clientId
  | transactions m => some m.clientId
  | accounts m => some m.clientId
  | fin m => some m.clientId
  | response m => some m.clientId
  | maxByBank m => some m.clientId
  | bankNames m => some m.clientId
  | mergedBankData m => some m.clientId
  | graph m => some m.clientId
  | pathCounts m => some m.clientId
  | count m => some m.clientId
  | sumByPaymentFormat m => some m.clientId
  | avgByFormat m => some m.clientId
  | mergedTransactions m => some m.clientId
  | ringDone m => some m.clientId
  | nodeMsg m => some m.clientId
  | pathMsg m => some m.clientId
  | ringSentData m => some m.clientId
  | highDegree m => some m.clientId
  | hello => none
  | helloAck m => some m.clientId
  | ringBarrier m => some m.clientId
  | abort m => some m.clientId
  | supervisorElection => none
  | supervisorAck => none
  | supervisorLeader _ => none

/-- `_fields`, without the client identifier. -/
@[simp] def fields : Body A → List (Value A)
  | eof m => m.fields
  | transactions m => m.fields
  | accounts m => m.fields
  | fin m => m.fields
  | response m => m.fields
  | maxByBank m => m.fields
  | bankNames m => m.fields
  | mergedBankData m => m.fields
  | graph m => m.fields
  | pathCounts m => m.fields
  | count m => m.fields
  | sumByPaymentFormat m => m.fields
  | avgByFormat m => m.fields
  | mergedTransactions m => m.fields
  | ringDone m => m.fields
  | nodeMsg m => m.fields
  | pathMsg m => m.fields
  | ringSentData m => m.fields
  | highDegree m => m.fields
  | hello => []
  | helloAck m => m.fields
  | ringBarrier m => m.fields
  | abort m => m.fields
  | supervisorElection => []
  | supervisorAck => []
  | supervisorLeader m => m.fields

/-- `_from_fields` of a class. -/
@[simp] def fromFields : MessageType → List (Value A) → Option (Body A)
  | .eof, fs => (EOF.fromFields fs).map eof
  | .transactions, fs => (Transactions.fromFields fs).map transactions
  | .accounts, fs => (Accounts.fromFields fs).map accounts
  | .fin, fs => (ClientOnly.fromFields fs).map fin
  | .response, fs => (Response.fromFields fs).map response
  | .maxByBank, fs => (MaxByBank.fromFields fs).map maxByBank
  | .bankNames, fs => (BankNames.fromFields fs).map bankNames
  | .mergedBankData, fs => (MergedBankData.fromFields fs).map mergedBankData
  | .graph, fs => (Graph.fromFields fs).map graph
  | .pathCounts, fs => (PathCounts.fromFields fs).map pathCounts
  | .count, fs => (TransactionCount.fromFields fs).map count
  | .sumByPaymentFormat, fs => (SumByPaymentFormat.fromFields fs).map sumByPaymentFormat
  | .avgByFormat, fs => (AvgByFormat.fromFields fs).map avgByFormat
  | .mergedTransactions, fs => (MergedTransactions.fromFields fs).map mergedTransactions
  | .ringDone, fs => (RingDone.fromFields fs).map ringDone
  | .nodeMsg, fs => (NodeMsg.fromFields fs).map nodeMsg
  | .pathMsg, fs => (PathMsg.fromFields fs).map pathMsg
  | .ringSentData, fs => (RingSentData.fromFields fs).map ringSentData
  | .highDegree, fs => (HighDegree.fromFields fs).map highDegree
  | .hello, _ => some hello
  | .helloAck, fs => (ClientOnly.fromFields fs).map helloAck
  | .ringBarrier, fs => (RingBarrier.fromFields fs).map ringBarrier
  | .abort, fs => (ClientOnly.fromFields fs).map abort
  | .supervisorElection, _ => some supervisorElection
  | .supervisorAck, _ => some supervisorAck
  | .supervisorLeader, fs => (SupervisorLeader.fromFields fs).map supervisorLeader

/-- The fields have the types that the constructors declare: the times of transactions are
times, and the texts of the nodes that are written with a comma have none. -/
def WellTyped : Body A → Prop
  | transactions m => ∀ t ∈ m.transactions, t.timestamp.IsDatetime
  | mergedTransactions m => ∀ t ∈ m.transactions, t.timestamp.IsDatetime
  | nodeMsg m => m.CommaFree
  | _ => True

/-- Not a message of merged transactions that has a transaction. -/
def NoMergedTransaction : Body A → Prop
  | mergedTransactions m => m.transactions = []
  | _ => True

/-- What is read back: merged transactions have the texts of their times. -/
@[simp] def received : Body A → Body A
  | mergedTransactions m => mergedTransactions m.withTexts
  | body => body

/-- The first field that a class is built from. -/
@[simp] def firstField (body : Body A) : Value A := .str (uuidStr (body.clientId.getD 0))

theorem fromFields_fields {body : Body A} (h : body.WellTyped) :
    fromFields body.type (body.firstField :: body.fields) = some body.received := by
  cases body with
  | eof m => simp [m.fromFields_fields]
  | transactions m => simp [m.fromFields_fields h]
  | accounts m => simp [m.fromFields_fields]
  | fin m => simp [m.fromFields_fields]
  | response m => simp [m.fromFields_fields]
  | maxByBank m => simp [m.fromFields_fields]
  | bankNames m => simp [m.fromFields_fields]
  | mergedBankData m => simp [m.fromFields_fields]
  | graph m => simp [m.fromFields_fields]
  | pathCounts m => simp [m.fromFields_fields]
  | count m => simp [m.fromFields_fields]
  | sumByPaymentFormat m => simp [m.fromFields_fields]
  | avgByFormat m => simp [m.fromFields_fields]
  | mergedTransactions m => simp [m.fromFields_fields]
  | ringDone m => simp [m.fromFields_fields]
  | nodeMsg m => simp [m.fromFields_fields h]
  | pathMsg m => simp [m.fromFields_fields]
  | ringSentData m => simp [m.fromFields_fields]
  | highDegree m => simp [m.fromFields_fields]
  | hello => simp
  | helloAck m => simp [m.fromFields_fields]
  | ringBarrier m => simp [m.fromFields_fields]
  | abort m => simp [m.fromFields_fields]
  | supervisorElection => simp
  | supervisorAck => simp
  | supervisorLeader m => simp [m.fromFields_fields]

end Body

/-- A message, with the identity that its producer stamps. -/
structure Message (A : Type) where
  producerId : Bytes
  seq : ℕ
  body : Body A
deriving DecidableEq

/-- The client identifier on the wire, which is null without one, `DEFAULT_PREFIX`. -/
def prefixOf : Option UUID → Bytes
  | some c => uuidBytes c
  | none => List.replicate 16 0

/-- `serialize`, which fails on a sequence number of more than eight bytes. -/
def Message.serialize (M : MsgPack A) (m : Message A) : Option Bytes :=
  if m.seq < 256 ^ 8 then
    some ([m.body.type.toByte] ++ prefixOf m.body.clientId ++ m.producerId ++
      toBytes 8 m.seq ++ M.packb (.list m.body.fields))
  else none

/-- `deserialize` of a class. -/
def deserialize (M : MsgPack A) (cls : MessageType) (raw : Bytes) : Option (Message A) :=
  if raw.head? ≠ some cls.toByte then none
  else do
    let clientId ← uuidOfBytes (slice 1 17 raw)
    let fields ← (← M.unpackb (raw.drop 41)).list?
    let body ← Body.fromFields cls (.str (uuidStr clientId) :: fields)
    return ⟨slice 17 33 raw, fromBytes (slice 33 41 raw), body⟩

/-- The classes that `deserialize_message` knows. -/
def knownTypes : List MessageType :=
  [.hello, .helloAck, .eof, .transactions, .accounts, .fin, .response, .maxByBank,
    .bankNames, .mergedBankData, .graph, .highDegree, .pathCounts, .sumByPaymentFormat,
    .avgByFormat, .mergedTransactions, .count, .ringDone, .nodeMsg, .pathMsg, .ringSentData,
    .ringBarrier, .abort, .supervisorElection, .supervisorAck, .supervisorLeader]

/-- `deserialize_message`. -/
def deserializeMessage (M : MsgPack A) (raw : Bytes) : Option (Message A) := do
  let byte ← raw.head?
  let cls ← knownTypes.find? fun t => t.toByte = byte
  deserialize M cls raw

theorem find?_knownTypes (t : MessageType) :
    knownTypes.find? (fun t' => t'.toByte = t.toByte) = some t := by
  cases t <;> decide

@[simp] theorem length_prefixOf (c : Option UUID) : (prefixOf c).length = 16 := by
  cases c <;> simp [prefixOf, uuidBytes]

theorem uuidOfBytes_prefixOf (c : Option UUID) :
    uuidOfBytes (prefixOf c) = some (c.getD 0) := by
  cases c with
  | some c => exact uuidOfBytes_uuidBytes c
  | none => decide

/-- The parts of a header are found at their places. -/
theorem slices_header {b : UInt8} {client producer seq payload : Bytes}
    (hclient : client.length = 16) (hproducer : producer.length = 16)
    (hseq : seq.length = 8) (raw : Bytes)
    (hraw : raw = [b] ++ client ++ producer ++ seq ++ payload) :
    raw.head? = some b ∧ slice 1 17 raw = client ∧ slice 17 33 raw = producer ∧
      slice 33 41 raw = seq ∧ raw.drop 41 = payload := by
  subst hraw
  have hdrop (i : ℕ) (xs ys : Bytes) (h : xs.length = i) : (xs ++ ys).drop i = ys := by
    rw [← h, List.drop_left]
  have htake (i : ℕ) (xs ys : Bytes) (h : xs.length = i) : (xs ++ ys).take i = xs := by
    rw [← h, List.take_left]
  refine ⟨rfl, ?_, ?_, ?_, ?_⟩
  · rw [slice, List.append_assoc, List.append_assoc, List.append_assoc, hdrop 1 [b] _ rfl,
      htake 16 _ _ hclient]
  · rw [slice, List.append_assoc, List.append_assoc, hdrop 17 _ _ (by simp [hclient]),
      htake 16 _ _ hproducer]
  · rw [slice, List.append_assoc, hdrop 33 _ _ (by simp [hclient, hproducer]),
      htake 8 _ _ hseq]
  · exact hdrop 41 _ _ (by simp [hclient, hproducer, hseq])

variable {M : MsgPack A} {m : Message A}

/-- What the class of a message reads back. -/
theorem deserialize_serialize (hm : m.body.WellTyped) (hproducer : m.producerId.length = 16)
    (hseq : m.seq < 2 ^ 64)
    (hpack : M.unpackb (M.packb (.list m.body.fields)) = some (.list m.body.fields)) :
    ∃ raw, m.serialize M = some raw ∧ raw.head? = some m.body.type.toByte ∧
      deserialize M m.body.type raw = some { m with body := m.body.received } := by
  have hseq' : m.seq < 256 ^ 8 := hseq
  refine ⟨_, if_pos hseq', rfl, ?_⟩
  generalize hraw : [m.body.type.toByte] ++ prefixOf m.body.clientId ++ m.producerId ++
    toBytes 8 m.seq ++ M.packb (.list m.body.fields) = raw
  obtain ⟨hhead, hclient, hproducer, hstamp, hpayload⟩ := slices_header (by simp) hproducer
    (by simp) raw hraw.symm
  have hbody := Body.fromFields_fields hm
  rw [Body.firstField] at hbody
  rw [deserialize, if_neg (by simp [hhead]), hclient, hproducer, hstamp, hpayload,
    uuidOfBytes_prefixOf, hpack, fromBytes_toBytes hseq']
  simp only [Option.bind_eq_bind, Option.bind_some, Value.list?, hbody]
  rfl

/-- What comes back from the wire. -/
theorem deserializeMessage_serialize (hm : m.body.WellTyped)
    (hproducer : m.producerId.length = 16) (hseq : m.seq < 2 ^ 64)
    (hpack : M.unpackb (M.packb (.list m.body.fields)) = some (.list m.body.fields)) :
    (m.serialize M).bind (deserializeMessage M) =
      some { m with body := m.body.received } := by
  obtain ⟨raw, hraw, hhead, hback⟩ := deserialize_serialize hm hproducer hseq hpack
  rw [hraw, Option.bind_some, deserializeMessage, hhead]
  simp only [Option.bind_eq_bind, Option.bind_some, find?_knownTypes]
  exact hback

/-- A message comes back as it was but for the times of merged transactions. -/
theorem received_eq_iff {body : Body A} (h : body.WellTyped) :
    body.received = body ↔ body.NoMergedTransaction := by
  cases body with
  | mergedTransactions m =>
      simp only [Body.received, Body.NoMergedTransaction]
      constructor
      · intro heq
        cases hts : m.transactions with
        | nil => rfl
        | cons t ts =>
            have htime := h t (by simp [hts])
            have hwith := congrArg MergedTransactions.transactions
              (Body.mergedTransactions.inj heq)
            simp only [MergedTransactions.withTexts, hts, List.map_cons, List.cons.injEq]
              at hwith
            have htext : MergedTransactions.textOf t.timestamp = t.timestamp :=
              congrArg Transaction.timestamp hwith.1
            cases hstamp : t.timestamp with
            | datetime d => simp [hstamp, MergedTransactions.textOf] at htext
            | text s => simp [hstamp, Timestamp.IsDatetime] at htime
      · intro hnil
        obtain ⟨clientId, transactions, averages⟩ := m
        obtain rfl : transactions = [] := hnil
        rfl
  | _ => exact iff_of_true rfl trivial

/-- A message comes back from the wire as it was, class, identity and fields, if and only if
it has no merged transaction. -/
theorem wire_round_trip (M : MsgPack A) (m : Message A) (hm : m.body.WellTyped)
    (hproducer : m.producerId.length = 16) (hseq : m.seq < 2 ^ 64)
    (hpack : M.unpackb (M.packb (.list m.body.fields)) = some (.list m.body.fields)) :
    (m.serialize M).bind (deserializeMessage M) = some m ↔ m.body.NoMergedTransaction := by
  rw [deserializeMessage_serialize hm hproducer hseq hpack, ← received_eq_iff hm]
  constructor
  · intro heq
    exact congrArg Message.body (Option.some.inj heq)
  · intro heq
    rw [heq]

/-- The packing of one payload into the given bytes. -/
def packing (bytes : Bytes) (payload : List (Value A)) : MsgPack A :=
  ⟨fun _ => bytes, fun raw => if raw = bytes then some (.list payload) else none⟩

/-- A stamped count. -/
def countMsg : Message ℕ :=
  ⟨List.replicate 16 17, 1234567890, .count ⟨7, 7⟩⟩

/-- A stamped count comes back as it was. -/
theorem wire_round_trip_count :
    (countMsg.serialize (packing [145, 7] [.int 7])).bind
      (deserializeMessage (packing [145, 7] [.int 7])) = some countMsg :=
  (wire_round_trip (packing [145, 7] [.int 7]) countMsg trivial rfl (by decide) rfl).mpr
    trivial

/-- One merged transaction, of the first of September at twenty past midnight. -/
def mergedMsg : Message ℕ :=
  ⟨List.replicate 16 17, 1, .mergedTransactions ⟨7,
    [⟨.datetime ⟨2022, 9, 1, 0, 20, 0, by decide⟩, "1", "A", "2", "B", 10, "USD", 10, "USD",
      "ACH"⟩],
    Dict.empty.set "ACH" 10⟩⟩

/-- The bytes of its payload. -/
def mergedBytes : Bytes :=
  [147, 1, 154, 179, 50, 48, 50, 50, 45, 48, 57, 45, 48, 49, 32, 48, 48, 58, 50, 48, 58, 48,
    48, 161, 49, 161, 65, 161, 50, 161, 66, 203, 64, 36, 0, 0, 0, 0, 0, 0, 163, 85, 83, 68,
    203, 64, 36, 0, 0, 0, 0, 0, 0, 163, 85, 83, 68, 163, 65, 67, 72, 146, 163, 65, 67, 72,
    203, 64, 36, 0, 0, 0, 0, 0, 0]

/-- The time of a merged transaction comes back as a text. -/
theorem not_round_trip_merged :
    mergedMsg.body.WellTyped ∧ mergedMsg.producerId.length = 16 ∧ mergedMsg.seq < 2 ^ 64 ∧
    (mergedMsg.serialize (packing mergedBytes mergedMsg.body.fields)).bind
        (deserializeMessage (packing mergedBytes mergedMsg.body.fields)) =
      some { mergedMsg with body := .mergedTransactions ⟨7,
        [⟨.text "2022-09-01 00:20:00", "1", "A", "2", "B", 10, "USD", 10, "USD", "ACH"⟩],
        Dict.empty.set "ACH" 10⟩ } ∧
    (mergedMsg.serialize (packing mergedBytes mergedMsg.body.fields)).bind
      (deserializeMessage (packing mergedBytes mergedMsg.body.fields)) ≠ some mergedMsg := by
  have htyped : mergedMsg.body.WellTyped := by
    intro t ht
    rw [List.mem_singleton.mp ht]
    trivial
  have hback := deserializeMessage_serialize (M := packing mergedBytes mergedMsg.body.fields)
    htyped rfl (by decide) rfl
  refine ⟨htyped, rfl, by decide, hback.trans ?_, ?_⟩
  · decide
  · rw [hback]
    decide

end Messages
