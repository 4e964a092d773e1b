import MoneyLaundering.Messages.RoundTrip

/-!
# The identity of a message

The header of a message has its client, its producer and its sequence number at fixed
places.  A message whose header was written over is decoded to the same message with the
new identity, whatever its class and its payload are.
-/

namespace Messages

variable {A : Type}

/-! ## Client identifiers -/

/-- A slice that starts after the first entry does not depend on it. -/
theorem listSlice_cons {X : Type} {i : ℤ} (j : ℤ) (x y : X) (xs : List X)
    (h : sliceIndex (xs.length + 1) i ≠ 0) :
    listSlice i j (x :: xs) = listSlice i j (y :: xs) := by
  obtain ⟨k, hk⟩ := Nat.exists_eq_succ_of_ne_zero h
  rw [listSlice, listSlice, List.length_cons, List.length_cons, hk, List.drop_succ_cons,
    List.drop_succ_cons]

/-- The averages are not read from the first field, which is a text. -/
theorem MergedTransactions.mapM_averageOfRow (i : ℤ) (s s' : String) (fs : List (Value A)) :
    (listSlice i (fs.length + 1 : ℕ) (.str s :: fs)).mapM averageOfRow =
      (listSlice i (fs.length + 1 : ℕ) (.str s' :: fs)).mapM averageOfRow := by
  by_cases h : sliceIndex (fs.length + 1) i = 0
  · have hwhole (s : String) :
        (listSlice i (fs.length + 1 : ℕ) (.str s :: fs)).mapM averageOfRow = none := by
      have hend : sliceIndex (fs.length + 1) ((fs.length + 1 : ℕ) : ℤ) = fs.length + 1 := by
        rw [sliceIndex, if_neg (by omega), Int.toNat_natCast, Nat.min_self]
      rw [listSlice, List.length_cons, h, hend, List.drop_zero, List.take_of_length_le (by simp),
        List.mapM_cons]
      rfl
    rw [hwhole, hwhole]
  · rw [listSlice_cons _ _ (.str s') fs h]

/-- The fields do not depend on the client identifier. -/
theorem MergedTransactions.fromFields_client (c c' : UUID) (fs : List (Value A)) :
    fromFields (.str (uuidStr c') :: fs) =
      (fromFields (.str (uuidStr c) :: fs)).map fun m => { m with clientId := c' } := by
  cases fs with
  | nil => simp [fromFields, Value.str?]
  | cons v fs =>
      have htwo : sliceIndex ((v :: fs).length + 1) 2 ≠ 0 := by
        simp [sliceIndex]
      simp only [fromFields, List.getElem?_cons_zero, List.getElem?_cons_succ, Value.str?,
        Option.bind_eq_bind, Option.bind_some, uuidOfStr_uuidStr, Option.map_bind,
        Function.comp_def, listSlice_cons _ _ (.str (uuidStr c)) _ htwo, List.length_cons]
      have haverages (i : ℤ) := mapM_averageOfRow i (uuidStr c') (uuidStr c) (v :: fs)
      simp only [List.length_cons] at haverages
      simp only [haverages]
      rfl

namespace Body
/-- The message with another client identifier, if its class has one. -/
def withClientId (c : UUID) : Body A → Body A
  | eof m => eof { m with clientId := c }
  | transactions m => transactions { m with clientId := c }
  | accounts m => accounts { m with clientId := c }
  | fin _ => fin ⟨c⟩
  | response m => response { m with clientId := c }
  | maxByBank m => maxByBank { m with clientId := c }
  | bankNames m => bankNames { m with clientId := c }
  | mergedBankData m => mergedBankData { m with clientId := c }
  | graph m => graph { m with clientId := c }
  | pathCounts m => pathCounts { m with clientId := c }
  | count m => count { m with clientId := c }
  | sumByPaymentFormat m => sumByPaymentFormat { m with clientId := c }
  | avgByFormat m => avgByFormat { m with clientId := c }
  | mergedTransactions m => mergedTransactions { m with clientId := c }
  | ringDone m => ringDone { m with clientId := c }
  | nodeMsg m => nodeMsg { m with clientId := c }
  | pathMsg m => pathMsg { m with clientId := c }
  | ringSentData m => ringSentData { m with clientId := c }
  | highDegree m => highDegree { m with clientId := c }
  | hello => hello
  | helloAck _ => helloAck ⟨c⟩
  | ringBarrier m => ringBarrier { m with clientId := c }
  | abort _ => abort ⟨c⟩
  | supervisorElection => supervisorElection
  | supervisorAck => supervisorAck
  | supervisorLeader m => supervisorLeader m

@[simp] theorem type_withClientId (c : UUID) (body : Body A) :
    (body.withClientId c).type = body.type := by
  cases body with
  | _ => rfl

/-- All other fields are kept. -/
@[simp] theorem fields_withClientId (c : UUID) (body : Body A) :
    (body.withClientId c).fields = body.fields := by
  cases body with
  | _ => rfl

@[simp] theorem withClientId_withClientId (c c' : UUID) (body : Body A) :
    (body.withClientId c).withClientId c' = body.withClientId c' := by
  cases body with
  | _ => rfl

/-- A class builds messages of its own. -/
theorem type_of_fromFields {cls : MessageType} {fs : List (Value A)} {body : Body A}
    (h : fromFields cls fs = some body) : body.type = cls := by
  cases cls with
  | hello | supervisorElection | supervisorAck =>
      obtain rfl := Option.some.inj h
      rfl
  | _ =>
      obtain ⟨m, -, rfl⟩ := Option.map_eq_some_iff.mp h
      rfl

/-- The text of the client identifier is looked at for the client identifier only. -/
theorem fromFields_client (c c' : UUID) (cls : MessageType) (fs : List (Value A)) :
    fromFields cls (.str (uuidStr c') :: fs) =
      (fromFields cls (.str (uuidStr c) :: fs)).map (withClientId c') := by
  cases cls with
  | eof | response | ringDone | ringSentData =>
      simp only [fromFields, EOF.fromFields, Response.fromFields, RingDone.fromFields,
        RingSentData.fromFields, withClient_cons, Option.map_map]
      split
      · simp only [Option.bind_eq_bind, Option.map_bind, Function.comp_def]
        rfl
      · rfl
  | ringBarrier =>
      simp only [fromFields, RingBarrier.fromFields, withClient_cons, Option.map_map]
      split
      · simp only [Option.bind_eq_bind, Option.map_bind, Function.comp_def]
        rfl
      · simp only [Option.bind_eq_bind, Option.map_bind, Function.comp_def]
        rfl
      · rfl
  | mergedTransactions =>
      rw [fromFields, fromFields, MergedTransactions.fromFields_client c c', Option.map_map,
        Option.map_map]
      exact congrFun (congrArg Option.map (funext fun m => rfl)) _
  | supervisorLeader => simp [SupervisorLeader.fromFields, withClientId, Function.comp_def]
  | hello | supervisorElection | supervisorAck => rfl
  | _ =>
      simp only [fromFields, Transactions.fromFields, Accounts.fromFields, ClientOnly.fromFields,
        MaxByBank.fromFields, BankNames.fromFields, MergedBankData.fromFields, Graph.fromFields,
        PathCounts.fromFields, TransactionCount.fromFields, SumByPaymentFormat.fromFields,
        AvgByFormat.fromFields, NodeMsg.fromFields, PathMsg.fromFields, HighDegree.fromFields,
        withClient_cons, Option.map_map, Option.bind_eq_bind, Option.map_bind,
        Function.comp_def]
      rfl

end Body

/-! ## Headers -/

/-- The parts of a message on the wire. -/
structure Wire where
  type : UInt8
  client : Bytes
  producer : Bytes
  seq : Bytes
  payload : Bytes
  length_client : client.length = 16
  length_producer : producer.length = 16
  length_seq : seq.length = 8

namespace Wire

variable {M : MsgPack A}

/-- The bytes that are sent. -/
def bytes (w : Wire) : Bytes := [w.type] ++ w.client ++ w.producer ++ w.seq ++ w.payload

/-- The same message of another client. -/
def withClient (client : Bytes) (h : client.length = 16) (w : Wire) : Wire :=
  { w with client := client, length_client := h }

/-- The same message with another stamp. -/
def withStamp (producer : Bytes) (h : producer.length = 16) (seq : ℕ) (w : Wire) : Wire :=
  { w with
    producer := producer
    seq := toBytes 8 seq
    length_producer := h
    length_seq := length_toBytes 8 seq }

theorem slices (w : Wire) : w.bytes.head? = some w.type ∧ slice 1 17 w.bytes = w.client ∧
    slice 17 33 w.bytes = w.producer ∧ slice 33 41 w.bytes = w.seq ∧
      w.bytes.drop 41 = w.payload :=
  slices_header w.length_client w.length_producer w.length_seq w.bytes rfl

/-- A message that is at least a header long has these parts. -/
theorem exists_bytes_eq {raw : Bytes} (h : 41 ≤ raw.length) : ∃ w : Wire, w.bytes = raw := by
  obtain ⟨b, rest, rfl⟩ := List.exists_cons_of_length_pos (by omega : 0 < raw.length)
  rw [List.length_cons] at h
  refine ⟨⟨b, rest.take 16, (rest.drop 16).take 16, (rest.drop 32).take 8, rest.drop 40,
    ?_, ?_, ?_⟩, ?_⟩
  · rw [List.length_take]
    omega
  · rw [List.length_take, List.length_drop]
    omega
  · rw [List.length_take, List.length_drop]
    omega
  · rw [bytes, List.append_assoc, List.append_assoc, List.append_assoc, take_drop_append rest 32 8,
      take_drop_append rest 16 16, List.take_append_drop]
    rfl

/-- What is serialized has these parts. -/
theorem exists_bytes_of_serialize {m : Message A} {raw : Bytes}
    (hproducer : m.producerId.length = 16) (h : m.serialize M = some raw) :
    ∃ w : Wire, w.bytes = raw ∧ w.type = m.body.type.toByte := by
  rw [Message.serialize] at h
  split at h
  · refine ⟨⟨_, _, m.producerId, _, _, length_prefixOf m.body.clientId, hproducer,
      length_toBytes 8 m.seq⟩, Option.some.inj h, rfl⟩
  · cases h

/-- What is decoded depends on the parts. -/
theorem deserializeMessage_bytes (w : Wire) :
    deserializeMessage M w.bytes =
      (knownTypes.find? fun t => t.toByte = w.type).bind fun cls =>
        (uuidOfBytes w.client).bind fun c =>
          ((M.unpackb w.payload).bind Value.list?).bind fun fields =>
            (Body.fromFields cls (.str (uuidStr c) :: fields)).map fun body =>
              ⟨w.producer, fromBytes w.seq, body⟩ := by
  obtain ⟨hhead, hclient, hproducer, hseq, hpayload⟩ := w.slices
  rw [deserializeMessage, hhead]
  simp only [Option.bind_eq_bind, Option.bind_some]
  cases hfind : knownTypes.find? fun t => t.toByte = w.type with
  | none => rfl
  | some cls =>
      have htype : cls.toByte = w.type := by simpa using List.find?_some hfind
      rw [Option.bind_some, Option.bind_some, deserialize, hhead, htype, if_neg (by simp),
        hclient, hproducer, hseq, hpayload]
      simp only [Option.bind_eq_bind, Option.bind_assoc, Option.map_eq_bind]
      rfl

/-- A message that is decoded has the class that its first byte stands for. -/
theorem type_of_deserializeMessage {w : Wire} {m : Message A}
    (h : deserializeMessage M w.bytes = some m) : m.body.type.toByte = w.type := by
  rw [deserializeMessage_bytes] at h
  obtain ⟨cls, hfind, h⟩ := Option.bind_eq_some_iff.mp h
  obtain ⟨c, -, h⟩ := Option.bind_eq_some_iff.mp h
  obtain ⟨fields, -, h⟩ := Option.bind_eq_some_iff.mp h
  obtain ⟨body, hbody, rfl⟩ := Option.map_eq_some_iff.mp h
  rw [Body.type_of_fromFields hbody]
  simpa using List.find?_some hfind

/-- A message that has another client on the wire is decoded to a message of that client. -/
theorem deserializeMessage_withClient (w : Wire) (c : UUID) (h : (uuidBytes c).length = 16) :
    deserializeMessage M (w.withClient (uuidBytes c) h).bytes =
      (deserializeMessage M w.bytes).map fun m => { m with body := m.body.withClientId c } := by
  have hold : uuidOfBytes w.client = some (BitVec.ofNat 128 (fromBytes w.client)) :=
    if_pos w.length_client
  rw [deserializeMessage_bytes, deserializeMessage_bytes, hold, withClient,
    uuidOfBytes_uuidBytes]
  simp only [Option.bind_some, Option.map_bind, Function.comp_def, Option.map_map,
    Body.fromFields_client (BitVec.ofNat 128 (fromBytes w.client)) c]

/-- A message that has another stamp on the wire is decoded to a message with that stamp. -/
theorem deserializeMessage_withStamp (w : Wire) {producer : Bytes} (h : producer.length = 16)
    {seq : ℕ} (hseq : seq < 256 ^ 8) :
    deserializeMessage M (w.withStamp producer h seq).bytes =
      (deserializeMessage M w.bytes).map fun m => ⟨producer, seq, m.body⟩ := by
  rw [deserializeMessage_bytes, deserializeMessage_bytes, withStamp, fromBytes_toBytes hseq]
  simp only [Option.map_bind, Function.comp_def, Option.map_map]

end Wire

end Messages
