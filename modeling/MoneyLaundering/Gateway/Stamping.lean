import MoneyLaundering.Gateway.ClientStream
import MoneyLaundering.Messages.Identity

/-!
# Stamps

A `StampingMOM` writes its producer and the next sequence number over the header of a
message, and the gateway writes the identifier that it gave the client.  Both splice bytes
at fixed places, and what they write is what is decoded.
-/

open Messages

/-- `_UNSTAMPED_TYPES`. -/
def unstampedTypes : List UInt8 :=
  [MessageType.eof, .abort, .ringDone, .ringSentData, .fin, .hello, .helloAck].map
    MessageType.toByte

/-- A `StampingMOM`.  Its counter may be shared with others, so it is not a part of it. -/
structure StampingMOM where
  producerId : Bytes
  length_producerId : producerId.length = 16

namespace StampingMOM

/-- `peek_type`, which fails without a first byte. -/
def peekType (raw : Bytes) : Option UInt8 := raw.head?

/-- The message with a stamp; a sequence number must fit into `SEQ_BYTES`. -/
def stamp (producerId : Bytes) (seq : ℕ) (message : Bytes) : Option Bytes :=
  if seq < 256 ^ 8 then
    some (message.take 17 ++ producerId ++ toBytes 8 seq ++ message.drop 41)
  else none

/-- `send`: what is handed to the inner connection, and the counter after it. -/
def send (mom : StampingMOM) (counter : ℕ) (message : Bytes) : Option Bytes × ℕ :=
  match peekType message with
  | none => (none, counter)
  | some t =>
    if t ∈ unstampedTypes then (some message, counter)
    else (stamp mom.producerId (counter + 1) message, counter + 1)

/-- `send_stamped`. -/
def sendStamped (message producerId : Bytes) (seq : ℕ) : Option Bytes :=
  match peekType message with
  | none => none
  | some t => if t ∈ unstampedTypes then some message else stamp producerId seq message

/-! ## Splicing -/

theorem stamp_bytes (w : Wire) {producer : Bytes} (h : producer.length = 16) {seq : ℕ}
    (hseq : seq < 2 ^ 64) :
    stamp producer seq w.bytes = some (w.withStamp producer h seq).bytes := by
  have hpayload := w.slices.2.2.2.2
  have htake : w.bytes.take 17 = [w.type] ++ w.client := by
    rw [Wire.bytes, List.append_assoc, List.append_assoc]
    exact List.take_left' (by simp [w.length_client])
  have hseq' : seq < 256 ^ 8 := hseq
  rw [stamp, if_pos hseq', hpayload, htake]
  rfl

theorem send_bytes (mom : StampingMOM) {counter : ℕ} (hseq : counter + 1 < 2 ^ 64) (w : Wire) :
    mom.send counter w.bytes =
      if w.type ∈ unstampedTypes then (some w.bytes, counter)
      else (some (w.withStamp mom.producerId mom.length_producerId (counter + 1)).bytes,
        counter + 1) := by
  rw [send, peekType, w.slices.1, stamp_bytes w mom.length_producerId hseq]

theorem sendStamped_bytes (w : Wire) {producer : Bytes} (h : producer.length = 16) {seq : ℕ}
    (hseq : seq < 2 ^ 64) :
    sendStamped w.bytes producer seq =
      if w.type ∈ unstampedTypes then some w.bytes
      else some (w.withStamp producer h seq).bytes := by
  rw [sendStamped, peekType, w.slices.1, stamp_bytes w h hseq]

/-- A message of a type that is not stamped is handed on as it is, with no number. -/
theorem send_of_mem {t : UInt8} {message : Bytes} (hhead : message.head? = some t)
    (h : t ∈ unstampedTypes) (mom : StampingMOM) (counter : ℕ) :
    mom.send counter message = (some message, counter) := by
  rw [send, peekType, hhead]
  exact if_pos h

theorem sendStamped_of_mem {t : UInt8} {message : Bytes} (hhead : message.head? = some t)
    (h : t ∈ unstampedTypes) (producer : Bytes) (seq : ℕ) :
    sendStamped message producer seq = some message := by
  rw [sendStamped, peekType, hhead]
  exact if_pos h

end StampingMOM

theorem ClientStream.stampId_bytes {h : ClientStream} (hid : h.id.length = 16) (w : Wire) :
    h.stampId w.bytes = (w.withClient h.id hid).bytes := by
  have hdrop : w.bytes.drop 17 = w.producer ++ w.seq ++ w.payload := by
    rw [Wire.bytes, List.append_assoc, List.append_assoc, ← List.append_assoc w.producer]
    exact List.drop_left' (by simp [w.length_client])
  rw [stampId, hdrop, Wire.bytes, Wire.withClient, ← List.append_assoc, ← List.append_assoc]
  rfl

namespace Messages

/-! ## Rewriting -/

/-- A step that writes over a header. -/
inductive Rewrite where
  /-- `_stamp_id` of the handler of client `c`. -/
  | stampId (h : ClientStream) (c : UUID) (hid : h.id = uuidBytes c)
  /-- `send`, whose counter is where it is. -/
  | send (mom : StampingMOM) (counter : ℕ) (hseq : counter + 1 < 2 ^ 64)
  /-- `send_stamped`. -/
  | sendStamped (producer : Bytes) (hproducer : producer.length = 16) (seq : ℕ)
      (hseq : seq < 2 ^ 64)

namespace Rewrite

variable {A : Type}

/-- The bytes after one step. -/
def apply : Rewrite → Bytes → Option Bytes
  | stampId h _ _, raw => some (h.stampId raw)
  | send mom counter _, raw => (mom.send counter raw).1
  | sendStamped producer _ seq _, raw => StampingMOM.sendStamped raw producer seq

/-- The bytes after all steps. -/
def applyAll : List Rewrite → Bytes → Option Bytes
  | [], raw => some raw
  | r :: rs, raw => (r.apply raw).bind (applyAll rs)

/-- The client that a step writes. -/
def client? : Rewrite → Option UUID
  | stampId _ c _ => some c
  | _ => none

/-- The producer and the sequence number that a step writes. -/
def stamp? : Rewrite → Option (Bytes × ℕ)
  | stampId _ _ _ => none
  | send mom counter _ => some (mom.producerId, counter + 1)
  | sendStamped producer _ seq _ => some (producer, seq)

/-- The client that is written last. -/
def lastClient (rs : List Rewrite) : Option UUID := (rs.filterMap client?).getLast?

/-- The stamp that is written last. -/
def lastStamp (rs : List Rewrite) : Option (Bytes × ℕ) := (rs.filterMap stamp?).getLast?

end Rewrite

namespace Message

variable {A : Type}

/-- The message of the given client, if any. -/
def ofClient (c : Option UUID) (m : Message A) : Message A :=
  match c with
  | none => m
  | some c => { m with body := m.body.withClientId c }

/-- The message with the given stamp, if any and if it is of a type that is stamped. -/
def stamped (stamp : Option (Bytes × ℕ)) (m : Message A) : Message A :=
  match stamp with
  | none => m
  | some (producer, seq) =>
    if m.body.type.toByte ∈ unstampedTypes then m else ⟨producer, seq, m.body⟩

@[simp] theorem type_ofClient (c : Option UUID) (m : Message A) :
    (m.ofClient c).body.type = m.body.type := by
  cases c with
  | none => rfl
  | some c => exact Body.type_withClientId c m.body

@[simp] theorem fields_ofClient (c : Option UUID) (m : Message A) :
    (m.ofClient c).body.fields = m.body.fields := by
  cases c with
  | none => rfl
  | some c => exact Body.fields_withClientId c m.body

/-- A stamp changes the identity only. -/
@[simp] theorem body_stamped (stamp : Option (Bytes × ℕ)) (m : Message A) :
    (m.stamped stamp).body = m.body := by
  cases stamp with
  | none => rfl
  | some stamp =>
      rw [stamped]
      split
      · rfl
      · rfl

theorem ofClient_ofClient (c c' : Option UUID) (m : Message A) :
    (m.ofClient c).ofClient c' = m.ofClient (c'.or c) := by
  cases c' with
  | none => rfl
  | some c' =>
      cases c with
      | none => rfl
      | some c =>
          exact congrArg (fun body => { m with body := body })
            (Body.withClientId_withClientId c c' m.body)

theorem ofClient_stamped (stamp : Option (Bytes × ℕ)) (c : Option UUID) (m : Message A) :
    (m.stamped stamp).ofClient c = (m.ofClient c).stamped stamp := by
  cases stamp with
  | none => rfl
  | some stamp =>
      rw [stamped, stamped, type_ofClient]
      cases c with
      | none => rfl
      | some c =>
          split
          · rfl
          · rfl

theorem stamped_stamped (stamp stamp' : Option (Bytes × ℕ)) (m : Message A) :
    (m.stamped stamp).stamped stamp' = m.stamped (stamp'.or stamp) := by
  cases stamp' with
  | none => rfl
  | some stamp' =>
      rw [Option.some_or, stamped, body_stamped, stamped]
      split
      · rename_i hmem
        cases stamp with
        | none => rfl
        | some stamp => rw [stamped, if_pos hmem]
      · rfl

end Message

namespace Rewrite

variable {A : Type} {M : MsgPack A}

/-- One step, on the parts of a message. -/
theorem exists_apply (r : Rewrite) (w : Wire) : ∃ w' : Wire, r.apply w.bytes = some w'.bytes ∧
    deserializeMessage M w'.bytes =
      (deserializeMessage M w.bytes).map fun m => (m.ofClient r.client?).stamped r.stamp? := by
  have hstamp {producer : Bytes} (h : producer.length = 16) {seq : ℕ} (hseq : seq < 2 ^ 64)
      (hnot : w.type ∉ unstampedTypes) :
      deserializeMessage M (w.withStamp producer h seq).bytes =
        (deserializeMessage M w.bytes).map (Message.stamped (some (producer, seq))) := by
    rw [w.deserializeMessage_withStamp h hseq]
    apply Option.map_congr
    intro m hm
    rw [Message.stamped, if_neg]
    rwa [Wire.type_of_deserializeMessage hm]
  have hsame (stamp : Bytes × ℕ) (hmem : w.type ∈ unstampedTypes) :
      deserializeMessage M w.bytes =
        (deserializeMessage M w.bytes).map (Message.stamped (some stamp)) := by
    cases hdecode : deserializeMessage M w.bytes with
    | none => rfl
    | some m =>
        rw [Option.map_some, Message.stamped, if_pos]
        rwa [Wire.type_of_deserializeMessage hdecode]
  cases r with
  | stampId h c hid =>
      have hlength : h.id.length = 16 := by rw [hid, uuidBytes, length_toBytes]
      refine ⟨_, congrArg some (ClientStream.stampId_bytes hlength w), ?_⟩
      simp only [hid]
      exact w.deserializeMessage_withClient c _
  | send mom counter hseq =>
      rw [apply, mom.send_bytes hseq]
      split
      · rename_i hmem
        exact ⟨w, rfl, hsame _ hmem⟩
      · rename_i hnot
        exact ⟨_, rfl, hstamp _ hseq hnot⟩
  | sendStamped producer hproducer seq hseq =>
      rw [apply, StampingMOM.sendStamped_bytes w hproducer hseq]
      split
      · rename_i hmem
        exact ⟨w, rfl, hsame _ hmem⟩
      · rename_i hnot
        exact ⟨_, rfl, hstamp hproducer hseq hnot⟩

theorem getLast?_filterMap_cons {X : Type} (f : Rewrite → Option X) (r : Rewrite)
    (rs : List Rewrite) :
    ((r :: rs).filterMap f).getLast? = (rs.filterMap f).getLast?.or (f r) := by
  rw [List.filterMap_cons]
  cases f r with
  | none => rw [Option.or_none]
  | some x =>
      rw [List.getLast?_cons]
      cases (rs.filterMap f).getLast? with
      | none => rfl
      | some y => rfl

/-- The steps that were made last count. -/
theorem stamped_ofClient_cons (r : Rewrite) (rs : List Rewrite) (m : Message A) :
    (((m.ofClient r.client?).stamped r.stamp?).ofClient (lastClient rs)).stamped (lastStamp rs) =
      (m.ofClient (lastClient (r :: rs))).stamped (lastStamp (r :: rs)) := by
  rw [Message.ofClient_stamped, Message.stamped_stamped, Message.ofClient_ofClient, lastClient,
    lastStamp, lastClient, lastStamp, getLast?_filterMap_cons, getLast?_filterMap_cons]

theorem exists_applyAll (rs : List Rewrite) (w : Wire) : ∃ w' : Wire,
    applyAll rs w.bytes = some w'.bytes ∧ deserializeMessage M w'.bytes =
      (deserializeMessage M w.bytes).map fun m =>
        (m.ofClient (lastClient rs)).stamped (lastStamp rs) := by
  induction rs generalizing w with
  | nil => exact ⟨w, rfl, Option.map_id'.symm⟩
  | cons r rs ih =>
      obtain ⟨w', happly, hdecode⟩ := r.exists_apply (M := M) w
      obtain ⟨w'', happlyAll, hdecodeAll⟩ := ih w'
      refine ⟨w'', ?_, ?_⟩
      · rw [applyAll, happly, Option.bind_some, happlyAll]
      · rw [hdecodeAll, hdecode, Option.map_map]
        simp only [Function.comp_def, stamped_ofClient_cons]

/-- Whatever steps write over the header of a serialized message, it is decoded to what it
was decoded to before, with the client and the stamp that were written last; a message of a
type that is not stamped is handed on byte for byte, and no number is used for it. -/
theorem decoding_commutes (M : MsgPack A) (m : Message A) {raw : Bytes}
    (hproducer : m.producerId.length = 16) (hraw : m.serialize M = some raw)
    (rs : List Rewrite) :
    (∃ raw', applyAll rs raw = some raw' ∧ deserializeMessage M raw' =
      (deserializeMessage M raw).map fun m =>
        (m.ofClient (lastClient rs)).stamped (lastStamp rs)) ∧
    (m.body.type.toByte ∈ unstampedTypes →
      (∀ (mom : StampingMOM) (counter : ℕ), mom.send counter raw = (some raw, counter)) ∧
      ∀ (producer : Bytes) (seq : ℕ),
        StampingMOM.sendStamped raw producer seq = some raw) := by
  obtain ⟨w, rfl, htype⟩ := Wire.exists_bytes_of_serialize hproducer hraw
  constructor
  · obtain ⟨w', happly, hdecode⟩ := exists_applyAll rs w
    exact ⟨w'.bytes, happly, hdecode⟩
  · intro hmem
    have hhead := w.slices.1
    rw [← htype] at hmem
    constructor
    · exact StampingMOM.send_of_mem hhead hmem
    · exact StampingMOM.sendStamped_of_mem hhead hmem

/-- A gateway gives its client the identifier `8`, stamps the count as its fifth message,
and a filter stamps it again. -/
def countRewrites : List Rewrite :=
  [.stampId { ClientStream.closedEarly with id := uuidBytes 8 } 8 rfl,
    .send ⟨List.replicate 16 3, rfl⟩ 4 (by decide),
    .sendStamped (List.replicate 16 9) rfl 12 (by decide)]

theorem decoding_commutes_count : ∃ raw raw',
    countMsg.serialize (packing [145, 7] [.int 7]) = some raw ∧
    applyAll countRewrites raw = some raw' ∧
    deserializeMessage (packing [145, 7] [.int 7]) raw' =
      some (⟨List.replicate 16 9, 12, .count ⟨8, 7⟩⟩ : Message ℕ) := by
  have hraw : ∃ raw, countMsg.serialize (packing [145, 7] [.int 7]) = some raw := ⟨_, rfl⟩
  obtain ⟨raw, hraw⟩ := hraw
  obtain ⟨⟨raw', happly, hdecode⟩, -⟩ :=
    decoding_commutes (packing [145, 7] [.int 7]) countMsg rfl hraw countRewrites
  have hback := deserializeMessage_serialize (M := packing [145, 7] [.int 7]) (m := countMsg)
    trivial rfl (by decide) rfl
  rw [hraw, Option.bind_some] at hback
  refine ⟨raw, raw', hraw, happly, ?_⟩
  rw [hdecode, hback]
  decide

end Rewrite

end Messages
