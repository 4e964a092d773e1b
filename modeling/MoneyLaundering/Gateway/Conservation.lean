import Mathlib.Algebra.BigOperators.Group.Finset.Piecewise
import Mathlib.Data.Int.CardIntervalMod
import MoneyLaundering.Gateway.Framing
import MoneyLaundering.Gateway.ShardedSeqs
import MoneyLaundering.Gateway.Stamping

/-!
# What the shards of a stream get

The gateway deals the messages of a stream to the shards in turn, and the stampers of the
shards share one counter.  Each message reaches one shard with a number of its own, and
each shard is told how many messages it got.
-/

open Connection Messages

namespace ClientStream

variable {A : Type}

/-- What is sent for a message to a shard, `serialize`. -/
def serialized (M : MsgPack A) (c : UUID) : ShardMsg → Option Bytes
  | .data raw => some raw
  | .eof count => Message.serialize M
      ⟨List.replicate 16 0, 0, .eof ⟨c, -1, count, -1, -1, Dict.empty⟩⟩
  | .abort => Message.serialize M ⟨List.replicate 16 0, 0, .abort ⟨c⟩⟩

/-- What the stampers of the shards hand to their queues, if none of them fails.  They have
one producer and share the counter. -/
def handedOn (M : MsgPack A) (c : UUID) (mom : StampingMOM) :
    ℕ → List (Shard × ShardMsg) → Option (List (Shard × Bytes))
  | _, [] => some []
  | counter, (shard, msg) :: sent => do
    let message ← serialized M c msg
    let stamped ← (mom.send counter message).1
    let rest ← handedOn M c mom (mom.send counter message).2 sent
    return (shard, stamped) :: rest

/-- The messages of a stream that came to a shard. -/
def countOf (shard : Shard) (data : List (Shard × Bytes)) : ℕ :=
  (data.filter fun e => e.1 = shard).length

/-- The sequence number on the wire. -/
def seqOf (raw : Bytes) : ℕ := Messages.fromBytes (slice 33 41 raw)

/-- The type and the payload of a message with a new identity. -/
structure Restamped (id producer raw stamped : Bytes) : Prop where
  type : stamped.head? = raw.head?
  payload : stamped.drop 41 = raw.drop 41
  client : slice 1 17 stamped = id
  producer : slice 17 33 stamped = producer

/-- The stream `messages` is conserved in the data and the end-of-files that are handed to
the queues of `n` shards. -/
structure Conserved (M : MsgPack A) (c : UUID) (id producer : Bytes) (n : ℕ)
    (shard : ℕ → Shard) (messages : List Bytes) (data eofs : List (Shard × Bytes)) : Prop where
  own : ∀ e ∈ data, ∃ i < n, e.1 = shard i
  kept : List.Forall₂ (Restamped id producer) messages (data.map Prod.snd)
  numbered : (data.map fun e => seqOf e.2) = List.range' 1 messages.length
  increasing : ∀ i < n,
    ((data.filter fun e => e.1 = shard i).map fun e => seqOf e.2).Pairwise (· < ·)
  /-- The end-of-file of a shard tells the number of its messages. -/
  counted : List.Forall₂ (fun i eof => eof.1 = shard i ∧
    serialized M c (.eof (countOf (shard i) data)) = some eof.2) (List.range n) eofs
  total : ∑ i ∈ Finset.range n, countOf (shard i) data = messages.length
  balanced : ∀ i < n, ∀ j < n, countOf (shard i) data ≤ countOf (shard j) data + 1

/-! ## Dealing -/

variable {h : ClientStream} {n : ℕ} {shard : ℕ → Shard} {dataType : MessageType}

/-- The next frame is the next message. -/
theorem recv_of_frames {skt : Socket} {raw : Bytes} {more : List Bytes}
    (hframes : frames skt.bytes = raw :: more) :
    ∃ skt', recv h.keepRunning skt = some (raw, skt') ∧ frames skt'.bytes = more := by
  cases hframe : frame? skt.bytes with
  | none =>
      rw [frames_of_none hframe] at hframes
      cases hframes
  | some r =>
      obtain ⟨raw', rest⟩ := r
      rw [frames_of_some hframe] at hframes
      obtain ⟨rfl, rfl⟩ := List.cons.inj hframes
      obtain ⟨skt', hrecv, hbytes⟩ :
          ∃ skt', recv h.keepRunning skt = some (raw', skt') ∧ skt'.bytes = rest :=
        recv_of_frame hframe
      exact ⟨skt', hrecv, by rw [hbytes]⟩

/-- The counts of the shards, after `m` messages from turn `rr` on. -/
def dealt (n : ℕ) : ℕ → ℕ → List ℕ → List ℕ
  | 0, _, counts => counts
  | m + 1, rr, counts => dealt n m (rr + 1) (counts.modify (rr % n) (· + 1))

/-- Message `t` is dealt to shard `t % n`. -/
theorem forwardSharded_frames (n : ℕ) (shard : ℕ → Shard)
    (htype : dataType.toByte ≠ MessageType.eof.toByte)
    {messages rest : List Bytes} {eof : Bytes}
    (hdata : ∀ raw ∈ messages, raw.head? = some dataType.toByte)
    (heof : eof.head? = some MessageType.eof.toByte) {skt : Socket}
    (hframes : frames skt.bytes = messages ++ eof :: rest) (counts : List ℕ) (rr : ℕ) :
    (h.forwardSharded n shard dataType skt counts rr).ended = .eof ∧
    (h.forwardSharded n shard dataType skt counts rr).sent =
      ((messages.zipIdx rr).map fun e => (shard (e.2 % n), .data (h.stampId e.1))) ++
        (List.range n).map fun i =>
          (shard i, .eof ((dealt n messages.length rr counts).getD i 0)) := by
  induction messages generalizing skt counts rr with
  | nil =>
      obtain ⟨skt', hrecv, -⟩ := recv_of_frames (h := h) hframes
      obtain ⟨raw, rfl⟩ := List.head?_eq_some_iff.mp heof
      rw [forwardSharded_of_cons hrecv, if_pos rfl]
      exact ⟨rfl, rfl⟩
  | cons raw messages ih =>
      obtain ⟨skt', hrecv, hmore⟩ := recv_of_frames (h := h) hframes
      obtain ⟨raw', rfl⟩ := List.head?_eq_some_iff.mp (hdata raw List.mem_cons_self)
      obtain ⟨hended, hsent⟩ := ih (fun raw hraw => hdata raw (List.mem_cons_of_mem _ hraw)) hmore
        (counts.modify (rr % n) (· + 1)) (rr + 1)
      rw [forwardSharded_of_cons hrecv, if_neg htype, if_pos rfl]
      refine ⟨hended, ?_⟩
      rw [Forwarded.after, hsent, List.zipIdx_cons, List.map_cons, List.cons_append]
      rfl

/-! ## Turns -/

/-- How many of the first `m` turns are those of shard `i`. -/
def turns (n m i : ℕ) : ℕ := Nat.count (fun t => t % n = i) m

theorem sum_turns (hn : 0 < n) (m : ℕ) : ∑ i ∈ Finset.range n, turns n m i = m := by
  induction m with
  | zero => simp [turns]
  | succ m ih =>
      have hstep (i : ℕ) : turns n (m + 1) i = turns n m i + if m % n = i then 1 else 0 := by
        rw [turns, Nat.count_succ, turns]
      simp only [hstep]
      rw [Finset.sum_add_distrib, ih, Finset.sum_ite_eq,
        if_pos (Finset.mem_range.mpr (Nat.mod_lt m hn))]

theorem turns_eq (hn : 0 < n) (m : ℕ) {i : ℕ} (hi : i < n) :
    turns n m i = m / n + if i < m % n then 1 else 0 := by
  have hcount := Nat.count_modEq_card m hn i
  rw [Nat.mod_eq_of_lt hi] at hcount
  rw [turns, ← hcount]
  congr 1
  funext t
  rw [Nat.ModEq, Nat.mod_eq_of_lt hi]

theorem turns_le (hn : 0 < n) (m : ℕ) {i j : ℕ} (hi : i < n) (hj : j < n) :
    turns n m i ≤ turns n m j + 1 := by
  rw [turns_eq hn m hi, turns_eq hn m hj]
  split
  · omega
  · omega

/-- The counts of `_forward_sharded` are those of the turns. -/
theorem getD_dealt (hn : 0 < n) (m rr : ℕ) {counts : List ℕ} (hcounts : counts.length = n)
    {i : ℕ} (hi : i < n) :
    (dealt n m rr counts).getD i 0 =
      counts.getD i 0 + ((List.range' rr m).filter fun t => t % n = i).length := by
  induction m generalizing rr counts with
  | zero => simp [dealt]
  | succ m ih =>
      have hlt := Nat.mod_lt rr hn
      rw [dealt, ih (rr + 1) (by rw [List.length_modify, hcounts]), List.range'_succ,
        List.filter_cons]
      by_cases heq : rr % n = i
      · subst heq
        simp [List.getD_eq_getElem?_getD, hcounts, hlt]
        omega
      · simp [List.getD_eq_getElem?_getD, heq]

/-! ## Stamping -/

variable {M : MsgPack A} {c : UUID} {mom : StampingMOM} {counter : ℕ}

/-- A message of the stream gets the client and the next number. -/
theorem exists_send_stampId (mom : StampingMOM) (counter : ℕ) (hid : h.id.length = 16)
    {raw : Bytes} (hlength : 41 ≤ raw.length)
    (hdata : raw.head? = some dataType.toByte) (htype : dataType.toByte ∉ unstampedTypes)
    (hseq : counter + 1 < 2 ^ 64) :
    ∃ stamped, mom.send counter (h.stampId raw) = (some stamped, counter + 1) ∧
      Restamped h.id mom.producerId raw stamped ∧ seqOf stamped = counter + 1 := by
  obtain ⟨w, rfl⟩ := Wire.exists_bytes_eq hlength
  have hw : w.type = dataType.toByte := Option.some.inj (w.slices.1.symm.trans hdata)
  rw [stampId_bytes hid, mom.send_bytes hseq, Wire.withClient, if_neg (hw ▸ htype)]
  refine ⟨_, rfl, ?_, ?_⟩
  · obtain ⟨hhead, hclient, hproducer, -, hpayload⟩ := Wire.slices _
    constructor
    · exact hhead.trans w.slices.1.symm
    · exact hpayload.trans w.slices.2.2.2.2.symm
    · exact hclient
    · exact hproducer
  · rw [seqOf, (Wire.slices _).2.2.2.1]
    exact fromBytes_toBytes hseq

/-- The stampers hand on the data with consecutive numbers. -/
theorem handedOn_data (M : MsgPack A) (c : UUID) (mom : StampingMOM) (counter n : ℕ)
    (shard : ℕ → Shard) (hid : h.id.length = 16) (htype : dataType.toByte ∉ unstampedTypes)
    {messages : List Bytes} (hlength : ∀ raw ∈ messages, 41 ≤ raw.length)
    (hdata : ∀ raw ∈ messages, raw.head? = some dataType.toByte)
    (hseq : counter + messages.length < 2 ^ 64) :
    ∃ data : List (Shard × Bytes),
      data.map Prod.fst = (List.range' counter messages.length).map (fun t => shard (t % n)) ∧
      List.Forall₂ (Restamped h.id mom.producerId) messages (data.map Prod.snd) ∧
      (data.map fun e => seqOf e.2) = List.range' (counter + 1) messages.length ∧
      ∀ tail, handedOn M c mom counter (((messages.zipIdx counter).map fun e =>
          (shard (e.2 % n), ShardMsg.data (h.stampId e.1))) ++ tail) =
        (handedOn M c mom (counter + messages.length) tail).map (data ++ ·) := by
  induction messages generalizing counter with
  | nil => exact ⟨[], rfl, List.Forall₂.nil, rfl, fun tail => Option.map_id'.symm⟩
  | cons raw messages ih =>
      rw [List.length_cons] at hseq
      obtain ⟨stamped, hsend, hstamped, hseqOf⟩ :=
        exists_send_stampId mom counter hid
          (hlength raw List.mem_cons_self) (hdata raw List.mem_cons_self) htype (by omega)
      obtain ⟨data, hshards, hall, hseqs, hrest⟩ :=
        ih (counter + 1) (fun raw hraw => hlength raw (List.mem_cons_of_mem _ hraw))
          (fun raw hraw => hdata raw (List.mem_cons_of_mem _ hraw))
          (by omega : counter + 1 + messages.length < 2 ^ 64)
      refine ⟨(shard (counter % n), stamped) :: data, ?_, ?_, ?_, ?_⟩
      · rw [List.map_cons, hshards, List.length_cons, List.range'_succ, List.map_cons]
      · exact List.Forall₂.cons hstamped hall
      · rw [List.map_cons, hseqs, hseqOf, List.length_cons, List.range'_succ]
      · intro tail
        rw [List.zipIdx_cons, List.map_cons, List.cons_append, handedOn, serialized]
        simp only [Option.bind_eq_bind, Option.bind_some, hsend]
        have hcounter : counter + (messages.length + 1) = counter + 1 + messages.length := by omega
        rw [hrest, List.length_cons, hcounter]
        cases handedOn M c mom (counter + 1 + messages.length) tail with
        | none => rfl
        | some rest => rfl

/-- The end-of-files are handed on as they are. -/
theorem handedOn_eofs (M : MsgPack A) (c : UUID) (mom : StampingMOM) (counter : ℕ)
    (shard : ℕ → Shard) (count : ℕ → ℕ) (is : List ℕ) : ∃ eofs : List (Shard × Bytes),
    handedOn M c mom counter (is.map fun i => (shard i, ShardMsg.eof (count i))) = some eofs ∧
    List.Forall₂ (fun i eof => eof.1 = shard i ∧
      serialized M c (.eof (count i)) = some eof.2) is eofs := by
  induction is with
  | nil => exact ⟨[], rfl, List.Forall₂.nil⟩
  | cons i is ih =>
      obtain ⟨eofs, heofs, hall⟩ := ih
      obtain ⟨raw, hraw, hhead⟩ : ∃ raw, serialized M c (.eof (count i)) = some raw ∧
          raw.head? = some MessageType.eof.toByte := by simp [serialized, Message.serialize]
      refine ⟨(shard i, raw) :: eofs, ?_, List.Forall₂.cons ⟨rfl, hraw⟩ hall⟩
      rw [List.map_cons, handedOn, hraw]
      simp only [Option.bind_eq_bind, Option.bind_some,
        StampingMOM.send_of_mem hhead (by decide), heofs]
      rfl

/-! ## Conservation -/

/-- A shard gets as many messages as turns. -/
theorem countOf_eq (hshard : Function.Injective shard) {m : ℕ} {data : List (Shard × Bytes)}
    (hdata : data.map Prod.fst = (List.range' 0 m).map fun t => shard (t % n)) (i : ℕ) :
    countOf (shard i) data = ((List.range' 0 m).filter fun t => t % n = i).length := by
  have hfst : (data.filter fun e => e.1 = shard i).length =
      ((data.map Prod.fst).filter fun s => s = shard i).length := by
    rw [List.filter_map, List.length_map]
    rfl
  rw [countOf, hfst, hdata, List.filter_map, List.length_map]
  simp only [Function.comp_def, hshard.eq_iff]

theorem length_filter_range' (m i : ℕ) :
    ((List.range' 0 m).filter fun t => t % n = i).length = turns n m i := by
  rw [turns, Nat.count, List.countP_eq_length_filter, List.range_eq_range']

/-- A stream of at least one shard is conserved: its messages reach the shards with their
types and payloads, the client of the handler and the producer of the stream, and the
numbers from `1` on; each shard gets its numbers in order and is told how many there were,
and no shard gets more than one message more than another. -/
theorem conserves (h : ClientStream) (stream : DataStream) (M : MsgPack A) (c : UUID)
    (mom : StampingMOM) (hid : h.id = uuidBytes c) {messages rest : List Bytes} {eof : Bytes}
    (hlength : ∀ raw ∈ messages, 41 ≤ raw.length)
    (hdata : ∀ raw ∈ messages, raw.head? = some stream.dataType.toByte)
    (heof : eof.head? = some MessageType.eof.toByte) (hseq : messages.length < 2 ^ 64)
    {skt : Socket} (hframes : frames skt.bytes = messages ++ eof :: rest) :
    ∃ data eofs, handedOn M c mom 0 (h.forwarded stream skt) = some (data ++ eofs) ∧
      Conserved M c h.id mom.producerId (h.numShards stream) stream.shard messages data
        eofs := by
  have hn : 0 < h.numShards stream := by
    cases stream with
    | transactions => exact h.transactions_pos
    | accounts => exact h.accounts_pos
  have htype : stream.dataType.toByte ≠ MessageType.eof.toByte ∧
      stream.dataType.toByte ∉ unstampedTypes := by
    cases stream with
    | transactions => decide
    | accounts => decide
  have hid' : h.id.length = 16 := by rw [hid, uuidBytes, length_toBytes]
  obtain ⟨-, hsent⟩ := forwardSharded_frames (h := h) (h.numShards stream)
    stream.shard htype.1 hdata heof hframes (List.replicate (h.numShards stream) 0) 0
  obtain ⟨data, hshards, hall, hseqs, hrest⟩ := handedOn_data M c mom 0 (h.numShards stream)
    stream.shard hid' htype.2 hlength hdata (by omega)
  obtain ⟨eofs, heofs, hcounts⟩ := handedOn_eofs M c mom messages.length stream.shard
    (turns (h.numShards stream) messages.length) (List.range (h.numShards stream))
  have hcountOf (i : ℕ) : countOf (stream.shard i) data =
      turns (h.numShards stream) messages.length i := by
    rw [countOf_eq stream.shard_injective hshards, length_filter_range']
  have hturns : ((List.range (h.numShards stream)).map fun i => (stream.shard i,
      ShardMsg.eof ((dealt (h.numShards stream) messages.length 0
        (List.replicate (h.numShards stream) 0)).getD i 0))) =
      (List.range (h.numShards stream)).map fun i => (stream.shard i,
        ShardMsg.eof (turns (h.numShards stream) messages.length i)) := by
    apply List.map_congr_left
    intro i hi
    have hi' := List.mem_range.mp hi
    rw [getD_dealt hn _ _ List.length_replicate hi', length_filter_range']
    simp [hi']
  refine ⟨data, eofs, ?_, ?_⟩
  · rw [forwarded, hsent, hturns, hrest, Nat.zero_add, heofs]
    rfl
  · constructor
    · intro e he
      have hmem := List.mem_map_of_mem (f := Prod.fst) he
      rw [hshards] at hmem
      obtain ⟨t, -, ht⟩ := List.mem_map.mp hmem
      exact ⟨t % h.numShards stream, Nat.mod_lt t hn, ht.symm⟩
    · exact hall
    · exact hseqs
    · intro i _
      have hsorted : (data.map fun e => seqOf e.2).Pairwise (· < ·) := by
        rw [hseqs]
        exact List.pairwise_lt_range'
      exact hsorted.sublist (List.filter_sublist.map _)
    · simp only [hcountOf]
      exact hcounts
    · simp only [hcountOf]
      exact sum_turns hn messages.length
    · intro i hi j hj
      rw [hcountOf, hcountOf]
      exact turns_le hn messages.length hi hj

/-- A client that sends one message to two shards, and its end-of-file. -/
def oneBatch : ClientStream :=
  { twoBatches with
    id := uuidBytes 7
    skt := ⟨[frame (1 :: List.replicate 40 9) ++ frame [0]], by
      intro segment hsegment
      rw [List.mem_singleton.mp hsegment]
      exact List.append_ne_nil_of_left_ne_nil (by decide) _, .closed⟩ }

theorem conserves_oneBatch : ∃ data eofs,
    handedOn (packing [144] ([] : List (Value ℕ))) 7 ⟨List.replicate 16 3, rfl⟩ 0
      (oneBatch.forwarded .transactions oneBatch.skt) = some (data ++ eofs) ∧
    Conserved (packing [144] ([] : List (Value ℕ))) 7 oneBatch.id (List.replicate 16 3) 2
      Shard.transactions [1 :: List.replicate 40 9] data eofs := by
  have hbytes : oneBatch.skt.bytes = frame (1 :: List.replicate 40 9) ++ (frame [0] ++ []) := by
    simp [oneBatch, Socket.bytes]
  have hframes : frames oneBatch.skt.bytes = [1 :: List.replicate 40 9] ++ [0] :: [] := by
    rw [hbytes, frames_of_some (frame?_frame (by decide) _),
      frames_of_some (frame?_frame (by decide) _), frames_of_none (by rfl)]
    rfl
  exact conserves oneBatch .transactions (packing [144] []) 7 ⟨List.replicate 16 3, rfl⟩ rfl
    (by decide) (by decide) rfl (by decide) hframes

end ClientStream
