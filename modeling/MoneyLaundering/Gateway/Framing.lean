import MoneyLaundering.Gateway.Connection
import MoneyLaundering.Messages.Values

/-!
# Framing

What is sent over a connection is a stream of frames.  However a socket cuts the stream, and
wherever the stream ends, the messages that are received are those that are complete in it.
-/

namespace Connection

/-- A message behind its length. -/
def frame (raw : Bytes) : Bytes := Messages.toBytes 4 raw.length ++ raw

/-- What `send` writes; the length of a message must fit into `LEN_SIZE` bytes. -/
def send (raw : Bytes) : Option Bytes :=
  if raw.length < 2 ^ 32 then some (frame raw) else none

/-- What is written for some messages, one after the other. -/
def sendAll : List Bytes → Option Bytes
  | [] => some []
  | raw :: messages => do
    let written ← send raw
    let rest ← sendAll messages
    return written ++ rest

/-- Successive calls of `recv`, until one of them raises an `OSError`. -/
def recvs : ℕ → Socket → Option (List Bytes × Socket)
  | 0, skt => some ([], skt)
  | n + 1, skt => do
    let (raw, skt) ← recv true skt
    let (messages, skt) ← recvs n skt
    return (raw :: messages, skt)

/-- All that is written for some messages has arrived. -/
def Transmitted (messages : List Bytes) (skt : Socket) : Prop :=
  ∃ written, sendAll messages = some written ∧ written <+: skt.bytes

/-- The calls of `recv` return the messages that were transmitted completely, in order, and the
next call raises an `OSError`. -/
def Receives (messages : List Bytes) (skt : Socket) : Prop :=
  ∃ n skt', n ≤ messages.length ∧
    (∀ m ≤ messages.length, m ≤ n ↔ Transmitted (messages.take m) skt) ∧
    recvs n skt = some (messages.take n, skt') ∧ recv true skt' = none

/-! ## One frame -/

theorem fromBytes_eq (bytes : Bytes) : fromBytes bytes = Messages.fromBytes bytes := by
  rw [fromBytes, Messages.fromBytes, Digits.value, List.foldl_map]

@[simp] theorem length_frame (raw : Bytes) : (frame raw).length = 4 + raw.length := by
  simp [frame]

/-- The length at the start of a frame. -/
theorem fromBytes_take_frame {raw : Bytes} (h : raw.length < 2 ^ 32) (rest : Bytes) :
    fromBytes ((frame raw ++ rest).take 4) = raw.length := by
  rw [frame, List.append_assoc, List.take_left' (by simp), fromBytes_eq]
  exact Messages.fromBytes_toBytes h

theorem drop_frame (raw rest : Bytes) : (frame raw ++ rest).drop 4 = raw ++ rest := by
  rw [frame, List.append_assoc, List.drop_left' (by simp)]

theorem frame?_frame {raw : Bytes} (h : raw.length < 2 ^ 32) (rest : Bytes) :
    frame? (frame raw ++ rest) = some (raw, rest) := by
  have hlength : 4 ≤ (frame raw ++ rest).length := by
    rw [List.length_append, length_frame]
    omega
  simp only [frame?, if_pos hlength, fromBytes_take_frame h, drop_frame]
  rw [if_pos (by simp), List.take_left, List.drop_left]

/-- A frame that is cut is no frame. -/
theorem frame?_of_cut {raw bytes : Bytes} (h : raw.length < 2 ^ 32)
    (hcomes : bytes <+: frame raw) (hlt : bytes.length < (frame raw).length) :
    frame? bytes = none := by
  obtain ⟨missing, hframe⟩ := hcomes
  by_cases hlen : 4 ≤ bytes.length
  · have htake : bytes.take 4 = (frame raw ++ []).take 4 := by
      rw [List.append_nil, ← hframe, List.take_append_of_le_length hlen]
    simp only [frame?, if_pos hlen, htake, fromBytes_take_frame h]
    rw [length_frame] at hlt
    rw [if_neg]
    rw [List.length_drop]
    omega
  · rw [frame?, if_neg hlen]

/-! ## A stream -/

theorem sendAll_eq {messages : List Bytes} (h : ∀ raw ∈ messages, raw.length < 2 ^ 32) :
    sendAll messages = some (messages.flatMap frame) := by
  induction messages with
  | nil => rfl
  | cons raw messages ih =>
      have hsend : send raw = some (frame raw) := if_pos (h raw List.mem_cons_self)
      rw [sendAll, hsend, ih fun raw hraw => h raw (List.mem_cons_of_mem _ hraw)]
      rfl

theorem transmitted_nil (skt : Socket) : Transmitted [] skt := ⟨[], rfl, List.nil_prefix⟩

theorem transmitted_iff {messages : List Bytes} (h : ∀ raw ∈ messages, raw.length < 2 ^ 32)
    {skt : Socket} : Transmitted messages skt ↔ messages.flatMap frame <+: skt.bytes := by
  rw [Transmitted, sendAll_eq h]
  simp

theorem transmitted_take_succ {raw : Bytes} {messages : List Bytes} {m : ℕ} {skt skt' : Socket}
    (h : ∀ r ∈ raw :: messages, r.length < 2 ^ 32) (hbytes : skt.bytes = frame raw ++ skt'.bytes) :
    Transmitted ((raw :: messages).take (m + 1)) skt ↔ Transmitted (messages.take m) skt' := by
  rw [transmitted_iff fun r hr => h r (List.mem_of_mem_take hr), transmitted_iff fun r hr =>
    h r (List.mem_cons_of_mem raw (List.mem_of_mem_take hr)), List.take_succ_cons,
    List.flatMap_cons, hbytes, List.prefix_append_right_inj]

/-- The part of a stream that has been transmitted is received. -/
theorem recvs_of_prefix {messages : List Bytes} (h : ∀ raw ∈ messages, raw.length < 2 ^ 32)
    {skt : Socket} (hcomes : skt.bytes <+: messages.flatMap frame) : Receives messages skt := by
  induction messages generalizing skt with
  | nil =>
      have hnil : skt.bytes = [] := List.prefix_nil.mp hcomes
      have hnone : frame? skt.bytes = none := by
        rw [hnil]
        rfl
      refine ⟨0, skt, le_refl 0, ?_, rfl, (recv_of_no_frame hnone).1⟩
      intro m hm
      rw [Nat.le_zero.mp hm]
      exact iff_of_true (le_refl 0) (transmitted_nil skt)
  | cons raw messages ih =>
      have hraw := h raw List.mem_cons_self
      rw [List.flatMap_cons] at hcomes
      by_cases hwhole : (frame raw).length ≤ skt.bytes.length
      · obtain ⟨rest, hrest⟩ := List.prefix_of_prefix_length_le (List.prefix_append _ _)
          hcomes hwhole
        have hframe : frame? skt.bytes = some (raw, rest) := by
          rw [← hrest]
          exact frame?_frame hraw rest
        obtain ⟨skt', hrecv, hbytes⟩ :
            ∃ skt', recv true skt = some (raw, skt') ∧ skt'.bytes = rest := recv_of_frame hframe
        have hrest' : skt'.bytes <+: messages.flatMap frame := by
          rw [hbytes]
          rw [← hrest, List.prefix_append_right_inj] at hcomes
          exact hcomes
        obtain ⟨n, skt'', hn, hcount, hrecvs, hnone⟩ :=
          ih (fun raw hraw => h raw (List.mem_cons_of_mem _ hraw)) hrest'
        refine ⟨n + 1, skt'', Nat.succ_le_succ hn, ?_, ?_, hnone⟩
        · intro m hm
          cases m with
          | zero => exact iff_of_true (Nat.zero_le _) (transmitted_nil skt)
          | succ m =>
              rw [Nat.succ_le_succ_iff, hcount m (Nat.le_of_succ_le_succ hm),
                transmitted_take_succ h (by rw [hbytes, hrest])]
        · rw [recvs, hrecv]
          simp [hrecvs]
      · have hlt := Nat.lt_of_not_le hwhole
        have hcut : skt.bytes <+: frame raw :=
          List.prefix_of_prefix_length_le hcomes (List.prefix_append _ _) hlt.le
        refine ⟨0, skt, Nat.zero_le _, ?_, rfl,
          (recv_of_no_frame (frame?_of_cut hraw hcut hlt)).1⟩
        intro m hm
        cases m with
        | zero => exact iff_of_true (le_refl 0) (transmitted_nil skt)
        | succ m =>
            rw [transmitted_iff fun r hr => h r (List.mem_of_mem_take hr)]
            refine iff_of_false (Nat.not_succ_le_zero m) fun hsent => ?_
            have hle := hsent.length_le
            rw [List.take_succ_cons, List.flatMap_cons, List.length_append] at hle
            omega

/-- All messages of a stream that arrives whole are received. -/
theorem recvs_of_whole {messages : List Bytes} (h : ∀ raw ∈ messages, raw.length < 2 ^ 32)
    {skt : Socket} (hcomes : skt.bytes = messages.flatMap frame) :
    ∃ skt', recvs messages.length skt = some (messages, skt') ∧ recv true skt' = none := by
  obtain ⟨n, skt', hn, hcount, hrecvs, hnone⟩ :=
    recvs_of_prefix h (by rw [hcomes])
  have hall : Transmitted (messages.take messages.length) skt := by
    rw [List.take_length, transmitted_iff h, hcomes]
  have hlength : n = messages.length :=
    le_antisymm hn ((hcount messages.length le_rfl).mpr hall)
  rw [hlength, List.take_length] at hrecvs
  exact ⟨skt', hrecvs, hnone⟩

/-- What is sent is the frames of the messages.  Whatever the segments are in which they arrive
and wherever the stream ends, the messages that were transmitted completely are received, and
nothing else; all of them are received when the whole stream arrives. -/
theorem receives_sent (messages : List Bytes) (h : ∀ raw ∈ messages, raw.length < 2 ^ 32) :
    ∃ stream, sendAll messages = some stream ∧ stream = messages.flatMap frame ∧
      (∀ skt : Socket, skt.bytes <+: stream → Receives messages skt) ∧
      ∀ skt : Socket, skt.bytes = stream → ∃ skt',
        recvs messages.length skt = some (messages, skt') ∧ recv true skt' = none :=
  ⟨_, sendAll_eq h, rfl, fun _ hcomes => recvs_of_prefix h hcomes,
    fun _ hcomes => recvs_of_whole h hcomes⟩

/-- Two messages, whose stream arrives in three segments and is closed. -/
theorem receives_sent_two : ∃ skt', recvs 2 ⟨[[0, 0], [0, 2, 104], [105, 0, 0, 0, 1, 33]],
    by decide, .closed⟩ = some ([[104, 105], [33]], skt') ∧ recv true skt' = none := by
  obtain ⟨stream, -, hstream, -, hwhole⟩ := receives_sent [[104, 105], [33]] (by decide)
  exact hwhole _ (hstream ▸ by decide)

end Connection
