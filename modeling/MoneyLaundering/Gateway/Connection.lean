import MoneyLaundering.Basic
import Mathlib.Data.List.Basic

/-!
# The connection with a client

A connection reads one length-prefixed message at a time from a socket that delivers
its bytes in segments of any size.  What a read returns depends on the bytes only: the
module relates it to the complete frames of the byte stream.
-/

/-- What a read meets after the last byte: an empty read, or an `OSError`. -/
inductive SocketEnd where
  | closed
  | failed

/-- What a socket is going to deliver. -/
structure Socket where
  segments : List Bytes
  nonempty : ∀ segment ∈ segments, segment ≠ []
  ending : SocketEnd

namespace Socket

/-- The bytes that are left to read. -/
def bytes (skt : Socket) : Bytes := skt.segments.flatten

/-- `recv` of a socket, which fails on an `OSError`. -/
def recv (amount : ℕ) : Socket → Option (Bytes × Socket)
  | ⟨[], h, .closed⟩ => some ([], ⟨[], h, .closed⟩)
  | ⟨[], _, .failed⟩ => none
  | ⟨segment :: rest, h, ending⟩ =>
    if hlt : amount < segment.length then
      some (segment.take amount, ⟨segment.drop amount :: rest, by
        intro s hs
        rcases List.mem_cons.mp hs with heq | hs
        · rw [heq, ne_eq, List.drop_eq_nil_iff]
          omega
        · exact h s (List.mem_cons_of_mem segment hs), ending⟩)
    else some (segment, ⟨rest, fun s hs => h s (List.mem_cons_of_mem segment hs),
      ending⟩)

/-- A read takes some of the bytes that are left, if there are any. -/
theorem recv_of_ne_nil {amount : ℕ} {skt : Socket} (hpos : 0 < amount)
    (h : skt.bytes ≠ []) :
    ∃ b bs skt', skt.recv amount = some (b :: bs, skt') ∧
      (b :: bs).length ≤ amount ∧ skt.bytes = (b :: bs) ++ skt'.bytes := by
  obtain ⟨segments, hne, ending⟩ := skt
  cases segments with
  | nil => exact absurd rfl h
  | cons segment rest =>
      cases segment with
      | nil => exact absurd rfl (hne [] List.mem_cons_self)
      | cons b bs =>
          by_cases hlt : amount < (b :: bs).length
          · obtain ⟨c, cs, htake⟩ : ∃ c cs, (b :: bs).take amount = c :: cs := by
              apply List.exists_cons_of_ne_nil
              rw [ne_eq, List.take_eq_nil_iff]
              intro hnil
              rcases hnil with hzero | hnil
              · omega
              · cases hnil
            refine ⟨c, cs, _, by rw [recv, dif_pos hlt, htake], ?_, ?_⟩
            · rw [← htake, List.length_take]
              omega
            · rw [← htake]
              simp [bytes, ← List.append_assoc]
          · exact ⟨b, bs, _, by rw [recv, dif_neg hlt], by omega, rfl⟩

/-- At the end a read is empty or fails. -/
theorem recv_of_eq_nil (amount : ℕ) {skt : Socket} (h : skt.bytes = []) :
    skt.recv amount = none ∨ ∃ skt', skt.recv amount = some ([], skt') := by
  obtain ⟨segments, hne, ending⟩ := skt
  cases segments with
  | nil =>
      cases ending with
      | closed => exact Or.inr ⟨_, rfl⟩
      | failed => exact Or.inl rfl
  | cons segment rest =>
      refine absurd ?_ (hne segment List.mem_cons_self)
      exact (List.append_eq_nil_iff.mp h).1

end Socket

namespace Connection

/-- `__recv_exact`, with the bytes received so far. -/
def recvExact (missing : ℕ) (buf : Bytes) (skt : Socket) :
    Option (Bytes × Socket) :=
  if missing = 0 then some (buf, skt)
  else
    match skt.recv missing with
    | none => none
    | some ([], _) => none
    | some (b :: bs, skt') =>
      recvExact (missing - (b :: bs).length) (buf ++ b :: bs) skt'
termination_by missing
decreasing_by
  simp only [List.length_cons]
  omega

/-- `int.from_bytes` in big-endian order. -/
def fromBytes (bytes : Bytes) : ℕ :=
  bytes.foldl (fun n b => 256 * n + b.toNat) 0

/-- `recv`: a message, empty once the gateway closed the connection.  It fails when
the peer is gone while `_keep_running` is set. -/
def recv (keepRunning : Bool) (skt : Socket) : Option (Bytes × Socket) :=
  match recvExact 4 [] skt with
  | none => if keepRunning then none else some ([], skt)
  | some (lenBytes, skt') =>
    match recvExact (fromBytes lenBytes) [] skt' with
    | none => if keepRunning then none else some ([], skt')
    | some r => some r

theorem recvExact_of_le (missing : ℕ) (buf : Bytes) (skt : Socket)
    (h : missing ≤ skt.bytes.length) :
    ∃ skt', recvExact missing buf skt =
        some (buf ++ skt.bytes.take missing, skt') ∧
      skt'.bytes = skt.bytes.drop missing := by
  induction missing using Nat.strong_induction_on generalizing buf skt with
  | _ missing ih =>
      rw [recvExact]
      split
      · rename_i hzero
        exact ⟨skt, by simp [hzero], by simp [hzero]⟩
      · rename_i hpos
        have hne : skt.bytes ≠ [] := by
          intro hnil
          rw [hnil, List.length_nil] at h
          omega
        obtain ⟨b, bs, skt', hrecv, hle, hbytes⟩ :=
          Socket.recv_of_ne_nil (Nat.pos_of_ne_zero hpos) hne
        have hlen : skt.bytes.length = (b :: bs).length + skt'.bytes.length := by
          rw [hbytes, List.length_append]
        obtain ⟨skt'', hexact, hrest⟩ := ih (missing - (b :: bs).length)
          (by simp only [List.length_cons]; omega) (buf ++ b :: bs) skt'
          (by omega)
        rw [hrecv]
        refine ⟨skt'', ?_, ?_⟩
        · simp only
          rw [hexact, hbytes, List.take_append, List.take_of_length_le hle,
            List.append_assoc]
        · rw [hrest, hbytes, List.drop_append, List.drop_of_length_le hle,
            List.nil_append]

theorem recvExact_of_lt (missing : ℕ) (buf : Bytes) (skt : Socket)
    (h : skt.bytes.length < missing) : recvExact missing buf skt = none := by
  induction missing using Nat.strong_induction_on generalizing buf skt with
  | _ missing ih =>
      have hpos : missing ≠ 0 := by omega
      rw [recvExact, if_neg hpos]
      by_cases hnil : skt.bytes = []
      · rcases Socket.recv_of_eq_nil missing hnil with
          hrecv | ⟨skt', hrecv⟩
        · rw [hrecv]
        · rw [hrecv]
      · obtain ⟨b, bs, skt', hrecv, hle, hbytes⟩ :=
          Socket.recv_of_ne_nil (show 0 < missing by omega) hnil
        have hlen : skt.bytes.length = (b :: bs).length + skt'.bytes.length := by
          rw [hbytes, List.length_append]
        rw [hrecv]
        apply ih
        · simp only [List.length_cons]
          omega
        · omega

/-! ## The frames of a byte stream -/

/-- The first complete frame, and the bytes after it. -/
def frame? (bytes : Bytes) : Option (Bytes × Bytes) :=
  if 4 ≤ bytes.length then
    let len := fromBytes (bytes.take 4)
    let rest := bytes.drop 4
    if len ≤ rest.length then some (rest.take len, rest.drop len) else none
  else none

theorem length_lt_of_frame? {bytes raw rest : Bytes}
    (h : frame? bytes = some (raw, rest)) : rest.length < bytes.length := by
  simp only [frame?] at h
  split at h
  · split at h
    · obtain ⟨-, rfl⟩ := Prod.mk.inj (Option.some.inj h)
      simp only [List.length_drop]
      omega
    · cases h
  · cases h

/-- The complete frames of a byte stream. -/
def frames (bytes : Bytes) : List Bytes :=
  match _h : frame? bytes with
  | none => []
  | some (raw, rest) => raw :: frames rest
termination_by bytes.length
decreasing_by exact length_lt_of_frame? _h

theorem frames_of_none {bytes : Bytes} (h : frame? bytes = none) :
    frames bytes = [] := by
  rw [frames]
  split
  · rfl
  · simp_all

theorem frames_of_some {bytes raw rest : Bytes}
    (h : frame? bytes = some (raw, rest)) :
    frames bytes = raw :: frames rest := by
  rw [frames]
  split
  · simp_all
  · simp_all

/-- A message is the first complete frame. -/
theorem recv_of_frame {keepRunning : Bool} {skt : Socket} {raw rest : Bytes}
    (h : frame? skt.bytes = some (raw, rest)) :
    ∃ skt', recv keepRunning skt = some (raw, skt') ∧ skt'.bytes = rest := by
  simp only [frame?] at h
  split at h
  · rename_i hlen
    split at h
    · rename_i hle
      obtain ⟨rfl, rfl⟩ := Prod.mk.inj (Option.some.inj h)
      obtain ⟨skt', hexact, hbytes⟩ := recvExact_of_le 4 [] skt hlen
      rw [← hbytes] at hle ⊢
      obtain ⟨skt'', hexact', hbytes'⟩ := recvExact_of_le _ [] skt' hle
      refine ⟨skt'', ?_, hbytes'⟩
      simp only [List.nil_append] at hexact hexact'
      rw [recv, hexact]
      simp only [hexact']
    · cases h
  · cases h

/-- Without a complete frame the end is met. -/
theorem recv_of_no_frame {skt : Socket} (h : frame? skt.bytes = none) :
    recv true skt = none ∧ ∃ skt', recv false skt = some ([], skt') := by
  by_cases hlen : 4 ≤ skt.bytes.length
  · obtain ⟨skt', hexact, hbytes⟩ := recvExact_of_le 4 [] skt hlen
    have hlt : skt'.bytes.length < fromBytes (skt.bytes.take 4) := by
      by_contra hle
      rw [frame?, if_pos hlen] at h
      rw [hbytes] at hle
      simp only [if_pos (Nat.le_of_not_lt hle)] at h
      cases h
    have hfail := recvExact_of_lt _ [] skt' hlt
    rw [List.nil_append] at hexact
    constructor
    · rw [recv, hexact]
      simp only [hfail]
      rfl
    · refine ⟨skt', ?_⟩
      rw [recv, hexact]
      simp only [hfail]
      rfl
  · have hfail := recvExact_of_lt 4 [] skt (by omega)
    constructor
    · rw [recv, hfail]
      rfl
    · refine ⟨skt, ?_⟩
      rw [recv, hfail]
      rfl

/-- A connection reads the next frame, or meets the end of the stream. -/
theorem recv_cases (keepRunning : Bool) (skt : Socket) :
    (∃ raw skt', recv keepRunning skt = some (raw, skt') ∧
      frame? skt.bytes = some (raw, skt'.bytes)) ∨
    (frame? skt.bytes = none ∧ keepRunning = true ∧
      recv keepRunning skt = none) ∨
    (frame? skt.bytes = none ∧ keepRunning = false ∧
      ∃ skt', recv keepRunning skt = some ([], skt')) := by
  cases hframe : frame? skt.bytes with
  | none =>
      obtain ⟨htrue, hfalse⟩ := recv_of_no_frame hframe
      cases keepRunning with
      | true => exact Or.inr (Or.inl ⟨rfl, rfl, htrue⟩)
      | false => exact Or.inr (Or.inr ⟨rfl, rfl, hfalse⟩)
  | some r =>
      obtain ⟨raw, rest⟩ := r
      obtain ⟨skt', hrecv, hbytes⟩ := recv_of_frame hframe
      rw [← hbytes]
      exact Or.inl ⟨raw, skt', hrecv, rfl⟩

/-- A message that is not empty is a frame. -/
theorem frame?_of_recv {keepRunning : Bool} {skt skt' : Socket} {b : UInt8}
    {raw : Bytes} (h : recv keepRunning skt = some (b :: raw, skt')) :
    frame? skt.bytes = some (b :: raw, skt'.bytes) := by
  rcases recv_cases keepRunning skt with
    ⟨raw', skt'', hrecv, hframe⟩ | ⟨-, -, hrecv⟩ | ⟨-, -, skt'', hrecv⟩
  · rw [hrecv] at h
    obtain ⟨rfl, rfl⟩ := Prod.mk.inj (Option.some.inj h)
    exact hframe
  · rw [hrecv] at h
    cases h
  · rw [hrecv] at h
    cases h

theorem length_lt_of_recv {keepRunning : Bool} {skt skt' : Socket} {b : UInt8}
    {raw : Bytes} (h : recv keepRunning skt = some (b :: raw, skt')) :
    skt'.bytes.length < skt.bytes.length :=
  length_lt_of_frame? (frame?_of_recv h)

end Connection
