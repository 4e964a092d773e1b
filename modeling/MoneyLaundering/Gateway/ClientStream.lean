import MoneyLaundering.Gateway.Connection

/-!
# The session of a client

After the handshake the reader forwards two streams of a client, the transactions and
the accounts, each to its own shards.  The module follows it to the end of the session
and shows when every shard hears of that end.
-/

open Connection

/-- A queue that the gateway feeds. -/
inductive Shard where
  | transactions (i : ℕ)
  | accounts (i : ℕ)
deriving DecidableEq

/-- What the gateway sends to a shard. -/
inductive ShardMsg where
  | data (raw : Bytes)
  | eof (expectedCount : ℕ)
  | abort
deriving DecidableEq

/-- How a stream, or the session, ended for the reader. -/
inductive StreamEnd where
  /-- The end of the stream was forwarded. -/
  | eof
  /-- The client was found gone, or it sent what it should not. -/
  | dropped
  /-- `OSError`. -/
  | failed
deriving DecidableEq

/-- What forwarding a stream leaves. -/
structure Forwarded where
  ended : StreamEnd
  skt : Socket
  /-- Oldest first. -/
  sent : List (Shard × ShardMsg)

/-- Forwarding that is preceded by a message. -/
def Forwarded.after (f : Forwarded) (shard : Shard) (msg : ShardMsg) :
    Forwarded :=
  { f with sent := (shard, msg) :: f.sent }

/-- A client stream handler whose client did its handshake. -/
structure ClientStream where
  /-- The 16 bytes of the identifier that the gateway gave the client. -/
  id : Bytes
  numTransactions : ℕ
  numAccounts : ℕ
  transactions_pos : 0 < numTransactions
  accounts_pos : 0 < numAccounts
  skt : Socket
  /-- `_keep_running` of the connection when the socket has no more bytes: the
  gateway clears it to close the connection. -/
  keepRunning : Bool

namespace ClientStream

variable (h : ClientStream)

/-- Overwrite the client identifier of a message. -/
def stampId (raw : Bytes) : Bytes := raw.take 1 ++ h.id ++ raw.drop 17

/-- `_forward_sharded`, with the counts of the shards and the next turn. -/
def forwardSharded (n : ℕ) (shard : ℕ → Shard) (dataType : MessageType)
    (skt : Socket) (counts : List ℕ) (rr : ℕ) : Forwarded :=
  match _hraw : recv h.keepRunning skt with
  | none => ⟨.failed, skt, []⟩
  | some ([], skt') => ⟨.dropped, skt', []⟩
  | some (t :: raw, skt') =>
    if t = MessageType.eof.toByte then
      ⟨.eof, skt', (List.range n).map fun i => (shard i, .eof (counts.getD i 0))⟩
    else if t = dataType.toByte then
      (forwardSharded n shard dataType skt' (counts.modify (rr % n) (· + 1))
        (rr + 1)).after (shard (rr % n)) (.data (h.stampId (t :: raw)))
    else ⟨.dropped, skt', []⟩
termination_by skt.bytes.length
decreasing_by exact length_lt_of_recv _hraw

/-- The shards of both streams. -/
def shards : List Shard :=
  (List.range h.numTransactions).map .transactions ++
    (List.range h.numAccounts).map .accounts

/-- What `_run` sends once the handshake is done, and how the session ends. -/
def run : List (Shard × ShardMsg) × StreamEnd :=
  let trans := h.forwardSharded h.numTransactions .transactions .transactions
    h.skt (List.replicate h.numTransactions 0) 0
  let aborts := h.shards.map fun shard => (shard, ShardMsg.abort)
  match trans.ended with
  | .failed => (trans.sent, .failed)
  | .dropped => (trans.sent ++ aborts, .dropped)
  | .eof =>
    let accs := h.forwardSharded h.numAccounts .accounts .accounts
      trans.skt (List.replicate h.numAccounts 0) 0
    match accs.ended with
    | .failed => (trans.sent ++ accs.sent, .failed)
    | .dropped => (trans.sent ++ accs.sent ++ aborts, .dropped)
    | .eof => (trans.sent ++ accs.sent, .eof)

/-- Every shard received an end-of-file, or every shard an abort. -/
def EndsAlike (sent : List (Shard × ShardMsg)) : Prop :=
  (∀ shard ∈ h.shards, ∃ count, (shard, ShardMsg.eof count) ∈ sent) ∨
    ∀ shard ∈ h.shards, (shard, ShardMsg.abort) ∈ sent

/-! ## What a stream is -/

/-- The frames from the first one on that is not data of the stream. -/
def afterData (dataType : MessageType) (frames : List Bytes) : List Bytes :=
  frames.dropWhile fun raw => raw.head? = some dataType.toByte

/-- The bytes hold the frames up to the end of the session: the first frame that is no
transaction, and, where that one ends the stream, the first one after it that is no
account. -/
def Complete (bytes : Bytes) : Prop :=
  ∃ raw rest, afterData .transactions (frames bytes) = raw :: rest ∧
    (raw.head? = some MessageType.eof.toByte → afterData .accounts rest ≠ [])

/-- How a stream ends, given the frames that are left and the flag of the
connection. -/
def streamEnd (dataType : MessageType) (frames : List Bytes) : StreamEnd :=
  match afterData dataType frames with
  | [] => if h.keepRunning then .failed else .dropped
  | raw :: _ =>
    if raw.head? = some MessageType.eof.toByte then .eof else .dropped

variable {h}

/-! ## Forwarding a stream -/

theorem afterData_cons_self {dataType : MessageType} {raw : Bytes}
    (hraw : raw.head? = some dataType.toByte) (frames : List Bytes) :
    afterData dataType (raw :: frames) = afterData dataType frames := by
  rw [afterData, List.dropWhile_cons_of_pos (by simpa using hraw)]
  rfl

theorem afterData_cons_of_ne {dataType : MessageType} {raw : Bytes}
    (hraw : raw.head? ≠ some dataType.toByte) (frames : List Bytes) :
    afterData dataType (raw :: frames) = raw :: frames := by
  rw [afterData, List.dropWhile_cons_of_neg (by simpa using hraw)]

section Equations

variable {n : ℕ} {shard : ℕ → Shard} {dataType : MessageType} {skt skt' : Socket}
  {counts : List ℕ} {rr : ℕ}

theorem forwardSharded_of_none (hraw : recv h.keepRunning skt = none) :
    h.forwardSharded n shard dataType skt counts rr = ⟨.failed, skt, []⟩ := by
  rw [forwardSharded]
  split <;> simp_all

theorem forwardSharded_of_empty
    (hraw : recv h.keepRunning skt = some ([], skt')) :
    h.forwardSharded n shard dataType skt counts rr = ⟨.dropped, skt', []⟩ := by
  rw [forwardSharded]
  split <;> simp_all

theorem forwardSharded_of_cons {t : UInt8} {raw : Bytes}
    (hraw : recv h.keepRunning skt = some (t :: raw, skt')) :
    h.forwardSharded n shard dataType skt counts rr =
      if t = MessageType.eof.toByte then
        ⟨.eof, skt', (List.range n).map fun i =>
          (shard i, .eof (counts.getD i 0))⟩
      else if t = dataType.toByte then
        (h.forwardSharded n shard dataType skt'
          (counts.modify (rr % n) (· + 1)) (rr + 1)).after (shard (rr % n))
            (.data (h.stampId (t :: raw)))
      else ⟨.dropped, skt', []⟩ := by
  rw [forwardSharded]
  split <;> simp_all

end Equations

/-- What forwarding does depends on the frames that are left: it ends as they say,
after an end-of-file for each shard where they hold one, and it aborts nothing. -/
structure Forwards (h : ClientStream) (n : ℕ) (shard : ℕ → Shard)
    (dataType : MessageType) (bytes : Bytes) (f : Forwarded) : Prop where
  ended : f.ended = h.streamEnd dataType (frames bytes)
  rest : f.ended = .eof →
    frames f.skt.bytes = (afterData dataType (frames bytes)).tail
  eof : f.ended = .eof → ∀ i < n, ∃ count, (shard i, ShardMsg.eof count) ∈ f.sent
  noEof : f.ended ≠ .eof → ∀ e ∈ f.sent, ∀ count, e.2 ≠ .eof count
  own : ∀ e ∈ f.sent, ∃ i, e.1 = shard i
  noAbort : ∀ e ∈ f.sent, e.2 ≠ .abort

/-- A stream that stops before anything is sent. -/
theorem Forwards.stop {n : ℕ} {shard : ℕ → Shard} {dataType : MessageType}
    {bytes : Bytes} {ended : StreamEnd} {skt : Socket} (hne : ended ≠ .eof)
    (hended : ended = h.streamEnd dataType (frames bytes)) :
    h.Forwards n shard dataType bytes ⟨ended, skt, []⟩ := by
  constructor
  · exact hended
  · intro heof
    exact absurd heof hne
  · intro heof
    exact absurd heof hne
  · simp
  · simp
  · simp

theorem forwardSharded_forwards (n : ℕ) (shard : ℕ → Shard)
    {dataType : MessageType} (htype : dataType.toByte ≠ MessageType.eof.toByte)
    (skt : Socket) (counts : List ℕ) (rr : ℕ) :
    h.Forwards n shard dataType skt.bytes
      (h.forwardSharded n shard dataType skt counts rr) := by
  induction skt, counts, rr using
    ClientStream.forwardSharded.induct h n dataType with
  | case1 skt counts rr hraw =>
      rw [forwardSharded_of_none hraw]
      apply Forwards.stop (by simp)
      rcases recv_cases h.keepRunning skt with
        ⟨raw, skt', hrecv, -⟩ | ⟨hframe, hkeep, -⟩ | ⟨-, -, skt', hrecv⟩
      · rw [hrecv] at hraw
        cases hraw
      · rw [frames_of_none hframe]
        simp [streamEnd, afterData, hkeep]
      · rw [hrecv] at hraw
        cases hraw
  | case2 skt counts rr skt' hraw =>
      rw [forwardSharded_of_empty hraw]
      apply Forwards.stop (by simp)
      rcases recv_cases h.keepRunning skt with
        ⟨raw, skt'', hrecv, hframe⟩ | ⟨-, -, hrecv⟩ | ⟨hframe, hkeep, -⟩
      · rw [hraw] at hrecv
        obtain ⟨rfl, rfl⟩ := Prod.mk.inj (Option.some.inj hrecv)
        rw [frames_of_some hframe, streamEnd, afterData_cons_of_ne (by simp)]
        simp
      · rw [hrecv] at hraw
        cases hraw
      · rw [frames_of_none hframe]
        simp [streamEnd, afterData, hkeep]
  | case3 skt counts rr raw skt' hraw =>
      have hframes := frames_of_some (frame?_of_recv hraw)
      have hafter : afterData dataType ((MessageType.eof.toByte :: raw) ::
          frames skt'.bytes) =
            (MessageType.eof.toByte :: raw) :: frames skt'.bytes :=
        afterData_cons_of_ne (by simpa using htype.symm) _
      rw [forwardSharded_of_cons hraw, if_pos rfl]
      constructor
      · rw [hframes, streamEnd, hafter]
        simp
      · intro _
        rw [hframes, hafter, List.tail_cons]
      · intro _ i hi
        exact ⟨_, List.mem_map.mpr ⟨i, List.mem_range.mpr hi, rfl⟩⟩
      · intro hne
        exact absurd rfl hne
      · intro e he
        obtain ⟨i, -, rfl⟩ := List.mem_map.mp he
        exact ⟨i, rfl⟩
      · intro e he
        obtain ⟨i, -, rfl⟩ := List.mem_map.mp he
        simp
  | case4 skt counts rr raw skt' hraw ht ih =>
      have hafter : afterData dataType ((dataType.toByte :: raw) :: frames skt'.bytes) =
          afterData dataType (frames skt'.bytes) :=
        afterData_cons_self rfl _
      have hframes := frames_of_some (frame?_of_recv hraw)
      rw [forwardSharded_of_cons hraw, if_neg ht, if_pos rfl]
      constructor
      · rw [hframes, streamEnd, hafter]
        exact ih.ended
      · intro heof
        rw [hframes, hafter]
        exact ih.rest heof
      · intro heof i hi
        obtain ⟨count, hmem⟩ := ih.eof heof i hi
        exact ⟨count, List.mem_cons_of_mem _ hmem⟩
      · intro hne e he
        rcases List.mem_cons.mp he with rfl | he
        · simp
        · exact ih.noEof hne e he
      · intro e he
        rcases List.mem_cons.mp he with rfl | he
        · exact ⟨_, rfl⟩
        · exact ih.own e he
      · intro e he
        rcases List.mem_cons.mp he with rfl | he
        · simp
        · exact ih.noAbort e he
  | case5 skt counts rr t raw skt' hraw ht ht' =>
      rw [forwardSharded_of_cons hraw, if_neg ht, if_neg ht']
      apply Forwards.stop (by simp)
      rw [frames_of_some (frame?_of_recv hraw), streamEnd,
        afterData_cons_of_ne (by simpa using ht')]
      simp [ht]

/-! ## The session -/

theorem streamEnd_eq_failed_iff {dataType : MessageType} {frames : List Bytes} :
    h.streamEnd dataType frames = .failed ↔
      h.keepRunning = true ∧ afterData dataType frames = [] := by
  unfold streamEnd
  cases afterData dataType frames with
  | nil => cases h.keepRunning <;> simp
  | cons raw rest => simp only; split <;> simp

theorem streamEnd_eq_eof_iff {dataType : MessageType} {frames : List Bytes} :
    h.streamEnd dataType frames = .eof ↔
      ∃ raw rest, afterData dataType frames = raw :: rest ∧
        raw.head? = some MessageType.eof.toByte := by
  unfold streamEnd
  cases afterData dataType frames with
  | nil => cases h.keepRunning <;> simp
  | cons raw rest => simp only; split <;> simp [*]

theorem of_streamEnd_dropped {dataType : MessageType} {frames : List Bytes}
    (hended : h.streamEnd dataType frames = .dropped) :
    h.keepRunning = false ∨ ∃ raw rest,
      afterData dataType frames = raw :: rest ∧
        raw.head? ≠ some MessageType.eof.toByte := by
  unfold streamEnd at hended
  cases hafter : afterData dataType frames with
  | nil =>
      cases hkeep : h.keepRunning with
      | true => simp [hafter, hkeep] at hended
      | false => exact Or.inl rfl
  | cons raw rest =>
      rw [hafter] at hended
      refine Or.inr ⟨raw, rest, rfl, fun heof => ?_⟩
      simp [heof] at hended

theorem aborts_endsAlike (sent : List (Shard × ShardMsg)) :
    h.EndsAlike (sent ++ h.shards.map fun shard => (shard, ShardMsg.abort)) := by
  apply Or.inr
  intro shard hshard
  exact List.mem_append_right _ (List.mem_map.mpr ⟨shard, hshard, rfl⟩)

/-- Without an abort, and without an end-of-file for the accounts, some shard is not
told. -/
theorem not_endsAlike {sent : List (Shard × ShardMsg)}
    (habort : ∀ e ∈ sent, e.2 ≠ .abort)
    (heof : ∀ count, (Shard.accounts 0, ShardMsg.eof count) ∉ sent) :
    ¬h.EndsAlike sent := by
  have hshard : Shard.accounts 0 ∈ h.shards := by
    apply List.mem_append_right
    exact List.mem_map.mpr ⟨0, List.mem_range.mpr h.accounts_pos, rfl⟩
  intro halike
  rcases halike with halike | halike
  · obtain ⟨count, hmem⟩ := halike _ hshard
    exact heof count hmem
  · exact habort _ (halike _ hshard) rfl

/-- The transactions, as `_run` forwards them. -/
theorem transactions_forwards :
    h.Forwards h.numTransactions .transactions .transactions h.skt.bytes
      (h.forwardSharded h.numTransactions .transactions .transactions h.skt
        (List.replicate h.numTransactions 0) 0) :=
  forwardSharded_forwards _ _ (by decide) _ _ _

/-- The accounts, as `_run` forwards them from where the transactions end. -/
theorem accounts_forwards (skt : Socket) :
    h.Forwards h.numAccounts .accounts .accounts skt.bytes
      (h.forwardSharded h.numAccounts .accounts .accounts skt
        (List.replicate h.numAccounts 0) 0) :=
  forwardSharded_forwards _ _ (by decide) _ _ _

theorem not_mem_transactions {skt : Socket} {i : ℕ} {msg : ShardMsg}
    {f : Forwarded}
    (hf : h.Forwards h.numTransactions .transactions .transactions skt.bytes f) :
    (Shard.accounts i, msg) ∉ f.sent := by
  intro hmem
  obtain ⟨j, hj⟩ := hf.own _ hmem
  cases hj

variable (h)

/-- Every shard hears of the end of the session in the same way if and only if the
client sent the frames up to the end of its session, or the gateway closed the
connection. -/
theorem endsAlike_iff :
    h.EndsAlike h.run.1 ↔ h.keepRunning = false ∨ Complete h.skt.bytes := by
  have htrans := transactions_forwards (h := h)
  simp only [run]
  generalize h.forwardSharded h.numTransactions .transactions .transactions h.skt
    (List.replicate h.numTransactions 0) 0 = trans at htrans ⊢
  cases hended : trans.ended with
  | failed =>
      obtain ⟨hkeep, hafter⟩ := streamEnd_eq_failed_iff.mp
        (htrans.ended.symm.trans hended)
      have hnot : ¬h.EndsAlike trans.sent :=
        not_endsAlike htrans.noAbort fun count => not_mem_transactions htrans
      simp [hnot, hkeep, Complete, hafter]
  | dropped =>
      have halike : h.EndsAlike
          (trans.sent ++ h.shards.map fun shard => (shard, ShardMsg.abort)) :=
        aborts_endsAlike _
      simp only [halike, true_iff]
      rcases of_streamEnd_dropped (htrans.ended.symm.trans hended) with
        hkeep | ⟨raw, rest, hafter, hne⟩
      · exact Or.inl hkeep
      · exact Or.inr ⟨raw, rest, hafter, fun heof => absurd heof hne⟩
  | eof =>
      obtain ⟨raw, rest, hafter, heof⟩ := streamEnd_eq_eof_iff.mp
        (htrans.ended.symm.trans hended)
      have hrest : frames trans.skt.bytes = rest := by
        rw [htrans.rest hended, hafter, List.tail_cons]
      have hcomplete : Complete h.skt.bytes ↔ afterData .accounts rest ≠ [] := by
        simp [Complete, hafter, heof]
      have haccs := accounts_forwards (h := h) trans.skt
      generalize h.forwardSharded h.numAccounts .accounts .accounts trans.skt
        (List.replicate h.numAccounts 0) 0 = accs at haccs ⊢
      have hended' := haccs.ended
      rw [hrest] at hended'
      rw [hcomplete]
      cases hends : accs.ended with
      | failed =>
          obtain ⟨hkeep, hnil⟩ := streamEnd_eq_failed_iff.mp
            (hended'.symm.trans hends)
          have hnot : ¬h.EndsAlike (trans.sent ++ accs.sent) := by
            apply not_endsAlike
            · intro e he
              rcases List.mem_append.mp he with he | he
              · exact htrans.noAbort e he
              · exact haccs.noAbort e he
            · intro count hmem
              rcases List.mem_append.mp hmem with hmem | hmem
              · exact not_mem_transactions htrans hmem
              · exact haccs.noEof (by simp [hends]) _ hmem count rfl
          simp [hnot, hkeep, hnil]
      | dropped =>
          have halike : h.EndsAlike (trans.sent ++ accs.sent ++
              h.shards.map fun shard => (shard, ShardMsg.abort)) :=
            aborts_endsAlike _
          simp only [halike, true_iff]
          rcases of_streamEnd_dropped (hended'.symm.trans hends) with
            hkeep | ⟨raw', rest', hafter', -⟩
          · exact Or.inl hkeep
          · exact Or.inr (by simp [hafter'])
      | eof =>
          obtain ⟨raw', rest', hafter', -⟩ := streamEnd_eq_eof_iff.mp
            (hended'.symm.trans hends)
          have halike : h.EndsAlike (trans.sent ++ accs.sent) := by
            apply Or.inl
            intro shard hshard
            rcases List.mem_append.mp hshard with hmem | hmem
            · obtain ⟨i, hi, rfl⟩ := List.mem_map.mp hmem
              obtain ⟨count, hsent⟩ := htrans.eof hended i (List.mem_range.mp hi)
              exact ⟨count, List.mem_append_left _ hsent⟩
            · obtain ⟨i, hi, rfl⟩ := List.mem_map.mp hmem
              obtain ⟨count, hsent⟩ := haccs.eof hends i (List.mem_range.mp hi)
              exact ⟨count, List.mem_append_right _ hsent⟩
          simp [halike, hafter']

/-- A client that sends one batch of transactions and closes its connection. -/
def closedEarly : ClientStream where
  id := List.replicate 16 7
  numTransactions := 1
  numAccounts := 1
  transactions_pos := by decide
  accounts_pos := by decide
  skt := ⟨[[0, 0, 0, 1, 1]], by decide, .closed⟩
  keepRunning := true

/-- The batch reaches its shard, and no shard is told that the client is gone. -/
theorem not_endsAlike_closedEarly :
    closedEarly.run =
      ([(.transactions 0, .data (1 :: List.replicate 16 7))], .failed) ∧
    ¬closedEarly.EndsAlike closedEarly.run.1 := by
  have hrun : closedEarly.run =
      ([(.transactions 0, .data (1 :: List.replicate 16 7))], .failed) := by
    have hfirst : recv true closedEarly.skt =
        some ([1], ⟨[], by simp, .closed⟩) := by
      simp [closedEarly, recv, recvExact, Socket.recv, fromBytes]
    have hlast : recv true ⟨[], by simp, .closed⟩ = none := by
      simp [recv, recvExact, Socket.recv]
    rw [run, forwardSharded_of_cons hfirst, if_neg (by decide), if_pos (by decide),
      forwardSharded_of_none hlast]
    rfl
  constructor
  · exact hrun
  · rw [hrun]
    apply not_endsAlike
    · simp
    · simp

end ClientStream
