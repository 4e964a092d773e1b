import MoneyLaundering.Checkpoint.Watermark
import MoneyLaundering.Gateway.ClientStream

/-!
# The numbers that one shard sees

The messages of a stream are numbered by one counter and dealt to the shards in turn, so
that one shard sees every `n`-th number.  To a deduplicator this is a stream with a gap
after each message.
-/

/-- The streams of a client. -/
inductive DataStream where
  | transactions
  | accounts
deriving DecidableEq

namespace DataStream

/-- The queues of its shards. -/
def shard : DataStream → ℕ → Shard
  | .transactions => .transactions
  | .accounts => .accounts

/-- The type of its data. -/
def dataType : DataStream → MessageType
  | .transactions => .transactions
  | .accounts => .accounts

theorem shard_injective (stream : DataStream) : Function.Injective stream.shard := by
  intro i j heq
  cases stream with
  | transactions => exact Shard.transactions.inj heq
  | accounts => exact Shard.accounts.inj heq

end DataStream

open Connection

namespace ClientStream

/-- The number of shards of a stream. -/
def numShards (h : ClientStream) : DataStream → ℕ
  | .transactions => h.numTransactions
  | .accounts => h.numAccounts

/-- What `_run` sends for a stream, when its socket is at the beginning of it. -/
def forwarded (h : ClientStream) (stream : DataStream) (skt : Socket) :
    List (Shard × ShardMsg) :=
  (h.forwardSharded (h.numShards stream) stream.shard stream.dataType skt
    (List.replicate (h.numShards stream) 0) 0).sent

/-- The data frames that a stream begins with. -/
def dataFrames (stream : DataStream) (skt : Socket) : List Bytes :=
  (frames skt.bytes).takeWhile fun raw => raw.head? = some stream.dataType.toByte

/-- The numbers that `StampingMOM`s of one counter give to data messages; `seq` is the
last one. -/
def stamped (seq : ℕ) : List (Shard × ShardMsg) → List (Shard × ℕ)
  | [] => []
  | (shard, .data _) :: sent => (shard, seq + 1) :: stamped (seq + 1) sent
  | (_, .eof _) :: sent => stamped seq sent
  | (_, .abort) :: sent => stamped seq sent

/-- The numbers that come to a shard. -/
def seqsOf (shard : Shard) (sent : List (Shard × ShardMsg)) : List ℕ :=
  (stamped 0 sent).filterMap fun e => if e.1 = shard then some e.2 else none

/-- The numbers of a producer that were recorded, oldest first. -/
def recordsOf (p : ProducerId) (ops : List Deduplicator.Op) : List ℕ :=
  ops.filterMap fun
    | .record q n => if q = p then some n else none
    | .reload => none

/-- Whenever the consumer of a shard recorded the first of the messages that were sent to
it, it keeps no more numbers beyond its mark than there are messages in flight. -/
def AheadBounded (sent : List (Shard × ShardMsg)) (shard : Shard) (p : ProducerId) : Prop :=
  ∀ m ops, recordsOf p ops <+: seqsOf shard (sent.take m) →
    ((Deduplicator.run ops .fresh).ahead.getD p ∅).card ≤
      (seqsOf shard (sent.take m)).length - (recordsOf p ops).length

variable {h : ClientStream} {n seq rr : ℕ} {shard : ℕ → Shard} {dataType : MessageType}
  {skt : Socket} {counts : List ℕ} {sent : List (Shard × ShardMsg)}

/-! ## The numbers of a shard -/

theorem stamped_of_noData (hsent : ∀ e ∈ sent, ∀ raw, e.2 ≠ .data raw) :
    stamped seq sent = [] := by
  induction sent with
  | nil => rfl
  | cons e sent ih =>
      obtain ⟨s, msg⟩ := e
      have hrest := ih fun e he => hsent e (List.mem_cons_of_mem _ he)
      cases msg with
      | data raw => exact absurd rfl (hsent _ List.mem_cons_self raw)
      | eof count => exact hrest
      | abort => exact hrest

theorem stamped_take (seq m : ℕ) (sent : List (Shard × ShardMsg)) :
    stamped seq (sent.take m) <+: stamped seq sent := by
  induction sent generalizing seq m with
  | nil => simp
  | cons e sent ih =>
      obtain ⟨s, msg⟩ := e
      cases m with
      | zero => exact List.nil_prefix
      | succ m =>
          cases msg with
          | data raw => exact List.cons_prefix_cons.mpr ⟨rfl, ih (seq + 1) m⟩
          | eof count => exact ih seq m
          | abort => exact ih seq m

theorem dataFrames_of_none {stream : DataStream} (hraw : recv h.keepRunning skt = none) :
    dataFrames stream skt = [] := by
  rcases recv_cases h.keepRunning skt with
    ⟨raw, skt', hrecv, -⟩ | ⟨hframe, -⟩ | ⟨-, -, skt', hrecv⟩
  · rw [hrecv] at hraw
    cases hraw
  · rw [dataFrames, frames_of_none hframe, List.takeWhile_nil]
  · rw [hrecv] at hraw
    cases hraw

/-- A frame that is no data of the stream ends it, and so does the end of the socket. -/
theorem dataFrames_of_ne {stream : DataStream} {raw : Bytes} {skt' : Socket}
    (hraw : recv h.keepRunning skt = some (raw, skt'))
    (hne : raw.head? ≠ some stream.dataType.toByte) : dataFrames stream skt = [] := by
  rcases recv_cases h.keepRunning skt with
    ⟨raw', skt'', hrecv, hframe⟩ | ⟨-, -, hrecv⟩ | ⟨hframe, -⟩
  · obtain ⟨rfl, -⟩ := Prod.mk.inj (Option.some.inj (hrecv.symm.trans hraw))
    rw [dataFrames, frames_of_some hframe, List.takeWhile_cons_of_neg (by simpa using hne)]
  · rw [hrecv] at hraw
    cases hraw
  · rw [dataFrames, frames_of_none hframe, List.takeWhile_nil]

theorem dataFrames_of_data {stream : DataStream} {raw : Bytes} {skt' : Socket}
    (hraw : recv h.keepRunning skt = some (stream.dataType.toByte :: raw, skt')) :
    dataFrames stream skt = (stream.dataType.toByte :: raw) :: dataFrames stream skt' := by
  rw [dataFrames, frames_of_some (frame?_of_recv hraw), List.takeWhile_cons_of_pos (by simp)]
  rfl

/-- The data frames of a stream are numbered as they are dealt. -/
theorem stamped_forwardSharded (h : ClientStream) (n : ℕ) (stream : DataStream) (skt : Socket)
    (counts : List ℕ) (rr seq : ℕ) :
    stamped seq (h.forwardSharded n stream.shard stream.dataType skt counts rr).sent =
      (List.range (dataFrames stream skt).length).map fun t =>
        (stream.shard ((rr + t) % n), seq + t + 1) := by
  induction skt, counts, rr using
    ClientStream.forwardSharded.induct h n stream.dataType generalizing seq with
  | case1 skt counts rr hraw =>
      rw [forwardSharded_of_none hraw, dataFrames_of_none hraw]
      rfl
  | case2 skt counts rr skt' hraw =>
      rw [forwardSharded_of_empty hraw, dataFrames_of_ne hraw (by simp)]
      rfl
  | case3 skt counts rr raw skt' hraw =>
      have heof : stream.dataType.toByte ≠ MessageType.eof.toByte := by
        cases stream <;> decide
      rw [forwardSharded_of_cons hraw, if_pos rfl,
        dataFrames_of_ne hraw (by simpa using heof.symm)]
      apply stamped_of_noData
      intro e he raw'
      obtain ⟨i, -, rfl⟩ := List.mem_map.mp he
      simp
  | case4 skt counts rr raw skt' hraw ht ih =>
      rw [forwardSharded_of_cons hraw, if_neg ht, if_pos rfl, dataFrames_of_data hraw,
        List.length_cons, List.range_succ_eq_map, List.map_cons, List.map_map]
      change (stream.shard (rr % n), seq + 1) :: stamped (seq + 1) _ = _
      rw [ih (seq + 1)]
      congr 1
      apply List.map_congr_left
      intro t _
      simp only [Function.comp_apply]
      rw [show rr + 1 + t = rr + t.succ by omega, show seq + 1 + t + 1 = seq + t.succ + 1 by omega]
  | case5 skt counts rr t raw skt' hraw ht ht' =>
      rw [forwardSharded_of_cons hraw, if_neg ht, if_neg ht',
        dataFrames_of_ne hraw (by simpa using ht')]
      rfl

/-- Every `n`-th number comes to a shard. -/
theorem mem_seqsOf_forwarded {stream : DataStream} {i s : ℕ} :
    s ∈ seqsOf (stream.shard i) (h.forwarded stream skt) ↔
      ∃ t < (dataFrames stream skt).length, t % h.numShards stream = i ∧ s = t + 1 := by
  rw [seqsOf, forwarded, stamped_forwardSharded, List.mem_filterMap]
  constructor
  · rintro ⟨e, he, hs⟩
    obtain ⟨t, ht, rfl⟩ := List.mem_map.mp he
    simp only [Nat.zero_add, stream.shard_injective.eq_iff, Option.ite_none_right_eq_some,
      Option.some.injEq] at hs
    exact ⟨t, List.mem_range.mp ht, hs.1, hs.2.symm⟩
  · rintro ⟨t, ht, rfl, rfl⟩
    exact ⟨_, List.mem_map_of_mem (List.mem_range.mpr ht), by simp⟩

theorem sorted_seqsOf_forwarded (h : ClientStream) (stream : DataStream) (skt : Socket)
    (shard : Shard) : (seqsOf shard (h.forwarded stream skt)).Pairwise (· < ·) := by
  rw [seqsOf, forwarded, stamped_forwardSharded, List.filterMap_map, List.pairwise_filterMap]
  refine List.pairwise_lt_range.imp fun {t t'} hlt s hs s' hs' => ?_
  simp only [Function.comp_apply, Option.ite_none_right_eq_some, Option.some.injEq] at hs hs'
  omega

/-! ## What a consumer keeps of them -/

variable {p : ProducerId} {ops : List Deduplicator.Op}

theorem mem_recordsOf {s : ℕ} : s ∈ recordsOf p ops ↔ .record p s ∈ ops := by
  rw [recordsOf, List.mem_filterMap]
  constructor
  · rintro ⟨op, hop, hs⟩
    cases op with
    | record q k =>
        simp only [Option.ite_none_right_eq_some, Option.some.injEq] at hs
        obtain ⟨rfl, rfl⟩ := hs
        exact hop
    | reload => cases hs
  · intro hop
    exact ⟨_, hop, by simp⟩

/-- Nothing is beyond the mark where all below a recorded number are recorded. -/
theorem ahead_eq_empty
    (hdown : ∀ s ∈ recordsOf p ops, ∀ s' < s, 1 ≤ s' → s' ∈ recordsOf p ops) :
    (Deduplicator.run ops .fresh).ahead.getD p ∅ = ∅ := by
  obtain ⟨-, hnext, hahead⟩ :=
    (Deduplicator.tight_run ops Deduplicator.tight_fresh).mark p
  rw [Finset.eq_empty_iff_forall_notMem]
  intro s hs
  obtain ⟨hrec, hlt⟩ := hahead s hs
  have hmem := mem_recordsOf.mpr ((Deduplicator.recorded_run_fresh ops p s).mp hrec).2
  apply hnext
  rw [Deduplicator.recorded_run_fresh]
  exact ⟨by omega, mem_recordsOf.mp (hdown s hmem _ hlt (by omega))⟩

/-- If nothing is beyond the mark, all below a recorded number are recorded. -/
theorem mem_recordsOf_of_ahead
    (h : (Deduplicator.run ops .fresh).ahead.getD p ∅ = ∅) {s s' : ℕ}
    (hs : s ∈ recordsOf p ops) (hpos : 1 ≤ s') (hle : s' ≤ s) : s' ∈ recordsOf p ops := by
  obtain ⟨hbelow, -, -⟩ :=
    (Deduplicator.tight_run ops Deduplicator.tight_fresh).mark p
  have hrec := (Deduplicator.recorded_run_fresh ops p s).mpr
    ⟨by omega, mem_recordsOf.mp hs⟩
  have hmark : s ≤ (Deduplicator.run ops .fresh).hi.getD p 0 := by
    rcases (Deduplicator.recorded_iff.mp hrec).2 with hmark | hmem
    · exact hmark
    · rw [h] at hmem
      cases hmem
  have hrec' := hbelow s' hpos (hle.trans hmark)
  exact mem_recordsOf.mpr ((Deduplicator.recorded_run_fresh ops p s').mp hrec').2

/-- What was recorded of a prefix came to the shard. -/
theorem recordsOf_prefix {shard : Shard} {m : ℕ}
    (h : recordsOf p ops <+: seqsOf shard (sent.take m)) :
    recordsOf p ops <+: seqsOf shard sent :=
  h.trans ((stamped_take 0 m sent).filterMap _)

/-- A smaller number comes before a number of a sorted list. -/
theorem mem_of_prefix_of_lt {xs ys : List ℕ} (hsorted : ys.Pairwise (· < ·))
    (hpre : xs <+: ys) {x y : ℕ} (hx : x ∈ xs) (hlt : y < x) (hy : y ∈ ys) : y ∈ xs := by
  obtain ⟨zs, rfl⟩ := hpre
  rcases List.mem_append.mp hy with hmem | hmem
  · exact hmem
  · have hlt' := (List.pairwise_append.mp hsorted).2.2 x hx y hmem
    omega

/-- A consumer keeps no more numbers than there are messages in flight if and only if the
stream has one shard, or it ends before the consumer gets a message that is not the first of
the stream. -/
theorem aheadBounded_iff (h : ClientStream) (stream : DataStream) (skt : Socket)
    (p : ProducerId) (i : ℕ) (hi : i < h.numShards stream) :
    AheadBounded (h.forwarded stream skt) (stream.shard i) p ↔
      h.numShards stream = 1 ∨
        (dataFrames stream skt).length ≤ if i = 0 then h.numShards stream else i := by
  have hsorted := sorted_seqsOf_forwarded h stream skt (stream.shard i)
  constructor
  · intro hbound
    by_contra hne
    obtain ⟨hshards, hlength⟩ := not_or.mp hne
    let seqs := seqsOf (stream.shard i) (h.forwarded stream skt)
    have hall : recordsOf p (seqs.map (.record p)) = seqs := by
      rw [recordsOf, List.filterMap_map]
      simp
    have hcard := hbound (h.forwarded stream skt).length (seqs.map (.record p))
    rw [List.take_length, hall, Nat.sub_self, Nat.le_zero, Finset.card_eq_zero] at hcard
    have hempty := hcard (List.prefix_refl _)
    have hdown : ∀ {s s'}, s ∈ seqs → 1 ≤ s' → s' ≤ s → s' ∈ seqs := by
      intro s s' hs hpos hle
      have hmem := mem_recordsOf_of_ahead hempty (hall.symm ▸ hs) hpos hle
      rwa [hall] at hmem
    by_cases hzero : i = 0
    · -- the first shard got number `n + 1` too, but not number `2`
      subst hzero
      rw [if_pos rfl, not_le] at hlength
      have hlast : h.numShards stream + 1 ∈ seqs :=
        mem_seqsOf_forwarded.mpr ⟨_, hlength, Nat.mod_self _, rfl⟩
      have hsecond : 2 ∈ seqs := hdown hlast (by omega) (by omega)
      obtain ⟨t, -, ht, heq⟩ := mem_seqsOf_forwarded.mp hsecond
      obtain rfl : t = 1 := by omega
      exact hshards (Nat.dvd_one.mp (Nat.dvd_of_mod_eq_zero ht))
    · -- another shard got number `i + 1`, but not number `1`
      rw [if_neg hzero, not_le] at hlength
      have hfirst : i + 1 ∈ seqs :=
        mem_seqsOf_forwarded.mpr ⟨_, hlength, Nat.mod_eq_of_lt hi, rfl⟩
      obtain ⟨t, -, ht, heq⟩ := mem_seqsOf_forwarded.mp (hdown hfirst le_rfl (by omega))
      obtain rfl : t = 0 := by omega
      rw [Nat.zero_mod] at ht
      exact hzero ht.symm
  · intro hcond m ops hprefix
    have hrecords := recordsOf_prefix hprefix
    rw [ahead_eq_empty, Finset.card_empty]
    · exact Nat.zero_le _
    · intro s hs s' hlt hpos
      obtain ⟨t, htk, ht, rfl⟩ := mem_seqsOf_forwarded.mp (hrecords.subset hs)
      apply mem_of_prefix_of_lt hsorted hrecords hs hlt
      rcases hcond with hone | hlength
      · refine mem_seqsOf_forwarded.mpr ⟨s' - 1, by omega, ?_, by omega⟩
        rw [hone] at hi ⊢
        omega
      · -- the shard gets its first message only, which is the first of the stream
        have htn : t < h.numShards stream := by
          split at hlength <;> omega
        rw [Nat.mod_eq_of_lt htn] at ht
        split at hlength <;> omega

/-- With one shard the numbers come without a gap. -/
theorem aheadBounded_closedEarly :
    AheadBounded (closedEarly.forwarded .transactions closedEarly.skt) (.transactions 0) 5 :=
  (aheadBounded_iff closedEarly .transactions closedEarly.skt 5 0 (by decide)).mpr
    (Or.inl rfl)

/-- A client that sends two batches to two shards. -/
def twoBatches : ClientStream :=
  { closedEarly with
    numTransactions := 2
    transactions_pos := by decide
    skt := ⟨[[0, 0, 0, 1, 1], [0, 0, 0, 1, 1]], by decide, .closed⟩ }

/-- The second shard got number `2` only.  Once it is recorded nothing is in flight, and it
stays beyond the mark. -/
theorem not_aheadBounded_twoBatches :
    seqsOf (.transactions 1) (twoBatches.forwarded .transactions twoBatches.skt) = [2] ∧
    (Deduplicator.run [.record 5 2] .fresh).ahead.getD 5 ∅ = {2} ∧
    ¬AheadBounded (twoBatches.forwarded .transactions twoBatches.skt) (.transactions 1) 5 := by
  have hforwarded : twoBatches.forwarded .transactions twoBatches.skt =
      [(.transactions 0, .data (1 :: List.replicate 16 7)),
        (.transactions 1, .data (1 :: List.replicate 16 7))] := by
    have hfirst : recv true twoBatches.skt =
        some ([1], ⟨[[0, 0, 0, 1, 1]], by decide, .closed⟩) := by
      simp [twoBatches, recv, recvExact, Socket.recv, fromBytes]
    have hsecond : recv true ⟨[[0, 0, 0, 1, 1]], by decide, .closed⟩ =
        some ([1], ⟨[], by simp, .closed⟩) := by
      simp [recv, recvExact, Socket.recv, fromBytes]
    have hlast : recv true ⟨[], by simp, .closed⟩ = none := by
      simp [recv, recvExact, Socket.recv]
    rw [forwarded, forwardSharded_of_cons hfirst, if_neg (by decide), if_pos (by decide),
      forwardSharded_of_cons hsecond, if_neg (by decide), if_pos (by decide),
      forwardSharded_of_none hlast]
    rfl
  have hahead : (Deduplicator.run [.record 5 2] .fresh).ahead.getD 5 ∅ = {2} := by decide
  rw [hforwarded]
  constructor
  · decide
  constructor
  · exact hahead
  · intro hbound
    have hcard := hbound 2 [.record 5 2] (by decide)
    rw [hahead] at hcard
    revert hcard
    decide

end ClientStream
