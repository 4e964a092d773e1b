import Mathlib.Data.BitVec

/-!
# Messages

What a controller reads from its queues: stamped data messages, end-of-file
messages and aborts.
-/

/-- Raw bytes. -/
abbrev Bytes : Type := List UInt8

/-- A 128-bit client identifier. -/
abbrev UUID : Type := BitVec 128

instance : LawfulBEq UUID := inferInstance

/-- The 16 bytes of a producer id, read as one big-endian number. -/
abbrev ProducerId : Type := BitVec 128

/-- A data message: the header fields the nodes read, and its payload. -/
structure DataMsg (α : Type) where
  clientId : UUID
  producerId : ProducerId
  seq : ℕ
  body : α
deriving DecidableEq

namespace DataMsg

variable {α : Type}

/-- What makes two copies the same message to a deduplicator. -/
def identity (msg : DataMsg α) : ProducerId × ℕ := (msg.producerId, msg.seq)

end DataMsg

/-- A message of an input queue. -/
inductive Message (α : Type) where
  | data (msg : DataMsg α)
  | eof (clientId : UUID) (expectedCount : ℤ)
  | abort (clientId : UUID)
deriving DecidableEq

/-- The kinds of messages on the wire. -/
inductive MessageType where
  | eof | transactions | accounts | fin | response | maxByBank | bankNames
  | mergedBankData | graph | pathCounts | count | sumByPaymentFormat
  | avgByFormat | mergedTransactions | ringDone | nodeMsg | pathMsg
  | ringSentData | highDegree | hello | helloAck | ringBarrier | abort
  | supervisorElection | supervisorAck | supervisorLeader
deriving DecidableEq

/-- The byte that stands for a kind, in the order of the enumeration. -/
def MessageType.toByte (t : MessageType) : UInt8 := UInt8.ofNat t.ctorIdx
