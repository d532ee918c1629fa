import NerwRpc.ByteStream
import NerwRpc.Leb128
import NerwRpc.Error

/-! # The envelope: opcodes, bodies and the code outside the repository

The opcodes, the size limits and the typed bodies of the wire format, and `Deps`, the parts
of the program that are not in the repository: the width of `usize`, the LEB128 crate, the
postcard codec of each body and the `Debug` renderings that end up in error texts.

The LEB128 crate comes with what its documentation says of it; of a postcard codec nothing
is assumed here: `PostcardCodec.RoundTrips` and `PostcardCodec.Total` name the two facts the
results below ask for. -/

namespace NerwRpc

open ByteStream

/-! ### Limits and opcodes -/

def maxStreamingPayloadLen : ℕ := 8 * 1024 * 1024
def maxMethodNameLen : ℕ := 4096
def rpcStreamReadLimit : ℕ := 8 * 1024 * 1024
def rpcResponseReadLimit : ℕ := 8 * 1024 * 1024

def opcodeUnaryRequest : UInt8 := 0x00
def opcodeUnaryResponse : UInt8 := 0x01
def opcodeUnaryError : UInt8 := 0x02
def opcodeStreamingOpenRequest : UInt8 := 0x10
def opcodeStreamingOpenResponse : UInt8 := 0x11
def opcodeStreamingRequestChunk : UInt8 := 0x20
def opcodeStreamingResponseChunk : UInt8 := 0x21
def opcodeStreamingRequestEnd : UInt8 := 0x30
def opcodeStreamingResponseEnd : UInt8 := 0x31
def opcodeStreamingError : UInt8 := 0x40

/-! ### Bodies -/

structure StreamingOpenRequest where
  methodName : String
  requestId : UInt64
deriving DecidableEq, Repr

inductive StreamingOpenStatus where
  | ok
  | err (reason : String)
deriving DecidableEq, Repr

structure StreamingOpenResponse where
  status : StreamingOpenStatus
  requestId : UInt64
deriving DecidableEq, Repr

structure StreamingError where
  message : String
  terminal : Bool
deriving DecidableEq, Repr

/-- One streaming frame read off the wire. -/
inductive StreamingFrame where
  | openRequest (body : StreamingOpenRequest)
  | openResponse (body : StreamingOpenResponse)
  | requestChunk (bytes : Bytes)
  | responseChunk (bytes : Bytes)
  | requestEnd
  | responseEnd
  | error (body : StreamingError)
deriving DecidableEq, Repr

/-! ### Code outside the repository -/

/-- The unsigned 64-bit writer and slice reader of the LEB128 crate; a read error is given
by its `Display`. -/
structure Leb128Crate where
  write : ℕ → Bytes
  read : Bytes → Except String (ℕ × Bytes)
  write_eq : ∀ n, n < 2 ^ 64 → write n = Leb128.encode n
  read_ok : ∀ bs, (read bs).toOption = Leb128.readUnsigned bs

/-- Postcard's `to_allocvec` and `from_bytes` at one type. -/
structure PostcardCodec (α : Type) where
  toAllocvec : α → Except PostcardError Bytes
  fromBytes : Bytes → Except PostcardError α

namespace PostcardCodec

variable {α : Type}

/-- `from_bytes` inverts `to_allocvec`. -/
def RoundTrips (c : PostcardCodec α) : Prop :=
  ∀ a b, c.toAllocvec a = .ok b → c.fromBytes b = .ok a

/-- Every value encodes. -/
def Total (c : PostcardCodec α) : Prop := ∀ a, ∃ b, c.toAllocvec a = .ok b

/-- The encoding of `a` exists and is at most `n` bytes long. -/
def Fits (c : PostcardCodec α) (n : ℕ) (a : α) : Prop :=
  ∃ b, c.toAllocvec a = .ok b ∧ b.length ≤ n

end PostcardCodec

class Deps extends StrDebug where
  usizeMax : ℕ
  usizeMax_ge : 2 ^ 32 - 1 ≤ usizeMax
  usizeMax_le : usizeMax ≤ 2 ^ 64 - 1
  leb128 : Leb128Crate
  openRequestCodec : PostcardCodec StreamingOpenRequest
  openResponseCodec : PostcardCodec StreamingOpenResponse
  streamingErrorCodec : PostcardCodec StreamingError
  wireErrorCodec : PostcardCodec WireError
  debugFrame : StreamingFrame → String
  debugAck : Option StreamingFrame → String
  utf8Error : Bytes → String

export Deps (usizeMax usizeMax_ge usizeMax_le leb128 openRequestCodec openResponseCodec
  streamingErrorCodec wireErrorCodec debugFrame debugAck utf8Error)

/-- Two lowercase hexadecimal digits. -/
def hex02 (b : UInt8) : String :=
  String.ofList [Nat.digitChar (b.toNat / 16), Nat.digitChar (b.toNat % 16)]

/-- The `Display` of a failed integer conversion. -/
def tryFromIntError : String := "out of range integral type conversion attempted"

variable [Deps]

theorem maxStreamingPayloadLen_le_usizeMax : maxStreamingPayloadLen ≤ usizeMax :=
  le_trans (by decide) usizeMax_ge

theorem maxMethodNameLen_le_usizeMax : maxMethodNameLen ≤ usizeMax :=
  le_trans (by decide) usizeMax_ge

theorem lt_of_le_usizeMax {n : ℕ} (h : n ≤ usizeMax) : n < 2 ^ 64 := by
  have := usizeMax_le
  omega

end NerwRpc
