import NerwRpc.Postcard
import NerwRpc.Envelope
import NerwRpc.Context

/-! # A reference instance of the code outside the repository

The bodies encoded in the postcard format, on a 64-bit target.  Every fact about a postcard
codec that a result asks for holds of it. -/

namespace NerwRpc

open Postcard (Codec)

/-- `Display` of postcard's error for a buffer that ends too soon. -/
def unexpectedEnd : PostcardError := ⟨"Hit the end of buffer, expected more data"⟩

def PostcardCodec.ofCodec {α : Type} (A : Codec α) : PostcardCodec α where
  toAllocvec a := .ok (A.encode a)
  fromBytes bs := match A.fromBytes bs with
    | some a => .ok a
    | none => .error unexpectedEnd

theorem ofCodec_roundTrips {α : Type} (A : Codec α) : (PostcardCodec.ofCodec A).RoundTrips := by
  intro a b h
  obtain rfl : A.encode a = b := by simpa [PostcardCodec.ofCodec] using h
  simp [PostcardCodec.ofCodec, A.fromBytes_encode]

theorem ofCodec_total {α : Type} (A : Codec α) : (PostcardCodec.ofCodec A).Total :=
  fun a => ⟨A.encode a, rfl⟩

def StreamingOpenRequest.postcard : Codec StreamingOpenRequest :=
  (Codec.pair .str .u64).map (fun p => ⟨p.1, p.2⟩) (fun b => (b.methodName, b.requestId))
    fun _ => rfl

def StreamingOpenStatus.postcard : Codec StreamingOpenStatus :=
  .variant (fun | .ok => 0 | .err _ => 1)
    (fun | .ok => [] | .err reason => Codec.str.encode reason)
    (fun
      | 0, bs => some (.ok, bs)
      | 1, bs => (Codec.str.decode bs).map fun p => (.err p.1, p.2)
      | _, _ => none)
    (by rintro (_ | reason) rest <;> simp [Codec.str.decode_encode])

def StreamingOpenResponse.postcard : Codec StreamingOpenResponse :=
  (Codec.pair StreamingOpenStatus.postcard .u64).map (fun p => ⟨p.1, p.2⟩)
    (fun b => (b.status, b.requestId)) fun _ => rfl

def StreamingError.postcard : Codec StreamingError :=
  (Codec.pair .str .bool).map (fun p => ⟨p.1, p.2⟩) (fun b => (b.message, b.terminal))
    fun _ => rfl

def WireError.postcard : Codec WireError :=
  .variant
    (fun
      | .unknownMethod _ => 0 | .versionMismatch _ _ => 1 | .invalidMethodName _ => 2
      | .malformedFrame _ => 3 | .handlerError _ => 4 | .codec _ => 5)
    (fun
      | .unknownMethod s | .invalidMethodName s | .malformedFrame s | .handlerError s
      | .codec s => Codec.str.encode s
      | .versionMismatch requested available =>
          (Codec.pair .str (.vec .str)).encode (requested, available))
    (fun
      | 0, bs => (Codec.str.decode bs).map fun p => (.unknownMethod p.1, p.2)
      | 1, bs => ((Codec.pair .str (.vec .str)).decode bs).map fun p =>
          (.versionMismatch p.1.1 p.1.2, p.2)
      | 2, bs => (Codec.str.decode bs).map fun p => (.invalidMethodName p.1, p.2)
      | 3, bs => (Codec.str.decode bs).map fun p => (.malformedFrame p.1, p.2)
      | 4, bs => (Codec.str.decode bs).map fun p => (.handlerError p.1, p.2)
      | 5, bs => (Codec.str.decode bs).map fun p => (.codec p.1, p.2)
      | _, _ => none)
    (by rintro (_ | _ | _ | _ | _ | _) rest <;> simp [Codec.decode_encode])

/-- The `Debug` rendering of printable text. -/
def quoted (s : String) : String := "\"" ++ s ++ "\""

def debugBytes (bs : Bytes) : String :=
  "b" ++ quoted (String.ofList (bs.map fun b => Char.ofNat b.toNat))

def StreamingOpenStatus.debug : StreamingOpenStatus → String
  | .ok => "Ok"
  | .err reason => "Err(" ++ quoted reason ++ ")"

def StreamingFrame.debug : StreamingFrame → String
  | .openRequest b => "OpenRequest(StreamingOpenRequest \x7b method_name: " ++
      quoted b.methodName ++ ", request_id: " ++ toString b.requestId.toNat ++ " \x7d)"
  | .openResponse b => "OpenResponse(StreamingOpenResponse \x7b status: " ++ b.status.debug ++
      ", request_id: " ++ toString b.requestId.toNat ++ " \x7d)"
  | .requestChunk bytes => "RequestChunk(" ++ debugBytes bytes ++ ")"
  | .responseChunk bytes => "ResponseChunk(" ++ debugBytes bytes ++ ")"
  | .requestEnd => "RequestEnd"
  | .responseEnd => "ResponseEnd"
  | .error b => "Error(StreamingError \x7b message: " ++ quoted b.message ++ ", terminal: " ++
      toString b.terminal ++ " \x7d)"

@[reducible] def reference : Deps where
  debugStr := quoted
  usizeMax := 2 ^ 64 - 1
  usizeMax_ge := by decide
  usizeMax_le := by decide
  leb128 :=
    { write := Leb128.encode
      read := fun bs => match Leb128.readUnsigned bs with
        | some p => .ok p
        | none => .error "failed to fill whole buffer"
      write_eq := fun _ _ => rfl
      read_ok := fun bs => by cases h : Leb128.readUnsigned bs <;> rfl }
  openRequestCodec := .ofCodec StreamingOpenRequest.postcard
  openResponseCodec := .ofCodec StreamingOpenResponse.postcard
  streamingErrorCodec := .ofCodec StreamingError.postcard
  wireErrorCodec := .ofCodec WireError.postcard
  debugFrame := StreamingFrame.debug
  debugAck
    | some f => "Some(" ++ f.debug ++ ")"
    | none => "None"
  utf8Error _ := "invalid utf-8 sequence"

/-- Some connection and clock readings. -/
def anyInbound : Inbound := ⟨"peer", 1, 4, some 1000, 5, 6000, 1, 2⟩

end NerwRpc
