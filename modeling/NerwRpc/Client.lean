import NerwRpc.Server

/-! # The client side of a call

The two halves of `call_inner`: the request goes out in one frame (`buildUnaryRequestFrame`),
and the whole response is read back before it is decoded. -/

namespace NerwRpc

open ByteStream

variable [Deps]

def decodeResponseFrame (buf : Bytes) : RpcResult Bytes :=
  match buf with
  | [] => .error (.malformedFrame "empty response frame")
  | opcode :: body =>
      if opcode = opcodeUnaryResponse then .ok body
      else if opcode = opcodeUnaryError then
        match wireErrorCodec.fromBytes body with
        | .error e => .error (.codec e)
        | .ok wire => .error wire.intoRpcError
      else .error (.malformedFrame ("unexpected response opcode 0x" ++ hex02 opcode))

theorem buildUnaryRequestFrame_ok {name : String} (h : (Utf8.bytes name).length < 2 ^ 64)
    (payload : Bytes) : buildUnaryRequestFrame name payload = .ok (opcodeUnaryRequest ::
      (Leb128.encode (Utf8.bytes name).length ++ (Utf8.bytes name ++ payload))) := by
  rw [buildUnaryRequestFrame, encodeMethodName_ok h]
  simp [bind, Except.bind, pure, Except.pure]

/-- The first half of `call_inner`: the request frame in one write, then the end of the
stream. -/
def sendRequest (send : SendStream) (methodName : String) (request : Bytes) : Sent :=
  match buildUnaryRequestFrame methodName request with
  | .error e => (.error e, send)
  | .ok frame => match writeBuf ("write_all: " ++ ·) send frame with
    | (.error e, send) => (.error e, send)
    | (.ok (), send) => (.ok (), send.finish)

/-- The second half of `call_inner`. -/
def receiveResponse : ReadM RpcError Bytes := do
  let responseBuf ← (readToEnd rpcResponseReadLimit).mapErr fun e =>
    .transportRead ("read_to_end: " ++ e.display)
  ReadM.lift (decodeResponseFrame responseBuf)

theorem regular_receiveResponse : Regular receiveResponse :=
  ((regular_readToEnd _).mapErr _).bind fun _ => regular_lift _

end NerwRpc
