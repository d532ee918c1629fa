import NerwRpc.Context
import NerwRpc.Method
import NerwRpc.Streaming
import NerwRpc.Wire

/-! # The server side of one substream

`handleInboundSubstream` peeks the opening opcode and takes the unary or the streaming path.
An async function that reads from the substream is a reader; it returns the send half as it
leaves it, which is then dropped.

A unary handler is a function of the context and the payload.  Of a streaming handler the
substream task sees only what it sends through its response channel and how it ends
(`Behaviour`); how the channel and the tasks interleave is the subject of `ResponseFlow`. -/

namespace NerwRpc

open ByteStream

/-- A unary method handler. -/
abbrev MethodHandler := RpcContext → Bytes → RpcResult Bytes

/-- How the task of a streaming handler ends: it returns, or it fails to join, with the
`Display` of the join error. -/
inductive Outcome where
  | returned (result : RpcResult Unit)
  | panicked (joinErr : String)
deriving DecidableEq, Repr

/-- What one run of a streaming handler sends, and how it ends. -/
structure Behaviour where
  items : List (RpcResult Bytes)
  outcome : Outcome

/-- The chunks sent before the first error. -/
def Behaviour.chunks (b : Behaviour) : List Bytes :=
  okItems (b.items.takeWhile fun item => !isTerminal item)

/-- A streaming method handler. -/
abbrev StreamingMethodHandler := RpcContext → Behaviour

abbrev Registry := MethodRegistry MethodHandler StreamingMethodHandler

/-- An async function that reads from the receive half and cannot fail. -/
abbrev Task := ReadM Empty

variable [Deps]

/-! ### The unary path -/

def writeResponse (send : SendStream) (response : Bytes) : Sent :=
  match writeBuf id send (opcodeUnaryResponse :: response) with
  | (.ok (), send) => (.ok (), send.finish)
  | (.error e, send) => (.error e, send)

def writeError (send : SendStream) (err : RpcError) : Sent :=
  match wireErrorCodec.toAllocvec (.fromRpcError err) with
  | .error e => (.error (.codec e), send)
  | .ok body => match writeBuf id send (opcodeUnaryError :: body) with
    | (.ok (), send) => (.ok (), send.finish)
    | (.error e, send) => (.error e, send)

def buildUnaryRequestFrame (methodName : String) (request : Bytes) : RpcResult Bytes := do
  let buf ← encodeMethodName methodName [opcodeUnaryRequest]
  return buf ++ request

def dispatchUnary (c : Inbound) (registry : Registry) (buf : Bytes) : RpcResult Bytes :=
  match buf with
  | [] => .error (.malformedFrame "empty request frame")
  | opcode :: behind =>
      if opcode ≠ opcodeUnaryRequest then
        .error (.malformedFrame ("expected unary-request opcode 0x" ++ hex02 opcodeUnaryRequest ++
          ", got 0x" ++ hex02 opcode))
      else do
        let (methodName, payloadSlice) ← decodeMethodName behind
        let consumedPrefix := buf.length - payloadSlice.length
        let payload := buf.drop consumedPrefix
        match registry.lookup methodName with
        | none => .error (.unknownMethod methodName)
        | some handler => handler (buildInboundContext c) payload

/-- The two arms of the unary path: each writes one frame, and a failed write is logged. -/
def respondUnary (send : SendStream) : RpcResult Bytes → SendStream
  | .ok response => (writeResponse send response).2
  | .error err => (writeError send err).2

def handleUnaryStreamWithOpcodeConsumed (c : Inbound) (registry : Registry) (send : SendStream) :
    Task SendStream := do
  match ← (readToEnd rpcStreamReadLimit).attempt with
  | .error _ => return send
  | .ok tail => return respondUnary send (dispatchUnary c registry (opcodeUnaryRequest :: tail))

/-! ### The streaming path -/

/-- Build a terminal error body from any error. -/
def handlerErrToTerminal (err : RpcError) : StreamingError := ⟨err.display, true⟩

/-- The frame of a response item. -/
def itemFrame : RpcResult Bytes → StreamingFrame
  | .ok chunk => .responseChunk chunk
  | .error err => .error (handlerErrToTerminal err)

/-- The handler and its context on success; `none` if the open failed at any step. -/
def streamingNegotiateOpen (c : Inbound) (registry : Registry) (send : SendStream) :
    Task (Option (StreamingMethodHandler × RpcContext) × SendStream) := do
  match ← (readStreamingFrameAfterOpcode opcodeStreamingOpenRequest).attempt with
  | .ok (.openRequest openReq) =>
      match registry.lookupStreaming openReq.methodName with
      | none =>
          let ack : StreamingOpenResponse :=
            ⟨.err ("unknown streaming method: " ++ openReq.methodName), openReq.requestId⟩
          match writeOpenResponse send ack with
          | (.error _, send) => return (none, send)
          | (.ok (), send) => return (none, send.finish)
      | some handler =>
          match writeOpenResponse send ⟨.ok, openReq.requestId⟩ with
          | (.error _, send) => return (none, send)
          | (.ok (), send) => return (some (handler, buildInboundContext c), send)
  | .ok _ => return (none, send)
  | .error _ => return (none, send)

/-- Write out the response items up to the end of the channel; `true` when nothing may be
written any more, after a terminal frame or a failed write. -/
def drainHandlerResponses (send : SendStream) : List (RpcResult Bytes) → Bool × SendStream
  | [] => (false, send)
  | .ok chunk :: items => match writeResponseChunk send chunk with
    | (.ok (), send) => drainHandlerResponses send items
    | (.error _, send) => (true, send)
  | .error err :: _ => (true, (writeStreamingError send (handlerErrToTerminal err)).2)

/-- The closing frame for a handler outcome. -/
def closingFrame : Outcome → StreamingFrame
  | .returned (.ok ()) => .responseEnd
  | .returned (.error handlerErr) => .error (handlerErrToTerminal handlerErr)
  | .panicked joinErr => .error ⟨"streaming handler join failure: " ++ joinErr, true⟩

def finaliseStreaming (send : SendStream) (outcome : Outcome) : SendStream :=
  match outcome with
  | .returned (.ok ()) => (writeResponseEnd send).2
  | .returned (.error handlerErr) =>
      (writeStreamingError send (handlerErrToTerminal handlerErr)).2
  | .panicked joinErr =>
      (writeStreamingError send ⟨"streaming handler join failure: " ++ joinErr, true⟩).2

/-- The frames of a behaviour: those of its items up to the first error, and the closing frame if
there is none. -/
def streamFrames (outcome : Outcome) : List (RpcResult Bytes) → List StreamingFrame
  | [] => [closingFrame outcome]
  | item :: items =>
      itemFrame item :: if isTerminal item then [] else streamFrames outcome items

/-- The phases after a successful open. -/
def runStreamingHandler (send : SendStream) (b : Behaviour) : SendStream :=
  let (wroteTerminal, send) := drainHandlerResponses send b.items
  let send := if wroteTerminal then send else finaliseStreaming send b.outcome
  send.finish

def handleStreamingSubstream (c : Inbound) (registry : Registry) (send : SendStream) :
    Task SendStream := do
  match ← streamingNegotiateOpen c registry send with
  | (none, send) => return send
  | (some (handler, ctx), send) => return runStreamingHandler send (handler ctx)

/-! ### Dispatch -/

def handleInboundSubstream (c : Inbound) (registry : Registry) (send : SendStream) :
    Task SendStream := do
  match ← (readExact 1).attempt with
  | .error _ => return send
  | .ok opcodeBuf =>
      let opcode := opcodeBuf.headD 0
      if opcode = opcodeStreamingOpenRequest then handleStreamingSubstream c registry send
      else if opcode ≠ opcodeUnaryRequest then
        return (writeError send (.malformedFrame
          ("expected unary-request (0x00) or streaming-open (0x10), got 0x" ++
            hex02 opcode))).2
      else handleUnaryStreamWithOpcodeConsumed c registry send

theorem finaliseStreaming_eq (send : SendStream) (outcome : Outcome) :
    finaliseStreaming send outcome = (writeFrame send (closingFrame outcome)).2 := by
  rcases outcome with (_ | _) | _ <;> rfl

/-! ### The server does not see how the request was cut -/

theorem regular_streamingNegotiateOpen (c : Inbound) (registry : Registry) (send : SendStream) :
    Regular (streamingNegotiateOpen c registry send) := by
  refine (regular_readStreamingFrameAfterOpcode _).attempt.bind fun r => ?_
  obtain e | (body | _ | _ | _ | _ | _ | _) := r
  · exact regular_pure _
  · dsimp only
    split
    · split <;> exact regular_pure _
    · split <;> exact regular_pure _
  all_goals exact regular_pure _

theorem regular_handleStreamingSubstream (c : Inbound) (registry : Registry)
    (send : SendStream) : Regular (handleStreamingSubstream c registry send) := by
  refine (regular_streamingNegotiateOpen c registry send).bind fun r => ?_
  rcases r with ⟨_ | ⟨handler, ctx⟩, send⟩ <;> exact regular_pure _

theorem regular_handleUnary (c : Inbound) (registry : Registry) (send : SendStream) :
    Regular (handleUnaryStreamWithOpcodeConsumed c registry send) := by
  refine (regular_readToEnd _).attempt.bind fun r => ?_
  cases r <;> exact regular_pure _

theorem regular_handleInboundSubstream (c : Inbound) (registry : Registry)
    (send : SendStream) : Regular (handleInboundSubstream c registry send) := by
  refine (regular_readExact 1).attempt.bind fun r => ?_
  cases r with
  | error e => exact regular_pure _
  | ok opcodeBuf =>
      dsimp only
      split_ifs
      · exact regular_handleStreamingSubstream c registry send
      · exact regular_pure _
      · exact regular_handleUnary c registry send

end NerwRpc
