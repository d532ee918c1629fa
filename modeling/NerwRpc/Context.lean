import NerwRpc.Error

/-! # Request contexts

The context a handler receives, and `buildInboundContext`, which fills it from the connection
and from the clock readings taken while the request was dispatched. -/

namespace NerwRpc

/-- The text form of a peer's public key. -/
abbrev NodeId := String
abbrev Uuid := BitVec 128

structure PeerMetadata where
  nodeId : NodeId
  connectionId : UInt64
  streamId : UInt64
  alpn : Bytes
  handshakeAtMs : ℕ
  tlsCipherSuite : Option String
deriving DecidableEq, Repr

structure TimingInfo where
  receivedAtMs : ℕ
  receivedAtMonotonicNs : ℕ
  frameDecodeDurationUs : ℕ
deriving DecidableEq, Repr

structure AuthenticatedContext where
  nodeId : NodeId
  masterPubkey : Bytes
  userId : Uuid
  deviceId : Uuid
  scopes : List String
  registeredAtMs : ℤ
  lastSeenAtMs : ℤ
deriving DecidableEq, Repr

structure SessionInfo where
  sessionId : Uuid
  sessionStartedAtMs : ℤ
  lastActivityMs : ℤ
  keepaliveCount : UInt32
deriving DecidableEq, Repr

structure TracingInfo where
  traceId : Uuid
  spanId : Uuid
  parentSpanId : Option Uuid
  correlationId : Option Uuid
  sampled : Bool
deriving DecidableEq, Repr

structure RpcContext where
  peer : PeerMetadata
  timing : TimingInfo
  auth : Option AuthenticatedContext
  session : Option SessionInfo
  tracing : TracingInfo
deriving DecidableEq, Repr

/-- What a substream task knows of its connection, and the readings it takes: the wall clock
since the epoch (`none` before it), the time since the substream was accepted, and fresh
trace ids. -/
structure Inbound where
  remoteId : NodeId
  connectionId : UInt64
  streamId : UInt64
  sinceEpochMs : Option ℕ
  decodeElapsedUs : ℕ
  acceptElapsedNs : ℕ
  traceId : Uuid
  spanId : Uuid
deriving DecidableEq, Repr

def alpnNerwRpc : Bytes := "nerw/rpc/1.0.0".toList.map fun c => UInt8.ofNat c.toNat

/-- `try_from(n).unwrap_or(fallback)` into an integer type with the largest value `max`. -/
def tryFromOr (max n fallback : ℕ) : ℕ := if n ≤ max then n else fallback

def Inbound.frameDecodeDurationUs (c : Inbound) : ℕ :=
  tryFromOr (2 ^ 64 - 1) c.decodeElapsedUs (2 ^ 64 - 1)

def buildInboundContext (c : Inbound) : RpcContext :=
  let nowMs := tryFromOr (2 ^ 63 - 1) (c.sinceEpochMs.getD 0) 0
  { peer :=
      { nodeId := c.remoteId
        connectionId := c.connectionId
        streamId := c.streamId
        alpn := alpnNerwRpc
        handshakeAtMs := nowMs
        tlsCipherSuite := none }
    timing :=
      { receivedAtMs := nowMs
        receivedAtMonotonicNs := tryFromOr (2 ^ 64 - 1) c.acceptElapsedNs (2 ^ 64 - 1)
        frameDecodeDurationUs := c.frameDecodeDurationUs }
    auth := none
    session := none
    tracing := ⟨c.traceId, c.spanId, none, none, false⟩ }

end NerwRpc
