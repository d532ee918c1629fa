import Mathlib.Data.Nat.Notation
import Mathlib.Data.String.Basic
import Mathlib.Tactic.Common

/-! # Errors

`RpcError` with the texts of its `Display`, and `WireError`, the typed envelope in which a
unary error crosses the wire.  A boxed handler error and a postcard error are represented by
their `Display` text, which is all the framework reads of them.

`WireError.fromRpcError` and `WireError.intoRpcError` are the two halves of the unary error
path. -/

namespace NerwRpc

abbrev Bytes := List UInt8

/-- The `Debug` rendering of strings. -/
class StrDebug where
  debugStr : String → String

export StrDebug (debugStr)

/-- An error of the postcard codec. -/
structure PostcardError where
  display : String
deriving DecidableEq, Repr

/-- Top-level error type. -/
inductive RpcError where
  | codec (e : PostcardError)
  | malformedFrame (reason : String)
  | unknownMethod (name : String)
  | invalidMethodName (input : String)
  | versionMismatch (requested : String) (available : List String)
  | handler (source : String)
  | transportOpenSubstream (nodeId reason : String)
  | transportRegisterAlpn (alpn reason : String)
  | transportRead (reason : String)
  | transportWrite (reason : String)
  | datagramStreamIdCollision (streamId : UInt64)
  | datagramStreamIdUnknown (streamId : UInt64)
  | datagramTooShort (len : ℕ)
  | alreadyServing
deriving DecidableEq, Repr

abbrev RpcResult (α : Type) := Except RpcError α

/-- The chunks among the items of a stream. -/
def okItems (items : List (RpcResult Bytes)) : List Bytes := items.filterMap Except.toOption

@[simp] theorem okItems_append (xs ys : List (RpcResult Bytes)) :
    okItems (xs ++ ys) = okItems xs ++ okItems ys := List.filterMap_append ..

@[simp] theorem okItems_map_ok (cs : List Bytes) : okItems (cs.map .ok) = cs := by
  induction cs with
  | nil => rfl
  | cons c cs ih => exact congrArg (c :: ·) ih

@[simp] theorem okItems_error (e : RpcError) : okItems [.error e] = [] := rfl

theorem okItems_mono {xs ys : List (RpcResult Bytes)} (h : xs <+: ys) :
    okItems xs <+: okItems ys := h.filterMap _

/-- An error item ends a stream. -/
def isTerminal : RpcResult Bytes → Bool
  | .ok _ => false
  | .error _ => true

/-- The first error among the items. -/
def firstError (items : List (RpcResult Bytes)) : Option RpcError :=
  items.findSome? fun
    | .ok _ => none
    | .error err => some err

/-- The variants of `RpcError`, without their payloads. -/
inductive RpcError.Variant where
  | codec | malformedFrame | unknownMethod | invalidMethodName | versionMismatch | handler
  | transportOpenSubstream | transportRegisterAlpn | transportRead | transportWrite
  | datagramStreamIdCollision | datagramStreamIdUnknown | datagramTooShort | alreadyServing
deriving DecidableEq, Repr

namespace RpcError

def variant : RpcError → Variant
  | codec _ => .codec
  | malformedFrame _ => .malformedFrame
  | unknownMethod _ => .unknownMethod
  | invalidMethodName _ => .invalidMethodName
  | versionMismatch _ _ => .versionMismatch
  | handler _ => .handler
  | transportOpenSubstream _ _ => .transportOpenSubstream
  | transportRegisterAlpn _ _ => .transportRegisterAlpn
  | transportRead _ => .transportRead
  | transportWrite _ => .transportWrite
  | datagramStreamIdCollision _ => .datagramStreamIdCollision
  | datagramStreamIdUnknown _ => .datagramStreamIdUnknown
  | datagramTooShort _ => .datagramTooShort
  | alreadyServing => .alreadyServing

/-- The `Debug` rendering of a list of strings. -/
def debugStrs [StrDebug] (ss : List String) : String :=
  "[" ++ ", ".intercalate (ss.map debugStr) ++ "]"

def display [StrDebug] : RpcError → String
  | codec e => "codec error: " ++ e.display
  | malformedFrame reason => "malformed wire frame: " ++ reason
  | unknownMethod name => "unknown method: " ++ name
  | invalidMethodName input =>
      "invalid method-name format: expected `package[@version]/interface/method`, got `" ++
        input ++ "`"
  | versionMismatch requested available =>
      "version mismatch: requested " ++ requested ++ ", available " ++ debugStrs available
  | handler source => "handler error: " ++ source
  | transportOpenSubstream nodeId reason =>
      "transport: failed to open substream to peer " ++ nodeId ++ ": " ++ reason
  | transportRegisterAlpn alpn reason =>
      "transport: failed to register ALPN handler '" ++ alpn ++ "': " ++ reason
  | transportRead reason => "transport: read failed: " ++ reason
  | transportWrite reason => "transport: write failed: " ++ reason
  | datagramStreamIdCollision streamId =>
      "datagram: stream-id " ++ toString streamId.toNat ++ " already registered"
  | datagramStreamIdUnknown streamId =>
      "datagram: stream-id " ++ toString streamId.toNat ++ " not registered"
  | datagramTooShort len =>
      "datagram: too short (" ++ toString len ++
        " bytes), need at least 1 byte for varint stream-id prefix"
  | alreadyServing => "RpcServer::serve() called twice — accept loop already running"

end RpcError

/-- What is left of `s` behind the prefix `p`. -/
def stripPrefix (p s : String) : Option String :=
  (p.toList.isPrefixOf? s.toList).map String.ofList

theorem isPrefixOf?_append {α : Type} [BEq α] [LawfulBEq α] : ∀ p r : List α,
    p.isPrefixOf? (p ++ r) = some r
  | [], _ => by simp [List.isPrefixOf?]
  | a :: p, r => by simp [List.isPrefixOf?, isPrefixOf?_append p r]

@[simp] theorem stripPrefix_append (p s : String) : stripPrefix p (p ++ s) = some s := by
  rw [stripPrefix, String.toList_append, isPrefixOf?_append]
  simp

/-- Typed error payload of a unary error frame. -/
inductive WireError where
  | unknownMethod (methodName : String)
  | versionMismatch (requested : String) (available : List String)
  | invalidMethodName (input : String)
  | malformedFrame (reason : String)
  | handlerError (display : String)
  | codec (display : String)
deriving DecidableEq, Repr

namespace WireError

/-- Map a server-side error to its wire-level representation. -/
def fromRpcError [StrDebug] : RpcError → WireError
  | .unknownMethod name => unknownMethod name
  | .versionMismatch requested available => versionMismatch requested available
  | .invalidMethodName input => invalidMethodName input
  | .malformedFrame reason => malformedFrame reason
  | .codec e => codec e.display
  | other => handlerError other.display

/-- Reconstruct an error from a wire envelope on the client side.  The `Display` of a
server-side handler error already carries the prefix that the client's own will add. -/
def intoRpcError : WireError → RpcError
  | unknownMethod methodName => .unknownMethod methodName
  | versionMismatch requested available => .versionMismatch requested available
  | invalidMethodName input => .invalidMethodName input
  | malformedFrame reason => .malformedFrame reason
  | handlerError display => .handler ((stripPrefix "handler error: " display).getD display)
  | codec display => .handler ("server codec error: " ++ display)

end WireError

end NerwRpc
