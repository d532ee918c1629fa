import NerwRpc.Error
import NerwRpc.PrefixCode

/-! # Transit frames

The frames of the relay protocol and their postcard encoding.  Every type is given its code once,
from the codes of its fields; that encodings are read back, that none of their proper prefixes is,
and that none is a prefix of another one (`transitCodec_prefixFree`) is then inherited from
`Postcard.PrefixCode`.

`Platform` is what is not in the repository: which 32 bytes are a point of the curve, and the width
of `usize`. -/

namespace NerwRpc.Transit

open Postcard

class Platform where
  isPoint : Bytes → Bool
  usize : Width

export Platform (isPoint usize)

/-- Reason codes of error-bearing responses. -/
inductive TransitError where
  | whitelistRejected
  | capacityFull
  | voucherExpired
  | voucherInvalidSig
  | targetNotFound
  | malformedFrame
  | unexpectedFrame
deriving DecidableEq, Repr

structure Capabilities where
  reservedFlags : UInt32
deriving DecidableEq, Repr

structure Limits where
  maxCircuitBytes : UInt64
  maxCircuitDurationSecs : UInt64
deriving DecidableEq, Repr

/-- A signature is any 64 bytes. -/
abbrev Signature : Type := { bs : Bytes // bs.length = 64 }

variable [Platform]

/-- A public key is 32 bytes that are a point of the curve. -/
abbrev PublicKey : Type := { bs : { bs : Bytes // bs.length = 32 } // isPoint bs.1 = true }

abbrev NodeId : Type := PublicKey

/-- A signed reservation grant. -/
structure Voucher where
  relayNodeId : NodeId
  peerNodeId : NodeId
  expireUnixSecs : UInt64
  signature : Signature
deriving DecidableEq

inductive ReserveOutcome where
  | granted (voucher : Voucher) (limits : Limits)
  | denied (e : TransitError)
deriving DecidableEq

inductive ConnectOutcome where
  | granted
  | denied (e : TransitError)
deriving DecidableEq

inductive TransitFrame where
  | hello (peerId : NodeId) (capabilities : Capabilities)
  | reserveRequest (reserveeId : NodeId) (signature : ByteVec usize)
  | reserveResponse (outcome : ReserveOutcome)
  | connectRequest (targetId : NodeId) (voucher : Option Voucher)
  | connectResponse (outcome : ConnectOutcome)
  | bye (reason : Option (Text usize))
deriving DecidableEq

/-! ### Their encoding -/

def TransitError.index : TransitError → ℕ
  | whitelistRejected => 0
  | capacityFull => 1
  | voucherExpired => 2
  | voucherInvalidSig => 3
  | targetNotFound => 4
  | malformedFrame => 5
  | unexpectedFrame => 6

def TransitError.ofIndex : ℕ → Option TransitError
  | 0 => some whitelistRejected
  | 1 => some capacityFull
  | 2 => some voucherExpired
  | 3 => some voucherInvalidSig
  | 4 => some targetNotFound
  | 5 => some malformedFrame
  | 6 => some unexpectedFrame
  | _ => none

def TransitError.postcard : PrefixCode TransitError :=
  .enum index (by intro e; cases e <;> decide) ofIndex (by intro e; cases e <;> rfl)

def Capabilities.postcard : PrefixCode Capabilities :=
  PrefixCode.u32.map mk reservedFlags fun _ => rfl

def Limits.postcard : PrefixCode Limits :=
  (PrefixCode.u64.pair .u64).map (fun p => ⟨p.1, p.2⟩)
    (fun l => (l.maxCircuitBytes, l.maxCircuitDurationSecs)) fun _ => rfl

def Signature.postcard : PrefixCode Signature := .fixed 64

def PublicKey.postcard : PrefixCode PublicKey :=
  (PrefixCode.fixed 32).subtype fun bs => isPoint bs.1 = true

def Voucher.postcard : PrefixCode Voucher :=
  ((PublicKey.postcard.pair PublicKey.postcard).pair (PrefixCode.u64.pair Signature.postcard)).map
    (fun p => ⟨p.1.1, p.1.2, p.2.1, p.2.2⟩)
    (fun v => ((v.relayNodeId, v.peerNodeId), (v.expireUnixSecs, v.signature))) fun _ => rfl

namespace ReserveOutcome

def index : ReserveOutcome → ℕ
  | granted _ _ => 0
  | denied _ => 1

def payload : ReserveOutcome → Bytes
  | granted voucher limits => (Voucher.postcard.pair Limits.postcard).encode (voucher, limits)
  | denied e => TransitError.postcard.encode e

def arm : ℕ → Reader ReserveOutcome
  | 0 => (Voucher.postcard.pair Limits.postcard).arm fun p => granted p.1 p.2
  | 1 => TransitError.postcard.arm denied
  | _ => fun _ => none

theorem local_arm (t : ℕ) : Local (arm t) := by
  match t with
  | 0 => exact (Voucher.postcard.pair Limits.postcard).local_arm fun p => granted p.1 p.2
  | 1 => exact PrefixCode.local_arm _ _
  | _ + 2 => exact local_none

theorem arm_payload (o : ReserveOutcome) (rest : Bytes) :
    arm o.index (o.payload ++ rest) = some (o, rest) := by
  cases o with
  | granted voucher limits =>
      exact (Voucher.postcard.pair Limits.postcard).arm_encode (fun p => granted p.1 p.2)
        (voucher, limits) rest
  | denied e => exact PrefixCode.arm_encode _ _ _ rest

def postcard : PrefixCode ReserveOutcome :=
  .variant index (by intro o; cases o <;> simp [index]) payload arm local_arm arm_payload

end ReserveOutcome

namespace ConnectOutcome

def index : ConnectOutcome → ℕ
  | granted => 0
  | denied _ => 1

def payload : ConnectOutcome → Bytes
  | granted => []
  | denied e => TransitError.postcard.encode e

def arm : ℕ → Reader ConnectOutcome
  | 0 => fun bs => some (granted, bs)
  | 1 => TransitError.postcard.arm denied
  | _ => fun _ => none

omit [Platform] in
theorem local_arm (t : ℕ) : Local (arm t) := by
  match t with
  | 0 => exact local_pure _
  | 1 => exact PrefixCode.local_arm _ _
  | _ + 2 => exact local_none

omit [Platform] in
theorem arm_payload (o : ConnectOutcome) (rest : Bytes) :
    arm o.index (o.payload ++ rest) = some (o, rest) := by
  cases o with
  | granted => rfl
  | denied e => exact PrefixCode.arm_encode _ _ _ rest

def postcard : PrefixCode ConnectOutcome :=
  .variant index (by intro o; cases o <;> simp [index]) payload arm local_arm arm_payload

end ConnectOutcome

namespace TransitFrame

def index : TransitFrame → ℕ
  | hello _ _ => 0
  | reserveRequest _ _ => 1
  | reserveResponse _ => 2
  | connectRequest _ _ => 3
  | connectResponse _ => 4
  | bye _ => 5

def payload : TransitFrame → Bytes
  | hello peerId capabilities =>
      (PublicKey.postcard.pair Capabilities.postcard).encode (peerId, capabilities)
  | reserveRequest reserveeId signature =>
      (PublicKey.postcard.pair (.bytes usize)).encode (reserveeId, signature)
  | reserveResponse outcome => ReserveOutcome.postcard.encode outcome
  | connectRequest targetId voucher =>
      (PublicKey.postcard.pair Voucher.postcard.option).encode (targetId, voucher)
  | connectResponse outcome => ConnectOutcome.postcard.encode outcome
  | bye reason => (PrefixCode.text usize).option.encode reason

def arm : ℕ → Reader TransitFrame
  | 0 => (PublicKey.postcard.pair Capabilities.postcard).arm fun p => hello p.1 p.2
  | 1 => (PublicKey.postcard.pair (.bytes usize)).arm fun p => reserveRequest p.1 p.2
  | 2 => ReserveOutcome.postcard.arm reserveResponse
  | 3 => (PublicKey.postcard.pair Voucher.postcard.option).arm fun p => connectRequest p.1 p.2
  | 4 => ConnectOutcome.postcard.arm connectResponse
  | 5 => (PrefixCode.text usize).option.arm bye
  | _ => fun _ => none

theorem local_arm (t : ℕ) : Local (arm t) := by
  match t with
  | 0 => exact (PublicKey.postcard.pair Capabilities.postcard).local_arm fun p => hello p.1 p.2
  | 1 => exact (PublicKey.postcard.pair (.bytes usize)).local_arm fun p => reserveRequest p.1 p.2
  | 2 => exact PrefixCode.local_arm _ _
  | 3 =>
      exact (PublicKey.postcard.pair Voucher.postcard.option).local_arm fun p =>
        connectRequest p.1 p.2
  | 4 => exact PrefixCode.local_arm _ _
  | 5 => exact PrefixCode.local_arm _ _
  | _ + 6 => exact local_none

theorem arm_payload (f : TransitFrame) (rest : Bytes) :
    arm f.index (f.payload ++ rest) = some (f, rest) := by
  cases f with
  | hello peerId capabilities =>
      exact (PublicKey.postcard.pair Capabilities.postcard).arm_encode
        (fun p => hello p.1 p.2) (peerId, capabilities) rest
  | reserveRequest reserveeId signature =>
      exact (PublicKey.postcard.pair (.bytes usize)).arm_encode
        (fun p => reserveRequest p.1 p.2) (reserveeId, signature) rest
  | reserveResponse outcome => exact PrefixCode.arm_encode _ _ _ rest
  | connectRequest targetId voucher =>
      exact (PublicKey.postcard.pair Voucher.postcard.option).arm_encode
        (fun p => connectRequest p.1 p.2) (targetId, voucher) rest
  | connectResponse outcome => exact PrefixCode.arm_encode _ _ _ rest
  | bye reason => exact PrefixCode.arm_encode _ _ _ rest

def postcard : PrefixCode TransitFrame :=
  .variant index (by intro f; cases f <;> simp [index]) payload arm local_arm arm_payload

end TransitFrame

/-! ### Frames -/

def encodeFrame (frame : TransitFrame) : Except TransitError Bytes :=
  .ok (TransitFrame.postcard.encode frame)

def decodeFrame (bytes : Bytes) : Except TransitError TransitFrame :=
  match TransitFrame.postcard.decode bytes with
  | none => .error .malformedFrame
  | some (frame, rest) => if rest.isEmpty then .ok frame else .error .malformedFrame

theorem decodeFrame_eq (bytes : Bytes) : decodeFrame bytes =
    match TransitFrame.postcard.exactly bytes with
    | some frame => .ok frame
    | none => .error .malformedFrame := by
  unfold decodeFrame Postcard.PrefixCode.exactly
  cases TransitFrame.postcard.decode bytes with
  | none => rfl
  | some p =>
      obtain ⟨frame, rest⟩ := p
      cases rest <;> rfl

theorem decodeFrame_encode {f : TransitFrame} {wire : Bytes} (h : encodeFrame f = .ok wire) :
    decodeFrame wire = .ok f := by
  cases h
  rw [decodeFrame_eq, TransitFrame.postcard.exactly_encode]

/-- **The transit codec is a lossless prefix code**: a frame is read back from its encoding, no
proper prefix and no proper extension of the encoding is accepted, and no other frame has an
encoding of which it is a prefix or which is a prefix of it. -/
theorem transitCodec_prefixFree (f : TransitFrame) :
    ∃ wire, encodeFrame f = .ok wire ∧ decodeFrame wire = .ok f ∧
      (∀ p q, p ++ q = wire → q ≠ [] → decodeFrame p = .error .malformedFrame) ∧
      (∀ more, more ≠ [] → decodeFrame (wire ++ more) = .error .malformedFrame) ∧
      ∀ g wire', encodeFrame g = .ok wire' → g ≠ f → ¬ wire <+: wire' ∧ ¬ wire' <+: wire := by
  refine ⟨_, rfl, decodeFrame_encode rfl, ?_, ?_, ?_⟩
  · intro p q h hq
    rw [decodeFrame_eq, TransitFrame.postcard.exactly_proper_prefix h hq]
  · intro more hmore
    rw [decodeFrame_eq, TransitFrame.postcard.exactly_append f hmore]
  · intro g wire' hg hne
    cases hg
    constructor
    · intro h
      exact hne (TransitFrame.postcard.encode_prefixFree h).symm
    · intro h
      exact hne (TransitFrame.postcard.encode_prefixFree h)

example : encodeFrame (.bye none) = .ok [5, 0] := rfl

end NerwRpc.Transit
