import NerwRpc.Signing
import NerwRpc.Transit

/-! # Vouchers

A voucher is signed over a domain tag, the relay, the reservee and the expiry, in this order and in
fixed widths, so that the signed bytes determine all three (`composeSigningBytes_injective`).
`voucher_binds` draws the consequences for a scheme that accepts exactly what was signed. -/

namespace NerwRpc.Transit

open Signing

/-- `b"nerw/transit/voucher/v1"` -/
def voucherDomainTag : Bytes := "nerw/transit/voucher/v1".toList.map fun c => UInt8.ofNat c.toNat

/-- The eight bytes of an integer, the most significant one first. -/
def toBeBytes (n : UInt64) : Bytes :=
  [56, 48, 40, 32, 24, 16, 8, 0].map fun shift => UInt8.ofNat (n.toNat >>> shift)

theorem shiftRight_inj {n m k : ℕ} (habove : n >>> (k + 8) = m >>> (k + 8))
    (hbyte : UInt8.ofNat (n >>> k) = UInt8.ofNat (m >>> k)) : n >>> k = m >>> k := by
  have hmod : n >>> k % 256 = m >>> k % 256 := by simpa using congrArg UInt8.toNat hbyte
  rw [Nat.shiftRight_add, Nat.shiftRight_add, Nat.shiftRight_eq_div_pow (n >>> k),
    Nat.shiftRight_eq_div_pow (m >>> k)] at habove
  omega

theorem toBeBytes_injective : Function.Injective toBeBytes := by
  intro n m h
  simp only [toBeBytes, List.map_cons, List.map_nil, List.cons.injEq, and_true] at h
  obtain ⟨h7, h6, h5, h4, h3, h2, h1, h0⟩ := h
  have h64 : n.toNat >>> 64 = m.toNat >>> 64 := by
    rw [Nat.shiftRight_eq_div_pow, Nat.shiftRight_eq_div_pow, Nat.div_eq_of_lt n.toNat_lt,
      Nat.div_eq_of_lt m.toNat_lt]
  -- from the most significant byte down
  have h56 := shiftRight_inj h64 h7
  have h48 := shiftRight_inj h56 h6
  have h40 := shiftRight_inj h48 h5
  have h32 := shiftRight_inj h40 h4
  have h24 := shiftRight_inj h32 h3
  have h16 := shiftRight_inj h24 h2
  have h8 := shiftRight_inj h16 h1
  exact UInt64.toNat_inj.mp (shiftRight_inj h8 h0)

section vouchers

variable [Platform]

def composeSigningBytes (relayNodeId peerNodeId : NodeId) (expireUnixSecs : UInt64) : Bytes :=
  voucherDomainTag ++ relayNodeId.1.1 ++ peerNodeId.1.1 ++ toBeBytes expireUnixSecs

theorem composeSigningBytes_injective : Function.Injective
    fun t : NodeId × NodeId × UInt64 => composeSigningBytes t.1 t.2.1 t.2.2 := by
  rintro ⟨relay, peer, expire⟩ ⟨relay', peer', expire'⟩ h
  simp only [composeSigningBytes, List.append_assoc, List.append_cancel_left_eq] at h
  obtain ⟨hrelay, h⟩ := List.append_inj h (relay.1.2.trans relay'.1.2.symm)
  obtain ⟨hpeer, hexpire⟩ := List.append_inj h (peer.1.2.trans peer'.1.2.symm)
  rw [Subtype.ext (Subtype.ext hrelay), Subtype.ext (Subtype.ext hpeer),
    toBeBytes_injective hexpire]

theorem voucherDomainTag_isPrefix (relay peer : NodeId) (expire : UInt64) :
    voucherDomainTag <+: composeSigningBytes relay peer expire :=
  ⟨relay.1.1 ++ (peer.1.1 ++ toBeBytes expire), by simp [composeSigningBytes]⟩

namespace Voucher

variable {SK : Type} (σ : Scheme SK PublicKey Bytes Signature)

def sign (relaySecret : SK) (peerNodeId : NodeId) (expireUnixSecs : UInt64) : Voucher :=
  let relayNodeId := σ.publicKey relaySecret
  let toSign := composeSigningBytes relayNodeId peerNodeId expireUnixSecs
  ⟨relayNodeId, peerNodeId, expireUnixSecs, σ.sign relaySecret toSign⟩

def verify (v : Voucher) (relayPubKey : PublicKey) : Except TransitError Unit :=
  if v.relayNodeId ≠ relayPubKey then .error .voucherInvalidSig
  else
    let toVerify := composeSigningBytes v.relayNodeId v.peerNodeId v.expireUnixSecs
    if σ.verify relayPubKey toVerify v.signature then .ok () else .error .voucherInvalidSig

def signingBytes (v : Voucher) : Bytes :=
  composeSigningBytes v.relayNodeId v.peerNodeId v.expireUnixSecs

theorem verify_ok_iff (v : Voucher) (pk : PublicKey) : v.verify σ pk = .ok () ↔
    v.relayNodeId = pk ∧ σ.verify pk v.signingBytes v.signature = true := by
  unfold verify signingBytes
  by_cases hrelay : v.relayNodeId = pk
  · subst hrelay
    rw [if_neg (not_not.mpr rfl)]
    dsimp only
    split
    · rename_i hgood
      exact ⟨fun _ => ⟨rfl, hgood⟩, fun _ => rfl⟩
    · rename_i hbad
      simp [hbad]
  · rw [if_pos hrelay]
    simp [hrelay]

variable {σ} {signings : Set (SK × Bytes)}

theorem made_iff (v : Voucher) {pk : PublicKey} (hrelay : v.relayNodeId = pk) :
    Made σ signings pk v.signingBytes v.signature ↔
      ∃ sk, σ.publicKey sk = pk ∧ (sk, v.signingBytes) ∈ signings ∧
        sign σ sk v.peerNodeId v.expireUnixSecs = v := by
  constructor
  · rintro ⟨sk, hmem, hpk, hsig⟩
    refine ⟨sk, hpk, hmem, ?_⟩
    obtain ⟨relay, peer, expire, sig⟩ := v
    obtain rfl : relay = σ.publicKey sk := hrelay.trans hpk.symm
    obtain rfl : σ.sign sk (composeSigningBytes (σ.publicKey sk) peer expire) = sig := hsig
    rfl
  · rintro ⟨sk, hpk, hmem, hv⟩
    refine ⟨sk, hmem, hpk, ?_⟩
    have hsig := congrArg signature hv
    rw [← hsig, signingBytes, hrelay, ← hpk, sign]

end Voucher

/-- The voucher that a frame carries. -/
def TransitFrame.voucher? : TransitFrame → Option Voucher
  | reserveResponse (.granted voucher _) => some voucher
  | connectRequest _ voucher => voucher
  | _ => none

/-- **A voucher binds relay, reservee and expiry.**  Under a scheme that accepts exactly what was
signed, a voucher verifies under a key exactly if it names this key and was signed with its secret
for exactly its reservee and expiry; a signature is good for one relay, reservee and expiry; a
signature of a message without the domain tag is good for none; and a voucher means the same on
both ends of the wire. -/
theorem voucher_binds {SK : Type} {σ : Scheme SK PublicKey Bytes Signature}
    {signings : Set (SK × Bytes)} (h : Exact σ signings) :
    (∀ (v : Voucher) (pk : PublicKey), v.verify σ pk = .ok () ↔ v.relayNodeId = pk ∧
      ∃ sk, σ.publicKey sk = pk ∧ (sk, v.signingBytes) ∈ signings ∧
        Voucher.sign σ sk v.peerNodeId v.expireUnixSecs = v) ∧
    (∀ (v v' : Voucher) (pk pk' : PublicKey), v.signature = v'.signature →
      v.verify σ pk = .ok () → v'.verify σ pk' = .ok () →
      v.relayNodeId = v'.relayNodeId ∧ v.peerNodeId = v'.peerNodeId ∧
        v.expireUnixSecs = v'.expireUnixSecs) ∧
    (∀ sk m, (sk, m) ∈ signings → ¬ voucherDomainTag <+: m →
      ∀ (v : Voucher) (pk : PublicKey), v.signature = σ.sign sk m → v.verify σ pk ≠ .ok ()) ∧
    ∀ f wire, encodeFrame f = .ok wire → ∃ g, decodeFrame wire = .ok g ∧
      ∀ pk, g.voucher?.map (·.verify σ pk) = f.voucher?.map (·.verify σ pk) := by
  refine ⟨?_, ?_, ?_, ?_⟩
  · intro v pk
    rw [Voucher.verify_ok_iff, h.verify_iff]
    constructor
    · rintro ⟨hrelay, hmade⟩
      exact ⟨hrelay, (v.made_iff hrelay).mp hmade⟩
    · rintro ⟨hrelay, hsigned⟩
      exact ⟨hrelay, (v.made_iff hrelay).mpr hsigned⟩
  · intro v v' pk pk' hsig hv hv'
    have hgood := ((v.verify_ok_iff σ pk).mp hv).2
    have hgood' := ((v'.verify_ok_iff σ pk').mp hv').2
    rw [← hsig] at hgood'
    obtain ⟨-, ht⟩ := h.binds composeSigningBytes_injective
      (v.relayNodeId, v.peerNodeId, v.expireUnixSecs)
      (v'.relayNodeId, v'.peerNodeId, v'.expireUnixSecs) hgood hgood'
    simpa using ht
  · intro sk m hsigned htag v pk hsig hv
    have hgood := ((v.verify_ok_iff σ pk).mp hv).2
    have hne : m ≠ v.signingBytes := by
      rintro rfl
      exact htag (voucherDomainTag_isPrefix _ _ _)
    rw [hsig, h.rejects hsigned hne] at hgood
    cases hgood
  · intro f wire hwire
    exact ⟨f, decodeFrame_encode hwire, fun _ => rfl⟩

end vouchers

section table

/-- The points of the curve with `y = 0` and `y = 1`. -/
@[reducible] def twoPoints : Platform where
  isPoint bs := bs = List.replicate 32 0 ∨ bs = 1 :: List.replicate 31 0
  usize := .w64

attribute [local instance] twoPoints

def anyRelay : PublicKey := ⟨⟨List.replicate 32 0, rfl⟩, decide_eq_true (.inl rfl)⟩

def anyPeer : PublicKey := ⟨⟨1 :: List.replicate 31 0, rfl⟩, decide_eq_true (.inr rfl)⟩

def anySignature : Signature := ⟨List.replicate 64 0, rfl⟩

/-- A scheme with one secret, which has signed one message. -/
def oneSigning : Scheme Unit PublicKey Bytes Signature where
  publicKey _ := anyRelay
  sign _ _ := anySignature
  verify pk m s := pk = anyRelay ∧ m = composeSigningBytes anyRelay anyPeer 600 ∧ s = anySignature

theorem exact_oneSigning :
    Exact oneSigning {((), composeSigningBytes anyRelay anyPeer 600)} where
  verify_iff pk m s := by
    constructor
    · intro h
      obtain ⟨rfl, rfl, rfl⟩ := of_decide_eq_true h
      exact ⟨(), rfl, rfl, rfl⟩
    · rintro ⟨_, hmem, rfl, rfl⟩
      obtain rfl := congrArg Prod.snd hmem
      simp [oneSigning]
  determined := by
    rintro pk m pk' m' s ⟨_, hmem, rfl, rfl⟩ ⟨_, hmem', rfl, -⟩
    exact ⟨rfl, (congrArg Prod.snd hmem).trans (congrArg Prod.snd hmem').symm⟩

theorem voucher_binds_oneSigning :
    (Voucher.sign oneSigning () anyPeer 600).verify oneSigning anyRelay = .ok () ∧
      ∀ (v : Voucher) (pk : PublicKey), v.signature = anySignature →
        v.verify oneSigning pk = .ok () → v.peerNodeId = anyPeer ∧ v.expireUnixSecs = 600 := by
  obtain ⟨hverify, hbinds, -, -⟩ := voucher_binds exact_oneSigning
  have hgood : (Voucher.sign oneSigning () anyPeer 600).verify oneSigning anyRelay = .ok () :=
    (hverify _ _).mpr ⟨rfl, (), rfl, rfl, rfl⟩
  refine ⟨hgood, ?_⟩
  intro v pk hsig hv
  exact (hbinds v _ pk anyRelay hsig hv hgood).2

end table

end NerwRpc.Transit
