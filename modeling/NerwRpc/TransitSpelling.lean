import NerwRpc.Spelling
import NerwRpc.Voucher

/-! # The spellings of transit frames

Behind `decode_frame` a frame can be spelled in more than one way: every variant index, every
integer and every length of it is a varint, and a varint is accepted with redundant zero groups.
`decodeFrame_reencodes_iff` says that the frames read from minimal varints, and only these, are
the ones that `encode_frame` writes. -/

namespace NerwRpc.Transit

open Postcard

/-! ### The varints of each type -/

theorem TransitError.index_of_ofIndex (t : ℕ) (e : TransitError) (h : ofIndex t = some e) :
    e.index = t := by
  unfold ofIndex at h
  split at h <;> cases h <;> rfl

def TransitError.spelling : Spelling TransitError.postcard :=
  .enum index_of_ofIndex

def Capabilities.spelling : Spelling Capabilities.postcard :=
  Spelling.u32.map fun _ => rfl

def Limits.spelling : Spelling Limits.postcard :=
  (Spelling.u64.pair Spelling.u64).map fun _ => rfl

def Signature.spelling : Spelling Signature.postcard :=
  .fixed 64

section frames

variable [Platform]

def PublicKey.spelling : Spelling PublicKey.postcard :=
  (Spelling.fixed 32).subtype _

def Voucher.spelling : Spelling Voucher.postcard :=
  ((PublicKey.spelling.pair PublicKey.spelling).pair
    (Spelling.u64.pair Signature.spelling)).map fun _ => rfl

namespace ReserveOutcome

def armVarints : ℕ → Bytes → List Bytes
  | 0 => (Voucher.spelling.pair Limits.spelling).varints
  | 1 => TransitError.spelling.varints
  | _ => fun _ => []

theorem canonical_arm (t : ℕ) (bs : Bytes) (o : ReserveOutcome) (rest : Bytes)
    (h : arm t bs = some (o, rest)) :
    o.index = t ∧ ((∀ v ∈ armVarints t bs, Minimal v) ↔ bs = o.payload ++ rest) := by
  match t with
  | 0 =>
      obtain ⟨_, rfl, hiff⟩ := (Voucher.spelling.pair Limits.spelling).canonical_arm
        (fun p => granted p.1 p.2) h
      exact ⟨rfl, hiff⟩
  | 1 =>
      obtain ⟨_, rfl, hiff⟩ := TransitError.spelling.canonical_arm denied h
      exact ⟨rfl, hiff⟩
  | _ + 2 => cases h

def spelling : Spelling ReserveOutcome.postcard :=
  .variant armVarints canonical_arm

end ReserveOutcome

namespace ConnectOutcome

def armVarints : ℕ → Bytes → List Bytes
  | 1 => TransitError.spelling.varints
  | _ => fun _ => []

omit [Platform] in
theorem canonical_arm (t : ℕ) (bs : Bytes) (o : ConnectOutcome) (rest : Bytes)
    (h : arm t bs = some (o, rest)) :
    o.index = t ∧ ((∀ v ∈ armVarints t bs, Minimal v) ↔ bs = o.payload ++ rest) := by
  match t with
  | 0 =>
      cases h
      exact ⟨rfl, by simp [armVarints, payload]⟩
  | 1 =>
      obtain ⟨_, rfl, hiff⟩ := TransitError.spelling.canonical_arm denied h
      exact ⟨rfl, hiff⟩
  | _ + 2 => cases h

def spelling : Spelling ConnectOutcome.postcard :=
  .variant armVarints canonical_arm

end ConnectOutcome

namespace TransitFrame

def armVarints : ℕ → Bytes → List Bytes
  | 0 => (PublicKey.spelling.pair Capabilities.spelling).varints
  | 1 => (PublicKey.spelling.pair (.bytes usize)).varints
  | 2 => ReserveOutcome.spelling.varints
  | 3 => (PublicKey.spelling.pair Voucher.spelling.option).varints
  | 4 => ConnectOutcome.spelling.varints
  | 5 => (Spelling.text usize).option.varints
  | _ => fun _ => []

theorem canonical_arm (t : ℕ) (bs : Bytes) (f : TransitFrame) (rest : Bytes)
    (h : arm t bs = some (f, rest)) :
    f.index = t ∧ ((∀ v ∈ armVarints t bs, Minimal v) ↔ bs = f.payload ++ rest) := by
  match t with
  | 0 =>
      obtain ⟨_, rfl, hiff⟩ := (PublicKey.spelling.pair Capabilities.spelling).canonical_arm
        (fun p => hello p.1 p.2) h
      exact ⟨rfl, hiff⟩
  | 1 =>
      obtain ⟨_, rfl, hiff⟩ := (PublicKey.spelling.pair (.bytes usize)).canonical_arm
        (fun p => reserveRequest p.1 p.2) h
      exact ⟨rfl, hiff⟩
  | 2 =>
      obtain ⟨_, rfl, hiff⟩ := ReserveOutcome.spelling.canonical_arm reserveResponse h
      exact ⟨rfl, hiff⟩
  | 3 =>
      obtain ⟨_, rfl, hiff⟩ := (PublicKey.spelling.pair Voucher.spelling.option).canonical_arm
        (fun p => connectRequest p.1 p.2) h
      exact ⟨rfl, hiff⟩
  | 4 =>
      obtain ⟨_, rfl, hiff⟩ := ConnectOutcome.spelling.canonical_arm connectResponse h
      exact ⟨rfl, hiff⟩
  | 5 =>
      obtain ⟨_, rfl, hiff⟩ := (Spelling.text usize).option.canonical_arm bye h
      exact ⟨rfl, hiff⟩
  | _ + 6 => cases h

/-- The variant index of the frame, and then those of its payload. -/
def spelling : Spelling TransitFrame.postcard :=
  .variant armVarints canonical_arm

end TransitFrame

/-! ### Re-encoding -/

/-- One frame of the grammar, one of whose varints has redundant zero groups. -/
def Overlong (bytes : Bytes) : Prop :=
  (∃ f, TransitFrame.postcard.decode bytes = some (f, [])) ∧
    ∃ v ∈ TransitFrame.spelling.varints bytes, ¬ Minimal v

theorem decodeFrame_ok_iff {bytes : Bytes} {f : TransitFrame} :
    decodeFrame bytes = .ok f ↔ TransitFrame.postcard.decode bytes = some (f, []) := by
  unfold decodeFrame
  cases TransitFrame.postcard.decode bytes with
  | none => simp
  | some p =>
      obtain ⟨g, rest⟩ := p
      cases rest <;> simp

theorem encodeFrame_eq_iff {bytes : Bytes} {f : TransitFrame} (h : decodeFrame bytes = .ok f) :
    encodeFrame f = .ok bytes ↔ ∀ v ∈ TransitFrame.spelling.varints bytes, Minimal v := by
  unfold encodeFrame
  rw [Except.ok.injEq]
  exact TransitFrame.spelling.encode_eq_iff (decodeFrame_ok_iff.mp h)

theorem reencodes_iff (bytes : Bytes) :
    (∀ f, decodeFrame bytes = .ok f → encodeFrame f = .ok bytes) ↔ ¬ Overlong bytes := by
  constructor
  · rintro h ⟨⟨f, hf⟩, v, hv, hlong⟩
    have hok := decodeFrame_ok_iff.mpr hf
    exact hlong ((encodeFrame_eq_iff hok).mp (h f hok) v hv)
  · intro h f hok
    rw [encodeFrame_eq_iff hok]
    intro v hv
    by_contra hlong
    exact h ⟨⟨f, decodeFrame_ok_iff.mp hok⟩, v, hv, hlong⟩

theorem TransitFrame.index_lt (f : TransitFrame) : f.index < 128 := by
  cases f <;> simp [index]

/-- The variant index of every frame can be spelled with one more group. -/
theorem decodeFrame_longIndex (f : TransitFrame) :
    decodeFrame (UInt8.ofNat (f.index + 128) :: 0 :: f.payload) = .ok f := by
  have hindex := f.index_lt
  have hread : (PrefixCode.varint .w32).decode (UInt8.ofNat (f.index + 128) :: 0 :: f.payload) =
      some (⟨f.index, lt_trans hindex (by decide)⟩, f.payload) := by
    have htake : takeVarint 15 5 (UInt8.ofNat (f.index + 128) :: 0 :: f.payload) =
        some (f.index, f.payload) := by
      unfold takeVarint
      rw [Leb128.toNat_ofNat_lt (by omega), if_neg (by omega)]
      simp [takeVarint]
    show (takeVarint 15 5 _).bind _ = _
    rw [htake]
    simp [check, lt_trans hindex (by decide : 128 < 2 ^ Width.w32.bits)]
  rw [decodeFrame_ok_iff]
  show ((PrefixCode.varint .w32).decode _).bind _ = _
  rw [hread]
  have harm := TransitFrame.arm_payload f []
  rw [List.append_nil] at harm
  exact harm

theorem encode_ne_longIndex (f : TransitFrame) :
    TransitFrame.postcard.encode f ≠ UInt8.ofNat (f.index + 128) :: 0 :: f.payload := by
  intro h
  have henc : TransitFrame.postcard.encode f = UInt8.ofNat f.index :: f.payload := by
    show Leb128.encode f.index ++ f.payload = _
    rw [Leb128.encode_of_lt f.index_lt, List.singleton_append]
  have hlength := congrArg List.length (henc.symm.trans h)
  simp only [List.length_cons] at hlength
  omega

/-- **A decoded frame is written back as it was spelled exactly when no varint of it is overlong.**
Each frame has one spelling that is not overlong, and no frame has only one that is accepted. -/
theorem decodeFrame_reencodes_iff :
    (∀ bytes : Bytes, (∀ f, decodeFrame bytes = .ok f → encodeFrame f = .ok bytes) ↔
      ¬ Overlong bytes) ∧
    ∀ f : TransitFrame, (∃! bytes, decodeFrame bytes = .ok f ∧ ¬ Overlong bytes) ∧
      ¬ ∃! bytes, decodeFrame bytes = .ok f := by
  refine ⟨reencodes_iff, fun f => ⟨?_, ?_⟩⟩
  · refine ⟨TransitFrame.postcard.encode f, ⟨decodeFrame_encode rfl, ?_⟩, ?_⟩
    · rw [← reencodes_iff]
      intro g hg
      rw [decodeFrame_encode (f := f) rfl] at hg
      cases hg
      rfl
    · rintro bytes ⟨hok, hshort⟩
      have henc := (reencodes_iff bytes).mpr hshort f hok
      cases henc
      rfl
  · intro hunique
    have hsame := hunique.unique (decodeFrame_encode (f := f) rfl) (decodeFrame_longIndex f)
    exact absurd hsame (encode_ne_longIndex f)

end frames

section table

attribute [local instance] twoPoints

/-- A farewell without a reason, the variant index of which is spelled in two groups. -/
theorem decodeFrame_accepts_overlong :
    decodeFrame [0x85, 0x00, 0x00] = .ok (.bye none) ∧
      encodeFrame (.bye none) ≠ .ok [0x85, 0x00, 0x00] ∧
      decodeFrame [0x05, 0x00] = .ok (.bye none) := by
  refine ⟨rfl, ?_, rfl⟩
  show Except.ok [5, 0] ≠ _
  intro h
  simp at h

end table

end NerwRpc.Transit
