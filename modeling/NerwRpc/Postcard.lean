import NerwRpc.Leb128
import Mathlib.Data.String.Basic

/-! # Positional codecs in the postcard format

A `Codec α` writes a value as bytes and reads it back off the front of a slice; the round
trip with arbitrary bytes behind is a field, so that every codec built from the combinators
carries its own proof.  Integers and lengths are LEB128 varints of no more groups than their
width needs, a `bool` is one byte, a string is its length and its UTF-8 bytes, a pair is its
components one after the other and a variant is its index followed by its payload. -/

/-! ### UTF-8 -/

namespace Utf8

/-- The UTF-8 bytes of a string. -/
def bytes (s : String) : List UInt8 := s.toUTF8.data.toList

/-- The string these bytes encode, when they are valid UTF-8. -/
def decode (bs : List UInt8) : Option String := String.fromUTF8? ⟨bs.toArray⟩

@[simp] theorem decode_bytes (s : String) : decode (bytes s) = some s := by
  have h : (⟨(bytes s).toArray⟩ : ByteArray) = s.toUTF8 := by simp [bytes]
  rw [decode, h, String.toUTF8_eq_toByteArray, String.fromUTF8?, dif_pos s.isValidUTF8]
  rfl

theorem decode_eq_some_iff {bs : List UInt8} {s : String} : decode bs = some s ↔ bytes s = bs := by
  constructor
  · intro h
    unfold decode String.fromUTF8? at h
    split_ifs at h
    obtain rfl := Option.some.inj h
    simp [bytes, String.fromUTF8]
  · rintro rfl
    exact decode_bytes s

theorem bytes_ofList (l : List Char) :
    bytes (String.ofList l) = l.flatMap String.utf8EncodeChar := by
  rw [bytes, String.toUTF8_eq_toByteArray]
  have h : (String.ofList l).toByteArray = l.utf8Encode := rfl
  rw [h, List.utf8Encode]
  simp

theorem length_bytes_replicate (n : ℕ) (c : Char) :
    (bytes (String.ofList (List.replicate n c))).length = n * c.utf8Size := by
  rw [bytes_ofList]
  simp [List.flatMap_replicate]

end Utf8

namespace Postcard

variable {α β : Type}

structure Codec (α : Type) where
  encode : α → List UInt8
  decode : List UInt8 → Option (α × List UInt8)
  decode_encode : ∀ a rest, decode (encode a ++ rest) = some (a, rest)

/-- A length or an index off the front of a slice; one of `7 * groups` bits takes no more groups. -/
def readVarint (groups : ℕ) (bs : List UInt8) : Option (ℕ × List UInt8) :=
  (Leb128.decode bs).bind fun p =>
    if p.1 < 128 ^ groups ∧ p.2.length + groups < bs.length then none else some p

theorem readVarint_encode {groups : ℕ} (hpos : 0 < groups) (n : ℕ) (rest : List UInt8) :
    readVarint groups (Leb128.encode n ++ rest) = some (n, rest) := by
  have hshort : ¬ (n < 128 ^ groups ∧
      rest.length + groups < (Leb128.encode n ++ rest).length) := by
    rintro ⟨hlt, hlong⟩
    have hlength := Leb128.encode_length_le groups n hlt hpos
    rw [List.length_append] at hlong
    omega
  unfold readVarint
  rw [Leb128.decode_encode, Option.bind_some, if_neg hshort]

namespace Codec

/-- A varint that fits 64 bits. -/
def u64 : Codec UInt64 where
  encode n := Leb128.encode n.toNat
  decode bs := (Leb128.readUnsigned bs).map fun p => (UInt64.ofNat p.1, p.2)
  decode_encode n rest := by
    simp [Leb128.readUnsigned_encode n.toNat_lt]

def bool : Codec Bool where
  encode b := [if b then 1 else 0]
  decode
    | 0 :: rest => some (false, rest)
    | 1 :: rest => some (true, rest)
    | _ => none
  decode_encode b rest := by cases b <;> rfl

/-- A string: its length in bytes, then its bytes. -/
def str : Codec String where
  encode s := Leb128.encode (Utf8.bytes s).length ++ Utf8.bytes s
  decode bs := (readVarint 10 bs).bind fun p =>
    if p.1 ≤ p.2.length then (Utf8.decode (p.2.take p.1)).map fun s => (s, p.2.drop p.1)
    else none
  decode_encode s rest := by
    simp [List.append_assoc, readVarint_encode]

def pair (A : Codec α) (B : Codec β) : Codec (α × β) where
  encode p := A.encode p.1 ++ B.encode p.2
  decode bs := (A.decode bs).bind fun p => (B.decode p.2).map fun q => ((p.1, q.1), q.2)
  decode_encode p rest := by
    simp [List.append_assoc, A.decode_encode, B.decode_encode]

/-- Read `n` values one after the other. -/
def decodeMany (A : Codec α) : ℕ → List UInt8 → Option (List α × List UInt8)
  | 0, bs => some ([], bs)
  | n + 1, bs => (A.decode bs).bind fun p =>
      (decodeMany A n p.2).map fun q => (p.1 :: q.1, q.2)

theorem decodeMany_encode (A : Codec α) (rest : List UInt8) : ∀ as : List α,
    decodeMany A as.length ((as.map A.encode).flatten ++ rest) = some (as, rest)
  | [] => rfl
  | a :: as => by
      simp [decodeMany, List.append_assoc, A.decode_encode, decodeMany_encode A rest as]

/-- A sequence: its length, then its elements. -/
def vec (A : Codec α) : Codec (List α) where
  encode as := Leb128.encode as.length ++ (as.map A.encode).flatten
  decode bs := (readVarint 10 bs).bind fun p => decodeMany A p.1 p.2
  decode_encode as rest := by
    simp [List.append_assoc, readVarint_encode, decodeMany_encode]

/-- A type with the same values. -/
def map (A : Codec α) (f : α → β) (g : β → α) (h : ∀ b, f (g b) = b) : Codec β where
  encode b := A.encode (g b)
  decode bs := (A.decode bs).map fun p => (f p.1, p.2)
  decode_encode b rest := by simp [A.decode_encode, h]

/-- A variant type: the index of the variant, then the payload of that variant. -/
def variant (tag : β → ℕ) (payload : β → List UInt8)
    (read : ℕ → List UInt8 → Option (β × List UInt8))
    (h : ∀ b rest, read (tag b) (payload b ++ rest) = some (b, rest)) : Codec β where
  encode b := Leb128.encode (tag b) ++ payload b
  decode bs := (readVarint 5 bs).bind fun p => read p.1 p.2
  decode_encode b rest := by
    simp [List.append_assoc, readVarint_encode, h]

/-- Read a value off a slice; the bytes behind it are ignored. -/
def fromBytes (A : Codec α) (bs : List UInt8) : Option α := (A.decode bs).map Prod.fst

theorem fromBytes_encode (A : Codec α) (a : α) : A.fromBytes (A.encode a) = some a := by
  have := A.decode_encode a []
  simp only [List.append_nil] at this
  simp [fromBytes, this]

end Codec

end Postcard
