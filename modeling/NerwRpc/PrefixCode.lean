import NerwRpc.Postcard

/-! # Prefix codes in the postcard format

A `PrefixCode` is a `Codec` whose decoder is moreover *local*: what it makes of the front of its
input does not depend on the bytes behind.  Then no proper prefix of an encoding decodes
(`PrefixCode.decode_proper_prefix`) and no encoding is a prefix of another one
(`PrefixCode.encode_prefixFree`), and both are inherited along the combinators: integers of a
fixed width, byte strings of fixed and of declared length, text, options, pairs and variants. -/

namespace Postcard

variable {α β γ : Type}

/-- Reads a value off the front of the input and returns the rest. -/
abbrev Reader (α : Type) : Type := List UInt8 → Option (α × List UInt8)

/-- What the reader makes of the front does not depend on the bytes behind. -/
def Local (r : Reader α) : Prop :=
  ∀ bs more a rest, r bs = some (a, rest) → r (bs ++ more) = some (a, rest ++ more)

theorem local_none : Local (fun _ => none : Reader α) := by
  intro bs more a rest h
  cases h

theorem local_pure (a : α) : Local fun bs => some (a, bs) := by
  intro bs more b rest h
  cases h
  rfl

theorem Local.bind {r : Reader α} {k : α → Reader β} (hr : Local r) (hk : ∀ a, Local (k a)) :
    Local fun bs => (r bs).bind fun p => k p.1 p.2 := by
  intro bs more b rest h
  obtain ⟨⟨a, mid⟩, ha, hb⟩ := Option.bind_eq_some_iff.mp h
  show (r (bs ++ more)).bind _ = _
  rw [hr bs more a mid ha]
  exact hk a mid more b rest hb

theorem Local.filterMap {r : Reader α} (hr : Local r) (f : α → Option β) :
    Local fun bs => (r bs).bind fun p => (f p.1).map fun b => (b, p.2) := by
  refine hr.bind (k := fun a bs => (f a).map fun b => (b, bs)) ?_
  intro a bs more b rest h
  obtain ⟨b', hb, heq⟩ := Option.map_eq_some_iff.mp h
  cases heq
  simp [hb]

theorem Local.map {r : Reader α} (hr : Local r) (f : α → β) :
    Local fun bs => (r bs).map fun p => (f p.1, p.2) := by
  intro bs more b rest h
  obtain ⟨⟨a, mid⟩, ha, heq⟩ := Option.map_eq_some_iff.mp h
  cases heq
  show (r (bs ++ more)).map _ = _
  rw [hr bs more a mid ha]
  rfl

/-- A value with the proof of a property that has been checked. -/
def check (P : α → Prop) [DecidablePred P] (a : α) : Option { a // P a } :=
  if h : P a then some ⟨a, h⟩ else none

def takeByte : Reader UInt8
  | [] => none
  | b :: bs => some (b, bs)

theorem local_takeByte : Local takeByte := by
  intro bs more b rest h
  cases bs with
  | nil => cases h
  | cons c bs =>
      cases h
      rfl

def takeBytes (n : ℕ) : Reader (List UInt8) := fun bs =>
  if n ≤ bs.length then some (bs.take n, bs.drop n) else none

theorem local_takeBytes (n : ℕ) : Local (takeBytes n) := by
  intro bs more a rest h
  unfold takeBytes at h ⊢
  split at h
  · rename_i hn
    cases h
    have hn' : n ≤ (bs ++ more).length := by
      rw [List.length_append]
      omega
    rw [if_pos hn', List.take_append_of_le_length hn, List.drop_append_of_le_length hn]
  · cases h

/-! ### Integers of a fixed width -/

/-- A varint of at most `groups` groups of seven bits; the last of them is at most `last`. -/
def takeVarint (last : ℕ) : ℕ → Reader ℕ
  | 0, _ => none
  | _ + 1, [] => none
  | groups + 1, b :: bs =>
      if b.toNat < 128 then
        if groups = 0 ∧ last < b.toNat then none else some (b.toNat, bs)
      else (takeVarint last groups bs).map fun p => (b.toNat - 128 + 128 * p.1, p.2)

theorem local_takeVarint (last groups : ℕ) : Local (takeVarint last groups) := by
  induction groups with
  | zero =>
      intro bs more a rest h
      cases h
  | succ groups ih =>
      intro bs more a rest h
      cases bs with
      | nil => cases h
      | cons b bs =>
          rw [List.cons_append]
          unfold takeVarint at h ⊢
          by_cases hb : b.toNat < 128
          · rw [if_pos hb] at h ⊢
            split at h
            · cases h
            · rename_i hlast
              cases h
              rw [if_neg hlast]
          · rw [if_neg hb] at h ⊢
            exact ih.map (fun n => b.toNat - 128 + 128 * n) bs more a rest h

theorem takeVarint_encode {last : ℕ} (hlast : last < 128) (rest : List UInt8) :
    ∀ {groups n : ℕ}, n < (last + 1) * 128 ^ groups →
      takeVarint last (groups + 1) (Leb128.encode n ++ rest) = some (n, rest) := by
  intro groups
  induction groups with
  | zero =>
      intro n hn
      rw [Nat.pow_zero, Nat.mul_one] at hn
      rw [Leb128.encode_of_lt (by omega), List.singleton_append, takeVarint,
        Leb128.toNat_ofNat_lt (by omega), if_pos (by omega), if_neg (by omega)]
  | succ groups ih =>
      intro n hn
      by_cases hlt : n < 128
      · rw [Leb128.encode_of_lt hlt, List.singleton_append, takeVarint,
          Leb128.toNat_ofNat_lt (by omega), if_pos hlt, if_neg (by omega)]
      · have hdiv : n / 128 < (last + 1) * 128 ^ groups := by
          rw [Nat.div_lt_iff_lt_mul (by decide), Nat.mul_assoc]
          exact hn
        rw [Leb128.encode_of_ge (by omega), List.cons_append, takeVarint,
          Leb128.toNat_ofNat_lt (by omega), if_neg (by omega), ih hdiv, Option.map_some]
        congr 2
        omega

/-- The width of an unsigned integer. -/
inductive Width where
  | w32
  | w64
deriving DecidableEq, Repr

namespace Width

def bits : Width → ℕ
  | w32 => 32
  | w64 => 64

def groups : Width → ℕ
  | w32 => 5
  | w64 => 10

/-- The largest last group. -/
def last : Width → ℕ
  | w32 => 15
  | w64 => 1

theorem takeVarint_encode (w : Width) {n : ℕ} (hn : n < 2 ^ w.bits) (rest : List UInt8) :
    takeVarint w.last w.groups (Leb128.encode n ++ rest) = some (n, rest) := by
  cases w with
  | w32 =>
      have hlt : n < (15 + 1) * 128 ^ 4 := hn
      exact Postcard.takeVarint_encode (by decide) rest hlt
  | w64 =>
      have hlt : n < (1 + 1) * 128 ^ 9 := hn
      exact Postcard.takeVarint_encode (by decide) rest hlt

end Width

/-! ### Vectors and strings -/

/-- A byte vector that fits the address space of a platform. -/
abbrev ByteVec (w : Width) : Type := { bs : List UInt8 // bs.length < 2 ^ (w.bits - 1) }

/-- The same of a string. -/
abbrev Text (w : Width) : Type := { s : String // (Utf8.bytes s).length < 2 ^ (w.bits - 1) }

theorem ByteVec.length_lt {w : Width} (v : ByteVec w) : v.1.length < 2 ^ w.bits :=
  lt_of_lt_of_le v.2 (Nat.pow_le_pow_right (by decide) (Nat.sub_le _ _))

/-! ### Prefix codes -/

structure PrefixCode (α : Type) extends Codec α where
  local_decode : Local decode

namespace PrefixCode

/-- **No proper prefix of an encoding decodes.** -/
theorem decode_proper_prefix (A : PrefixCode α) {a : α} {p q : List UInt8}
    (h : p ++ q = A.encode a) (hq : q ≠ []) : A.decode p = none := by
  cases hp : A.decode p with
  | none => rfl
  | some r =>
      obtain ⟨b, rest⟩ := r
      have hlong := A.local_decode p q b rest hp
      have hwhole := A.decode_encode a []
      rw [List.append_nil, ← h, hlong] at hwhole
      have hnil : rest ++ q = [] := congrArg Prod.snd (Option.some.inj hwhole)
      exact absurd (List.append_eq_nil_iff.mp hnil).2 hq

/-- **No encoding is a prefix of another one.** -/
theorem encode_prefixFree (A : PrefixCode α) {a b : α} (h : A.encode a <+: A.encode b) : a = b := by
  obtain ⟨q, hq⟩ := h
  have ha := A.decode_encode a q
  have hb := A.decode_encode b []
  rw [hq, ← List.append_nil (A.encode b), hb] at ha
  exact (congrArg Prod.fst (Option.some.inj ha)).symm

/-- The value that the whole input encodes. -/
def exactly (A : PrefixCode α) (bs : List UInt8) : Option α :=
  match A.decode bs with
  | some (a, []) => some a
  | _ => none

theorem exactly_encode (A : PrefixCode α) (a : α) : A.exactly (A.encode a) = some a := by
  have h := A.decode_encode a []
  rw [List.append_nil] at h
  rw [exactly, h]

theorem exactly_proper_prefix (A : PrefixCode α) {a : α} {p q : List UInt8}
    (h : p ++ q = A.encode a) (hq : q ≠ []) : A.exactly p = none := by
  rw [exactly, A.decode_proper_prefix h hq]

theorem exactly_append (A : PrefixCode α) (a : α) {more : List UInt8} (hmore : more ≠ []) :
    A.exactly (A.encode a ++ more) = none := by
  rw [exactly, A.decode_encode]
  cases more with
  | nil => exact absurd rfl hmore
  | cons b more => rfl

/-! ### Combinators -/

/-- Values that are read as other ones and checked. -/
def filterMap (A : PrefixCode α) (f : α → Option β) (g : β → α) (h : ∀ b, f (g b) = some b) :
    PrefixCode β where
  encode b := A.encode (g b)
  decode bs := (A.decode bs).bind fun p => (f p.1).map fun b => (b, p.2)
  decode_encode b rest := by simp [A.decode_encode, h]
  local_decode := A.local_decode.filterMap f

/-- A type with the same values. -/
def map (A : PrefixCode α) (f : α → β) (g : β → α) (h : ∀ b, f (g b) = b) : PrefixCode β :=
  A.filterMap (fun a => some (f a)) g fun b => congrArg some (h b)

/-- The values with a property. -/
def subtype (A : PrefixCode α) (P : α → Prop) [DecidablePred P] : PrefixCode { a // P a } :=
  A.filterMap (check P) Subtype.val fun a => by simp [check, a.2]

def pair (A : PrefixCode α) (B : PrefixCode β) : PrefixCode (α × β) where
  toCodec := A.toCodec.pair B.toCodec
  local_decode := by
    have h : ∀ a : α, Local fun bs => (B.decode bs).map fun q => ((a, q.1), q.2) := fun a =>
      B.local_decode.map fun b => (a, b)
    exact A.local_decode.bind h

/-- A tag byte, and the value if there is one. -/
def option (A : PrefixCode α) : PrefixCode (Option α) where
  encode
    | none => [0]
    | some a => 1 :: A.encode a
  decode bs := (takeByte bs).bind fun p =>
    if p.1 = 0 then some (none, p.2)
    else if p.1 = 1 then (A.decode p.2).map fun q => (some q.1, q.2) else none
  decode_encode a rest := by
    cases a with
    | none => rfl
    | some a => simp [takeByte, A.decode_encode]
  local_decode := by
    refine local_takeByte.bind (k := fun b bs => if b = 0 then some (none, bs)
      else if b = 1 then (A.decode bs).map fun q => (some q.1, q.2) else none) ?_
    intro b
    by_cases h0 : b = 0
    · simp only [h0, if_true]
      exact local_pure none
    · by_cases h1 : b = 1
      · simp only [h1, if_true, if_neg (show ¬ (1 : UInt8) = 0 by decide)]
        exact A.local_decode.map some
      · simp only [if_neg h0, if_neg h1]
        exact local_none

/-- Bytes without a length. -/
def fixed (n : ℕ) : PrefixCode { bs : List UInt8 // bs.length = n } where
  encode bs := bs.1
  decode bs := (takeBytes n bs).bind fun p =>
    (check (fun bs : List UInt8 => bs.length = n) p.1).map fun b => (b, p.2)
  decode_encode := by
    rintro ⟨bs, rfl⟩ rest
    simp [takeBytes, check]
  local_decode := (local_takeBytes n).filterMap (check _)

/-- An integer of `w.bits` bits. -/
def varint (w : Width) : PrefixCode { n : ℕ // n < 2 ^ w.bits } where
  encode n := Leb128.encode n.1
  decode bs := (takeVarint w.last w.groups bs).bind fun p =>
    (check (fun n => n < 2 ^ w.bits) p.1).map fun b => (b, p.2)
  decode_encode := by
    rintro ⟨n, hn⟩ rest
    simp [w.takeVarint_encode hn, check, hn]
  local_decode := (local_takeVarint w.last w.groups).filterMap (check _)

def u32 : PrefixCode UInt32 :=
  (varint .w32).map (fun n => UInt32.ofNat n.1) (fun u => ⟨u.toNat, u.toNat_lt⟩) fun u => by simp

def u64 : PrefixCode UInt64 :=
  (varint .w64).map (fun n => UInt64.ofNat n.1) (fun u => ⟨u.toNat, u.toNat_lt⟩) fun u => by simp

/-- A byte vector: its length, then its bytes. -/
def bytes (w : Width) : PrefixCode (ByteVec w) where
  encode bs := Leb128.encode bs.1.length ++ bs.1
  decode bs := ((takeVarint w.last w.groups bs).bind fun p => takeBytes p.1 p.2).bind fun p =>
    (check (fun bs : List UInt8 => bs.length < 2 ^ (w.bits - 1)) p.1).map fun v => (v, p.2)
  decode_encode v rest := by
    have hlen := v.length_lt
    simp [List.append_assoc, w.takeVarint_encode hlen, takeBytes, check, v.2]
  local_decode := ((local_takeVarint w.last w.groups).bind local_takeBytes).filterMap (check _)

/-- A string: its length in bytes, then its bytes. -/
def text (w : Width) : PrefixCode (Text w) :=
  (bytes w).filterMap
    (fun v => (Utf8.decode v.1).bind (check fun s => (Utf8.bytes s).length < 2 ^ (w.bits - 1)))
    (fun t => ⟨Utf8.bytes t.1, t.2⟩) fun t => by simp [check, t.2]

/-- A variant type: the index of the variant, then the payload of that variant. -/
def variant (tag : β → ℕ) (htag : ∀ b, tag b < 2 ^ 32) (payload : β → List UInt8)
    (arm : ℕ → Reader β) (harm : ∀ t, Local (arm t))
    (h : ∀ b rest, arm (tag b) (payload b ++ rest) = some (b, rest)) : PrefixCode β where
  encode b := Leb128.encode (tag b) ++ payload b
  decode bs := ((varint .w32).decode bs).bind fun p => arm p.1.1 p.2
  decode_encode b rest := by
    have hdec : (varint .w32).decode (Leb128.encode (tag b) ++ (payload b ++ rest)) =
        some (⟨tag b, htag b⟩, payload b ++ rest) :=
      (varint .w32).decode_encode ⟨tag b, htag b⟩ (payload b ++ rest)
    rw [List.append_assoc, hdec]
    exact h b rest
  local_decode := (varint .w32).local_decode.bind fun n => harm n.1

/-- A variant without payload in any of its cases. -/
def enum (tag : β → ℕ) (htag : ∀ b, tag b < 2 ^ 32) (ofTag : ℕ → Option β)
    (h : ∀ b, ofTag (tag b) = some b) : PrefixCode β :=
  variant tag htag (fun _ => []) (fun t bs => (ofTag t).map fun b => (b, bs))
    (fun t => by
      cases ofTag t with
      | none => exact local_none
      | some b => exact local_pure b)
    (fun b rest => by simp [h])

/-- The payload of one case. -/
def arm (A : PrefixCode α) (f : α → β) : Reader β :=
  fun bs => (A.decode bs).map fun p => (f p.1, p.2)

theorem local_arm (A : PrefixCode α) (f : α → β) : Local (A.arm f) := A.local_decode.map f

@[simp] theorem arm_encode (A : PrefixCode α) (f : α → β) (a : α) (rest : List UInt8) :
    A.arm f (A.encode a ++ rest) = some (f a, rest) := by
  rw [arm, A.decode_encode]
  rfl

end PrefixCode

end Postcard
