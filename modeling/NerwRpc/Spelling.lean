import NerwRpc.PrefixCode

/-! # Minimal spellings

The postcard decoders accept a varint with redundant zero groups behind its last one.  A `Spelling`
of a `PrefixCode` names the varints that the decoder reads off the front of its input, and says
that the input is spelled as the encoder spells it exactly when each of them is minimal
(`Spelling.canonical`).  It is inherited along the combinators of `PrefixCode`. -/

namespace Postcard

variable {α β : Type}

/-! ### Varints -/

/-- The bytes of the varint at the front. -/
def spanVarint : List UInt8 → List UInt8
  | [] => []
  | b :: bs => if b.toNat < 128 then [b] else b :: spanVarint bs

/-- No redundant last group: a single byte, or one that does not end in zero. -/
def Minimal (v : List UInt8) : Prop := v.length ≤ 1 ∨ v.getLast? ≠ some 0

instance : DecidablePred Minimal := fun _ => inferInstanceAs (Decidable (_ ∨ _))

theorem encode_group {b m : ℕ} (hb : 128 ≤ b) (hlt : b < 256) (hm : 0 < m) :
    Leb128.encode (b - 128 + 128 * m) = UInt8.ofNat b :: Leb128.encode m := by
  have hlow : (b - 128 + 128 * m) % 128 + 128 = b := by omega
  have hhigh : (b - 128 + 128 * m) / 128 = m := by omega
  rw [Leb128.encode_of_ge (by omega), hlow, hhigh]

/-- What a varint reader takes is a nonempty span; it does not end in zero exactly when it is
the encoding of a positive value, and a span of one byte is an encoding. -/
theorem span_takeVarint {last : ℕ} {rest : List UInt8} : ∀ {groups n : ℕ} {bs : List UInt8},
    takeVarint last groups bs = some (n, rest) →
    bs = spanVarint bs ++ rest ∧ spanVarint bs ≠ [] ∧
      ((spanVarint bs).getLast? ≠ some 0 ↔ 0 < n ∧ spanVarint bs = Leb128.encode n) ∧
      ((spanVarint bs).length ≤ 1 → spanVarint bs = Leb128.encode n)
  | 0, _, _, h => by cases h
  | _ + 1, _, [], h => by cases h
  | groups + 1, n, b :: bs, h => by
      unfold takeVarint at h
      unfold spanVarint
      by_cases hb : b.toNat < 128
      · rw [if_pos hb] at h ⊢
        split_ifs at h
        obtain ⟨rfl, rfl⟩ : b.toNat = n ∧ bs = rest := by simpa using h
        have henc : Leb128.encode b.toNat = [b] := by
          rw [Leb128.encode_of_lt hb, UInt8.ofNat_toNat]
        have hzero : b = 0 ↔ b.toNat = 0 := UInt8.toNat_inj.symm
        refine ⟨rfl, List.cons_ne_nil _ _, ?_, fun _ => henc.symm⟩
        rw [henc, List.getLast?_singleton, Ne, Option.some.injEq, hzero, and_iff_left rfl]
        omega
      · rw [if_neg hb] at h ⊢
        obtain ⟨⟨m, rest'⟩, hm, heq⟩ := Option.map_eq_some_iff.mp h
        obtain ⟨rfl, rfl⟩ : b.toNat - 128 + 128 * m = n ∧ rest' = rest := by simpa using heq
        obtain ⟨hspan, hne, hlast, -⟩ := span_takeVarint hm
        have hlt := b.toNat_lt
        refine ⟨by rw [List.cons_append, ← hspan], List.cons_ne_nil _ _, ?_, ?_⟩
        · rw [List.getLast?_cons_of_ne_nil hne, hlast]
          constructor
          · rintro ⟨hpos, henc⟩
            refine ⟨by omega, ?_⟩
            rw [henc, encode_group (by omega) hlt hpos, UInt8.ofNat_toNat]
          · rintro ⟨-, henc⟩
            obtain rfl | hpos := Nat.eq_zero_or_pos m
            · rw [Leb128.encode_of_lt (by omega)] at henc
              exact absurd (List.cons.inj henc).2 hne
            · rw [encode_group (by omega) hlt hpos] at henc
              exact ⟨hpos, (List.cons.inj henc).2⟩
        · intro hshort
          have := List.length_pos_iff.mpr hne
          simp only [List.length_cons] at hshort
          omega

/-- **A varint is minimal exactly when it is spelled as the encoder spells it.** -/
theorem minimal_span_iff {last groups n : ℕ} {bs rest : List UInt8}
    (h : takeVarint last groups bs = some (n, rest)) :
    Minimal (spanVarint bs) ↔ spanVarint bs = Leb128.encode n := by
  obtain ⟨-, -, hlast, hshort⟩ := span_takeVarint h
  constructor
  · rintro (hone | hlast')
    · exact hshort hone
    · exact (hlast.mp hlast').2
  · intro henc
    obtain rfl | hpos := Nat.eq_zero_or_pos n
    · left
      rw [henc]
      decide
    · exact .inr (hlast.mpr ⟨hpos, henc⟩)

theorem span_append {last groups n : ℕ} {bs rest : List UInt8}
    (h : takeVarint last groups bs = some (n, rest)) : bs = spanVarint bs ++ rest :=
  (span_takeVarint h).1

/-! ### Spellings -/

/-- The varints that the decoder of a prefix code reads off the front of its input, in order. -/
structure Spelling (A : PrefixCode α) where
  varints : List UInt8 → List (List UInt8)
  canonical : ∀ {bs : List UInt8} {a : α} {rest : List UInt8}, A.decode bs = some (a, rest) →
    ((∀ v ∈ varints bs, Minimal v) ↔ bs = A.encode a ++ rest)

namespace Spelling

variable {A : PrefixCode α} {B : PrefixCode β}

/-- Values that are read as other ones and checked, if they determine what has been read. -/
def filterMap (S : Spelling A) {f : α → Option β} {g : β → α} {h : ∀ b, f (g b) = some b}
    (hinj : ∀ a b, f a = some b → g b = a) : Spelling (A.filterMap f g h) where
  varints := S.varints
  canonical := by
    intro bs b rest hdec
    obtain ⟨⟨a, rest'⟩, ha, hb⟩ := Option.bind_eq_some_iff.mp hdec
    obtain ⟨b', hf, heq⟩ := Option.map_eq_some_iff.mp hb
    cases heq
    rw [S.canonical ha, ← hinj a b hf]
    rfl

def map (S : Spelling A) {f : α → β} {g : β → α} {h : ∀ b, f (g b) = b}
    (hinj : ∀ a, g (f a) = a) : Spelling (A.map f g h) :=
  S.filterMap fun a b hb => by
    obtain rfl : f a = b := Option.some.inj hb
    exact hinj a

def subtype (S : Spelling A) (P : α → Prop) [DecidablePred P] : Spelling (A.subtype P) :=
  S.filterMap fun a b hb => by
    unfold check at hb
    split_ifs at hb
    cases hb
    rfl

def pair (S : Spelling A) (T : Spelling B) : Spelling (A.pair B) where
  varints bs := S.varints bs ++ match A.decode bs with
    | some (_, mid) => T.varints mid
    | none => []
  canonical := by
    rintro bs ⟨a, b⟩ rest hdec
    obtain ⟨⟨a', mid⟩, ha, hsecond⟩ := Option.bind_eq_some_iff.mp hdec
    obtain ⟨⟨b', rest'⟩, hb, heq⟩ := Option.map_eq_some_iff.mp hsecond
    cases heq
    rw [ha]
    simp only [List.forall_mem_append]
    rw [S.canonical ha, T.canonical hb]
    show _ ↔ bs = A.encode a' ++ B.encode b' ++ rest'
    rw [List.append_assoc]
    constructor
    · rintro ⟨hbs, hmid⟩
      rw [← hmid]
      exact hbs
    · intro hbs
      have hmid : mid = B.encode b' ++ rest' := by
        rw [hbs, A.decode_encode] at ha
        exact (congrArg Prod.snd (Option.some.inj ha)).symm
      rw [hmid]
      exact ⟨hbs, rfl⟩

/-- The tag of an option is a byte, not a varint. -/
def option (S : Spelling A) : Spelling A.option where
  varints
    | 1 :: bs => S.varints bs
    | _ => []
  canonical := by
    intro bs o rest hdec
    obtain ⟨⟨t, bs'⟩, ht, hvalue⟩ := Option.bind_eq_some_iff.mp hdec
    cases bs with
    | nil => cases ht
    | cons b bs =>
        cases ht
        split_ifs at hvalue with h0 h1
        · obtain rfl : t = 0 := h0
          cases hvalue
          simp [PrefixCode.option]
        · obtain rfl : t = 1 := h1
          obtain ⟨⟨a, rest'⟩, ha, heq⟩ := Option.map_eq_some_iff.mp hvalue
          cases heq
          show (∀ v ∈ S.varints bs', Minimal v) ↔ 1 :: bs' = 1 :: A.encode a ++ rest'
          rw [S.canonical ha, List.cons_append, List.cons_inj_right]

def fixed (n : ℕ) : Spelling (PrefixCode.fixed n) where
  varints _ := []
  canonical := by
    intro bs v rest hdec
    obtain ⟨⟨bs', rest'⟩, htake, hcheck⟩ := Option.bind_eq_some_iff.mp hdec
    obtain ⟨v', hv, heq⟩ := Option.map_eq_some_iff.mp hcheck
    cases heq
    unfold takeBytes at htake
    split_ifs at htake
    cases htake
    unfold check at hv
    split_ifs at hv
    cases hv
    simp [PrefixCode.fixed]

def varint (w : Width) : Spelling (PrefixCode.varint w) where
  varints bs := [spanVarint bs]
  canonical := by
    intro bs n rest hdec
    obtain ⟨⟨m, rest'⟩, hm, hcheck⟩ := Option.bind_eq_some_iff.mp hdec
    obtain ⟨n', hn, heq⟩ := Option.map_eq_some_iff.mp hcheck
    cases heq
    unfold check at hn
    split_ifs at hn
    cases hn
    rw [List.forall_mem_singleton, minimal_span_iff hm]
    show _ ↔ bs = Leb128.encode m ++ rest'
    constructor
    · intro henc
      rw [← henc]
      exact span_append hm
    · intro hbs
      have hspan := span_append hm
      rw [hbs] at hspan ⊢
      exact (List.append_cancel_right hspan).symm

def u32 : Spelling PrefixCode.u32 :=
  (varint .w32).map fun n => by
    apply Subtype.ext
    exact Nat.mod_eq_of_lt n.2

def u64 : Spelling PrefixCode.u64 :=
  (varint .w64).map fun n => by
    apply Subtype.ext
    exact Nat.mod_eq_of_lt n.2

/-- Of a byte vector the length is a varint. -/
def bytes (w : Width) : Spelling (PrefixCode.bytes w) where
  varints bs := [spanVarint bs]
  canonical := by
    intro bs v rest hdec
    obtain ⟨⟨body, rest'⟩, hbody, hcheck⟩ := Option.bind_eq_some_iff.mp hdec
    obtain ⟨⟨n, mid⟩, hn, htake⟩ := Option.bind_eq_some_iff.mp hbody
    obtain ⟨v', hv, heq⟩ := Option.map_eq_some_iff.mp hcheck
    cases heq
    unfold takeBytes at htake
    split_ifs at htake with hlen
    cases htake
    unfold check at hv
    split_ifs at hv
    cases hv
    have hbodyLen : (mid.take n).length = n := by
      rw [List.length_take, min_eq_left hlen]
    rw [List.forall_mem_singleton, minimal_span_iff hn]
    show _ ↔ bs = Leb128.encode (mid.take n).length ++ mid.take n ++ mid.drop n
    rw [hbodyLen, List.append_assoc, List.take_append_drop]
    constructor
    · intro henc
      rw [← henc]
      exact span_append hn
    · intro hbs
      have hspan := span_append hn
      rw [hbs] at hspan ⊢
      exact (List.append_cancel_right hspan).symm

def text (w : Width) : Spelling (PrefixCode.text w) :=
  (bytes w).filterMap fun v t ht => by
    obtain ⟨s, hs, hcheck⟩ := Option.bind_eq_some_iff.mp ht
    unfold check at hcheck
    split_ifs at hcheck
    cases hcheck
    apply Subtype.ext
    exact Utf8.decode_eq_some_iff.mp hs

/-- The index of a variant, and then the varints of the arm it selects. -/
def variant {tag : β → ℕ} {htag : ∀ b, tag b < 2 ^ 32} {payload : β → List UInt8}
    {arm : ℕ → Reader β} {harm : ∀ t, Local (arm t)}
    {h : ∀ b rest, arm (tag b) (payload b ++ rest) = some (b, rest)}
    (armVarints : ℕ → List UInt8 → List (List UInt8))
    (hcanonical : ∀ t bs b rest, arm t bs = some (b, rest) → tag b = t ∧
      ((∀ v ∈ armVarints t bs, Minimal v) ↔ bs = payload b ++ rest)) :
    Spelling (PrefixCode.variant tag htag payload arm harm h) where
  varints bs := spanVarint bs :: match (PrefixCode.varint .w32).decode bs with
    | some (t, mid) => armVarints t.1 mid
    | none => []
  canonical := by
    intro bs b rest hdec
    obtain ⟨⟨t, mid⟩, ht, hb⟩ := Option.bind_eq_some_iff.mp hdec
    obtain ⟨htag', hpayload⟩ := hcanonical _ _ _ _ hb
    have hindex := (varint .w32).canonical ht
    rw [varint, List.forall_mem_singleton] at hindex
    rw [ht, List.forall_mem_cons, hindex, hpayload]
    show _ ↔ bs = Leb128.encode (tag b) ++ payload b ++ rest
    have henc : (PrefixCode.varint .w32).encode t = Leb128.encode (tag b) := by
      rw [htag']
      rfl
    rw [henc, List.append_assoc]
    constructor
    · rintro ⟨hbs, hmid⟩
      rw [← hmid]
      exact hbs
    · intro hbs
      have hmid : mid = payload b ++ rest := by
        rw [hbs, ← henc, (PrefixCode.varint .w32).decode_encode] at ht
        exact (congrArg Prod.snd (Option.some.inj ht)).symm
      rw [hmid]
      exact ⟨hbs, rfl⟩

def enum {tag : β → ℕ} {htag : ∀ b, tag b < 2 ^ 32} {ofTag : ℕ → Option β}
    {h : ∀ b, ofTag (tag b) = some b} (hinj : ∀ t b, ofTag t = some b → tag b = t) :
    Spelling (PrefixCode.enum tag htag ofTag h) :=
  variant (fun _ _ => []) fun t bs b rest harm => by
    obtain ⟨b', hb, heq⟩ := Option.map_eq_some_iff.mp harm
    cases heq
    exact ⟨hinj t b hb, by simp⟩

/-- The arm of one case, for `variant`. -/
theorem canonical_arm (S : Spelling A) (f : α → β) {bs rest : List UInt8} {b : β}
    (h : A.arm f bs = some (b, rest)) :
    ∃ a, b = f a ∧ ((∀ v ∈ S.varints bs, Minimal v) ↔ bs = A.encode a ++ rest) := by
  obtain ⟨⟨a, rest'⟩, ha, heq⟩ := Option.map_eq_some_iff.mp h
  cases heq
  exact ⟨a, rfl, S.canonical ha⟩

/-- **An input that is read to its end is what the encoder writes exactly when its varints are
minimal.** -/
theorem encode_eq_iff (S : Spelling A) {bs : List UInt8} {a : α} (h : A.decode bs = some (a, [])) :
    A.encode a = bs ↔ ∀ v ∈ S.varints bs, Minimal v := by
  rw [S.canonical h, List.append_nil, eq_comm]

end Spelling

end Postcard
