import Mathlib.Data.Nat.Notation
import Mathlib.Tactic.Common
import Mathlib.Tactic.Ring
import Mathlib.Data.Nat.Bitwise

/-! # Unsigned LEB128

`encode n` is the unsigned LEB128 encoding of `n`: seven bits a byte, least significant group
first, the high bit set on every byte but the last.  `readUnsigned` is a slice reader for
64-bit values: it stops at the first byte whose high bit is clear, and refuses a tenth byte
that carries more than the one bit that still fits.

`readUnsigned_encode` is the round trip with arbitrary bytes behind the encoding. -/

namespace Leb128

/-- `encode` with fuel; `n` steps are enough for `n`. -/
def encodeFuel : ℕ → ℕ → List UInt8
  | 0, n => [UInt8.ofNat n]
  | k + 1, n =>
      if n < 128 then [UInt8.ofNat n]
      else UInt8.ofNat (n % 128 + 128) :: encodeFuel k (n / 128)

/-- The unsigned LEB128 encoding. -/
def encode (n : ℕ) : List UInt8 := encodeFuel n n

theorem encodeFuel_eq_of_le : ∀ (k n : ℕ), n ≤ k → encodeFuel k n = encodeFuel n n
  | 0, n, h => by obtain rfl : n = 0 := by omega
                  rfl
  | k + 1, 0, _ => by simp [encodeFuel]
  | k + 1, n + 1, h => by
      rw [encodeFuel, encodeFuel]
      split_ifs with hlt
      · rfl
      · rw [encodeFuel_eq_of_le k ((n + 1) / 128) (by omega),
          encodeFuel_eq_of_le n ((n + 1) / 128) (by omega)]

theorem encode_of_lt {n : ℕ} (h : n < 128) : encode n = [UInt8.ofNat n] := by
  cases n with
  | zero => rfl
  | succ n => simp [encode, encodeFuel, h]

theorem encode_of_ge {n : ℕ} (h : 128 ≤ n) :
    encode n = UInt8.ofNat (n % 128 + 128) :: encode (n / 128) := by
  obtain ⟨n, rfl⟩ : ∃ m, n = m + 1 := ⟨n - 1, by omega⟩
  have hlt : ¬ n + 1 < 128 := by omega
  rw [encode, encodeFuel, if_neg hlt, encodeFuel_eq_of_le n ((n + 1) / 128) (by omega)]
  rfl

theorem encode_length_le : ∀ (k n : ℕ), n < 128 ^ k → 0 < k → (encode n).length ≤ k
  | k + 1, n, h, _ => by
      by_cases hn : n < 128
      · rw [encode_of_lt hn]; simp
      · rw [encode_of_ge (by omega)]
        have h' : n / 128 < 128 ^ k := by
          rw [Nat.div_lt_iff_lt_mul (by decide), ← pow_succ]
          exact h
        have hk : 0 < k := by
          obtain rfl | hk := Nat.eq_zero_or_pos k
          · simp at h; omega
          · exact hk
        have := encode_length_le k (n / 128) h' hk
        simp only [List.length_cons]
        omega

theorem two_pow_group (i : ℕ) : 2 ^ (7 * (i + 1)) = 2 ^ (7 * i) * 128 := by
  rw [Nat.mul_add, pow_add, show 2 ^ (7 * 1) = 128 from rfl]

/-! ### Bytes -/

theorem toNat_ofNat_lt {n : ℕ} (h : n < 256) : (UInt8.ofNat n).toNat = n := by
  rw [UInt8.toNat_ofNat']
  exact Nat.mod_eq_of_lt h

theorem toNat_and_7f (b : UInt8) : (b &&& 0x7F).toNat = b.toNat % 128 := by
  rw [UInt8.toNat_and]
  exact Nat.and_two_pow_sub_one_eq_mod b.toNat 7

theorem and_80_eq_zero_iff (b : UInt8) : b &&& 0x80 = 0 ↔ b.toNat < 128 := by
  have hb := b.toNat_lt
  have hand : (b &&& 0x80).toNat = (b.toNat.testBit 7).toNat * 2 ^ 7 := by
    rw [UInt8.toNat_and]
    exact Nat.and_two_pow b.toNat 7
  rw [← UInt8.toNat_inj, hand, Nat.testBit_eq_decide_div_mod_eq]
  by_cases h : b.toNat / 2 ^ 7 % 2 = 1
  · rw [decide_eq_true h]
    simp only [Bool.toNat_true, UInt8.toNat_zero]
    omega
  · rw [decide_eq_false h]
    simp only [Bool.toNat_false, UInt8.toNat_zero]
    omega

/-! ### The slice reader -/

/-- One round of `readUnsigned` a call; `shift` bits have been read into `result`. -/
def readUnsignedFrom : List UInt8 → (shift result : ℕ) → Option (ℕ × List UInt8)
  | [], _, _ => none
  | b :: rest, shift, result =>
      if shift = 63 ∧ b ≠ 0 ∧ b ≠ 1 then none
      else
        let result := result + (b &&& 0x7F).toNat * 2 ^ shift
        if b &&& 0x80 = 0 then some (result, rest)
        else readUnsignedFrom rest (shift + 7) result

/-- Read one unsigned 64-bit value off the front of a slice: `none` when the slice ends
inside the encoding or the value does not fit. -/
def readUnsigned (input : List UInt8) : Option (ℕ × List UInt8) :=
  readUnsignedFrom input 0 0

theorem readUnsignedFrom_encode (rest : List UInt8) : ∀ (n i result : ℕ),
    n * 2 ^ (7 * i) < 2 ^ 64 → i ≤ 9 →
    readUnsignedFrom (encode n ++ rest) (7 * i) result =
      some (result + n * 2 ^ (7 * i), rest) := by
  intro n
  induction n using Nat.strong_induction_on with
  | _ n ih =>
      intro i result hn hi
      -- in the tenth round what is left of the value is a single bit
      have hlast : 7 * i = 63 → n < 2 := by
        intro h63
        rw [h63] at hn
        omega
      by_cases hlt : n < 128
      · have hb : (UInt8.ofNat n).toNat = n := toNat_ofNat_lt (by omega)
        have hguard : ¬ (7 * i = 63 ∧ UInt8.ofNat n ≠ 0 ∧ UInt8.ofNat n ≠ 1) := by
          rintro ⟨h63, h0, h1⟩
          have := hlast h63
          obtain rfl | rfl : n = 0 ∨ n = 1 := by omega
          · exact h0 rfl
          · exact h1 rfl
        have hcont : UInt8.ofNat n &&& 0x80 = 0 := (and_80_eq_zero_iff _).mpr (by omega)
        rw [encode_of_lt hlt]
        simp only [List.singleton_append, readUnsignedFrom, if_neg hguard, hcont, if_true,
          toNat_and_7f, hb, Nat.mod_eq_of_lt hlt]
      · have hb : (UInt8.ofNat (n % 128 + 128)).toNat = n % 128 + 128 :=
          toNat_ofNat_lt (by omega)
        have h63 : 7 * i ≠ 63 := fun h => by have := hlast h; omega
        have hcont : ¬ UInt8.ofNat (n % 128 + 128) &&& 0x80 = 0 := by
          rw [and_80_eq_zero_iff, hb]; omega
        have hpow := two_pow_group i
        have hdiv : n / 128 * 2 ^ (7 * (i + 1)) ≤ n * 2 ^ (7 * i) := by
          rw [hpow, Nat.mul_comm (2 ^ (7 * i)) 128, ← Nat.mul_assoc]
          exact Nat.mul_le_mul_right _ (Nat.div_mul_le_self n 128)
        have hi9 : i ≤ 8 := by omega
        rw [encode_of_ge (by omega), List.cons_append, readUnsignedFrom,
          if_neg fun h => h63 h.1]
        simp only [hcont, if_false]
        rw [show 7 * i + 7 = 7 * (i + 1) by omega,
          ih (n / 128) (by omega) (i + 1) _ (by omega) (by omega)]
        congr 2
        rw [toNat_and_7f, hb, hpow]
        have hmod : (n % 128 + 128) % 128 = n % 128 := by omega
        rw [hmod]
        have hdm := Nat.div_add_mod n 128
        calc result + n % 128 * 2 ^ (7 * i) + n / 128 * (2 ^ (7 * i) * 128)
            = result + (128 * (n / 128) + n % 128) * 2 ^ (7 * i) := by ring
          _ = result + n * 2 ^ (7 * i) := by rw [hdm]

/-- **Round trip**: the reader returns the value and the bytes behind its encoding. -/
theorem readUnsigned_encode {n : ℕ} (hn : n < 2 ^ 64) (rest : List UInt8) :
    readUnsigned (encode n ++ rest) = some (n, rest) := by
  simpa [readUnsigned] using readUnsignedFrom_encode rest n 0 0 (by simpa using hn) (by omega)

/-! ### Values of any size -/

/-- The value of the encoding at the front of a slice, however long it is. -/
def decode : List UInt8 → Option (ℕ × List UInt8)
  | [] => none
  | b :: rest =>
      if b.toNat < 128 then some (b.toNat, rest)
      else (decode rest).map fun p => (b.toNat % 128 + 128 * p.1, p.2)

theorem decode_cons_cases {b : UInt8} {bs rest : List UInt8} {v : ℕ}
    (h : decode (b :: bs) = some (v, rest)) :
    (b.toNat < 128 ∧ v = b.toNat ∧ rest = bs) ∨
      128 ≤ b.toNat ∧ ∃ w, decode bs = some (w, rest) ∧ v = b.toNat % 128 + 128 * w := by
  rw [decode] at h
  split_ifs at h with hb
  · cases h
    exact .inl ⟨hb, rfl, rfl⟩
  · obtain ⟨⟨w, r⟩, hw, hv⟩ := Option.map_eq_some_iff.mp h
    cases hv
    exact .inr ⟨by omega, w, hw, rfl⟩

theorem decode_rest_lt {bs rest : List UInt8} {v : ℕ} (h : decode bs = some (v, rest)) :
    rest.length < bs.length := by
  induction bs generalizing v with
  | nil => simp [decode] at h
  | cons b bs ih =>
      obtain ⟨-, -, rfl⟩ | ⟨-, w, hw, -⟩ := decode_cons_cases h
      · simp
      · have := ih hw
        simp only [List.length_cons]
        omega

theorem decode_encode (n : ℕ) (rest : List UInt8) :
    decode (encode n ++ rest) = some (n, rest) := by
  induction n using Nat.strong_induction_on with
  | _ n ih =>
      by_cases hlt : n < 128
      · have hb : (UInt8.ofNat n).toNat = n := toNat_ofNat_lt (by omega)
        rw [encode_of_lt hlt]
        simp only [List.singleton_append, decode, hb, hlt, if_true]
      · have hb : (UInt8.ofNat (n % 128 + 128)).toNat = n % 128 + 128 :=
          toNat_ofNat_lt (by omega)
        have hge : ¬ n % 128 + 128 < 128 := by omega
        rw [encode_of_ge (by omega), List.cons_append, decode, ih (n / 128) (by omega), hb,
          if_neg hge]
        have : (n % 128 + 128) % 128 + 128 * (n / 128) = n := by omega
        simp only [Option.map_some, this]

/-- What the rounds of the slice reader return, in terms of the unbounded reader. -/
theorem readUnsignedFrom_eq_some {rest : List UInt8} : ∀ {bs : List UInt8} {i result v : ℕ},
    i ≤ 9 → result < 2 ^ (7 * i) → readUnsignedFrom bs (7 * i) result = some (v, rest) →
    ∃ w, decode bs = some (w, rest) ∧ v = result + w * 2 ^ (7 * i) ∧ v < 2 ^ 64
  | [], _, _, _, _, _, h => by cases h
  | b :: bs, i, result, v, hi, hresult, h => by
      rw [readUnsignedFrom] at h
      split_ifs at h with hguard hlast
      · have hb := (and_80_eq_zero_iff b).mp hlast
        obtain ⟨rfl, rfl⟩ : result + (b &&& 0x7F).toNat * 2 ^ (7 * i) = v ∧ bs = rest := by
          simpa using h
        rw [toNat_and_7f, Nat.mod_eq_of_lt hb]
        refine ⟨b.toNat, by simp [decode, hb], rfl, ?_⟩
        have hpow := two_pow_group i
        by_cases h9 : i = 9
        · subst h9
          have hbit : b.toNat ≤ 1 := by
            by_cases h0 : b = 0
            · simp [h0]
            · by_cases h1 : b = 1
              · simp [h1]
              · exact absurd ⟨rfl, h0, h1⟩ hguard
          have := Nat.mul_le_mul_right (2 ^ (7 * 9)) hbit
          omega
        · have hle : 2 ^ (7 * (i + 1)) ≤ 2 ^ 63 := Nat.pow_le_pow_right (by decide) (by omega)
          have := Nat.mul_le_mul_right (2 ^ (7 * i)) (Nat.lt_succ_iff.mp hb)
          omega
      · have hb : ¬ b.toNat < 128 := fun hlt => hlast ((and_80_eq_zero_iff b).mpr hlt)
        have h8 : i ≤ 8 := by
          by_contra hcon
          obtain rfl : i = 9 := by omega
          apply hguard
          refine ⟨rfl, ?_, ?_⟩ <;> (rintro rfl; exact hb (by decide))
        have hpow := two_pow_group i
        have hlow : b.toNat % 128 * 2 ^ (7 * i) ≤ 127 * 2 ^ (7 * i) :=
          Nat.mul_le_mul_right _ (by omega)
        rw [toNat_and_7f, show 7 * i + 7 = 7 * (i + 1) by omega] at h
        obtain ⟨w, hw, hv, hlt⟩ := readUnsignedFrom_eq_some (by omega) (by omega) h
        refine ⟨b.toNat % 128 + 128 * w, by simp [decode, hb, hw], ?_, hlt⟩
        rw [hv, hpow]
        ring

/-- The slice reader accepts no value that the encoding does not have, and none that does not
fit. -/
theorem readUnsigned_eq_some {bs rest : List UInt8} {v : ℕ}
    (h : readUnsigned bs = some (v, rest)) : decode bs = some (v, rest) ∧ v < 2 ^ 64 := by
  obtain ⟨w, hw, hv, hlt⟩ := readUnsignedFrom_eq_some (i := 0) (by omega) (by decide) h
  obtain rfl : v = w := by simpa using hv
  exact ⟨hw, hlt⟩

/-! ### The bytes of one encoding -/

/-- The unbounded sum of the groups of seven bits. -/
def groupSum (bs : List UInt8) : ℕ := (bs.mapIdx fun i b => b.toNat % 128 * 128 ^ i).sum

theorem groupSum_cons (b : UInt8) (bs : List UInt8) :
    groupSum (b :: bs) = b.toNat % 128 + 128 * groupSum bs := by
  have hstep : (fun i (b : UInt8) => b.toNat % 128 * 128 ^ (i + 1)) =
      fun i (b : UInt8) => 128 * (b.toNat % 128 * 128 ^ i) := by
    funext i b
    ring
  have hmul : ∀ l : List ℕ, (l.map (128 * ·)).sum = 128 * l.sum := by
    intro l
    induction l with
    | nil => rfl
    | cons n l ih => simp only [List.map_cons, List.sum_cons, ih, Nat.mul_add]
  unfold groupSum
  rw [List.mapIdx_cons, List.sum_cons, pow_zero, Nat.mul_one, hstep, ← hmul]
  congr 2
  simp [List.mapIdx_eq_zipIdx_map]

/-- An encoding is read off the front of a slice as it is read on its own, and its value is the
sum of its groups. -/
theorem decode_eq_some_iff {rest : List UInt8} : ∀ {bs : List UInt8} {v : ℕ},
    decode bs = some (v, rest) ↔
      ∃ used, bs = used ++ rest ∧ decode used = some (v, []) ∧ v = groupSum used
  | [], v => by
      simp only [decode, reduceCtorEq, false_iff, not_exists, not_and]
      intro used h
      obtain ⟨rfl, -⟩ := List.append_eq_nil_iff.mp h.symm
      simp [decode]
  | b :: bs, v => by
      constructor
      · intro h
        obtain ⟨hb, rfl, rfl⟩ | ⟨hb, w, hw, rfl⟩ := decode_cons_cases h
        · refine ⟨[b], rfl, by simp [decode, hb], ?_⟩
          simp [groupSum, Nat.mod_eq_of_lt hb]
        · obtain ⟨used, rfl, hused, hsum⟩ := decode_eq_some_iff.mp hw
          refine ⟨b :: used, rfl, ?_, by rw [groupSum_cons, hsum]⟩
          rw [decode, if_neg (by omega), hused]
          rfl
      · rintro ⟨used, happ, hused, hsum⟩
        cases used with
        | nil => simp [decode] at hused
        | cons c used =>
            obtain ⟨rfl, rfl⟩ : b = c ∧ bs = used ++ rest := by simpa using happ
            obtain ⟨hb, rfl, rfl⟩ | ⟨hb, w, hw, rfl⟩ := decode_cons_cases hused
            · simp [decode, hb]
            · have hsum' : w = groupSum used := by
                rw [groupSum_cons] at hsum
                omega
              rw [decode, if_neg (by omega), decode_eq_some_iff.mpr ⟨used, rfl, hw, hsum'⟩]
              rfl

theorem decode_of_last {b : UInt8} (hb : b.toNat < 128) : ∀ {k : ℕ} {bs : List UInt8},
    bs[k]? = some b → (∀ c ∈ bs.take k, 128 ≤ c.toNat) →
    ∃ v, decode bs = some (v, bs.drop (k + 1))
  | _, [], h, _ => by simp at h
  | 0, c :: bs, h, _ => by
      obtain rfl : c = b := by simpa using h
      exact ⟨c.toNat, by simp [decode, hb]⟩
  | k + 1, c :: bs, h, hrun => by
      simp only [List.take_succ_cons, List.mem_cons, forall_eq_or_imp] at hrun
      obtain ⟨v, hv⟩ := decode_of_last hb (by simpa using h) hrun.2
      refine ⟨c.toNat % 128 + 128 * v, ?_⟩
      rw [decode, if_neg (by omega), hv]
      rfl

/-- An encoding of at most `k + 1` bytes has a value of `7 * k + 1` bits exactly when its last
byte, if there are that many, carries one bit. -/
theorem value_lt_iff {rest : List UInt8} : ∀ {k : ℕ} {bs : List UInt8} {v : ℕ},
    decode bs = some (v, rest) → bs.length ≤ rest.length + (k + 1) →
    (v < 2 ^ (7 * k + 1) ↔ ∀ b ∈ bs[k]?, (∀ c ∈ bs.take k, 128 ≤ c.toNat) →
      b.toNat < 128 → b.toNat ≤ 1)
  | _, [], _, h, _ => by simp [decode] at h
  | 0, b :: bs, v, h, hlen => by
      obtain ⟨hb, rfl, rfl⟩ | ⟨-, w, hw, -⟩ := decode_cons_cases h
      · simp only [List.getElem?_cons_zero, Option.mem_def, Option.some.injEq, forall_eq',
          List.take_zero, List.not_mem_nil, false_imp_iff, implies_true, forall_const, hb]
        omega
      · have := decode_rest_lt hw
        simp only [List.length_cons] at hlen
        omega
  | k + 1, b :: bs, v, h, hlen => by
      have hpow : 2 ^ (7 * (k + 1) + 1) = 128 * 2 ^ (7 * k + 1) := by
        rw [show 7 * (k + 1) + 1 = 7 * k + 1 + 7 by omega, pow_add]
        omega
      have hpos : 0 < 2 ^ (7 * k + 1) := Nat.two_pow_pos _
      simp only [List.getElem?_cons_succ, List.take_succ_cons, List.mem_cons, forall_eq_or_imp]
      obtain ⟨hb, rfl, rfl⟩ | ⟨hb, w, hw, rfl⟩ := decode_cons_cases h
      · constructor
        · intro _ _ _ hrun
          omega
        · intro _
          omega
      · simp only [List.length_cons] at hlen
        have ih := value_lt_iff (k := k) hw (by omega)
        simp only [hb, true_and]
        rw [← ih, hpow]
        omega

theorem readUnsignedFrom_of_decode {rest : List UInt8} : ∀ {bs : List UInt8} {i result w : ℕ},
    i ≤ 9 → decode bs = some (w, rest) → bs.length + i ≤ rest.length + 10 →
    w * 2 ^ (7 * i) < 2 ^ 64 →
    readUnsignedFrom bs (7 * i) result = some (result + w * 2 ^ (7 * i), rest)
  | [], _, _, _, _, h, _, _ => by simp [decode] at h
  | b :: bs, i, result, w, hi, h, hlen, hw => by
      simp only [List.length_cons] at hlen
      rw [readUnsignedFrom]
      obtain ⟨hb, rfl, rfl⟩ | ⟨hb, u, hu, rfl⟩ := decode_cons_cases h
      · have hguard : ¬ (7 * i = 63 ∧ b ≠ 0 ∧ b ≠ 1) := by
          rintro ⟨h63, h0, h1⟩
          rw [h63] at hw
          obtain h | h : b.toNat = 0 ∨ b.toNat = 1 := by omega
          · exact h0 (UInt8.toNat_inj.mp h)
          · exact h1 (UInt8.toNat_inj.mp h)
        rw [if_neg hguard]
        simp only [(and_80_eq_zero_iff b).mpr hb, if_true, toNat_and_7f, Nat.mod_eq_of_lt hb]
      · have hrest := decode_rest_lt hu
        have h63 : ¬ (7 * i = 63 ∧ b ≠ 0 ∧ b ≠ 1) := fun h => by omega
        have hmore : ¬ b &&& 0x80 = 0 := fun h => by
          have := (and_80_eq_zero_iff b).mp h
          omega
        have hval : (b.toNat % 128 + 128 * u) * 2 ^ (7 * i) =
            b.toNat % 128 * 2 ^ (7 * i) + u * 2 ^ (7 * (i + 1)) := by
          rw [two_pow_group]
          ring
        rw [hval] at hw
        rw [if_neg h63]
        simp only [hmore, if_false, toNat_and_7f]
        rw [show 7 * i + 7 = 7 * (i + 1) by omega,
          readUnsignedFrom_of_decode (by omega) hu (by omega) (by omega), hval, Nat.add_assoc]

theorem readUnsignedFrom_length {rest : List UInt8} : ∀ {bs : List UInt8} {i result v : ℕ},
    i ≤ 9 → readUnsignedFrom bs (7 * i) result = some (v, rest) →
    bs.length + i ≤ rest.length + 10
  | [], _, _, _, _, h => by cases h
  | b :: bs, i, result, v, hi, h => by
      rw [readUnsignedFrom] at h
      simp only [List.length_cons]
      split_ifs at h with hguard hlast
      · obtain ⟨-, rfl⟩ : _ = v ∧ bs = rest := by simpa using h
        omega
      · have h8 : i ≤ 8 := by
          by_contra hcon
          apply hguard
          refine ⟨by omega, ?_, ?_⟩ <;> (rintro rfl; exact hlast (by decide))
        rw [show 7 * i + 7 = 7 * (i + 1) by omega] at h
        have := readUnsignedFrom_length (by omega) h
        omega

/-- **The slice reader accepts exactly** the encodings of at most ten bytes whose value fits 64
bits. -/
theorem readUnsigned_eq_some_iff {bs rest : List UInt8} {v : ℕ} :
    readUnsigned bs = some (v, rest) ↔
      decode bs = some (v, rest) ∧ bs.length ≤ rest.length + 10 ∧ v < 2 ^ 64 := by
  constructor
  · intro h
    obtain ⟨hdec, hv⟩ := readUnsigned_eq_some h
    exact ⟨hdec, readUnsignedFrom_length (i := 0) (by omega) h, hv⟩
  · rintro ⟨hdec, hlen, hv⟩
    have hread : readUnsignedFrom bs (7 * 0) 0 = some (0 + v * 2 ^ (7 * 0), rest) :=
      readUnsignedFrom_of_decode (by omega) hdec hlen (by simpa using hv)
    simpa [readUnsigned] using hread

example : encode 300 = [0xAC, 0x02] := by decide

end Leb128
