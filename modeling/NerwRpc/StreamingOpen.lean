import NerwRpc.StreamOutput

/-! # Opening a streaming substream

What `streaming_negotiate_open` makes of every sequence of bytes behind the opening opcode.

* `readVarintU64_ok`, `readVarintU64_pending`, `readVarintU64_error`: the length reader on
  arbitrary bytes; it accepts encodings that are longer than necessary and drops what exceeds
  64 bits.
* `varintReaders_agree_iff`: when it reads what the LEB128 crate reads.
* `readOpenRequest_ok_iff`: the bytes that are an open request.
* `streamingNegotiateOpen_reports_iff`: a failed open reaches the peer as a typed error exactly
  when the open request itself is well formed, or still incomplete. -/

namespace NerwRpc

open ByteStream

/-! ### The length reader on arbitrary bytes -/

/-- A round adds seven bits, of which the tenth keeps one: the sum never overflows. -/
theorem add_group_lt {i result low : ℕ} (hi : i ≤ 9) (hresult : result < 2 ^ (7 * i))
    (hlow : low < 128) : result + low * 2 ^ (7 * i) % 2 ^ 64 < 2 ^ 64 := by
  obtain h8 | h9 := Nat.lt_or_ge i 9
  · have hpow : 2 ^ (7 * i) * 128 ≤ 2 ^ 63 := by
      rw [show (128 : ℕ) = 2 ^ 7 from rfl, ← pow_add]
      exact Nat.pow_le_pow_right (by decide) (by omega)
    have hmul : low * 2 ^ (7 * i) ≤ 127 * 2 ^ (7 * i) := Nat.mul_le_mul_right _ (by omega)
    have := Nat.mod_le (low * 2 ^ (7 * i)) (2 ^ 64)
    omega
  · obtain rfl : i = 9 := by omega
    omega

theorem readVarintFrom_cons {rounds i result : ℕ} (hi : i ≤ 9) (hresult : result < 2 ^ (7 * i))
    (b : UInt8) (bs : Bytes) (t : StreamEnd) :
    readVarintFrom (rounds + 1) i result ⟨b :: bs, t⟩ =
      if b.toNat < 128 then
        .ready (.ok ((result + b.toNat % 128 * 2 ^ (7 * i)) % 2 ^ 64, ⟨bs, t⟩))
      else readVarintFrom rounds (i + 1) ((result + b.toNat % 128 * 2 ^ (7 * i)) % 2 ^ 64)
        ⟨bs, t⟩ := by
  have hsum := add_group_lt hi hresult (Nat.mod_lt b.toNat (by decide : 0 < 128))
  have hshl : checkedShl (b &&& 0x7F).toNat (i * 7) =
      .ok (b.toNat % 128 * 2 ^ (7 * i) % 2 ^ 64) := by
    rw [checkedShl, if_pos (by omega), Nat.shiftLeft_eq, Leb128.toNat_and_7f, Nat.mul_comm i 7]
  have hmod : result + b.toNat % 128 * 2 ^ (7 * i) % 2 ^ 64 =
      (result + b.toNat % 128 * 2 ^ (7 * i)) % 2 ^ 64 := by omega
  rw [readVarintFrom, ReadM.bind_ok _ (ReadM.mapErr_ok _ (readExact_one b bs t))]
  by_cases hb : b.toNat < 128
  · have hlast := (Leb128.and_80_eq_zero_iff b).mpr hb
    simp only [List.headD_cons, hshl, ReadM.lift_ok_bind, checkedAdd_ok hsum, hmod, hlast, hb,
      if_true]
    rfl
  · have hmore := mt (Leb128.and_80_eq_zero_iff b).mp hb
    simp only [List.headD_cons, hshl, ReadM.lift_ok_bind, checkedAdd_ok hsum, hmod, hmore, hb,
      if_false]

theorem readVarintFrom_nil (rounds i result : ℕ) (t : StreamEnd) :
    (t = .live ∧ readVarintFrom (rounds + 1) i result ⟨[], t⟩ = .pending) ∨
      t ≠ .live ∧ ∃ e, readVarintFrom (rounds + 1) i result ⟨[], t⟩ = .ready (.error e) := by
  cases t with
  | live => exact .inl ⟨rfl, rfl⟩
  | finished => exact .inr ⟨nofun, _, rfl⟩
  | broken e => exact .inr ⟨nofun, _, rfl⟩

theorem add_group_lt_next {i result low : ℕ} (hi : i ≤ 8) (hresult : result < 2 ^ (7 * i))
    (hlow : low < 128) : (result + low * 2 ^ (7 * i)) % 2 ^ 64 = result + low * 2 ^ (7 * i) ∧
      result + low * 2 ^ (7 * i) < 2 ^ (7 * (i + 1)) := by
  have hnext := Leb128.two_pow_group i
  have hpow : 2 ^ (7 * (i + 1)) ≤ 2 ^ 63 := Nat.pow_le_pow_right (by decide) (by omega)
  have hmul : low * 2 ^ (7 * i) ≤ 127 * 2 ^ (7 * i) := Nat.mul_le_mul_right _ (by omega)
  constructor
  · exact Nat.mod_eq_of_lt (by omega)
  · omega

/-- A whole encoding of at most `rounds` bytes is read, modulo 64 bits. -/
theorem readVarintFrom_ok {rest : Bytes} (t : StreamEnd) : ∀ {bs : Bytes} {v rounds i result : ℕ},
    rounds + i = 10 → result < 2 ^ (7 * i) → Leb128.decode bs = some (v, rest) →
    bs.length ≤ rest.length + rounds → readVarintFrom rounds i result ⟨bs, t⟩ =
      .ready (.ok ((result + v * 2 ^ (7 * i)) % 2 ^ 64, ⟨rest, t⟩))
  | [], v, rounds, i, result, _, _, hdec, _ => by simp [Leb128.decode] at hdec
  | b :: bs, v, 0, i, result, _, _, hdec, hlen => by
      have := Leb128.decode_rest_lt hdec
      omega
  | b :: bs, v, rounds + 1, i, result, hr, hresult, hdec, hlen => by
      rw [readVarintFrom_cons (by omega) hresult]
      obtain ⟨hb, rfl, rfl⟩ | ⟨hb, w, hw, rfl⟩ := Leb128.decode_cons_cases hdec
      · rw [if_pos hb, Nat.mod_eq_of_lt hb]
      · have hrest := Leb128.decode_rest_lt hw
        simp only [List.length_cons] at hlen
        obtain ⟨hmod, hnext⟩ := add_group_lt_next (by omega) hresult
          (Nat.mod_lt b.toNat (show 128 > 0 by decide))
        rw [if_neg (by omega), hmod, readVarintFrom_ok t (by omega) hnext hw (by omega)]
        congr 4
        rw [Leb128.two_pow_group]
        ring

/-- Continuation bytes only, fewer than there are rounds: the reader waits for more. -/
theorem readVarintFrom_pending : ∀ {bs : Bytes} {rounds i result : ℕ}, rounds + i = 10 →
    result < 2 ^ (7 * i) → Leb128.decode bs = none → bs.length < rounds →
    readVarintFrom rounds i result ⟨bs, .live⟩ = .pending
  | [], rounds + 1, i, result, _, _, _, _ => rfl
  | b :: bs, rounds + 1, i, result, hr, hresult, hdec, hlen => by
      simp only [List.length_cons] at hlen
      have hb : ¬ b.toNat < 128 := fun hb => by simp [Leb128.decode, hb] at hdec
      have hbs : Leb128.decode bs = none := by simpa [Leb128.decode, hb] using hdec
      obtain ⟨hmod, hnext⟩ := add_group_lt_next (by omega) hresult
        (Nat.mod_lt b.toNat (show 128 > 0 by decide))
      rw [readVarintFrom_cons (by omega) hresult, if_neg hb, hmod,
        readVarintFrom_pending (by omega) hnext hbs (by omega)]

/-- Anything else is refused: an encoding that is too long, or one that the end of the stream
cuts. -/
theorem readVarintFrom_error {t : StreamEnd} : ∀ {bs : Bytes} {rounds i result : ℕ},
    rounds + i = 10 → result < 2 ^ (7 * i) →
    (∀ v rest, Leb128.decode bs = some (v, rest) → rest.length + rounds < bs.length) →
    (Leb128.decode bs = none → t = .live → rounds ≤ bs.length) →
    ∃ e, readVarintFrom rounds i result ⟨bs, t⟩ = .ready (.error e)
  | _, 0, i, result, _, _, _, _ => ⟨_, rfl⟩
  | [], rounds + 1, i, result, _, _, _, hlive => by
      obtain ⟨ht, -⟩ | ⟨-, he⟩ := readVarintFrom_nil rounds i result t
      · have := hlive rfl ht
        simp at this
      · exact he
  | b :: bs, rounds + 1, i, result, hr, hresult, hlong, hlive => by
      have hb : ¬ b.toNat < 128 := fun hb => by
        have := hlong b.toNat bs (by simp [Leb128.decode, hb])
        simp only [List.length_cons] at this
        omega
      rw [readVarintFrom_cons (by omega) hresult, if_neg hb]
      cases rounds with
      | zero => exact ⟨_, rfl⟩
      | succ rounds =>
          obtain ⟨hmod, hnext⟩ := add_group_lt_next (by omega) hresult
            (Nat.mod_lt b.toNat (show 128 > 0 by decide))
          rw [hmod]
          refine readVarintFrom_error (by omega) hnext (fun v rest hv => ?_) fun hnone ht => ?_
          · have := hlong (b.toNat % 128 + 128 * v) rest (by simp [Leb128.decode, hb, hv])
            simp only [List.length_cons] at this
            omega
          · have := hlive (by simp [Leb128.decode, hb, hnone]) ht
            simp only [List.length_cons] at this
            omega

/-- The bytes begin with a length prefix of at most ten bytes: `n` is its value modulo 64 bits and
`rest` follows it. -/
def LengthPrefix (bs : Bytes) (n : ℕ) (rest : Bytes) : Prop :=
  ∃ v, Leb128.decode bs = some (v, rest) ∧ bs.length ≤ rest.length + 10 ∧ n = v % 2 ^ 64

theorem readVarintU64_ok {bs rest : Bytes} {n : ℕ} (t : StreamEnd) (h : LengthPrefix bs n rest) :
    readVarintU64 ⟨bs, t⟩ = .ready (.ok (n, ⟨rest, t⟩)) := by
  obtain ⟨v, hdec, hlen, rfl⟩ := h
  have : readVarintFrom 10 0 0 ⟨bs, t⟩ =
      .ready (.ok ((0 + v * 2 ^ (7 * 0)) % 2 ^ 64, ⟨rest, t⟩)) :=
    readVarintFrom_ok t rfl (by decide) hdec hlen
  simpa [readVarintU64] using this

theorem readVarintU64_pending {bs : Bytes} (hnone : Leb128.decode bs = none)
    (hlen : bs.length < 10) : readVarintU64 ⟨bs, .live⟩ = .pending :=
  readVarintFrom_pending (i := 0) rfl (by decide) hnone hlen

theorem readVarintU64_error {bs : Bytes} {t : StreamEnd} (h : ∀ n rest, ¬ LengthPrefix bs n rest)
    (hlive : t = .live → ¬ (Leb128.decode bs = none ∧ bs.length < 10)) :
    ∃ e, readVarintU64 ⟨bs, t⟩ = .ready (.error e) := by
  refine readVarintFrom_error (i := 0) rfl (by decide) (fun v rest hdec => ?_) fun hnone ht => ?_
  · by_contra hlen
    exact h _ rest ⟨v, hdec, by omega, rfl⟩
  · by_contra hlen
    exact hlive ht ⟨hnone, by omega⟩

theorem readVarintU64_ok_iff {bs : Bytes} {t : StreamEnd} {n : ℕ} {recv' : RecvStream} :
    readVarintU64 ⟨bs, t⟩ = .ready (.ok (n, recv')) ↔
      ∃ rest, recv' = ⟨rest, t⟩ ∧ LengthPrefix bs n rest := by
  constructor
  · intro h
    by_cases hprefix : ∃ m rest, LengthPrefix bs m rest
    · obtain ⟨m, rest, hprefix⟩ := hprefix
      rw [readVarintU64_ok t hprefix] at h
      obtain ⟨rfl, rfl⟩ : m = n ∧ (⟨rest, t⟩ : RecvStream) = recv' := by simpa using h
      exact ⟨rest, rfl, hprefix⟩
    · have hnone : ∀ m rest, ¬ LengthPrefix bs m rest := fun m rest hm => hprefix ⟨m, rest, hm⟩
      by_cases hlive : t = .live ∧ Leb128.decode bs = none ∧ bs.length < 10
      · obtain ⟨rfl, hdec, hlen⟩ := hlive
        rw [readVarintU64_pending hdec hlen] at h
        cases h
      · obtain ⟨e, he⟩ := readVarintU64_error hnone fun ht hshort => hlive ⟨ht, hshort⟩
        rw [he] at h
        cases h
  · rintro ⟨rest, rfl, hprefix⟩
    exact readVarintU64_ok t hprefix

section openRequest

variable [Deps]

/-! ### The two readers of a length -/

/-- Both readers accept the bytes, or neither does; what they accept has the same value and the
same length, and the value is that of its groups, with no bit lost. -/
def VarintReadersAgree (bs : Bytes) : Prop :=
  ∀ t : StreamEnd,
    (∀ n rest, readVarintU64 ⟨bs, t⟩ = .ready (.ok (n, ⟨rest, t⟩)) ↔
      leb128.read bs = .ok (n, rest)) ∧
    ∀ n recv', readVarintU64 ⟨bs, t⟩ = .ready (.ok (n, recv')) →
      ∃ used, bs = used ++ recv'.buf ∧ recv'.tail = t ∧ n = Leb128.groupSum used

/-- If a tenth byte is the last of an encoding, then it carries only the bit that fits. -/
def TenthByteFits (bs : Bytes) : Prop :=
  ∀ b ∈ bs[9]?, (∀ c ∈ bs.take 9, 128 ≤ c.toNat) → b.toNat < 128 → b.toNat ≤ 1

/-- **When the two readers agree**: the async one drops the bits of a tenth byte that do not fit,
where the crate refuses it. -/
theorem varintReaders_agree_iff (bs : Bytes) : VarintReadersAgree bs ↔ TenthByteFits bs := by
  constructor
  · intro h b hb hrun hlast
    by_contra hbig
    obtain ⟨v, hv⟩ := Leb128.decode_of_last hlast hb hrun
    have hten : 9 < bs.length := (List.getElem?_eq_some_iff.mp hb).1
    have hlen : bs.length ≤ (bs.drop (9 + 1)).length + 10 := by
      simp only [List.length_drop]
      omega
    have hread := readVarintU64_ok .live ⟨v, hv, hlen, rfl⟩
    obtain ⟨hdec, -⟩ := Leb128.readUnsigned_eq_some_iff.mp
      (leb128_read_ok_iff.mp (((h .live).1 _ _).mp hread))
    rw [hv] at hdec
    have hmod : v = v % 2 ^ 64 := by simpa using hdec
    have hval : v < 2 ^ (7 * 9 + 1) := by omega
    exact hbig ((Leb128.value_lt_iff hv hlen).mp hval b hb hrun hlast)
  · intro h t
    have hfits : ∀ {n rest}, LengthPrefix bs n rest →
        Leb128.decode bs = some (n, rest) ∧ bs.length ≤ rest.length + 10 ∧ n < 2 ^ 64 := by
      rintro n rest ⟨v, hdec, hlen, rfl⟩
      have hv : v < 2 ^ 64 := (Leb128.value_lt_iff (k := 9) hdec hlen).mpr h
      rw [Nat.mod_eq_of_lt hv]
      exact ⟨hdec, hlen, hv⟩
    constructor
    · intro n rest
      rw [leb128_read_ok_iff, Leb128.readUnsigned_eq_some_iff, readVarintU64_ok_iff]
      constructor
      · rintro ⟨rest', heq, hprefix⟩
        obtain rfl : rest = rest' := by simpa using heq
        exact hfits hprefix
      · rintro ⟨hdec, hlen, hn⟩
        exact ⟨rest, rfl, n, hdec, hlen, (Nat.mod_eq_of_lt hn).symm⟩
    · intro n recv' hread
      obtain ⟨rest, rfl, hprefix⟩ := readVarintU64_ok_iff.mp hread
      obtain ⟨used, happ, -, hsum⟩ := Leb128.decode_eq_some_iff.mp (hfits hprefix).1
      exact ⟨used, happ, rfl, hsum⟩

/-! ### The open request on arbitrary bytes -/

/-- The bytes behind the opcode begin with a whole open request: a length within the limit and
that many bytes, which postcard decodes. -/
def OpensWell (bs : Bytes) : Prop :=
  ∃ n rest, LengthPrefix bs n rest ∧ n ≤ maxStreamingPayloadLen ∧ n ≤ rest.length ∧
    ∃ openReq, openRequestCodec.fromBytes (rest.take n) = .ok openReq

/-- The bytes behind the opcode end inside an open request that can still be completed: in a
length prefix with less than ten bytes, or in a body within the limit. -/
def StillComing (bs : Bytes) : Prop :=
  Leb128.decode bs = none ∧ bs.length < 10 ∨
    ∃ n rest, LengthPrefix bs n rest ∧ n ≤ maxStreamingPayloadLen ∧ rest.length < n

theorem readLengthPrefixed_body {bs rest : Bytes} {n : ℕ} (t : StreamEnd)
    (h : LengthPrefix bs n rest) (hmax : n ≤ maxStreamingPayloadLen) :
    readLengthPrefixed ⟨bs, t⟩ = (if n = 0 then pure [] else (readExact n).mapErr fun e =>
      .transportRead ("streaming payload body: " ++ e.display)) ⟨rest, t⟩ := by
  have husize := maxStreamingPayloadLen_le_usizeMax
  rw [readLengthPrefixed, ReadM.bind_ok _ (readVarintU64_ok t h), if_neg (by omega),
    if_neg (by omega)]

theorem readLengthPrefixed_ok {bs rest : Bytes} {n : ℕ} (t : StreamEnd)
    (h : LengthPrefix bs n rest) (hmax : n ≤ maxStreamingPayloadLen) (hbody : n ≤ rest.length) :
    readLengthPrefixed ⟨bs, t⟩ = .ready (.ok (rest.take n, ⟨rest.drop n, t⟩)) := by
  rw [readLengthPrefixed_body t h hmax]
  by_cases h0 : n = 0
  · subst h0
    rfl
  · rw [if_neg h0]
    refine ReadM.mapErr_ok _ ?_
    simp [readExact, hbody]

theorem readLengthPrefixed_pending {bs : Bytes} (h : StillComing bs) :
    readLengthPrefixed ⟨bs, .live⟩ = .pending := by
  obtain ⟨hnone, hlen⟩ | ⟨n, rest, h, hmax, hbody⟩ := h
  · exact ReadM.bind_pending _ (readVarintU64_pending hnone hlen)
  · rw [readLengthPrefixed_body .live h hmax, if_neg (by omega)]
    refine ReadM.mapErr_pending _ ?_
    simp [readExact, Nat.not_le.mpr hbody]

theorem readLengthPrefixed_error {bs : Bytes} {t : StreamEnd}
    (hopen : ∀ n rest, LengthPrefix bs n rest → n ≤ maxStreamingPayloadLen → rest.length < n)
    (hlive : t = .live → ¬ StillComing bs) :
    ∃ e, readLengthPrefixed ⟨bs, t⟩ = .ready (.error e) := by
  by_cases hwhole : ∃ n rest, LengthPrefix bs n rest
  · obtain ⟨n, rest, h⟩ := hwhole
    by_cases hmax : n ≤ maxStreamingPayloadLen
    · have hbody := hopen n rest h hmax
      rw [readLengthPrefixed_body t h hmax, if_neg (by omega)]
      cases t with
      | live => exact absurd (.inr ⟨n, rest, h, hmax, hbody⟩) (hlive rfl)
      | finished =>
          exact ⟨_, ReadM.mapErr_error _ (e := .finishedEarly rest.length)
            (by simp [readExact, Nat.not_le.mpr hbody])⟩
      | broken e =>
          exact ⟨_, ReadM.mapErr_error _ (e := .readError e)
            (by simp [readExact, Nat.not_le.mpr hbody])⟩
    · rw [readLengthPrefixed, ReadM.bind_ok _ (readVarintU64_ok t h)]
      by_cases hover : usizeMax < n
      · rw [if_pos hover]
        exact ⟨_, rfl⟩
      · rw [if_neg hover, if_pos (by omega)]
        exact ⟨_, rfl⟩
  · obtain ⟨e, he⟩ := readVarintU64_error (t := t) (fun n rest h => hwhole ⟨n, rest, h⟩)
      fun ht hshort => hlive ht (.inl hshort)
    exact ⟨e, ReadM.bind_error _ he⟩

/-- The bytes behind the opcode begin with this open request. -/
def OpensWith (bs : Bytes) (openReq : StreamingOpenRequest) : Prop :=
  ∃ n rest, LengthPrefix bs n rest ∧ n ≤ maxStreamingPayloadLen ∧ n ≤ rest.length ∧
    openRequestCodec.fromBytes (rest.take n) = .ok openReq

theorem OpensWell.exists_opensWith {bs : Bytes} (h : OpensWell bs) :
    ∃ openReq, OpensWith bs openReq := by
  obtain ⟨n, rest, hprefix, hmax, hbody, openReq, hreq⟩ := h
  exact ⟨openReq, n, rest, hprefix, hmax, hbody, hreq⟩

theorem OpensWith.read {bs : Bytes} {openReq : StreamingOpenRequest} (h : OpensWith bs openReq)
    (t : StreamEnd) : ∃ recv', readStreamingFrameAfterOpcode opcodeStreamingOpenRequest ⟨bs, t⟩ =
      .ready (.ok (.openRequest openReq, recv')) := by
  obtain ⟨n, rest, hprefix, hmax, hbody, hreq⟩ := h
  have hread : readBody openRequestCodec ⟨bs, t⟩ = .ready (.ok (openReq, ⟨rest.drop n, t⟩)) := by
    rw [readBody, ReadM.bind_ok _ (readLengthPrefixed_ok t hprefix hmax hbody), hreq]
    rfl
  exact ⟨⟨rest.drop n, t⟩, ReadM.bind_ok _ hread⟩

theorem readOpenRequest_ok {bs : Bytes} (t : StreamEnd) (h : OpensWell bs) :
    ∃ openReq recv', readStreamingFrameAfterOpcode opcodeStreamingOpenRequest ⟨bs, t⟩ =
      .ready (.ok (.openRequest openReq, recv')) := by
  obtain ⟨openReq, hopens⟩ := h.exists_opensWith
  exact ⟨openReq, hopens.read t⟩

theorem readOpenRequest_pending {bs : Bytes} (h : StillComing bs) :
    readStreamingFrameAfterOpcode opcodeStreamingOpenRequest ⟨bs, .live⟩ = .pending :=
  ReadM.bind_pending _ (ReadM.bind_pending _ (readLengthPrefixed_pending h))

theorem readOpenRequest_error {bs : Bytes} {t : StreamEnd} (h : ¬ OpensWell bs)
    (hlive : t = .live → ¬ StillComing bs) :
    ∃ e, readStreamingFrameAfterOpcode opcodeStreamingOpenRequest ⟨bs, t⟩ =
      .ready (.error e) := by
  by_cases hbody : ∃ n rest, LengthPrefix bs n rest ∧ n ≤ maxStreamingPayloadLen ∧ n ≤ rest.length
  · obtain ⟨n, rest, hprefix, hmax, hle⟩ := hbody
    have hread := readLengthPrefixed_ok t hprefix hmax hle
    cases hreq : openRequestCodec.fromBytes (rest.take n) with
    | ok openReq => exact absurd ⟨n, rest, hprefix, hmax, hle, openReq, hreq⟩ h
    | error e =>
        refine ⟨.codec e, ReadM.bind_error _ ?_⟩
        rw [readBody, ReadM.bind_ok _ hread, hreq]
        rfl
  · obtain ⟨e, he⟩ := readLengthPrefixed_error (t := t) (fun n rest hprefix hmax => by
      by_contra hle
      exact hbody ⟨n, rest, hprefix, hmax, by omega⟩) hlive
    exact ⟨e, ReadM.bind_error _ (ReadM.bind_error _ he)⟩

theorem readOpenRequest_ok_iff {bs : Bytes} {t : StreamEnd} {openReq : StreamingOpenRequest} :
    (∃ recv', readStreamingFrameAfterOpcode opcodeStreamingOpenRequest ⟨bs, t⟩ =
      .ready (.ok (.openRequest openReq, recv'))) ↔ OpensWith bs openReq := by
  constructor
  · rintro ⟨recv', hread⟩
    by_cases hwell : OpensWell bs
    · obtain ⟨openReq', hopens⟩ := hwell.exists_opensWith
      obtain ⟨recv₁, hread'⟩ := hopens.read t
      rw [hread'] at hread
      cases hread
      exact hopens
    · by_cases hlive : t = .live ∧ StillComing bs
      · obtain ⟨rfl, hcoming⟩ := hlive
        rw [readOpenRequest_pending hcoming] at hread
        cases hread
      · obtain ⟨e, he⟩ := readOpenRequest_error hwell fun ht hcoming => hlive ⟨ht, hcoming⟩
        rw [he] at hread
        cases hread
  · intro h
    exact h.read t

/-- What a writer makes of an open request within the limit opens with it. -/
theorem opensWith_encoded {openReq : StreamingOpenRequest} {body : Bytes} (rest : Bytes)
    (hdec : openRequestCodec.fromBytes body = .ok openReq)
    (hmax : body.length ≤ maxStreamingPayloadLen) :
    OpensWith (Leb128.encode body.length ++ (body ++ rest)) openReq := by
  have hlt : body.length < 2 ^ 64 := lt_of_le_of_lt hmax (by decide)
  have hten := Leb128.encode_length_le 10 body.length
    (lt_of_lt_of_le hlt (by decide)) (by decide)
  refine ⟨body.length, body ++ rest, ⟨body.length, Leb128.decode_encode _ _, ?_, ?_⟩, hmax, ?_, ?_⟩
  · simp only [List.length_append]
    omega
  · rw [Nat.mod_eq_of_lt hlt]
  · simp only [List.length_append]
    omega
  · rw [List.take_left]
    exact hdec

/-! ### What a failed open tells the peer -/

/-- A frame that carries an error to the client. -/
def IsErrorFrame : StreamingFrame → Prop
  | .openResponse ⟨.err _, _⟩ => True
  | .error _ => True
  | _ => False

/-- If the open fails without a failed write, a whole error frame has been written. -/
def ReportsFailure (c : Inbound) (registry : Registry) (fate : Option WriteFate)
    (recv : RecvStream) : Prop :=
  ∀ send recv', streamingNegotiateOpen c registry (SendStream.fresh fate) recv =
      .ready (.ok ((none, send), recv')) → (∀ w ∈ send.log, w.ok = true) →
    ∃ f buf, IsErrorFrame f ∧ frameBytes f = .ok buf ∧ buf ∈ send.written

theorem streamingNegotiateOpen_error {c : Inbound} {registry : Registry} {send : SendStream}
    {recv : RecvStream} {e : RpcError}
    (h : readStreamingFrameAfterOpcode opcodeStreamingOpenRequest recv = .ready (.error e)) :
    streamingNegotiateOpen c registry send recv = .ready (.ok ((none, send), recv)) := by
  rw [streamingNegotiateOpen, ReadM.bind_ok _ (ReadM.attempt_error h)]
  rfl

/-- **When a failed open is reported**: exactly when the open request is well formed, or the
server is still waiting for the rest of it. -/
theorem streamingNegotiateOpen_reports_iff (c : Inbound) (registry : Registry)
    (fate : Option WriteFate) (bs : Bytes) (t : StreamEnd)
    (hack : ∀ openReq recv', readStreamingFrameAfterOpcode opcodeStreamingOpenRequest ⟨bs, t⟩ =
      .ready (.ok (.openRequest openReq, recv')) →
        openResponseCodec.Fits usizeMax (ack registry openReq)) :
    ReportsFailure c registry fate ⟨bs, t⟩ ↔ OpensWell bs ∨ t = .live ∧ StillComing bs := by
  constructor
  · intro h
    by_contra hcond
    obtain ⟨hbad, hlive⟩ := not_or.mp hcond
    obtain ⟨e, he⟩ := readOpenRequest_error hbad fun ht hcoming => hlive ⟨ht, hcoming⟩
    obtain ⟨f, buf, -, -, hmem⟩ :=
      h _ _ (streamingNegotiateOpen_error he) (by simp [SendStream.fresh])
    simp [SendStream.written, SendStream.fresh] at hmem
  · rintro (hgood | ⟨rfl, hcoming⟩) send recv' hrun hall
    · obtain ⟨openReq, recv₁, hread⟩ := readOpenRequest_ok t hgood
      rw [streamingNegotiateOpen_ok _ hread] at hrun
      obtain ⟨hneg, -⟩ : negotiated c registry (SendStream.fresh fate) openReq = (none, send) ∧
          recv₁ = recv' := by simpa using hrun
      have hframe : frameBytes (.openResponse (ack registry openReq)) =
          .ok (frame (.openResponse (ack registry openReq))) := frameBytes_ok (hack _ _ hread)
      rcases writeFrame_cases (SendStream.fresh fate) (.openResponse (ack registry openReq)) with
        ⟨buf, send₁, hbuf, hw, hlog, -⟩ | ⟨buf, e, k, send₁, -, hw, hlog, -⟩ | ⟨e, he, -⟩
      · have hw' : writeOpenResponse (SendStream.fresh fate) (ack registry openReq) =
          (.ok (), send₁) := hw
        cases hl : registry.lookupStreaming openReq.methodName with
        | some handler => simp [negotiated, hw', hl] at hneg
        | none =>
            obtain rfl : send₁.finish = send := by simpa [negotiated, hw', hl] using hneg
            refine ⟨_, buf, ?_, hbuf, ?_⟩
            · simp [ack, hl, IsErrorFrame]
            · simp [SendStream.written, hlog]
      · have hw' : writeOpenResponse (SendStream.fresh fate) (ack registry openReq) =
          (.error (.transportWrite e), send₁) := hw
        obtain rfl : send₁ = send := by simpa [negotiated, hw'] using hneg
        have := hall ⟨buf, k, false⟩ (by rw [hlog]; simp)
        cases this
      · rw [hframe] at he
        cases he
    · rw [streamingNegotiateOpen,
        ReadM.bind_pending _ (ReadM.attempt_pending (readOpenRequest_pending hcoming))] at hrun
      cases hrun

end openRequest

section reference

attribute [local instance] reference

/-- `2 ^ 64` spelled in ten bytes: read as 0 by the one reader, refused by the other. -/
theorem varintReaders_differ_tenthByte :
    readVarintU64 ⟨List.replicate 9 0x80 ++ [2], .live⟩ = .ready (.ok (0, ⟨[], .live⟩)) ∧
      ¬ ∀ bs, VarintReadersAgree bs := by
  have hread : readVarintU64 ⟨List.replicate 9 0x80 ++ [2], .live⟩ =
      .ready (.ok (0, ⟨[], .live⟩)) := by decide +kernel
  refine ⟨hread, fun h => ?_⟩
  have hcrate := ((h (List.replicate 9 0x80 ++ [2]) .live).1 0 []).mp hread
  rw [leb128_read_ok_iff] at hcrate
  exact absurd hcrate (by decide +kernel)

/-- A request for a method nobody has registered. -/
theorem streamingNegotiateOpen_reports_unknown :
    ReportsFailure anyInbound MethodRegistry.empty none ⟨[7, 5, 97, 47, 98, 47, 99, 7], .live⟩ := by
  have hread : readStreamingFrameAfterOpcode opcodeStreamingOpenRequest
      ⟨[7, 5, 97, 47, 98, 47, 99, 7], .live⟩ =
        .ready (.ok (.openRequest ⟨"a/b/c", 7⟩, ⟨[], .live⟩)) := by decide +kernel
  refine (streamingNegotiateOpen_reports_iff anyInbound MethodRegistry.empty none _ .live
    fun openReq recv' h => ?_).mpr (.inl ⟨7, [5, 97, 47, 98, 47, 99, 7],
      ⟨7, by decide, by decide, rfl⟩, by decide, by decide, ⟨"a/b/c", 7⟩, by decide +kernel⟩)
  rw [hread] at h
  cases h
  exact ⟨_, rfl, by decide⟩

/-- An open request with an empty body: the substream is closed with nothing written. -/
theorem streamingNegotiateOpen_silent :
    ¬ ∀ (c : Inbound) (registry : Registry) (fate : Option WriteFate) (bs : Bytes)
      (t : StreamEnd), ReportsFailure c registry fate ⟨bs, t⟩ := by
  intro h
  have hread : readStreamingFrameAfterOpcode opcodeStreamingOpenRequest ⟨[0], .live⟩ =
      .ready (.error (.codec unexpectedEnd)) := by decide +kernel
  obtain ⟨f, buf, -, -, hmem⟩ := h anyInbound MethodRegistry.empty none [0] .live _ _
    (streamingNegotiateOpen_error hread) (by simp [SendStream.fresh])
  simp [SendStream.written, SendStream.fresh] at hmem

end reference

end NerwRpc
