import NerwRpc.Envelope
import NerwRpc.FrameStream
import Mathlib.Tactic.Ring

/-! # Streaming frames

The writers and the reader of the streaming wire format: `[opcode | varint(len) | body]`, or
the opcode alone for the two end frames.  The writers put a whole frame in one buffer and
hand it to `write_all`; the reader peels the length prefix off byte by byte.

* `writeFrame_cases`: a writer either fails before it touches the stream or makes exactly one
  write attempt, of `frameBytes`.
* `regular_readStreamingFrame`: the reader does not see how its input was cut.
* `exactFrame_readStreamingFrame`: it consumes exactly what the matching writer emits. -/

namespace NerwRpc

open ByteStream

variable {α : Type}

/-! ### One write -/

/-- The outcome of writing to a stream, and the stream afterwards. -/
abbrev Sent : Type := RpcResult Unit × SendStream

/-- Hand one buffer to the stream. -/
def writeBuf (reason : String → String) (send : SendStream) (buf : Bytes) : Sent :=
  match send.writeAll buf with
  | (.ok (), send) => (.ok (), send)
  | (.error e, send) => (.error (.transportWrite (reason e.display)), send)

theorem writeBuf_cases (reason : String → String) (send : SendStream) (buf : Bytes) :
    (∃ send', writeBuf reason send buf = (.ok (), send') ∧
      send'.log = send.log ++ [⟨buf, buf.length, true⟩] ∧
      (send.fate = none → send'.fate = none)) ∨
    ∃ e k send', writeBuf reason send buf = (.error (.transportWrite e), send') ∧
      send'.log = send.log ++ [⟨buf, k, false⟩] ∧ send.fate ≠ none := by
  obtain ⟨send', h, hlog, hfate⟩ | ⟨e, k, send', h, hlog, hfate⟩ := send.writeAll_cases buf
  · exact .inl ⟨send', by simp [writeBuf, h], hlog, hfate⟩
  · exact .inr ⟨reason e.display, k, send', by simp [writeBuf, h], hlog, hfate⟩

/-! ### The length prefix -/

/-- `u64::checked_shl` on a 7-bit group: only the shift amount is checked. -/
def checkedShl (lower shift : ℕ) : RpcResult ℕ :=
  if shift < 64 then .ok (lower <<< shift % 2 ^ 64)
  else .error (.malformedFrame "streaming varint overflow")

def checkedAdd (result shifted : ℕ) : RpcResult ℕ :=
  if result + shifted < 2 ^ 64 then .ok (result + shifted)
  else .error (.malformedFrame "streaming varint sum overflow")

/-- The rounds of `readVarintU64` that are left, from round `shift` on. -/
def readVarintFrom : (rounds shift result : ℕ) → ReadM RpcError ℕ
  | 0, _, _ => ReadM.fail (.malformedFrame "streaming varint > 10 bytes")
  | rounds + 1, shift, result => do
      let byteBuf ← (readExact 1).mapErr fun e => .transportRead ("streaming varint: " ++ e.display)
      let byte := byteBuf.headD 0
      let shifted ← ReadM.lift (checkedShl (byte &&& 0x7F).toNat (shift * 7))
      let result ← ReadM.lift (checkedAdd result shifted)
      if byte &&& 0x80 = 0 then pure result else readVarintFrom rounds (shift + 1) result

def readVarintU64 : ReadM RpcError ℕ := readVarintFrom 10 0 0

theorem tight_readVarintFrom : ∀ rounds shift result : ℕ,
    Tight (readVarintFrom rounds shift result)
  | 0, _, _ => tight_fail _
  | rounds + 1, shift, result =>
      ((tight_readExact 1).mapErr _).bind fun _ => (tight_lift _).bind fun _ =>
        (tight_lift _).bind fun result => by
          split
          · exact tight_pure result
          · exact tight_readVarintFrom rounds (shift + 1) result

theorem regular_readVarintFrom (rounds shift result : ℕ) :
    Regular (readVarintFrom rounds shift result) :=
  (tight_readVarintFrom rounds shift result).toRegular

def IsTransportRead (e : RpcError) : Prop := ∃ reason, e = .transportRead reason

theorem exact_readByte (b : UInt8) :
    Exact ((readExact 1).mapErr fun e => RpcError.transportRead ("streaming varint: " ++ e.display))
      [b] [b] IsTransportRead :=
  (exact_readExact [b]).mapErr fun _ _ => ⟨_, rfl⟩

theorem checkedShl_ok {lower shift : ℕ} (hs : shift < 64) (h : lower * 2 ^ shift < 2 ^ 64) :
    checkedShl lower shift = .ok (lower * 2 ^ shift) := by
  rw [checkedShl, if_pos hs, Nat.shiftLeft_eq, Nat.mod_eq_of_lt h]

theorem checkedAdd_ok {result shifted : ℕ} (h : result + shifted < 2 ^ 64) :
    checkedAdd result shifted = .ok (result + shifted) := by
  rw [checkedAdd, if_pos h]

/-- One round: a byte is consumed, its seven low bits are added and the rest follows. -/
theorem exact_round {b : UInt8} {rounds i result low a : ℕ} {bs : Bytes} (hi : i ≤ 9)
    (hlow : (b &&& 0x7F).toNat = low) (hn : result + low * 2 ^ (i * 7) < 2 ^ 64)
    (h : Exact (if b &&& 0x80 = 0 then pure (result + low * 2 ^ (i * 7))
      else readVarintFrom rounds (i + 1) (result + low * 2 ^ (i * 7))) bs a IsTransportRead) :
    Exact (readVarintFrom (rounds + 1) i result) (b :: bs) a IsTransportRead := by
  have hshl : checkedShl (b &&& 0x7F).toNat (i * 7) = .ok (low * 2 ^ (i * 7)) := by
    rw [hlow]
    exact checkedShl_ok (by omega) (by omega)
  rw [← List.singleton_append]
  refine (exact_readByte b).bind ?_
  simp only [List.headD_cons, hshl, ReadM.lift_ok_bind, checkedAdd_ok hn]
  exact h

/-- From round `i` on, the reader consumes exactly the encoding of what is left of the
value. -/
theorem exact_readVarintFrom : ∀ n i result : ℕ, result + n * 2 ^ (i * 7) < 2 ^ 64 → i ≤ 9 →
    Exact (readVarintFrom (10 - i) i result) (Leb128.encode n) (result + n * 2 ^ (i * 7))
      IsTransportRead := by
  intro n
  induction n using Nat.strong_induction_on with
  | _ n ih =>
      intro i result hn hi
      obtain ⟨rounds, hrounds⟩ : ∃ r, 10 - i = r + 1 := ⟨9 - i, by omega⟩
      rw [hrounds]
      by_cases hlt : n < 128
      · have hb : (UInt8.ofNat n).toNat = n := Leb128.toNat_ofNat_lt (by omega)
        have hlow : (UInt8.ofNat n &&& 0x7F).toNat = n := by
          rw [Leb128.toNat_and_7f, hb, Nat.mod_eq_of_lt hlt]
        have hlast : UInt8.ofNat n &&& 0x80 = 0 :=
          (Leb128.and_80_eq_zero_iff _).mpr (by omega)
        rw [Leb128.encode_of_lt hlt]
        refine exact_round hi hlow hn ?_
        rw [if_pos hlast]
        exact exact_pure _
      · have hb : (UInt8.ofNat (n % 128 + 128)).toNat = n % 128 + 128 :=
          Leb128.toNat_ofNat_lt (by omega)
        have hlow : (UInt8.ofNat (n % 128 + 128) &&& 0x7F).toNat = n % 128 := by
          rw [Leb128.toNat_and_7f, hb]
          omega
        have hmore : ¬ UInt8.ofNat (n % 128 + 128) &&& 0x80 = 0 := by
          rw [Leb128.and_80_eq_zero_iff, hb]
          omega
        have hsplit : n % 128 * 2 ^ (i * 7) + n / 128 * 2 ^ ((i + 1) * 7) = n * 2 ^ (i * 7) := by
          have hdm := Nat.div_add_mod n 128
          calc n % 128 * 2 ^ (i * 7) + n / 128 * 2 ^ ((i + 1) * 7)
              = (128 * (n / 128) + n % 128) * 2 ^ (i * 7) := by ring
            _ = n * 2 ^ (i * 7) := by rw [hdm]
        have hi8 : i ≤ 8 := by
          by_contra hcon
          obtain rfl : i = 9 := by omega
          omega
        rw [Leb128.encode_of_ge (by omega)]
        refine exact_round hi hlow (by omega) ?_
        rw [if_neg hmore, show rounds = 10 - (i + 1) by omega, ← hsplit, ← Nat.add_assoc]
        exact ih (n / 128) (by omega) (i + 1) _ (by omega) (by omega)

theorem exact_readVarintU64 {n : ℕ} (hn : n < 2 ^ 64) :
    Exact readVarintU64 (Leb128.encode n) n IsTransportRead := by
  simpa [readVarintU64] using exact_readVarintFrom n 0 0 (by simpa using hn) (by omega)

variable [Deps]

/-! ### Writers -/

def encodeVarintU64 (value : ℕ) : Bytes := leb128.write value

/-- The buffer `[opcode | varint(len) | body]`. -/
def lengthPrefixed (opcode : UInt8) (body : Bytes) : RpcResult Bytes :=
  if body.length < 2 ^ 64 then .ok (opcode :: (encodeVarintU64 body.length ++ body))
  else .error (.malformedFrame ("streaming body length overflow: " ++ tryFromIntError))

def writeLengthPrefixed (send : SendStream) (opcode : UInt8) (body : Bytes) : Sent :=
  match lengthPrefixed opcode body with
  | .ok buf => writeBuf ("streaming write_all: " ++ ·) send buf
  | .error e => (.error e, send)

def writeSingleOpcode (send : SendStream) (opcode : UInt8) : Sent :=
  writeBuf ("streaming opcode-only write: " ++ ·) send [opcode]

/-- Encode a typed body and send it as a length-prefixed frame. -/
def writeBody (c : PostcardCodec α) (send : SendStream) (opcode : UInt8) (body : α) : Sent :=
  match c.toAllocvec body with
  | .ok encoded => writeLengthPrefixed send opcode encoded
  | .error e => (.error (.codec e), send)

def writeOpenRequest (send : SendStream) (body : StreamingOpenRequest) : Sent :=
  writeBody openRequestCodec send opcodeStreamingOpenRequest body

def writeOpenResponse (send : SendStream) (body : StreamingOpenResponse) : Sent :=
  writeBody openResponseCodec send opcodeStreamingOpenResponse body

def writeRequestChunk (send : SendStream) (bytes : Bytes) : Sent :=
  writeLengthPrefixed send opcodeStreamingRequestChunk bytes

def writeResponseChunk (send : SendStream) (bytes : Bytes) : Sent :=
  writeLengthPrefixed send opcodeStreamingResponseChunk bytes

def writeRequestEnd (send : SendStream) : Sent := writeSingleOpcode send opcodeStreamingRequestEnd

def writeResponseEnd (send : SendStream) : Sent :=
  writeSingleOpcode send opcodeStreamingResponseEnd

def writeStreamingError (send : SendStream) (body : StreamingError) : Sent :=
  writeBody streamingErrorCodec send opcodeStreamingError body

/-- The writer that matches a frame. -/
def writeFrame (send : SendStream) : StreamingFrame → Sent
  | .openRequest body => writeOpenRequest send body
  | .openResponse body => writeOpenResponse send body
  | .requestChunk bytes => writeRequestChunk send bytes
  | .responseChunk bytes => writeResponseChunk send bytes
  | .requestEnd => writeRequestEnd send
  | .responseEnd => writeResponseEnd send
  | .error body => writeStreamingError send body

/-- The buffer of a typed body. -/
def bodyBytes (c : PostcardCodec α) (opcode : UInt8) (body : α) : RpcResult Bytes :=
  match c.toAllocvec body with
  | .ok encoded => lengthPrefixed opcode encoded
  | .error e => .error (.codec e)

/-- The buffer the matching writer hands to the stream. -/
def frameBytes : StreamingFrame → RpcResult Bytes
  | .openRequest body => bodyBytes openRequestCodec opcodeStreamingOpenRequest body
  | .openResponse body => bodyBytes openResponseCodec opcodeStreamingOpenResponse body
  | .requestChunk bytes => lengthPrefixed opcodeStreamingRequestChunk bytes
  | .responseChunk bytes => lengthPrefixed opcodeStreamingResponseChunk bytes
  | .requestEnd => .ok [opcodeStreamingRequestEnd]
  | .responseEnd => .ok [opcodeStreamingResponseEnd]
  | .error body => bodyBytes streamingErrorCodec opcodeStreamingError body

/-- The buffer of a frame that has one. -/
def frame (f : StreamingFrame) : Bytes :=
  match frameBytes f with
  | .ok buf => buf
  | .error _ => []

theorem frameBytes_ne_nil {f : StreamingFrame} {buf : Bytes} (h : frameBytes f = .ok buf) :
    buf ≠ [] := by
  have hprefixed : ∀ {opcode : UInt8} {body : Bytes}, lengthPrefixed opcode body = .ok buf →
      buf ≠ [] := by
    intro opcode body h
    unfold lengthPrefixed at h
    split at h
    · cases h
      exact List.cons_ne_nil _ _
    · cases h
  have hbody : ∀ {α : Type} {c : PostcardCodec α} {opcode : UInt8} {body : α},
      bodyBytes c opcode body = .ok buf → buf ≠ [] := by
    intro α c opcode body h
    unfold bodyBytes at h
    split at h
    · exact hprefixed h
    · cases h
  cases f with
  | openRequest body => exact hbody h
  | openResponse body => exact hbody h
  | requestChunk bytes => exact hprefixed h
  | responseChunk bytes => exact hprefixed h
  | requestEnd =>
      cases h
      exact List.cons_ne_nil _ _
  | responseEnd =>
      cases h
      exact List.cons_ne_nil _ _
  | error body => exact hbody h

/-- A body whose buffer exists is written in one attempt; one whose buffer does not exist
leaves the stream alone. -/
theorem writeBody_eq (c : PostcardCodec α) (send : SendStream) (opcode : UInt8) (body : α) :
    writeBody c send opcode body = match bodyBytes c opcode body with
      | .ok buf => writeBuf ("streaming write_all: " ++ ·) send buf
      | .error e => (.error e, send) := by
  unfold writeBody bodyBytes
  cases c.toAllocvec body with
  | error e => rfl
  | ok encoded => rfl

/-- **A writer fails before it touches the stream or makes exactly one write attempt**, of the
frame's bytes. -/
theorem writeFrame_eq (send : SendStream) (f : StreamingFrame) :
    ∃ reason, writeFrame send f = match frameBytes f with
      | .ok buf => writeBuf reason send buf
      | .error e => (.error e, send) := by
  cases f with
  | openRequest body => exact ⟨_, writeBody_eq _ send _ body⟩
  | openResponse body => exact ⟨_, writeBody_eq _ send _ body⟩
  | requestChunk bytes => exact ⟨_, rfl⟩
  | responseChunk bytes => exact ⟨_, rfl⟩
  | requestEnd => exact ⟨_, rfl⟩
  | responseEnd => exact ⟨_, rfl⟩
  | error body => exact ⟨_, writeBody_eq _ send _ body⟩

theorem writeFrame_cases (send : SendStream) (f : StreamingFrame) :
    (∃ buf send', frameBytes f = .ok buf ∧ writeFrame send f = (.ok (), send') ∧
      send'.log = send.log ++ [⟨buf, buf.length, true⟩] ∧
      (send.fate = none → send'.fate = none)) ∨
    (∃ buf e k send', frameBytes f = .ok buf ∧
      writeFrame send f = (.error (.transportWrite e), send') ∧
      send'.log = send.log ++ [⟨buf, k, false⟩] ∧ send.fate ≠ none) ∨
    ∃ e, frameBytes f = .error e ∧ writeFrame send f = (.error e, send) := by
  obtain ⟨reason, h⟩ := writeFrame_eq send f
  cases hb : frameBytes f with
  | error e => exact .inr (.inr ⟨e, rfl, by rw [h, hb]⟩)
  | ok buf =>
      rw [hb] at h
      rcases writeBuf_cases reason send buf with
        ⟨send', h', hlog, hfate⟩ | ⟨e, k, send', h', hlog, hfate⟩
      · exact .inl ⟨buf, send', rfl, h.trans h', hlog, hfate⟩
      · exact .inr (.inl ⟨buf, e, k, send', rfl, h.trans h', hlog, hfate⟩)

/-! ### The reader -/

def readLengthPrefixed : ReadM RpcError Bytes := do
  let len ← readVarintU64
  if usizeMax < len then
    ReadM.fail (.malformedFrame ("streaming payload length overflow: " ++ tryFromIntError))
  else if maxStreamingPayloadLen < len then
    ReadM.fail (.malformedFrame ("streaming payload length " ++ toString len ++
      " exceeds maximum " ++ toString maxStreamingPayloadLen))
  else if len = 0 then pure []
  else (readExact len).mapErr fun e => .transportRead ("streaming payload body: " ++ e.display)

/-- A length-prefixed body that postcard decodes. -/
def readBody (c : PostcardCodec α) : ReadM RpcError α := do
  let bytes ← readLengthPrefixed
  ReadM.lift ((c.fromBytes bytes).mapError .codec)

def readStreamingFrameAfterOpcode (opcode : UInt8) : ReadM RpcError StreamingFrame :=
  if opcode = opcodeStreamingOpenRequest then
    do pure (.openRequest (← readBody openRequestCodec))
  else if opcode = opcodeStreamingOpenResponse then
    do pure (.openResponse (← readBody openResponseCodec))
  else if opcode = opcodeStreamingRequestChunk then
    do pure (.requestChunk (← readLengthPrefixed))
  else if opcode = opcodeStreamingResponseChunk then
    do pure (.responseChunk (← readLengthPrefixed))
  else if opcode = opcodeStreamingRequestEnd then pure .requestEnd
  else if opcode = opcodeStreamingResponseEnd then pure .responseEnd
  else if opcode = opcodeStreamingError then
    do pure (.error (← readBody streamingErrorCodec))
  else ReadM.fail (.malformedFrame ("unexpected streaming opcode 0x" ++ hex02 opcode))

/-- An end of stream before the opcode is clean; everything else is a failed read. -/
def classifyEofOrError : ReadExactError → RpcResult (Option StreamingFrame)
  | .finishedEarly 0 => .ok none
  | .readError .closedStream => .ok none
  | .finishedEarly n =>
      .error (.transportRead ("partial frame: read " ++ toString n ++ " bytes before EOF"))
  | .readError other => .error (.transportRead other.display)

/-- The frame behind an opcode that has been read. -/
def readFrameBehind (opcodeBuf : Bytes) : ReadM RpcError (Option StreamingFrame) := do
  return some (← readStreamingFrameAfterOpcode (opcodeBuf.headD 0))

def readStreamingFrame : ReadM RpcError (Option StreamingFrame) := fun recv =>
  match readExact 1 recv with
  | .pending => .pending
  | .ready (.error e) => ReadM.lift (classifyEofOrError e) recv
  | .ready (.ok (opcodeBuf, recv)) => readFrameBehind opcodeBuf recv

/-! ### What is behind an opcode -/

/-- The opcodes with a length-prefixed body. -/
def bodyOpcodes : List UInt8 :=
  [opcodeStreamingOpenRequest, opcodeStreamingOpenResponse, opcodeStreamingRequestChunk,
    opcodeStreamingResponseChunk, opcodeStreamingError]

/-- What is made of the length-prefixed body behind an opcode; postcard may refuse it. -/
def ReadsBody (m : ReadM RpcError StreamingFrame) : Prop :=
  ∃ k : Bytes → RpcResult StreamingFrame,
    (∀ bytes e, k bytes = .error e → ∃ reason, e = .codec reason) ∧
    m = do ReadM.lift (k (← readLengthPrefixed))

theorem readsBody_typed (c : PostcardCodec α) (k : α → StreamingFrame) :
    ReadsBody (do return k (← readBody c)) := by
  refine ⟨fun bytes => ((c.fromBytes bytes).mapError .codec).map k, ?_, ?_⟩
  · intro bytes e h
    dsimp only at h
    cases hb : c.fromBytes bytes with
    | error reason =>
        rw [hb] at h
        cases h
        exact ⟨reason, rfl⟩
    | ok a => rw [hb] at h; cases h
  · funext recv
    cases h : readLengthPrefixed recv with
    | pending =>
        have hbody : readBody c recv = .pending := ReadM.bind_pending _ h
        rw [ReadM.bind_pending _ h, ReadM.bind_pending _ hbody]
    | ready r =>
        cases r with
        | error e =>
            have hbody : readBody c recv = .ready (.error e) := ReadM.bind_error _ h
            rw [ReadM.bind_error _ h, ReadM.bind_error _ hbody]
        | ok p =>
            rw [ReadM.bind_ok _ h]
            cases hb : c.fromBytes p.1 with
            | error e =>
                have hbody : readBody c recv = .ready (.error (.codec e)) := by
                  rw [readBody, ReadM.bind_ok _ h, hb]
                  rfl
                rw [ReadM.bind_error _ hbody]
                simp only [hb]
                rfl
            | ok a =>
                have hbody : readBody c recv = .ready (.ok (a, p.2)) := by
                  rw [readBody, ReadM.bind_ok _ h, hb]
                  rfl
                rw [ReadM.bind_ok _ hbody]
                simp only [hb]
                rfl

theorem readsBody_bytes (k : Bytes → StreamingFrame) :
    ReadsBody (do return k (← readLengthPrefixed)) :=
  ⟨fun bytes => .ok (k bytes), by simp, rfl⟩

/-- Behind an opcode there is a length-prefixed body or nothing. -/
theorem readStreamingFrameAfterOpcode_cases (opcode : UInt8) :
    (opcode ∈ bodyOpcodes ∧ ReadsBody (readStreamingFrameAfterOpcode opcode)) ∨
    opcode ∉ bodyOpcodes ∧ ∃ r : RpcResult StreamingFrame,
      readStreamingFrameAfterOpcode opcode = ReadM.lift r ∧
      ∀ e, r = .error e →
        e = .malformedFrame ("unexpected streaming opcode 0x" ++ hex02 opcode) := by
  unfold readStreamingFrameAfterOpcode
  split_ifs with h1 h2 h3 h4 h5 h6 h7
  · exact .inl ⟨by simp [bodyOpcodes, h1], readsBody_typed _ _⟩
  · exact .inl ⟨by simp [bodyOpcodes, h2], readsBody_typed _ _⟩
  · exact .inl ⟨by simp [bodyOpcodes, h3], readsBody_bytes _⟩
  · exact .inl ⟨by simp [bodyOpcodes, h4], readsBody_bytes _⟩
  · exact .inr ⟨by rw [h5]; decide, .ok .requestEnd, rfl, by simp⟩
  · exact .inr ⟨by rw [h6]; decide, .ok .responseEnd, rfl, by simp⟩
  · exact .inl ⟨by simp [bodyOpcodes, h7], readsBody_typed _ _⟩
  · refine .inr ⟨by simp [bodyOpcodes, h1, h2, h3, h4, h7], .error _, rfl, ?_⟩
    intro e h
    cases h
    rfl

/-! ### The reader does not see how its input was cut -/

theorem tight_readLengthPrefixed : Tight readLengthPrefixed :=
  (tight_readVarintFrom 10 0 0).bind fun len => by
    split
    · exact tight_fail _
    · split
      · exact tight_fail _
      · split
        · exact tight_pure []
        · exact (tight_readExact len).mapErr _

theorem regular_readLengthPrefixed : Regular readLengthPrefixed :=
  tight_readLengthPrefixed.toRegular

theorem tight_readStreamingFrameAfterOpcode (opcode : UInt8) :
    Tight (readStreamingFrameAfterOpcode opcode) := by
  obtain ⟨-, k, -, h⟩ | ⟨-, r, h, -⟩ := readStreamingFrameAfterOpcode_cases opcode
  · rw [h]
    exact tight_readLengthPrefixed.bind fun bytes => tight_lift _
  · rw [h]
    exact tight_lift r

theorem regular_readStreamingFrameAfterOpcode (opcode : UInt8) :
    Regular (readStreamingFrameAfterOpcode opcode) :=
  (tight_readStreamingFrameAfterOpcode opcode).toRegular

theorem tight_readFrameBehind (opcodeBuf : Bytes) : Tight (readFrameBehind opcodeBuf) :=
  (tight_readStreamingFrameAfterOpcode _).bind fun _ => tight_pure _

theorem regular_readFrameBehind (opcodeBuf : Bytes) : Regular (readFrameBehind opcodeBuf) :=
  (tight_readFrameBehind opcodeBuf).toRegular

theorem readStreamingFrame_cons (b : UInt8) (rest : Bytes) (t : StreamEnd) :
    readStreamingFrame ⟨b :: rest, t⟩ = readFrameBehind [b] ⟨rest, t⟩ := by
  rw [readStreamingFrame, readExact_one]

@[simp] theorem readStreamingFrame_nil_live :
    readStreamingFrame ⟨[], .live⟩ = .pending := rfl

@[simp] theorem readStreamingFrame_nil_finished :
    readStreamingFrame ⟨[], .finished⟩ = .ready (.ok (none, ⟨[], .finished⟩)) := rfl

theorem regular_readStreamingFrame : Regular readStreamingFrame where
  stable := by
    intro buf more t r h
    cases buf with
    | nil => simp at h
    | cons b buf =>
        rw [readStreamingFrame_cons] at h
        rw [List.cons_append, readStreamingFrame_cons]
        exact (regular_readFrameBehind [b]).stable buf more t r h
  suffix := by
    rintro ⟨buf, t⟩ a s' h
    cases buf with
    | nil =>
        cases t with
        | live => simp at h
        | finished =>
            simp only [readStreamingFrame_nil_finished, Poll.ready.injEq, Except.ok.injEq,
              Prod.mk.injEq] at h
            obtain ⟨rfl, rfl⟩ := h
            exact ⟨[], rfl, rfl⟩
        | broken e =>
            cases e with
            | closedStream =>
                obtain ⟨rfl, rfl⟩ : none = a ∧ ⟨[], .broken .closedStream⟩ = s' := by
                  simpa [readStreamingFrame, readExact, classifyEofOrError, ReadM.lift,
                    ReadM.pure] using h
                exact ⟨[], rfl, rfl⟩
            | other d =>
                simp [readStreamingFrame, readExact, classifyEofOrError, ReadM.lift] at h
    | cons b buf =>
        rw [readStreamingFrame_cons] at h
        obtain ⟨p, hp, ht⟩ := (regular_readFrameBehind [b]).suffix ⟨buf, t⟩ a s' h
        exact ⟨b :: p, by rw [List.cons_append, ← hp], ht⟩
  settles := by
    intro buf
    cases buf with
    | nil => simp
    | cons b buf =>
        rw [readStreamingFrame_cons]
        exact (regular_readFrameBehind [b]).settles buf

theorem readStreamingFrame_shortens {s s' : RecvStream} {f : StreamingFrame}
    (h : readStreamingFrame s = .ready (.ok (some f, s'))) : s'.buf.length < s.buf.length := by
  obtain ⟨buf, t⟩ := s
  cases buf with
  | nil =>
      rcases t with _ | _ | _ | d <;>
        simp [readStreamingFrame, readExact, classifyEofOrError, ReadM.lift, ReadM.pure] at h
  | cons b buf =>
      rw [readStreamingFrame_cons] at h
      obtain ⟨p, hp, -⟩ := (regular_readFrameBehind [b]).suffix ⟨buf, t⟩ _ s' h
      simp only at hp
      simp only [hp, List.length_cons, List.length_append]
      omega

/-- A frame is read from its own bytes alone, whatever is behind them. -/
theorem readStreamingFrame_takesOnly {p rest : Bytes} {t : StreamEnd} {f : StreamingFrame}
    (h : readStreamingFrame ⟨p ++ rest, t⟩ = .ready (.ok (some f, ⟨rest, t⟩))) :
    readStreamingFrame ⟨p, .live⟩ = .ready (.ok (some f, ⟨[], .live⟩)) := by
  cases p with
  | nil =>
      have := readStreamingFrame_shortens h
      simp at this
  | cons b p =>
      rw [List.cons_append, readStreamingFrame_cons] at h
      rw [readStreamingFrame_cons]
      exact (tight_readFrameBehind [b]).takesOnly p rest t (some f) h

/-! ### The reader consumes what the writers emit -/

theorem lengthPrefixed_ok {body : Bytes} (h : body.length < 2 ^ 64) (opcode : UInt8) :
    lengthPrefixed opcode body = .ok (opcode :: (Leb128.encode body.length ++ body)) := by
  rw [lengthPrefixed, if_pos h, encodeVarintU64, leb128.write_eq _ h]

theorem exact_readLengthPrefixed {body : Bytes} (h : body.length ≤ maxStreamingPayloadLen) :
    Exact readLengthPrefixed (Leb128.encode body.length ++ body) body IsTransportRead := by
  have husize := maxStreamingPayloadLen_le_usizeMax
  refine (exact_readVarintU64 (lt_of_le_usizeMax (h.trans husize))).bind ?_
  rw [if_neg (by omega), if_neg (by omega)]
  by_cases h0 : body = []
  · subst h0
    exact exact_pure []
  · have hlen : body.length ≠ 0 := fun h' => h0 (List.length_eq_zero_iff.mp h')
    rw [if_neg hlen]
    exact (exact_readExact body).mapErr fun _ _ => ⟨_, rfl⟩

theorem exact_readBody {c : PostcardCodec α} {body : α} {encoded : Bytes}
    (h : c.fromBytes encoded = .ok body) (hlen : encoded.length ≤ maxStreamingPayloadLen) :
    Exact (readBody c) (Leb128.encode encoded.length ++ encoded) body IsTransportRead := by
  refine (exact_readLengthPrefixed hlen).bind_pure ?_
  rw [h]
  rfl

theorem exactFrame_of_exact {opcode : UInt8} {bs : Bytes} {f : StreamingFrame}
    (h : Exact (readStreamingFrameAfterOpcode opcode) bs f IsTransportRead) :
    ExactFrame readStreamingFrame (opcode :: bs) f IsTransportRead := by
  have hbehind : Exact (readFrameBehind [opcode]) bs (some f) IsTransportRead :=
    h.bind_pure rfl
  exact
    { ne_nil := by simp
      reads := fun rest t => by
        rw [List.cons_append, readStreamingFrame_cons]
        exact hbehind.reads rest t
      waits := fun p q hpq hq => by
        cases p with
        | nil => rfl
        | cons b p =>
            obtain ⟨rfl, hpq'⟩ : b = opcode ∧ p ++ q = bs := by simpa using hpq
            rw [readStreamingFrame_cons]
            exact hbehind.waits p q hpq' hq
      cuts := fun p q hpq hp hq => by
        cases p with
        | nil => exact absurd rfl hp
        | cons b p =>
            obtain ⟨rfl, hpq'⟩ : b = opcode ∧ p ++ q = bs := by simpa using hpq
            rw [readStreamingFrame_cons]
            exact hbehind.cuts p q hpq' hq }

/-- The three typed bodies survive postcard. -/
structure BodiesRoundTrip : Prop where
  openRequest : openRequestCodec.RoundTrips
  openResponse : openResponseCodec.RoundTrips
  streamingError : streamingErrorCodec.RoundTrips

/-- The body of a frame, encoded, is at most `n` bytes long. -/
def BodyWithin (n : ℕ) : StreamingFrame → Prop
  | .openRequest body => openRequestCodec.Fits n body
  | .openResponse body => openResponseCodec.Fits n body
  | .requestChunk bytes => bytes.length ≤ n
  | .responseChunk bytes => bytes.length ≤ n
  | .requestEnd => True
  | .responseEnd => True
  | .error body => streamingErrorCodec.Fits n body

/-- The body of a frame is within the limit of the reader. -/
def BodyFits (f : StreamingFrame) : Prop := BodyWithin maxStreamingPayloadLen f

theorem bodyBytes_ok {c : PostcardCodec α} {body : α} (h : c.Fits usizeMax body) (opcode : UInt8) :
    ∃ bs, bodyBytes c opcode body = .ok bs := by
  obtain ⟨encoded, henc, hlen⟩ := h
  exact ⟨_, by rw [bodyBytes, henc]; exact lengthPrefixed_ok (lt_of_le_usizeMax hlen) opcode⟩

theorem frameBytes_ok {f : StreamingFrame} (h : BodyWithin usizeMax f) :
    frameBytes f = .ok (frame f) := by
  have key : ∃ bs, frameBytes f = .ok bs := by
    cases f with
    | openRequest body => exact bodyBytes_ok h _
    | openResponse body => exact bodyBytes_ok h _
    | requestChunk bytes => exact ⟨_, lengthPrefixed_ok (lt_of_le_usizeMax h) _⟩
    | responseChunk bytes => exact ⟨_, lengthPrefixed_ok (lt_of_le_usizeMax h) _⟩
    | requestEnd => exact ⟨_, rfl⟩
    | responseEnd => exact ⟨_, rfl⟩
    | error body => exact bodyBytes_ok h _
  obtain ⟨bs, hbs⟩ := key
  rw [frame, hbs]

theorem exactFrame_chunk {opcode : UInt8} {bytes : Bytes} {f : Bytes → StreamingFrame}
    (hop : readStreamingFrameAfterOpcode opcode = do return f (← readLengthPrefixed))
    (h : bytes.length ≤ maxStreamingPayloadLen) :
    ∃ bs, lengthPrefixed opcode bytes = .ok bs ∧
      ExactFrame readStreamingFrame bs (f bytes) IsTransportRead := by
  have hlen := lt_of_le_usizeMax (h.trans maxStreamingPayloadLen_le_usizeMax)
  refine ⟨_, lengthPrefixed_ok hlen opcode, exactFrame_of_exact ?_⟩
  rw [hop]
  exact (exact_readLengthPrefixed h).bind_pure rfl

theorem exactFrame_body {c : PostcardCodec α} {opcode : UInt8} {body : α}
    {f : α → StreamingFrame}
    (hop : readStreamingFrameAfterOpcode opcode = do return f (← readBody c))
    (hc : c.RoundTrips) (h : c.Fits maxStreamingPayloadLen body) :
    ∃ bs, bodyBytes c opcode body = .ok bs ∧
      ExactFrame readStreamingFrame bs (f body) IsTransportRead := by
  obtain ⟨encoded, henc, hlen⟩ := h
  have hlt := lt_of_le_usizeMax (hlen.trans maxStreamingPayloadLen_le_usizeMax)
  refine ⟨_, by rw [bodyBytes, henc]; exact lengthPrefixed_ok hlt opcode,
    exactFrame_of_exact ?_⟩
  rw [hop]
  exact (exact_readBody (hc _ _ henc) hlen).bind_pure rfl

theorem exactFrame_opcode {opcode : UInt8} {f : StreamingFrame}
    (hop : readStreamingFrameAfterOpcode opcode = pure f) :
    ExactFrame readStreamingFrame [opcode] f IsTransportRead :=
  exactFrame_of_exact (hop ▸ exact_pure f)

/-- **The reader consumes exactly what the matching writer emits.** -/
theorem exactFrame_readStreamingFrame (hc : BodiesRoundTrip) {f : StreamingFrame}
    (h : BodyFits f) :
    ∃ bs, frameBytes f = .ok bs ∧ ExactFrame readStreamingFrame bs f IsTransportRead := by
  cases f with
  | openRequest body => exact exactFrame_body rfl hc.openRequest h
  | openResponse body => exact exactFrame_body rfl hc.openResponse h
  | requestChunk bytes => exact exactFrame_chunk rfl h
  | responseChunk bytes => exact exactFrame_chunk rfl h
  | requestEnd => exact ⟨_, rfl, exactFrame_opcode rfl⟩
  | responseEnd => exact ⟨_, rfl, exactFrame_opcode rfl⟩
  | error body => exact exactFrame_body rfl hc.streamingError h

end NerwRpc
