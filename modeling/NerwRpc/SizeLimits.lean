import NerwRpc.UnaryCall

/-! # Size limits on the two sides of the wire

The readers turn down streaming bodies of more than 8 MiB and method names of more than 4 KiB; the
writers know neither limit.  And the one limit of 8 MiB is applied to the bare body of a chunk, to
the whole response with its opcode, and to the request without its opcode but with its method
name.

* `oversize_refused_iff`: what a writer hands over is turned down for its length exactly when it is
  over the limit of the reader.
* `oneLimit_iff`: a payload is accepted on all carriers or on none exactly when it leaves room for
  the longest method name or exceeds every limit. -/

namespace NerwRpc

open ByteStream

theorem append_ne_append {p q : String} {c d : Char} {cs ds : List Char}
    (hp : p.toList = c :: cs) (hq : q.toList = d :: ds) (hne : c ≠ d) (s t : String) :
    p ++ s ≠ q ++ t := by
  intro h
  have hlist := congrArg String.toList h
  rw [String.toList_append, String.toList_append, hp, hq] at hlist
  exact hne (List.cons.inj hlist).1

/-- The errors with which `read_length_prefixed` turns down a declared length. -/
def PayloadLengthRejected (len : ℕ) (e : RpcError) : Prop :=
  e = .malformedFrame ("streaming payload length overflow: " ++ tryFromIntError) ∨
    e = .malformedFrame ("streaming payload length " ++ toString len ++ " exceeds maximum " ++
      toString maxStreamingPayloadLen)

/-- The errors with which `decode_method_name` does. -/
def NameLengthRejected (len : ℕ) (e : RpcError) : Prop :=
  e = .malformedFrame ("name-length overflow: " ++ tryFromIntError) ∨
    e = .malformedFrame ("method-name length " ++ toString len ++ " exceeds maximum " ++
      toString maxMethodNameLen) ∨
    e = .malformedFrame "method-name length exceeds buffer"

theorem not_payloadLengthRejected_opcode (opcode : UInt8) (len : ℕ) :
    ¬ PayloadLengthRejected len
      (.malformedFrame ("unexpected streaming opcode 0x" ++ hex02 opcode)) := by
  have hne : ∀ s, "unexpected streaming opcode 0x" ++ hex02 opcode ≠
      "streaming payload length" ++ s :=
    append_ne_append (c := 'u') (d := 's') rfl rfl (by decide) _
  have hover : "streaming payload length overflow: " ++ tryFromIntError =
      "streaming payload length" ++ (" overflow: " ++ tryFromIntError) := rfl
  have hmax : "streaming payload length " ++ toString len ++ " exceeds maximum " ++
      toString maxStreamingPayloadLen = "streaming payload length" ++ (" " ++ toString len ++
        " exceeds maximum " ++ toString maxStreamingPayloadLen) := by
    have hsplit : "streaming payload length " = "streaming payload length" ++ " " := rfl
    rw [hsplit]
    simp only [String.append_assoc]
  rintro (h | h)
  · rw [hover] at h
    exact hne _ (RpcError.malformedFrame.inj h)
  · rw [hmax] at h
    exact hne _ (RpcError.malformedFrame.inj h)

section frames

variable [Deps]

/-! ### Streaming frames -/

theorem readLengthPrefixed_fits {body : Bytes} (h : body.length ≤ maxStreamingPayloadLen)
    (rest : Bytes) (t : StreamEnd) :
    readLengthPrefixed ⟨Leb128.encode body.length ++ (body ++ rest), t⟩ =
      .ready (.ok (body, ⟨rest, t⟩)) := by
  rw [← List.append_assoc]
  exact (exact_readLengthPrefixed h).reads rest t

theorem readLengthPrefixed_rejects {n : ℕ} (hn : n < 2 ^ 64) (h : maxStreamingPayloadLen < n)
    (rest : Bytes) (t : StreamEnd) :
    ∃ e, PayloadLengthRejected n e ∧
      readLengthPrefixed ⟨Leb128.encode n ++ rest, t⟩ = .ready (.error e) := by
  rw [readLengthPrefixed, ReadM.bind_ok _ ((exact_readVarintU64 hn).reads rest t)]
  by_cases husize : usizeMax < n
  · exact ⟨_, .inl rfl, by rw [if_pos husize]; rfl⟩
  · exact ⟨_, .inr rfl, by rw [if_neg husize, if_pos h]; rfl⟩

theorem readFrameBehind_no_length {opcode : UInt8} (hop : opcode ∉ bodyOpcodes) {n : ℕ}
    {recv : RecvStream} {e : RpcError} (h : readFrameBehind [opcode] recv = .ready (.error e)) :
    ¬ PayloadLengthRejected n e := by
  obtain hframe | ⟨_, _, -, hpure⟩ := ReadM.bind_error_inv h
  · rw [List.headD_cons] at hframe
    obtain ⟨hop', -⟩ | ⟨-, r, heq, hr⟩ := readStreamingFrameAfterOpcode_cases opcode
    · exact absurd hop' hop
    · rw [heq] at hframe
      rw [hr e (ReadM.lift_error_inv hframe)]
      exact not_payloadLengthRejected_opcode opcode n
  · cases hpure

/-- A length within the limit is not what a frame is turned down for. -/
theorem readFrameBehind_fits {opcode : UInt8} {body : Bytes}
    (hle : body.length ≤ maxStreamingPayloadLen) {rest : Bytes} {t : StreamEnd} {e : RpcError}
    (h : readFrameBehind [opcode] ⟨Leb128.encode body.length ++ (body ++ rest), t⟩ =
      .ready (.error e)) : ¬ PayloadLengthRejected body.length e := by
  intro hrejected
  obtain hframe | ⟨_, _, -, hpure⟩ := ReadM.bind_error_inv h
  · rw [List.headD_cons] at hframe
    obtain ⟨-, k, hk, heq⟩ | ⟨hop, -⟩ := readStreamingFrameAfterOpcode_cases opcode
    · rw [heq] at hframe
      obtain hbody | ⟨body', recv, hbody, hrest⟩ := ReadM.bind_error_inv hframe
      · rw [readLengthPrefixed_fits hle] at hbody
        cases hbody
      · rw [readLengthPrefixed_fits hle] at hbody
        cases hbody
        obtain ⟨reason, rfl⟩ := hk body e (ReadM.lift_error_inv hrest)
        obtain h | h := hrejected <;> cases h
    · exact readFrameBehind_no_length hop h hrejected
  · cases hpure

theorem readFrameBehind_rejects {opcode : UInt8} (hop : opcode ∈ bodyOpcodes) {n : ℕ}
    (hn : n < 2 ^ 64) (hlt : maxStreamingPayloadLen < n) (rest : Bytes) (t : StreamEnd) :
    ∃ e, readFrameBehind [opcode] ⟨Leb128.encode n ++ rest, t⟩ = .ready (.error e) ∧
      PayloadLengthRejected n e := by
  obtain ⟨e, he, hread⟩ := readLengthPrefixed_rejects hn hlt rest t
  refine ⟨e, ?_, he⟩
  obtain ⟨-, k, -, heq⟩ | ⟨hop', -⟩ := readStreamingFrameAfterOpcode_cases opcode
  · rw [readFrameBehind, List.headD_cons, heq]
    exact ReadM.bind_error _ (ReadM.bind_error _ hread)
  · exact absurd hop hop'

/-- **The reader turns a frame down for its length exactly when its body is over the limit.** -/
theorem readStreamingFrame_rejects_iff {opcode : UInt8} {body buf : Bytes}
    (h : lengthPrefixed opcode body = .ok buf) (rest : Bytes) (t : StreamEnd) :
    (∃ e, readStreamingFrame ⟨buf ++ rest, t⟩ = .ready (.error e) ∧
      PayloadLengthRejected body.length e) ↔
    opcode ∈ bodyOpcodes ∧ maxStreamingPayloadLen < body.length := by
  have hlen : body.length < 2 ^ 64 := by
    by_contra hlen
    rw [lengthPrefixed, if_neg hlen] at h
    cases h
  rw [lengthPrefixed_ok hlen] at h
  cases h
  rw [List.cons_append, List.append_assoc, readStreamingFrame_cons]
  constructor
  · rintro ⟨e, hread, hrejected⟩
    constructor
    · by_contra hop
      exact readFrameBehind_no_length hop hread hrejected
    · by_contra hle
      exact readFrameBehind_fits (Nat.not_lt.mp hle) hread hrejected
  · rintro ⟨hop, hlt⟩
    exact readFrameBehind_rejects hop hlen hlt _ t

/-- What `write_length_prefixed` has reported as written is not turned down for its length. -/
def DeliversLength (send : SendStream) (opcode : UInt8) (body : Bytes) : Prop :=
  ∀ send', writeLengthPrefixed send opcode body = (.ok (), send') →
    ∃ buf, send'.log = send.log ++ [⟨buf, buf.length, true⟩] ∧
      ∀ rest t e, readStreamingFrame ⟨buf ++ rest, t⟩ = .ready (.error e) →
        ¬ PayloadLengthRejected body.length e

theorem writeLengthPrefixed_ok {send : SendStream} {opcode : UInt8} {body buf : Bytes}
    (hsend : ¬ send.Failing) (hbuf : lengthPrefixed opcode body = .ok buf) :
    ∃ send', writeLengthPrefixed send opcode body = (.ok (), send') ∧
      send'.log = send.log ++ [⟨buf, buf.length, true⟩] := by
  obtain ⟨send', hw, hlog⟩ := SendStream.writeAll_of_not_failing hsend buf
  refine ⟨send', ?_, hlog⟩
  simp only [writeLengthPrefixed, hbuf, writeBuf, hw]

theorem writeLengthPrefixed_fails {send : SendStream} {opcode : UInt8} {body : Bytes}
    (h : send.Failing ∨ 2 ^ 64 ≤ body.length) (send' : SendStream) :
    writeLengthPrefixed send opcode body ≠ (.ok (), send') := by
  intro hw
  obtain hlen | hlen := Nat.lt_or_ge body.length (2 ^ 64)
  · have hsend := h.resolve_right (Nat.not_le.mpr hlen)
    obtain ⟨e, send'', hfails⟩ := SendStream.writeAll_of_failing hsend
      (opcode :: (Leb128.encode body.length ++ body))
    simp only [writeLengthPrefixed, lengthPrefixed_ok hlen, writeBuf, hfails] at hw
    cases hw
  · rw [writeLengthPrefixed, lengthPrefixed, if_neg (Nat.not_lt.mpr hlen)] at hw
    cases hw

theorem deliversLength_iff (send : SendStream) (opcode : UInt8) (body : Bytes) :
    DeliversLength send opcode body ↔ send.Failing ∨ 2 ^ 64 ≤ body.length ∨
      opcode ∉ bodyOpcodes ∨ body.length ≤ maxStreamingPayloadLen := by
  by_cases hfails : send.Failing ∨ 2 ^ 64 ≤ body.length
  · rw [← or_assoc, or_iff_left_of_imp fun _ => hfails]
    exact ⟨fun _ => hfails, fun _ send' hw => absurd hw (writeLengthPrefixed_fails hfails send')⟩
  · rw [← or_assoc, or_iff_right hfails]
    simp only [not_or, Nat.not_le] at hfails
    have hbuf := lengthPrefixed_ok hfails.2 opcode
    obtain ⟨send', hw, hlog⟩ := writeLengthPrefixed_ok hfails.1 hbuf
    constructor
    · intro h
      obtain ⟨buf', hlog', hread⟩ := h send' hw
      obtain rfl : opcode :: (Leb128.encode body.length ++ body) = buf' := by
        rw [hlog, List.append_cancel_left_eq] at hlog'
        exact congrArg WriteAttempt.buf (List.cons.inj hlog').1
      by_contra hcon
      simp only [not_or, not_not, not_le] at hcon
      obtain ⟨e, he, hrejected⟩ := (readStreamingFrame_rejects_iff hbuf [] .finished).mpr hcon
      exact hread [] .finished e he hrejected
    · intro h send₁ hw₁
      obtain rfl : send' = send₁ := congrArg Prod.snd (hw.symm.trans hw₁)
      refine ⟨_, hlog, ?_⟩
      intro rest t e hread hrejected
      obtain ⟨hop, hlt⟩ := (readStreamingFrame_rejects_iff hbuf rest t).mp ⟨e, hread, hrejected⟩
      obtain h | h := h
      · exact h hop
      · omega

/-! ### Method names -/

/-- The bytes behind the opcode are not turned down for the length of the name. -/
def NameAccepted (name : String) (input : Bytes) : Prop :=
  ∀ e, decodeMethodName input = .error e → ¬ NameLengthRejected (Utf8.bytes name).length e

theorem nameAccepted_encode_iff {name : String} (hlen : (Utf8.bytes name).length < 2 ^ 64)
    (rest : Bytes) :
    NameAccepted name (Leb128.encode (Utf8.bytes name).length ++ (Utf8.bytes name ++ rest)) ↔
      (Utf8.bytes name).length ≤ maxMethodNameLen := by
  unfold NameAccepted
  obtain hlt | hle := Nat.lt_or_ge maxMethodNameLen (Utf8.bytes name).length
  · have hrejects : ∃ e, decodeMethodName (Leb128.encode (Utf8.bytes name).length ++
        (Utf8.bytes name ++ rest)) = .error e ∧
        NameLengthRejected (Utf8.bytes name).length e := by
      rw [decodeMethodName, leb128_read_encode hlen]
      dsimp only
      by_cases husize : usizeMax < (Utf8.bytes name).length
      · exact ⟨_, by rw [if_pos husize], .inl rfl⟩
      · exact ⟨_, by rw [if_neg husize, if_pos hlt], .inr (.inl rfl)⟩
    obtain ⟨e, hread, he⟩ := hrejects
    constructor
    · intro h
      exact absurd he (h e hread)
    · intro hle
      omega
  · rw [decodeMethodName_encode hle]
    simp [hle]

theorem encodeMethodName_error {name : String} (hlen : 2 ^ 64 ≤ (Utf8.bytes name).length)
    (buf : Bytes) : encodeMethodName name buf =
      .error (.malformedFrame ("method-name length overflow: " ++ tryFromIntError)) := by
  have hlen' : ¬ (Utf8.bytes name).length < 2 ^ 64 := Nat.not_lt.mpr hlen
  simp only [encodeMethodName, if_neg hlen']

theorem encodeMethodName_accepted_iff (name : String) (buf : Bytes) :
    (∀ appended, encodeMethodName name buf = .ok (buf ++ appended) →
      ∀ rest, NameAccepted name (appended ++ rest)) ↔
    2 ^ 64 ≤ (Utf8.bytes name).length ∨ (Utf8.bytes name).length ≤ maxMethodNameLen := by
  obtain hlen | hlen := Nat.lt_or_ge (Utf8.bytes name).length (2 ^ 64)
  · have happended : ∀ appended, encodeMethodName name buf = .ok (buf ++ appended) ↔
        Leb128.encode (Utf8.bytes name).length ++ Utf8.bytes name = appended := by
      intro appended
      rw [encodeMethodName_ok hlen, Except.ok.injEq, List.append_assoc, List.append_cancel_left_eq]
    simp only [happended, forall_eq', List.append_assoc, nameAccepted_encode_iff hlen,
      forall_const]
    omega
  · exact ⟨fun _ => .inl hlen, by simp [encodeMethodName_error hlen]⟩

theorem buildUnaryRequestFrame_accepted_iff (name : String) (request : Bytes) :
    (∀ frame, buildUnaryRequestFrame name request = .ok frame → NameAccepted name frame.tail) ↔
    2 ^ 64 ≤ (Utf8.bytes name).length ∨ (Utf8.bytes name).length ≤ maxMethodNameLen := by
  obtain hlen | hlen := Nat.lt_or_ge (Utf8.bytes name).length (2 ^ 64)
  · simp only [buildUnaryRequestFrame_ok hlen, Except.ok.injEq, forall_eq', List.tail_cons,
      nameAccepted_encode_iff hlen]
    omega
  · have hfails : ∀ frame, buildUnaryRequestFrame name request ≠ .ok frame := by
      intro frame
      rw [buildUnaryRequestFrame, encodeMethodName_error hlen]
      simp [bind, Except.bind]
    exact ⟨fun _ => .inl hlen, by simp [hfails]⟩

/-- **A writer that reports success is not turned down for a length exactly up to the limit of the
reader.** -/
theorem oversize_refused_iff :
    (∀ (send : SendStream) (opcode : UInt8) (body : Bytes), DeliversLength send opcode body ↔
      send.Failing ∨ 2 ^ 64 ≤ body.length ∨ opcode ∉ bodyOpcodes ∨
        body.length ≤ maxStreamingPayloadLen) ∧
    (∀ (name : String) (buf : Bytes),
      (∀ appended, encodeMethodName name buf = .ok (buf ++ appended) →
        ∀ rest, NameAccepted name (appended ++ rest)) ↔
      2 ^ 64 ≤ (Utf8.bytes name).length ∨ (Utf8.bytes name).length ≤ maxMethodNameLen) ∧
    ∀ (name : String) (request : Bytes),
      (∀ frame, buildUnaryRequestFrame name request = .ok frame →
        NameAccepted name frame.tail) ↔
      2 ^ 64 ≤ (Utf8.bytes name).length ∨ (Utf8.bytes name).length ≤ maxMethodNameLen :=
  ⟨deliversLength_iff, encodeMethodName_accepted_iff, buildUnaryRequestFrame_accepted_iff⟩

end frames

/-- A chunk of one byte too much on a fresh stream, and a name of one byte too much. -/
theorem oversize_sent :
    letI := reference
    ¬ DeliversLength (.fresh none) opcodeStreamingRequestChunk
        (List.replicate (maxStreamingPayloadLen + 1) 0) ∧
      ¬ ∀ (name : String) (request frame : Bytes), buildUnaryRequestFrame name request = .ok frame →
        NameAccepted name frame.tail := by
  let _ := reference
  constructor
  · rw [deliversLength_iff, List.length_replicate]
    rintro (⟨k, e, h⟩ | h | h | h)
    · cases h
    · exact absurd h (by decide)
    · exact h (by decide)
    · omega
  · intro h
    have hlen : (Utf8.bytes (String.ofList (List.replicate (maxMethodNameLen + 1) 'a'))).length =
        maxMethodNameLen + 1 := by
      rw [Utf8.length_bytes_replicate]
      rfl
    have hor := (buildUnaryRequestFrame_accepted_iff _ []).mp fun frame =>
      h (String.ofList (List.replicate (maxMethodNameLen + 1) 'a')) [] frame
    rw [hlen] at hor
    exact absurd hor (by decide)

/-! ### One limit for all carriers -/

/-- The request frame that the server dispatches of what has arrived on a substream: the opcode
and what `read_to_end` returns. -/
def receivedRequest (frame : Bytes) : Option Bytes :=
  match frame with
  | [] => none
  | opcode :: tail =>
      if opcode = opcodeUnaryRequest then
        match readToEnd rpcStreamReadLimit ⟨tail, .finished⟩ with
        | .ready (.ok (tail, _)) => some (opcode :: tail)
        | _ => none
      else none

/-- The response frame that the client decodes. -/
def receivedResponse (frame : Bytes) : Option Bytes :=
  match readToEnd rpcResponseReadLimit ⟨frame, .finished⟩ with
  | .ready (.ok (buf, _)) => some buf
  | _ => none

theorem receivedRequest_eq (tail : Bytes) : receivedRequest (opcodeUnaryRequest :: tail) =
    if tail.length ≤ rpcStreamReadLimit then some (opcodeUnaryRequest :: tail) else none := by
  rw [receivedRequest, if_pos rfl]
  by_cases h : tail.length ≤ rpcStreamReadLimit
  · rw [readToEnd_finished h, if_pos h]
  · rw [readToEnd, if_pos (Nat.not_le.mp h), if_neg h]

theorem receivedResponse_eq (frame : Bytes) : receivedResponse frame =
    if frame.length ≤ rpcResponseReadLimit then some frame else none := by
  rw [receivedResponse]
  by_cases h : frame.length ≤ rpcResponseReadLimit
  · rw [readToEnd_finished h, if_pos h]
  · rw [readToEnd, if_pos (Nat.not_le.mp h), if_neg h]

/-- The bytes of a request without its opcode. -/
def requestOverhead (methodName : String) : ℕ :=
  (Leb128.encode (Utf8.bytes methodName).length).length + (Utf8.bytes methodName).length

theorem requestOverhead_le {methodName : String}
    (h : (Utf8.bytes methodName).length ≤ maxMethodNameLen) :
    requestOverhead methodName ≤ 4098 := by
  have hprefix := Leb128.encode_length_le 2 (Utf8.bytes methodName).length
    (lt_of_le_of_lt h (by decide)) (by decide)
  unfold requestOverhead
  unfold maxMethodNameLen at h
  omega

theorem exists_requestOverhead_eq :
    ∃ methodName, (Utf8.bytes methodName).length ≤ maxMethodNameLen ∧
      requestOverhead methodName = 4098 := by
  have hlen : (Utf8.bytes (String.ofList (List.replicate maxMethodNameLen 'a'))).length =
      maxMethodNameLen := by
    rw [Utf8.length_bytes_replicate]
    rfl
  refine ⟨_, hlen.le, ?_⟩
  rw [requestOverhead, hlen]
  decide

/-- A unary frame is received by the server exactly if it is received by the client. -/
def FramesAgree (tail : Bytes) : Prop :=
  receivedRequest (opcodeUnaryRequest :: tail) = none ↔
    receivedResponse (opcodeUnaryResponse :: tail) = none

theorem framesAgree_iff (tail : Bytes) :
    FramesAgree tail ↔ tail.length + 1 ≠ maxStreamingPayloadLen + 1 := by
  have hresponse : rpcResponseReadLimit = maxStreamingPayloadLen := rfl
  have hstream : rpcStreamReadLimit = maxStreamingPayloadLen := rfl
  have hnone : ∀ (P : Prop) [Decidable P] (b : Bytes),
      (if P then some b else none) = none ↔ ¬ P := by
    intro P _ b
    split <;> simp [*]
  unfold FramesAgree
  rw [receivedRequest_eq, receivedResponse_eq, hnone, hnone, List.length_cons]
  omega

section carriers

variable [Deps]

/-- What carries a payload. -/
inductive Carrier where
  | requestChunk
  | responseChunk
  | unaryResponse
  | unaryRequest (methodName : String)
      (h : (Utf8.bytes methodName).length ≤ maxMethodNameLen)

/-- The receiving side accepts the payload on this carrier. -/
def Carrier.Accepts (payload : Bytes) : Carrier → Prop
  | requestChunk => ∃ buf, frameBytes (.requestChunk payload) = .ok buf ∧
      feed readStreamingFrame .live buf [] = .ready (.ok (some (.requestChunk payload)))
  | responseChunk => ∃ buf, frameBytes (.responseChunk payload) = .ok buf ∧
      feed readStreamingFrame .live buf [] = .ready (.ok (some (.responseChunk payload)))
  | unaryResponse => ∃ buf, receivedResponse (opcodeUnaryResponse :: payload) = some buf ∧
      decodeResponseFrame buf = .ok payload
  | unaryRequest methodName _ => ∃ frame buf, buildUnaryRequestFrame methodName payload = .ok frame ∧
      receivedRequest frame = some buf ∧ decodeMethodName buf.tail = .ok (methodName, payload)

theorem chunkAccepted_iff {opcode : UInt8} {f : Bytes → StreamingFrame}
    (hop : opcode ∈ bodyOpcodes)
    (hread : readStreamingFrameAfterOpcode opcode = do return f (← readLengthPrefixed))
    (payload : Bytes) :
    (∃ buf, lengthPrefixed opcode payload = .ok buf ∧
      feed readStreamingFrame .live buf [] = .ready (.ok (some (f payload)))) ↔
    payload.length ≤ maxStreamingPayloadLen := by
  constructor
  · rintro ⟨buf, hbuf, hfeed⟩
    by_contra hlt
    obtain ⟨e, he, -⟩ := (readStreamingFrame_rejects_iff hbuf [] .live).mpr ⟨hop, by omega⟩
    rw [List.append_nil] at he
    rw [feed, he] at hfeed
    cases hfeed
  · intro hle
    obtain ⟨buf, hbuf, hexact⟩ := exactFrame_chunk hread hle
    refine ⟨buf, hbuf, ?_⟩
    have hreads := hexact.reads [] .live
    rw [List.append_nil] at hreads
    rw [feed, hreads]
    rfl

theorem accepts_requestChunk_iff (payload : Bytes) :
    Carrier.requestChunk.Accepts payload ↔ payload.length ≤ maxStreamingPayloadLen :=
  chunkAccepted_iff (show opcodeStreamingRequestChunk ∈ bodyOpcodes by decide) rfl payload

theorem accepts_responseChunk_iff (payload : Bytes) :
    Carrier.responseChunk.Accepts payload ↔ payload.length ≤ maxStreamingPayloadLen :=
  chunkAccepted_iff (show opcodeStreamingResponseChunk ∈ bodyOpcodes by decide) rfl payload

theorem accepts_unaryResponse_iff (payload : Bytes) :
    Carrier.unaryResponse.Accepts payload ↔ payload.length + 1 ≤ rpcResponseReadLimit := by
  unfold Carrier.Accepts
  rw [receivedResponse_eq, List.length_cons]
  by_cases h : payload.length + 1 ≤ rpcResponseReadLimit
  · rw [if_pos h]
    exact ⟨fun _ => h, fun _ => ⟨_, rfl, rfl⟩⟩
  · rw [if_neg h]
    simp [h]

theorem accepts_unaryRequest_iff (payload : Bytes) {methodName : String}
    (h : (Utf8.bytes methodName).length ≤ maxMethodNameLen) :
    (Carrier.unaryRequest methodName h).Accepts payload ↔
      requestOverhead methodName + payload.length ≤ rpcStreamReadLimit := by
  have hlen := lt_of_le_usizeMax (h.trans maxMethodNameLen_le_usizeMax)
  have hframe := buildUnaryRequestFrame_ok hlen payload
  have hreceived := receivedRequest_eq (Leb128.encode (Utf8.bytes methodName).length ++
    (Utf8.bytes methodName ++ payload))
  rw [List.length_append, List.length_append, ← Nat.add_assoc] at hreceived
  change _ = if requestOverhead methodName + payload.length ≤ _ then _ else _ at hreceived
  constructor
  · rintro ⟨frame, buf, hf, hr, -⟩
    rw [hframe] at hf
    cases hf
    by_contra hlt
    rw [hreceived, if_neg hlt] at hr
    cases hr
  · intro hle
    exact ⟨_, _, hframe, hreceived.trans (if_pos hle), decodeMethodName_encode h payload⟩

/-- A payload is accepted on every carrier or on none. -/
def AllOrNone (payload : Bytes) : Prop :=
  (∀ carrier : Carrier, carrier.Accepts payload) ∨ ∀ carrier : Carrier, ¬ carrier.Accepts payload

theorem allOrNone_iff (payload : Bytes) : AllOrNone payload ↔
    payload.length + 4098 ≤ maxStreamingPayloadLen ∨ maxStreamingPayloadLen < payload.length := by
  unfold AllOrNone
  constructor
  · rintro (h | h)
    · obtain ⟨methodName, hname, hoverhead⟩ := exists_requestOverhead_eq
      have hrequest :=
        (accepts_unaryRequest_iff payload hname).mp (h (.unaryRequest methodName hname))
      rw [hoverhead] at hrequest
      have : rpcStreamReadLimit = maxStreamingPayloadLen := rfl
      omega
    · have hchunk := (accepts_requestChunk_iff payload).not.mp (h .requestChunk)
      omega
  · have hresponse : rpcResponseReadLimit = maxStreamingPayloadLen := rfl
    have hstream : rpcStreamReadLimit = maxStreamingPayloadLen := rfl
    rintro (h | h)
    · left
      intro carrier
      cases carrier with
      | requestChunk => exact (accepts_requestChunk_iff payload).mpr (by omega)
      | responseChunk => exact (accepts_responseChunk_iff payload).mpr (by omega)
      | unaryResponse => exact (accepts_unaryResponse_iff payload).mpr (by omega)
      | unaryRequest methodName hname =>
          have hoverhead := requestOverhead_le hname
          exact (accepts_unaryRequest_iff payload hname).mpr (by omega)
    · right
      intro carrier
      cases carrier with
      | requestChunk => exact (accepts_requestChunk_iff payload).not.mpr (by omega)
      | responseChunk => exact (accepts_responseChunk_iff payload).not.mpr (by omega)
      | unaryResponse => exact (accepts_unaryResponse_iff payload).not.mpr (by omega)
      | unaryRequest methodName hname =>
          exact (accepts_unaryRequest_iff payload hname).not.mpr (by omega)

/-- **When one limit holds for payloads and frames of `n` bytes**: they leave room for the longest
method name, or exceed every limit. -/
theorem oneLimit_iff (n : ℕ) :
    ((∀ payload : Bytes, payload.length = n → AllOrNone payload) ∧
      ∀ tail : Bytes, tail.length + 1 = n → FramesAgree tail) ↔
    n + 4098 ≤ maxStreamingPayloadLen ∨ maxStreamingPayloadLen + 1 < n := by
  constructor
  · rintro ⟨hpayload, hframe⟩
    have h := (allOrNone_iff _).mp (hpayload (List.replicate n 0) List.length_replicate)
    rw [List.length_replicate] at h
    by_contra hcon
    have hn : n = maxStreamingPayloadLen + 1 := by omega
    have hagree := hframe (List.replicate maxStreamingPayloadLen 0)
      (by rw [List.length_replicate, hn])
    exact (framesAgree_iff _).mp hagree (by rw [List.length_replicate])
  · intro h
    constructor
    · rintro payload rfl
      exact (allOrNone_iff payload).mpr (by omega)
    · rintro tail rfl
      exact (framesAgree_iff tail).mpr (by omega)

end carriers

/-- A payload of 8 MiB is accepted as a chunk and not as a response, and behind an opcode the
server receives it and the client does not. -/
theorem oneLimit_fails :
    letI := reference
    ¬ AllOrNone (List.replicate maxStreamingPayloadLen 0) ∧
      ¬ FramesAgree (List.replicate maxStreamingPayloadLen 0) := by
  let _ := reference
  rw [allOrNone_iff, framesAgree_iff, List.length_replicate]
  omega

end NerwRpc
