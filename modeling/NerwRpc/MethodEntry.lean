import NerwRpc.BytePipe
import NerwRpc.StreamingOpen

/-! # The method name a substream asks for

Before it consults the registry a substream task reads one method name, from a raw length prefix
on the unary path and from a postcard body on the streaming path.

* `handleInboundSubstream_eq`: `entry` is what is read, and `serve` is the rest of the task, in
  which the registry is consulted, at that name only.
* `decodeMethodName_grammar`: the reader of the unary path accepts exactly its grammar.
* `lookedUp_bounded_iff`: when the name is within `maxMethodNameLen`. -/

namespace NerwRpc

open ByteStream

section entry

variable [Deps]

/-! ### What is read before the registry is consulted -/

/-- What the bytes of a substream ask for: a method on one of the two paths, or none, with the
error that is written if there is one. -/
inductive Entry where
  | unary (methodName : String) (payload : Bytes)
  | streaming (openReq : StreamingOpenRequest)
  | refused (err : Option RpcError)
deriving DecidableEq, Repr

/-- The name that is passed to `lookup` or `lookup_streaming`. -/
def Entry.methodName : Entry → Option String
  | .unary methodName _ => some methodName
  | .streaming openReq => some openReq.methodName
  | .refused _ => none

/-- The entry of the frame behind a unary opcode. -/
def unaryEntry (tail : Bytes) : Entry :=
  match decodeMethodName tail with
  | .ok (methodName, payload) => .unary methodName payload
  | .error err => .refused (some err)

def entry : Task Entry := do
  match ← (readExact 1).attempt with
  | .error _ => return .refused none
  | .ok opcodeBuf =>
      let opcode := opcodeBuf.headD 0
      if opcode = opcodeStreamingOpenRequest then
        match ← (readStreamingFrameAfterOpcode opcodeStreamingOpenRequest).attempt with
        | .ok (.openRequest openReq) => return .streaming openReq
        | .ok _ => return .refused none
        | .error _ => return .refused none
      else if opcode ≠ opcodeUnaryRequest then
        return .refused (some (.malformedFrame
          ("expected unary-request (0x00) or streaming-open (0x10), got 0x" ++ hex02 opcode)))
      else match ← (readToEnd rpcStreamReadLimit).attempt with
        | .error _ => return .refused none
        | .ok tail => return unaryEntry tail

/-- What becomes of an entry. -/
def serve (c : Inbound) (registry : Registry) (send : SendStream) : Entry → SendStream
  | .refused none => send
  | .refused (some err) => (writeError send err).2
  | .unary methodName payload => respondUnary send (match registry.lookup methodName with
    | none => .error (.unknownMethod methodName)
    | some handler => handler (buildInboundContext c) payload)
  | .streaming openReq => match negotiated c registry send openReq with
    | (none, send) => send
    | (some (handler, ctx), send) => runStreamingHandler send (handler ctx)

theorem dispatchUnary_request (c : Inbound) (registry : Registry) (tail : Bytes) :
    dispatchUnary c registry (opcodeUnaryRequest :: tail) = match decodeMethodName tail with
      | .error e => .error e
      | .ok (methodName, payload) => match registry.lookup methodName with
        | none => .error (.unknownMethod methodName)
        | some handler => handler (buildInboundContext c) payload := by
  rw [dispatchUnary, if_neg (not_not_intro rfl)]
  cases hdec : decodeMethodName tail with
  | error e => rfl
  | ok p =>
      obtain ⟨methodName, payload⟩ := p
      obtain ⟨used, rfl, -, -⟩ := decodeMethodName_sound hdec
      have hbuf : opcodeUnaryRequest :: (used ++ (Utf8.bytes methodName ++ payload)) =
          opcodeUnaryRequest :: (used ++ Utf8.bytes methodName) ++ payload := by simp
      have hconsumed : (opcodeUnaryRequest :: (used ++ Utf8.bytes methodName) ++ payload).length -
          payload.length = (opcodeUnaryRequest :: (used ++ Utf8.bytes methodName)).length := by
        rw [List.length_append]
        omega
      show (match registry.lookup methodName with
        | none => Except.error (RpcError.unknownMethod methodName)
        | some handler => handler (buildInboundContext c) (List.drop _ _)) = _
      rw [hbuf, hconsumed, List.drop_left]

theorem respondUnary_eq (c : Inbound) (registry : Registry) (send : SendStream) (tail : Bytes) :
    respondUnary send (dispatchUnary c registry (opcodeUnaryRequest :: tail)) =
      serve c registry send (unaryEntry tail) := by
  rw [dispatchUnary_request, unaryEntry]
  cases decodeMethodName tail with
  | error e => rfl
  | ok p => rfl

theorem handleStreamingSubstream_entry (c : Inbound) (registry : Registry) (send : SendStream) :
    handleStreamingSubstream c registry send = do
      match ← (readStreamingFrameAfterOpcode opcodeStreamingOpenRequest).attempt with
      | .ok (.openRequest openReq) => return serve c registry send (.streaming openReq)
      | .ok _ => return send
      | .error _ => return send := by
  rw [handleStreamingSubstream, streamingNegotiateOpen, ReadM.bind_assoc]
  congr 1
  funext r
  obtain e | (openReq | _ | _ | _ | _ | _ | _) := r
  · rfl
  · simp only [serve, negotiated, ack]
    cases registry.lookupStreaming openReq.methodName with
    | none =>
        dsimp only
        rcases writeOpenResponse send _ with ⟨_ | _, send'⟩ <;> rfl
    | some handler =>
        dsimp only
        rcases writeOpenResponse send _ with ⟨_ | _, send'⟩ <;> rfl
  all_goals rfl

/-- **The registry is consulted at the name of the entry only.** -/
theorem handleInboundSubstream_eq (c : Inbound) (registry : Registry) (send : SendStream) :
    handleInboundSubstream c registry send = do return serve c registry send (← entry) := by
  rw [handleInboundSubstream, entry, ReadM.bind_assoc]
  congr 1
  funext r
  cases r with
  | error e => rfl
  | ok opcodeBuf =>
      dsimp only
      split_ifs with hopen hunary
      · rw [handleStreamingSubstream_entry, ReadM.bind_assoc]
        congr 1
        funext r
        obtain e | (openReq | _ | _ | _ | _ | _ | _) := r <;> rfl
      · rfl
      · rw [handleUnaryStreamWithOpcodeConsumed, ReadM.bind_assoc]
        congr 1
        funext r
        cases r with
        | error e => rfl
        | ok tail => exact congrArg pure (respondUnary_eq c registry send tail)

/-! ### The reader of the entry

What a substream asks for does not depend on how its bytes were cut, and is not waited for behind
the end of the stream. -/

theorem regular_entry : Regular entry := by
  refine (regular_readExact 1).attempt.bind fun r => ?_
  cases r with
  | error e => exact regular_pure _
  | ok opcodeBuf =>
      dsimp only
      split_ifs
      · refine (regular_readStreamingFrameAfterOpcode _).attempt.bind fun r => ?_
        obtain e | (body | _ | _ | _ | _ | _ | _) := r <;> exact regular_pure _
      · exact regular_pure _
      · refine (regular_readToEnd _).attempt.bind fun r => ?_
        cases r <;> exact regular_pure _

omit [Deps] in
theorem settles_readVarintFrom : ∀ rounds shift result : ℕ,
    Settles (readVarintFrom rounds shift result)
  | 0, _, _ => settles_lift (.error _)
  | rounds + 1, shift, result => by
      refine ((settles_readExact 1).mapErr _).bind ((regular_readExact 1).mapErr _) fun _ =>
        (settles_lift _).bind (regular_lift _) fun _ =>
          (settles_lift _).bind (regular_lift _) fun result => ?_
      split
      · exact settles_pure result
      · exact settles_readVarintFrom rounds (shift + 1) result

theorem settles_readLengthPrefixed : Settles readLengthPrefixed := by
  refine (settles_readVarintFrom 10 0 0).bind (regular_readVarintFrom 10 0 0) fun len => ?_
  split_ifs
  · exact settles_lift (.error _)
  · exact settles_lift (.error _)
  · exact settles_pure []
  · exact (settles_readExact len).mapErr _

theorem settles_readStreamingFrameAfterOpcode (opcode : UInt8) :
    Settles (readStreamingFrameAfterOpcode opcode) := by
  obtain ⟨-, k, -, h⟩ | ⟨-, r, h, -⟩ := readStreamingFrameAfterOpcode_cases opcode
  · rw [h]
    exact settles_readLengthPrefixed.bind regular_readLengthPrefixed fun bytes => settles_lift _
  · rw [h]
    exact settles_lift r

theorem settles_entry : Settles entry := by
  refine (settles_readExact 1).attempt.bind (regular_readExact 1).attempt fun r => ?_
  cases r with
  | error e => exact settles_pure _
  | ok opcodeBuf =>
      dsimp only
      split_ifs
      · refine (settles_readStreamingFrameAfterOpcode _).attempt.bind
          (regular_readStreamingFrameAfterOpcode _).attempt fun r => ?_
        obtain e | (body | _ | _ | _ | _ | _ | _) := r
        all_goals exact settles_pure _
      · exact settles_pure _
      · refine (settles_readToEnd _).attempt.bind (regular_readToEnd _).attempt fun r => ?_
        cases r <;> exact settles_pure _

/-! ### The unary path -/

/-- **The reader of a method name accepts exactly its grammar**: an accepted length within the
limit, that many bytes of UTF-8, and the payload.  Anything else is a malformed frame; no slice
is out of bounds. -/
theorem decodeMethodName_grammar (input : Bytes) :
    (∀ name rest, decodeMethodNameSlices input = some (.ok (name, rest)) ↔
      ∃ used, input = used ++ Utf8.bytes name ++ rest ∧
        leb128.read used = .ok ((Utf8.bytes name).length, []) ∧
        (Utf8.bytes name).length ≤ maxMethodNameLen) ∧
    ((∀ name rest, decodeMethodNameSlices input ≠ some (.ok (name, rest))) →
      ∃ reason, decodeMethodNameSlices input = some (.error (.malformedFrame reason))) ∧
    (∀ name rest, decodeMethodNameSlices input = some (.ok (name, rest)) →
      input.drop (input.length - rest.length) = rest ∧
      ∀ c registry, dispatchUnary c registry (opcodeUnaryRequest :: input) =
        match registry.lookup name with
        | none => .error (.unknownMethod name)
        | some handler => handler (buildInboundContext c) rest) ∧
    ∀ name payload, (Utf8.bytes name).length ≤ maxMethodNameLen →
      ∃ buf, encodeMethodName name [] = .ok buf ∧
        decodeMethodNameSlices (buf ++ payload) = some (.ok (name, payload)) := by
  simp only [decodeMethodNameSlices_eq, Option.some.injEq]
  refine ⟨?_, ?_, ?_, ?_⟩
  · intro name rest
    constructor
    · intro h
      obtain ⟨used, rfl, hused, hmax⟩ := decodeMethodName_sound h
      exact ⟨used, (List.append_assoc ..).symm, hused, hmax⟩
    · rintro ⟨used, rfl, hused, hmax⟩
      rw [List.append_assoc]
      exact decodeMethodName_complete hused hmax
  · intro h
    cases hdec : decodeMethodName input with
    | ok p => exact absurd (congrArg some hdec) (h p.1 p.2)
    | error e =>
        obtain ⟨reason, rfl⟩ := decodeMethodName_error hdec
        exact ⟨reason, rfl⟩
  · intro name rest h
    constructor
    · obtain ⟨used, rfl, -, -⟩ := decodeMethodName_sound h
      have hlen : (used ++ Utf8.bytes name ++ rest).length - rest.length =
          (used ++ Utf8.bytes name).length := by
        rw [List.length_append]
        omega
      rw [← List.append_assoc, hlen, List.drop_left]
    · intro c registry
      rw [dispatchUnary_request, h]
  · intro name payload hmax
    have hlt := lt_of_le_usizeMax (hmax.trans maxMethodNameLen_le_usizeMax)
    refine ⟨_, encodeMethodName_ok hlt [], ?_⟩
    rw [List.nil_append, List.append_assoc]
    exact decodeMethodName_encode hmax payload

/-! ### The bound on both paths -/

/-- These bytes make the substream task look up this name. -/
def LooksUp (bs : Bytes) (t : StreamEnd) (name : String) : Prop :=
  ∃ e recv', entry ⟨bs, t⟩ = .ready (.ok (e, recv')) ∧ e.methodName = some name

/-- On the streaming path nothing but the open request itself bounds the name. -/
theorem looksUp_streaming_iff {behind : Bytes} {t : StreamEnd} {name : String} :
    LooksUp (opcodeStreamingOpenRequest :: behind) t name ↔
      ∃ openReq, OpensWith behind openReq ∧ openReq.methodName = name := by
  have hentry : entry ⟨opcodeStreamingOpenRequest :: behind, t⟩ =
      ((readStreamingFrameAfterOpcode opcodeStreamingOpenRequest).attempt >>= fun r =>
        (match r with
          | .ok (.openRequest openReq) => pure (.streaming openReq)
          | .ok _ => pure (.refused none)
          | .error _ => pure (.refused none) : Task Entry)) ⟨behind, t⟩ := by
    rw [entry, ReadM.bind_ok _ (ReadM.attempt_ok (readExact_one _ behind t))]
    rfl
  unfold LooksUp
  rw [hentry]
  constructor
  · rintro ⟨e, recv', hrun, hname⟩
    cases hread : readStreamingFrameAfterOpcode opcodeStreamingOpenRequest ⟨behind, t⟩ with
    | pending =>
        rw [ReadM.bind_pending _ (ReadM.attempt_pending hread)] at hrun
        cases hrun
    | ready r =>
        obtain e | ⟨f, recv₁⟩ := r
        · rw [ReadM.bind_ok _ (ReadM.attempt_error hread)] at hrun
          cases hrun
          cases hname
        · rw [ReadM.bind_ok _ (ReadM.attempt_ok hread)] at hrun
          cases f with
          | openRequest openReq =>
              cases hrun
              exact ⟨openReq, readOpenRequest_ok_iff.mp ⟨recv', hread⟩, Option.some.inj hname⟩
          | _ =>
              cases hrun
              cases hname
  · rintro ⟨openReq, hopens, rfl⟩
    obtain ⟨recv', hread⟩ := hopens.read t
    exact ⟨.streaming openReq, recv', ReadM.bind_ok _ (ReadM.attempt_ok hread), rfl⟩

/-- On every other path the reader of the unary path bounds it. -/
theorem looksUp_bounded {opcode : UInt8} {behind : Bytes} {t : StreamEnd} {name : String}
    (hopcode : opcode ≠ opcodeStreamingOpenRequest) (h : LooksUp (opcode :: behind) t name) :
    (Utf8.bytes name).length ≤ maxMethodNameLen := by
  obtain ⟨e, recv', hrun, hname⟩ := h
  by_cases hunary : opcode = opcodeUnaryRequest
  · subst hunary
    have hentry : entry ⟨opcodeUnaryRequest :: behind, t⟩ =
        ((readToEnd rpcStreamReadLimit).attempt >>= fun r =>
          (match r with
            | .error _ => pure (.refused none)
            | .ok tail => pure (unaryEntry tail) : Task Entry)) ⟨behind, t⟩ := by
      rw [entry, ReadM.bind_ok _ (ReadM.attempt_ok (readExact_one _ behind t))]
      rfl
    rw [hentry] at hrun
    cases hread : readToEnd rpcStreamReadLimit ⟨behind, t⟩ with
    | pending =>
        rw [ReadM.bind_pending _ (ReadM.attempt_pending hread)] at hrun
        cases hrun
    | ready r =>
        obtain e | ⟨tail, recv₁⟩ := r
        · rw [ReadM.bind_ok _ (ReadM.attempt_error hread)] at hrun
          cases hrun
          cases hname
        · rw [ReadM.bind_ok _ (ReadM.attempt_ok hread)] at hrun
          cases hrun
          unfold unaryEntry at hname
          split at hname
          · rename_i methodName payload hdec
            obtain rfl : methodName = name := Option.some.inj hname
            obtain ⟨-, -, -, hmax⟩ := decodeMethodName_sound hdec
            exact hmax
          · cases hname
  · have hentry : ∃ err, entry ⟨opcode :: behind, t⟩ =
        .ready (.ok (.refused (some err), ⟨behind, t⟩)) := by
      rw [entry, ReadM.bind_ok _ (ReadM.attempt_ok (readExact_one _ behind t))]
      exact ⟨_, (congrFun (if_neg hopcode) _).trans (congrFun (if_pos hunary) _)⟩
    obtain ⟨err, hentry⟩ := hentry
    rw [hentry] at hrun
    cases hrun
    cases hname

/-- The bytes are not a streaming open request with a name beyond the limit. -/
def StreamingNameFits (bs : Bytes) : Prop :=
  ∀ behind openReq, bs = opcodeStreamingOpenRequest :: behind → OpensWith behind openReq →
    (Utf8.bytes openReq.methodName).length ≤ maxMethodNameLen

/-- **When the name that is looked up is within the limit**: always, unless a streaming open
request carries a longer one. -/
theorem lookedUp_bounded_iff :
    (∀ (c : Inbound) (registry : Registry) (send : SendStream),
      handleInboundSubstream c registry send = do return serve c registry send (← entry)) ∧
    ∀ (bs : Bytes) (t : StreamEnd),
      (∀ name, LooksUp bs t name → (Utf8.bytes name).length ≤ maxMethodNameLen) ↔
        StreamingNameFits bs := by
  refine ⟨handleInboundSubstream_eq, fun bs t => ⟨?_, ?_⟩⟩
  · rintro h behind openReq rfl hopens
    exact h _ (looksUp_streaming_iff.mpr ⟨openReq, hopens, rfl⟩)
  · intro h name hlooks
    cases bs with
    | nil =>
        obtain ⟨e, recv', hrun, hname⟩ := hlooks
        cases t with
        | live => cases hrun
        | finished =>
            cases hrun
            cases hname
        | broken err =>
            cases hrun
            cases hname
    | cons opcode behind =>
        by_cases hopcode : opcode = opcodeStreamingOpenRequest
        · subst hopcode
          obtain ⟨openReq, hopens, rfl⟩ := looksUp_streaming_iff.mp hlooks
          exact h behind openReq rfl hopens
        · exact looksUp_bounded hopcode hlooks

end entry

section reference

attribute [local instance] reference

/-- A name one byte longer than the limit. -/
def longName : String := String.ofList (List.replicate (maxMethodNameLen + 1) 'a')

theorem length_longName : (Utf8.bytes longName).length = 4097 := by
  rw [longName, Utf8.length_bytes_replicate]
  decide

/-- The body of an open request for a method. -/
def openBody (name : String) : Bytes := StreamingOpenRequest.postcard.encode ⟨name, 0⟩

theorem length_openBody {name : String} (h : (Utf8.bytes name).length = 4097) :
    (openBody name).length ≤ maxStreamingPayloadLen := by
  have hname := Leb128.encode_length_le 2 4097 (by decide) (by decide)
  have hid := Leb128.encode_length_le 1 0 (by decide) (by decide)
  have hbody : openBody name = Leb128.encode (Utf8.bytes name).length ++ Utf8.bytes name ++
      Leb128.encode 0 := rfl
  have hmax : maxStreamingPayloadLen = 8388608 := rfl
  rw [hbody, hmax, List.length_append, List.length_append, h]
  generalize (Leb128.encode 4097).length = a at *
  generalize (Leb128.encode 0).length = b at *
  omega

theorem looksUp_openBody {name : String} (h : (Utf8.bytes name).length = 4097) :
    LooksUp (opcodeStreamingOpenRequest ::
      (Leb128.encode (openBody name).length ++ openBody name)) .live name := by
  refine looksUp_streaming_iff.mpr ⟨⟨name, 0⟩, ?_, rfl⟩
  have hdec : openRequestCodec.fromBytes (openBody name) = .ok ⟨name, 0⟩ :=
    ofCodec_roundTrips StreamingOpenRequest.postcard _ _ rfl
  simpa using opensWith_encoded [] hdec (length_openBody h)

/-- An open request with a name of 4097 bytes: it is looked up. -/
theorem lookedUp_unbounded :
    LooksUp (opcodeStreamingOpenRequest ::
      (Leb128.encode (openBody longName).length ++ openBody longName)) .live longName ∧
    ¬ ∀ (bs : Bytes) (t : StreamEnd) (name : String), LooksUp bs t name →
      (Utf8.bytes name).length ≤ maxMethodNameLen := by
  have hlooks := looksUp_openBody length_longName
  refine ⟨hlooks, fun h => ?_⟩
  have hmax := h _ _ _ hlooks
  rw [length_longName] at hmax
  exact absurd hmax (by decide)

end reference

end NerwRpc
