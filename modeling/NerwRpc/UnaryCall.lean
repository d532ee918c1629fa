import NerwRpc.Client
import NerwRpc.Reference

/-! # A unary call end to end

The client writes one request frame, the server reads it in whatever fragments it arrives,
looks the method up, invokes the handler and writes one response frame, and the client reads
that back in whatever fragments it arrives.  `unaryCall_eq_localCall` says that this is a
local lookup and invocation, with the error taken through its wire envelope. -/

namespace NerwRpc

open ByteStream

section call

variable [Deps]

/-- What a call is for: look the method up where it lives and invoke it there. -/
def localCall (c : Inbound) (registry : Registry) (methodName : String) (payload : Bytes) :
    RpcResult Bytes :=
  match registry.lookup methodName with
  | none => .error (.unknownMethod methodName)
  | some handler => match handler (buildInboundContext c) payload with
    | .ok r => .ok r
    | .error e => .error (WireError.fromRpcError e).intoRpcError

/-- The lookup and the invocation, without the wire. -/
def invoke (c : Inbound) (registry : Registry) (methodName : String) (payload : Bytes) :
    RpcResult Bytes :=
  match registry.lookup methodName with
  | none => .error (.unknownMethod methodName)
  | some handler => handler (buildInboundContext c) payload

/-- What the unary path relies on in postcard: the error envelope survives it, and
`UnknownMethod` takes its tag and a length-prefixed string. -/
structure EnvelopeCodec : Prop where
  roundTrips : wireErrorCodec.RoundTrips
  unknownMethod : ∀ name, (Utf8.bytes name).length ≤ maxMethodNameLen →
    wireErrorCodec.Fits ((Utf8.bytes name).length + 8) (.unknownMethod name)

/-- The framed response of a handler outcome is within the client's limit. -/
def ResponseFits : RpcResult Bytes → Prop
  | .ok r => r.length + 1 ≤ rpcResponseReadLimit
  | .error e => wireErrorCodec.Fits (rpcResponseReadLimit - 1) (.fromRpcError e)

/-- What the client makes of a result that the server has framed. -/
def observed : RpcResult Bytes → RpcResult Bytes
  | .ok r => .ok r
  | .error e => .error (WireError.fromRpcError e).intoRpcError

theorem dispatchUnary_frame {name : String} (h : (Utf8.bytes name).length ≤ maxMethodNameLen)
    (c : Inbound) (registry : Registry) (payload : Bytes) :
    dispatchUnary c registry (opcodeUnaryRequest ::
      (Leb128.encode (Utf8.bytes name).length ++ (Utf8.bytes name ++ payload))) =
      invoke c registry name payload := by
  have hpayload : (opcodeUnaryRequest :: (Leb128.encode (Utf8.bytes name).length ++
      (Utf8.bytes name ++ payload))).drop ((opcodeUnaryRequest ::
        (Leb128.encode (Utf8.bytes name).length ++ (Utf8.bytes name ++ payload))).length -
          payload.length) = payload := by
    have hsplit : opcodeUnaryRequest :: (Leb128.encode (Utf8.bytes name).length ++
        (Utf8.bytes name ++ payload)) =
        (opcodeUnaryRequest :: (Leb128.encode (Utf8.bytes name).length ++ Utf8.bytes name)) ++
          payload := by simp
    rw [hsplit, List.length_append, Nat.add_sub_cancel, List.drop_left]
  unfold invoke
  cases hl : registry.lookup name <;> simp only [dispatchUnary, ne_eq, not_true_eq_false, if_false,
    decodeMethodName_encode h, bind, Except.bind, hpayload, hl]

theorem observed_invoke (c : Inbound) (registry : Registry) (name : String) (payload : Bytes) :
    observed (invoke c registry name payload) = localCall c registry name payload := by
  rw [localCall, invoke]
  cases registry.lookup name with
  | none => rfl
  | some handler => cases handler (buildInboundContext c) payload <;> rfl

theorem handleInboundSubstream_unary (c : Inbound) (registry : Registry) (send : SendStream)
    (tail : Bytes) (t : StreamEnd) :
    handleInboundSubstream c registry send ⟨opcodeUnaryRequest :: tail, t⟩ =
      handleUnaryStreamWithOpcodeConsumed c registry send ⟨tail, t⟩ := by
  have hstreaming : ¬ [opcodeUnaryRequest].headD 0 = opcodeStreamingOpenRequest := by decide
  have hunary : ¬ [opcodeUnaryRequest].headD 0 ≠ opcodeUnaryRequest := by decide
  rw [handleInboundSubstream,
    ReadM.bind_ok _ (ReadM.attempt_ok (readExact_one opcodeUnaryRequest tail t))]
  simp only [if_neg hstreaming, if_neg hunary]

theorem sendRequest_fresh {name : String} {payload frame : Bytes}
    (h : buildUnaryRequestFrame name payload = .ok frame) :
    ∃ sent, sendRequest (SendStream.fresh none) name payload = (.ok (), sent) ∧
      sent.finished = true ∧ sent.wire = frame := by
  rw [sendRequest, h]
  exact ⟨_, rfl, rfl, by simp [SendStream.fresh, SendStream.wire]⟩

theorem feed_handleInbound_unary (c : Inbound) (registry : Registry) (send : SendStream)
    {tail : Bytes} (hlen : tail.length ≤ rpcStreamReadLimit) {frags : List Bytes}
    (hfrags : frags.flatten = opcodeUnaryRequest :: tail) :
    feed (handleInboundSubstream c registry send) .finished [] frags =
      .ready (.ok (respondUnary send (dispatchUnary c registry (opcodeUnaryRequest :: tail)))) := by
  rw [feed_eq (regular_handleInboundSubstream c registry send).stable, List.nil_append, hfrags,
    feed]
  have htail : ((readToEnd rpcStreamReadLimit).attempt : Task _) ⟨tail, .finished⟩ = _ :=
    ReadM.attempt_ok (readToEnd_finished hlen)
  rw [handleInboundSubstream_unary, handleUnaryStreamWithOpcodeConsumed, ReadM.bind_ok _ htail]
  rfl

theorem feed_receiveResponse {buf : Bytes} (hlen : buf.length ≤ rpcResponseReadLimit)
    {frags : List Bytes} (hfrags : frags.flatten = buf) :
    feed receiveResponse .finished [] frags = .ready (decodeResponseFrame buf) := by
  rw [feed_eq regular_receiveResponse.stable, List.nil_append, hfrags, feed, receiveResponse,
    ReadM.bind_ok _ (ReadM.mapErr_ok _ (readToEnd_finished hlen))]
  cases decodeResponseFrame buf <;> rfl

theorem respondUnary_fresh (hw : EnvelopeCodec) {result : RpcResult Bytes}
    (hfits : ResponseFits result) :
    ∃ buf, (respondUnary (SendStream.fresh none) result).log = [⟨buf, buf.length, true⟩] ∧
      (respondUnary (SendStream.fresh none) result).finished = true ∧
      buf.length ≤ rpcResponseReadLimit ∧ decodeResponseFrame buf = observed result := by
  cases result with
  | ok r => exact ⟨opcodeUnaryResponse :: r, rfl, rfl, hfits, rfl⟩
  | error e =>
      obtain ⟨body, henc, hlen⟩ := hfits
      refine ⟨opcodeUnaryError :: body, ?_, ?_, ?_, ?_⟩
      · simp only [respondUnary, writeError, henc]
        rfl
      · simp only [respondUnary, writeError, henc]
        rfl
      · simp only [List.length_cons, rpcResponseReadLimit] at hlen ⊢
        omega
      · have hop : ¬ opcodeUnaryError = opcodeUnaryResponse := by decide
        simp only [decodeResponseFrame, if_neg hop, if_true, hw.roundTrips _ _ henc, observed]

/-- **A unary remote call equals the local call**, however the transport cuts the bytes, and
the server writes exactly one response frame. -/
theorem unaryCall_eq_localCall (hw : EnvelopeCodec) (c : Inbound) (registry : Registry)
    (methodName : String) (payload : Bytes)
    (hname : (Utf8.bytes methodName).length ≤ maxMethodNameLen)
    (hrequest : ∀ frame, buildUnaryRequestFrame methodName payload = .ok frame →
      frame.length ≤ rpcStreamReadLimit + 1)
    (hresponse : ∀ handler, registry.lookup methodName = some handler →
      ResponseFits (handler (buildInboundContext c) payload)) :
    ∃ sent, sendRequest (SendStream.fresh none) methodName payload = (.ok (), sent) ∧
      sent.finished = true ∧
      ∀ requestFrags, requestFrags.flatten = sent.wire →
        ∃ answered, feed (handleInboundSubstream c registry (SendStream.fresh none)) .finished []
            requestFrags = .ready (.ok answered) ∧
          answered.finished = true ∧ answered.log.length = 1 ∧ answered.written.length = 1 ∧
          ∀ responseFrags, responseFrags.flatten = answered.wire →
            feed receiveResponse .finished [] responseFrags =
              .ready (localCall c registry methodName payload) := by
  have hlen := lt_of_le_usizeMax (hname.trans maxMethodNameLen_le_usizeMax)
  have hframe := buildUnaryRequestFrame_ok hlen payload
  have htail := hrequest _ hframe
  simp only [List.length_cons, Nat.add_le_add_iff_right] at htail
  obtain ⟨sent, hsent, hfinished, hwire⟩ := sendRequest_fresh hframe
  refine ⟨sent, hsent, hfinished, fun requestFrags hfrags => ?_⟩
  rw [hwire] at hfrags
  have hfits : ResponseFits (invoke c registry methodName payload) := by
    cases hl : registry.lookup methodName with
    | none =>
        obtain ⟨b, hb, hlen⟩ := hw.unknownMethod methodName hname
        rw [invoke, hl]
        refine ⟨b, hb, ?_⟩
        simp only [maxMethodNameLen, rpcResponseReadLimit] at hname ⊢
        omega
    | some handler =>
        rw [invoke, hl]
        exact hresponse handler hl
  obtain ⟨buf, hlog, hfin, hlen, hdecode⟩ := respondUnary_fresh hw hfits
  have hanswer := feed_handleInbound_unary c registry (SendStream.fresh none) htail hfrags
  rw [dispatchUnary_frame hname] at hanswer
  refine ⟨_, hanswer, hfin, by rw [hlog]; rfl, by rw [SendStream.written, hlog]; rfl, ?_⟩
  intro responseFrags hresp
  have hbuf : responseFrags.flatten = buf := by
    rw [hresp, SendStream.wire, hlog]
    simp
  rw [feed_receiveResponse hlen hbuf, hdecode, observed_invoke]

end call

section reference

attribute [local instance] reference

theorem envelopeCodec_reference : EnvelopeCodec where
  roundTrips := ofCodec_roundTrips WireError.postcard
  unknownMethod := by
    intro name h
    refine ⟨WireError.postcard.encode (.unknownMethod name), rfl, ?_⟩
    have hlen := Leb128.encode_length_le 2 (Utf8.bytes name).length
      (lt_of_le_of_lt h (by decide)) (by decide)
    have htag : (Leb128.encode 0).length = 1 := rfl
    simp only [WireError.postcard, Postcard.Codec.variant, Postcard.Codec.str,
      List.length_append, htag]
    omega

/-- One unary method, which returns its payload. -/
def echoRegistry : Registry :=
  MethodRegistry.empty.insert "a@1/b/c" (.unary fun _ payload => .ok payload)
    validateCanonical_pinned

/-- The call of the echo method, by a name that leaves its version out. -/
theorem unaryCall_echo :
    ∃ sent, sendRequest (SendStream.fresh none) "a/b/c" [7, 8] = (.ok (), sent) ∧
      ∀ requestFrags, requestFrags.flatten = sent.wire →
        ∃ answered, feed (handleInboundSubstream anyInbound echoRegistry (SendStream.fresh none))
            .finished [] requestFrags = .ready (.ok answered) ∧
          ∀ responseFrags, responseFrags.flatten = answered.wire →
            feed receiveResponse .finished [] responseFrags = .ready (.ok [7, 8]) := by
  obtain ⟨sent, hsent, _, h⟩ := unaryCall_eq_localCall envelopeCodec_reference anyInbound
    echoRegistry "a/b/c" [7, 8] (by decide)
    (by
      intro frame hframe
      have : buildUnaryRequestFrame "a/b/c" [7, 8] = .ok [0, 5, 97, 47, 98, 47, 99, 7, 8] := by
        decide
      rw [this] at hframe
      cases hframe
      decide)
    (by
      intro handler hlookup
      obtain rfl : (fun _ payload => .ok payload) = handler := Option.some.inj hlookup
      exact show 2 + 1 ≤ rpcResponseReadLimit by decide)
  refine ⟨sent, hsent, fun requestFrags hfrags => ?_⟩
  obtain ⟨answered, hanswered, _, _, _, hresp⟩ := h requestFrags hfrags
  exact ⟨answered, hanswered, fun responseFrags hr => hresp responseFrags hr⟩

end reference

end NerwRpc
