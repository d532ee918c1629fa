import NerwRpc.ClientRuns
import NerwRpc.MethodEntry

/-! # Opening a stream, on both sides

`call_streaming` and the substream task that answers it, over a transport that loses nothing and
delivers the bytes of either direction one at a time, in any interleaving.  Once the call has
returned its two channels the caller may write request frames, and once the handler has been
started the server may write response frames; neither matters for the negotiation.

* `Inv.step`: what the two streams hold and how far the two sides are.
* `openNegotiation_exact`: the call returns channels exactly when the method is registered for
  streaming, and the method name otherwise. -/

namespace NerwRpc

open ByteStream Transition

/-- How far `call_streaming` is. -/
inductive CallerSide where
  | opening
  | awaitingAck
  | returned (result : RpcResult Unit)
deriving DecidableEq, Repr

/-- How far the substream task is. -/
inductive ServerSide where
  | accepting
  | running
  | closed
deriving DecidableEq, Repr

/-- The two directions, how many bytes of each have arrived, the two sides, and the handlers that
have been started, each with what had been written to the caller before. -/
structure Handshake where
  request : SendStream
  requestSeen : ℕ
  response : SendStream
  responseSeen : ℕ
  caller : CallerSide
  server : ServerSide
  started : List (StreamingMethodHandler × List Bytes)

inductive HandshakeAct where
  | openRequest
  | deliverRequest
  | negotiate
  | writeResponse (f : StreamingFrame)
  | finishResponse
  | deliverResponse
  | readAck
  | writeRequest (f : StreamingFrame)
  | finishRequest
deriving DecidableEq, Repr

/-- The frames a caller writes into an open stream. -/
def isRequestFrame : StreamingFrame → Bool
  | .requestChunk _ | .requestEnd => true
  | _ => false

/-- The frames a server writes into an open stream. -/
def isResponseFrame : StreamingFrame → Bool
  | .responseChunk _ | .responseEnd | .error _ => true
  | _ => false

/-- What the reader of a direction has before it. -/
def arrived (send : SendStream) (seen : ℕ) : RecvStream :=
  ⟨send.wire.take seen,
    if send.finished = true ∧ send.wire.length ≤ seen then .finished else .live⟩

namespace Handshake

def start : Handshake := ⟨.fresh none, 0, .fresh none, 0, .opening, .accepting, []⟩

variable [Deps]

/-- The substream task has read what it is asked for. -/
def accept (c : Inbound) (registry : Registry) (s : Handshake) : Entry → Handshake
  | .streaming openReq => match negotiated c registry s.response openReq with
    | (none, send) => { s with response := send, server := .closed }
    | (some (handler, _), send) =>
        { s with response := send, server := .running,
                 started := s.started ++ [(handler, send.written)] }
  | e => { s with response := serve c registry s.response e, server := .closed }

variable (c : Inbound) (registry : Registry) (methodName : String) (requestId : UInt64)

/-- One action; `none` when it is not possible. -/
def step : HandshakeAct → Handshake → Option Handshake
  | .openRequest, s => match s.caller with
    | .opening => match writeOpenRequest s.request ⟨methodName, requestId⟩ with
      | (.ok (), send) => some { s with request := send, caller := .awaitingAck }
      | (.error e, send) => some { s with request := send, caller := .returned (.error e) }
    | _ => none
  | .deliverRequest, s =>
      if s.requestSeen < s.request.wire.length then
        some { s with requestSeen := s.requestSeen + 1 }
      else none
  | .negotiate, s => match s.server with
    | .accepting => match entry (arrived s.request s.requestSeen) with
      | .ready (.ok (e, _)) => some (s.accept c registry e)
      | _ => none
    | _ => none
  | .writeResponse f, s => match s.server with
    | .running =>
        if isResponseFrame f = true then some { s with response := (writeFrame s.response f).2 }
        else none
    | _ => none
  | .finishResponse, s => match s.server with
    | .running => some { s with response := s.response.finish, server := .closed }
    | _ => none
  | .deliverResponse, s =>
      if s.responseSeen < s.response.wire.length then
        some { s with responseSeen := s.responseSeen + 1 }
      else none
  | .readAck, s => match s.caller with
    | .awaitingAck => match readStreamingFrame (arrived s.response s.responseSeen) with
      | .pending => none
      | .ready (.error e) => some { s with caller := .returned (.error e) }
      | .ready (.ok (ackFrame, _)) =>
          some { s with caller := .returned (ClientRun.openAck ackFrame) }
    | _ => none
  | .writeRequest f, s => match s.caller with
    | .returned (.ok ()) =>
        if isRequestFrame f = true then some { s with request := (writeFrame s.request f).2 }
        else none
    | _ => none
  | .finishRequest, s => match s.caller with
    | .returned (.ok ()) => some { s with request := s.request.finish }
    | _ => none

/-! ### What has arrived -/

omit [Deps] in
theorem arrived_cases {send : SendStream} {buf : Bytes} {more : List Bytes}
    (h : send.log = attempts (buf :: more)) (seen : ℕ) :
    (seen < buf.length ∧ arrived send seen = ⟨buf.take seen, .live⟩) ∨
      ∃ rest t, arrived send seen = ⟨buf ++ rest, t⟩ := by
  have hwire : send.wire = buf ++ more.flatten := wire_of_log h
  unfold arrived
  rw [hwire, List.length_append, List.take_append]
  by_cases hseen : seen < buf.length
  · refine .inl ⟨hseen, ?_⟩
    rw [if_neg (by omega), show seen - buf.length = 0 by omega, List.take_zero, List.append_nil]
  · exact .inr ⟨more.flatten.take (seen - buf.length), _, by
      rw [List.take_of_length_le (show buf.length ≤ seen by omega)]⟩

omit [Deps] in
theorem arrived_fresh (seen : ℕ) : arrived (.fresh none) seen = ⟨[], .live⟩ := by
  simp [arrived, SendStream.fresh, SendStream.wire]

theorem log_writeFrame {send : SendStream} {buf : Bytes} {more : List Bytes}
    (hfate : send.fate = none) (h : send.log = attempts (buf :: more)) (f : StreamingFrame) :
    (writeFrame send f).2.fate = none ∧
      ∃ more', (writeFrame send f).2.log = attempts (buf :: more') := by
  obtain ⟨buf', send', -, hw, hlog, hkeep⟩ | ⟨-, -, -, -, -, -, -, hne⟩ | ⟨e, -, hw⟩ :=
    writeFrame_cases send f
  · rw [hw]
    refine ⟨hkeep hfate, more ++ [buf'], ?_⟩
    rw [hlog, h]
    simp [attempts]
  · exact absurd hfate hne
  · rw [hw]
    exact ⟨hfate, more, h⟩

theorem writeFrame_fresh {f : StreamingFrame} (h : frameBytes f = .ok (frame f)) :
    ∃ send, writeFrame (.fresh none) f = (.ok (), send) ∧ send.fate = none ∧
      send.log = attempts [frame f] := by
  obtain ⟨buf, send, hbuf, hw, hlog, hkeep⟩ | ⟨-, -, -, -, -, -, -, hne⟩ | ⟨e, he, -⟩ :=
    writeFrame_cases (.fresh none) f
  · obtain rfl := Except.ok.inj (h.symm.trans hbuf)
    exact ⟨send, hw, hkeep rfl, hlog⟩
  · exact absurd rfl hne
  · rw [h] at he
    cases he

/-! ### The two frames of the negotiation -/

/-- What `call_streaming` is to return. -/
def expected : RpcResult Unit :=
  match registry.lookupStreaming methodName with
  | some _ => .ok ()
  | none => .error (.unknownMethod methodName)

def openBytes : Bytes := frame (.openRequest ⟨methodName, requestId⟩)

def ackBytes : Bytes := frame (.openResponse (ack registry ⟨methodName, requestId⟩))

/-- The handlers that are to be started: the one that is registered, behind the ack. -/
def starts : List (StreamingMethodHandler × List Bytes) :=
  match registry.lookupStreaming methodName with
  | some handler => [(handler, [ackBytes registry methodName requestId])]
  | none => []

/-- The client takes the name out of the sentence the server has put it into. -/
theorem openAck_ack :
    ClientRun.openAck (some (.openResponse (ack registry ⟨methodName, requestId⟩))) =
      expected registry methodName := by
  unfold expected ack
  cases registry.lookupStreaming methodName with
  | some handler => rfl
  | none => simp only [ClientRun.openAck, stripPrefix_append]

/-- Both bodies survive postcard and the limit of the reader. -/
structure Fits : Prop where
  openRequest : openRequestCodec.RoundTrips
  openResponse : openResponseCodec.RoundTrips
  requestFits : openRequestCodec.Fits maxStreamingPayloadLen ⟨methodName, requestId⟩
  ackFits : openResponseCodec.Fits maxStreamingPayloadLen (ack registry ⟨methodName, requestId⟩)

variable {c registry methodName requestId} {s s' : Handshake}

theorem Fits.exact_openRequest (h : Fits registry methodName requestId) :
    ∃ bs, frameBytes (.openRequest ⟨methodName, requestId⟩) =
        .ok (opcodeStreamingOpenRequest :: bs) ∧
      Exact (readStreamingFrameAfterOpcode opcodeStreamingOpenRequest) bs
        (.openRequest ⟨methodName, requestId⟩) IsTransportRead := by
  obtain ⟨encoded, henc, hlen⟩ := h.requestFits
  have hlt := lt_of_le_usizeMax (hlen.trans maxStreamingPayloadLen_le_usizeMax)
  refine ⟨Leb128.encode encoded.length ++ encoded, ?_, ?_⟩
  · show bodyBytes openRequestCodec _ _ = _
    rw [bodyBytes, henc]
    exact lengthPrefixed_ok hlt _
  · exact (exact_readBody (h.openRequest _ _ henc) hlen).bind_pure rfl

theorem Fits.frameBytes_open (h : Fits registry methodName requestId) :
    frameBytes (.openRequest ⟨methodName, requestId⟩) = .ok (openBytes methodName requestId) := by
  obtain ⟨bs, hbs, -⟩ := h.exact_openRequest
  rw [openBytes, frame, hbs]

theorem Fits.entry_open (h : Fits registry methodName requestId) :
    (∀ k < (openBytes methodName requestId).length,
      entry ⟨(openBytes methodName requestId).take k, .live⟩ = .pending) ∧
    ∀ rest t, entry ⟨openBytes methodName requestId ++ rest, t⟩ =
      .ready (.ok (.streaming ⟨methodName, requestId⟩, ⟨rest, t⟩)) := by
  obtain ⟨bs, hbs, hexact⟩ := h.exact_openRequest
  have hbytes : openBytes methodName requestId = opcodeStreamingOpenRequest :: bs :=
    Except.ok.inj (h.frameBytes_open.symm.trans hbs)
  rw [hbytes]
  constructor
  · intro k hk
    cases k with
    | zero => rfl
    | succ k =>
        have hrest : bs.drop k ≠ [] := by
          simp only [List.length_cons] at hk
          rw [← List.length_pos_iff, List.length_drop]
          omega
        have hwait := hexact.waits _ _ (List.take_append_drop k bs) hrest
        rw [List.take_succ_cons, entry,
          ReadM.bind_ok _ (ReadM.attempt_ok (readExact_one _ (bs.take k) .live))]
        exact ReadM.bind_pending _ (ReadM.attempt_pending hwait)
  · intro rest t
    rw [List.cons_append, entry,
      ReadM.bind_ok _ (ReadM.attempt_ok (readExact_one _ (bs ++ rest) t))]
    exact ReadM.bind_ok _ (ReadM.attempt_ok (hexact.reads rest t))

theorem Fits.exactFrame_ack (h : Fits registry methodName requestId) :
    frameBytes (.openResponse (ack registry ⟨methodName, requestId⟩)) =
        .ok (ackBytes registry methodName requestId) ∧
      ExactFrame readStreamingFrame (ackBytes registry methodName requestId)
        (.openResponse (ack registry ⟨methodName, requestId⟩)) IsTransportRead := by
  have key : ∃ bs, frameBytes (.openResponse (ack registry ⟨methodName, requestId⟩)) = .ok bs ∧
      ExactFrame readStreamingFrame bs (.openResponse (ack registry ⟨methodName, requestId⟩))
        IsTransportRead := exactFrame_body rfl h.openResponse h.ackFits
  obtain ⟨bs, hbs, hexact⟩ := key
  have hack : ackBytes registry methodName requestId = bs := by rw [ackBytes, frame, hbs]
  rw [hack]
  exact ⟨hbs, hexact⟩

/-! ### The invariant -/

/-- Behind the open request the caller writes only into an open stream; behind the ack the server
writes only for a handler that was started; the call returns what the ack says. -/
structure Inv (registry : Registry) (methodName : String) (requestId : UInt64) (s : Handshake) :
    Prop where
  request : s.caller = .opening ∧ s.request = .fresh none ∨
    s.caller ≠ .opening ∧ s.request.fate = none ∧
      ∃ more, s.request.log = attempts (openBytes methodName requestId :: more) ∧
        (more ≠ [] → s.caller = .returned (.ok ()))
  response : s.server = .accepting ∧ s.response = .fresh none ∧ s.started = [] ∨
    s.server ≠ .accepting ∧ s.response.fate = none ∧
      s.started = starts registry methodName requestId ∧
      (∃ more, s.response.log = attempts (ackBytes registry methodName requestId :: more) ∧
        (more ≠ [] → registry.lookupStreaming methodName ≠ none)) ∧
      (s.server = .running → registry.lookupStreaming methodName ≠ none)
  returned : ∀ r, s.caller = .returned r →
    s.server ≠ .accepting ∧ r = expected registry methodName

theorem inv_start : Inv registry methodName requestId start where
  request := .inl ⟨rfl, rfl⟩
  response := .inl ⟨rfl, rfl, rfl⟩
  returned := nofun

theorem Inv.openRequest (hf : Fits registry methodName requestId)
    (h : Inv registry methodName requestId s)
    (hs : step c registry methodName requestId .openRequest s = some s') :
    Inv registry methodName requestId s' ∧ s'.caller = .awaitingAck := by
  obtain ⟨send, hw, hfate, hlog⟩ := writeFrame_fresh
    (f := .openRequest ⟨methodName, requestId⟩) (by rw [hf.frameBytes_open]; rfl)
  cases hcaller : s.caller with
  | opening =>
      obtain ⟨-, hfresh⟩ | ⟨hne, -⟩ := h.request
      · have hw' : writeOpenRequest s.request ⟨methodName, requestId⟩ = (.ok (), send) := by
          rw [hfresh]
          exact hw
        simp only [step, hcaller, hw', Option.some.injEq] at hs
        obtain rfl := hs
        exact ⟨{ request := .inr ⟨nofun, hfate, [], hlog, fun hmore => absurd rfl hmore⟩
                 response := h.response
                 returned := nofun }, rfl⟩
      · exact absurd hcaller hne
  | awaitingAck => simp [step, hcaller] at hs
  | returned r => simp [step, hcaller] at hs

theorem accept_streaming (hf : Fits registry methodName requestId)
    (hresponse : s.response = .fresh none) (hstarted : s.started = []) :
    ∃ send, send.fate = none ∧
      send.log = attempts [ackBytes registry methodName requestId] ∧
      ((registry.lookupStreaming methodName = none ∧
        s.accept c registry (.streaming ⟨methodName, requestId⟩) =
          { s with response := send, server := .closed, started := [] }) ∨
      registry.lookupStreaming methodName ≠ none ∧
        s.accept c registry (.streaming ⟨methodName, requestId⟩) =
          { s with response := send, server := .running,
                   started := starts registry methodName requestId }) := by
  obtain ⟨send, hw, hfate, hlog⟩ := writeFrame_fresh
    (f := .openResponse (ack registry ⟨methodName, requestId⟩))
    (by rw [hf.exactFrame_ack.1]; rfl)
  have hw' : writeOpenResponse s.response (ack registry ⟨methodName, requestId⟩) =
      (.ok (), send) := by
    rw [hresponse]
    exact hw
  cases hl : registry.lookupStreaming methodName with
  | none =>
      refine ⟨send.finish, hfate, hlog, .inl ⟨rfl, ?_⟩⟩
      simp only [accept, negotiated, hw', hl, hstarted]
  | some handler =>
      refine ⟨send, hfate, hlog, .inr ⟨Option.some_ne_none _, ?_⟩⟩
      simp only [accept, negotiated, hw', hl, hstarted, starts, written_of_log hlog,
        List.nil_append]
      rfl

theorem Inv.negotiate (hf : Fits registry methodName requestId)
    (h : Inv registry methodName requestId s)
    (hs : step c registry methodName requestId .negotiate s = some s') :
    Inv registry methodName requestId s' ∧ s'.server ≠ .accepting ∧ s'.caller = s.caller := by
  cases hserver : s.server with
  | accepting =>
      obtain ⟨hwait, hread⟩ := hf.entry_open
      obtain ⟨-, hresponse, hstarted⟩ | ⟨hne, -⟩ := h.response
      · obtain ⟨hcaller, hfresh⟩ | ⟨hcaller, hfate, more, hlog, hmore⟩ := h.request
        · have hpending : entry (arrived s.request s.requestSeen) = .pending := by
            rw [hfresh, arrived_fresh]
            rfl
          simp [step, hserver, hpending] at hs
        · obtain ⟨hlt, harrived⟩ | ⟨rest, t, harrived⟩ := arrived_cases hlog s.requestSeen
          · have hpending := hwait _ hlt
            rw [← harrived] at hpending
            simp [step, hserver, hpending] at hs
          · have hentry := hread rest t
            rw [← harrived] at hentry
            simp only [step, hserver, hentry, Option.some.injEq] at hs
            obtain ⟨send, hsend, hlog', ⟨hl, haccept⟩ | ⟨hl, haccept⟩⟩ :=
              accept_streaming (c := c) hf hresponse hstarted
            · rw [haccept] at hs
              obtain rfl := hs
              refine ⟨⟨.inr ⟨hcaller, hfate, more, hlog, hmore⟩, .inr ⟨nofun, hsend, ?_,
                ⟨[], hlog', fun hmore => absurd rfl hmore⟩, nofun⟩, fun r hr => ?_⟩, nofun, rfl⟩
              · simp [starts, hl]
              · exact absurd hserver (h.returned r hr).1
            · rw [haccept] at hs
              obtain rfl := hs
              refine ⟨⟨.inr ⟨hcaller, hfate, more, hlog, hmore⟩, .inr ⟨nofun, hsend, rfl,
                ⟨[], hlog', fun _ => hl⟩, fun _ => hl⟩, fun r hr => ?_⟩, nofun, rfl⟩
              exact absurd hserver (h.returned r hr).1
      · exact absurd hserver hne
  | running => simp [step, hserver] at hs
  | closed => simp [step, hserver] at hs

theorem Inv.readAck (hf : Fits registry methodName requestId)
    (h : Inv registry methodName requestId s)
    (hs : step c registry methodName requestId .readAck s = some s') :
    Inv registry methodName requestId s' ∧ ∃ r, s'.caller = .returned r := by
  cases hcaller : s.caller with
  | awaitingAck =>
      obtain ⟨-, hexact⟩ := hf.exactFrame_ack
      obtain ⟨-, hfresh, -⟩ | ⟨hserver, hfate, hstarted, ⟨more, hlog, hmore⟩, hrun⟩ := h.response
      · have hpending : readStreamingFrame (arrived s.response s.responseSeen) = .pending := by
          rw [hfresh, arrived_fresh]
          exact readStreamingFrame_nil_live
        simp [step, hcaller, hpending] at hs
      · obtain ⟨hlt, harrived⟩ | ⟨rest, t, harrived⟩ := arrived_cases hlog s.responseSeen
        · have hrest : (ackBytes registry methodName requestId).drop s.responseSeen ≠ [] := by
            rw [← List.length_pos_iff, List.length_drop]
            omega
          have hpending := hexact.waits _ _ (List.take_append_drop _ _) hrest
          rw [← harrived] at hpending
          simp [step, hcaller, hpending] at hs
        · have hack := hexact.reads rest t
          rw [← harrived] at hack
          simp only [step, hcaller, hack, openAck_ack, Option.some.injEq] at hs
          obtain rfl := hs
          obtain ⟨hopening, -⟩ | ⟨-, hrequest, more', hlog', hmore'⟩ := h.request
          · rw [hcaller] at hopening
            cases hopening
          · refine ⟨⟨.inr ⟨nofun, hrequest, more', hlog', fun hne => ?_⟩,
              .inr ⟨hserver, hfate, hstarted, ⟨more, hlog, hmore⟩, hrun⟩, ?_⟩, _, rfl⟩
            · have := hmore' hne
              rw [hcaller] at this
              cases this
            · rintro r ⟨⟩
              exact ⟨hserver, rfl⟩
  | opening => simp [step, hcaller] at hs
  | returned r => simp [step, hcaller] at hs

theorem Inv.deliverRequest (h : Inv registry methodName requestId s)
    (hs : step c registry methodName requestId .deliverRequest s = some s') :
    Inv registry methodName requestId s' := by
  simp only [step] at hs
  split_ifs at hs
  obtain rfl := Option.some.inj hs
  exact ⟨h.request, h.response, h.returned⟩

theorem Inv.deliverResponse (h : Inv registry methodName requestId s)
    (hs : step c registry methodName requestId .deliverResponse s = some s') :
    Inv registry methodName requestId s' := by
  simp only [step] at hs
  split_ifs at hs
  obtain rfl := Option.some.inj hs
  exact ⟨h.request, h.response, h.returned⟩

theorem Inv.writeResponse (h : Inv registry methodName requestId s) {f : StreamingFrame}
    (hs : step c registry methodName requestId (.writeResponse f) s = some s') :
    Inv registry methodName requestId s' := by
  cases hserver : s.server with
  | running =>
      simp only [step, hserver] at hs
      split_ifs at hs
      obtain rfl := Option.some.inj hs
      obtain ⟨hne, -⟩ | ⟨hserver', hfate, hstarted, ⟨more, hlog, -⟩, hrun⟩ := h.response
      · rw [hserver] at hne
        cases hne
      · obtain ⟨hfate', more', hlog'⟩ := log_writeFrame hfate hlog f
        refine ⟨h.request, .inr ⟨nofun, hfate', hstarted,
          ⟨more', hlog', fun _ => hrun hserver⟩, fun _ => hrun hserver⟩, fun r hr => ?_⟩
        exact ⟨nofun, (h.returned r hr).2⟩
  | accepting => simp [step, hserver] at hs
  | closed => simp [step, hserver] at hs

theorem Inv.finishResponse (h : Inv registry methodName requestId s)
    (hs : step c registry methodName requestId .finishResponse s = some s') :
    Inv registry methodName requestId s' := by
  cases hserver : s.server with
  | running =>
      simp only [step, hserver, Option.some.injEq] at hs
      obtain rfl := hs
      obtain ⟨hne, -⟩ | ⟨hserver', hfate, hstarted, hlog, hrun⟩ := h.response
      · rw [hserver] at hne
        cases hne
      · refine ⟨h.request, .inr ⟨nofun, hfate, hstarted, hlog, nofun⟩, fun r hr => ?_⟩
        exact ⟨nofun, (h.returned r hr).2⟩
  | accepting => simp [step, hserver] at hs
  | closed => simp [step, hserver] at hs

theorem step_open {a : HandshakeAct} (ha : (∃ f, a = .writeRequest f) ∨ a = .finishRequest)
    (hs : step c registry methodName requestId a s = some s') :
    s.caller = .returned (.ok ()) ∧
      ((∃ f, s' = { s with request := (writeFrame s.request f).2 }) ∨
        s' = { s with request := s.request.finish }) := by
  obtain ⟨f, rfl⟩ | rfl := ha
  · cases hcaller : s.caller with
    | returned r =>
        obtain e | _ := r
        · simp [step, hcaller] at hs
        · simp only [step, hcaller] at hs
          split_ifs at hs
          exact ⟨rfl, .inl ⟨f, (Option.some.inj hs).symm⟩⟩
    | opening => simp [step, hcaller] at hs
    | awaitingAck => simp [step, hcaller] at hs
  · cases hcaller : s.caller with
    | returned r =>
        obtain e | _ := r
        · simp [step, hcaller] at hs
        · simp only [step, hcaller] at hs
          exact ⟨rfl, .inr (Option.some.inj hs).symm⟩
    | opening => simp [step, hcaller] at hs
    | awaitingAck => simp [step, hcaller] at hs

theorem Inv.open (h : Inv registry methodName requestId s) {a : HandshakeAct}
    (ha : (∃ f, a = .writeRequest f) ∨ a = .finishRequest)
    (hs : step c registry methodName requestId a s = some s') :
    Inv registry methodName requestId s' := by
  obtain ⟨hcaller, hcase⟩ := step_open ha hs
  obtain ⟨hopening, -⟩ | ⟨hne, hfate, more, hlog, -⟩ := h.request
  · rw [hcaller] at hopening
    cases hopening
  · obtain ⟨f, rfl⟩ | rfl := hcase
    · obtain ⟨hfate', more', hlog'⟩ := log_writeFrame hfate hlog f
      exact ⟨.inr ⟨hne, hfate', more', hlog', fun _ => hcaller⟩, h.response, h.returned⟩
    · exact ⟨.inr ⟨hne, hfate, more, hlog, fun _ => hcaller⟩, h.response, h.returned⟩

theorem Inv.step (hf : Fits registry methodName requestId)
    (h : Inv registry methodName requestId s) {a : HandshakeAct}
    (hs : Handshake.step c registry methodName requestId a s = some s') :
    Inv registry methodName requestId s' := by
  cases a with
  | openRequest => exact (h.openRequest hf hs).1
  | deliverRequest => exact h.deliverRequest hs
  | negotiate => exact (h.negotiate hf hs).1
  | writeResponse f => exact h.writeResponse hs
  | finishResponse => exact h.finishResponse hs
  | deliverResponse => exact h.deliverResponse hs
  | readAck => exact (h.readAck hf hs).1
  | writeRequest f => exact h.open (.inl ⟨f, rfl⟩) hs
  | finishRequest => exact h.open (.inr rfl) hs

/-! ### The call returns -/

theorem exists_deliverRequest (c : Inbound) (registry : Registry) (methodName : String)
    (requestId : UInt64) {buf : Bytes} {more : List Bytes}
    (h : s.request.log = attempts (buf :: more)) : ∃ as seen,
      run (step c registry methodName requestId) as s = some { s with requestSeen := seen } ∧
      buf.length ≤ seen := by
  have hwire : s.request.wire = buf ++ more.flatten := wire_of_log h
  by_cases hseen : buf.length ≤ s.requestSeen
  · exact ⟨[], s.requestSeen, rfl, hseen⟩
  · have hstep : ∀ k < buf.length, step c registry methodName requestId .deliverRequest
        { s with requestSeen := k } = some { s with requestSeen := k + 1 } := by
      intro k hk
      have hlt : k < s.request.wire.length := by
        rw [hwire, List.length_append]
        omega
      exact if_pos hlt
    have hrun := run_replicate hstep (buf.length - s.requestSeen) s.requestSeen (by omega)
    exact ⟨_, _, hrun, by omega⟩

theorem exists_deliverResponse (c : Inbound) (registry : Registry) (methodName : String)
    (requestId : UInt64) {buf : Bytes} {more : List Bytes}
    (h : s.response.log = attempts (buf :: more)) : ∃ as seen,
      run (step c registry methodName requestId) as s = some { s with responseSeen := seen } ∧
      buf.length ≤ seen := by
  have hwire : s.response.wire = buf ++ more.flatten := wire_of_log h
  by_cases hseen : buf.length ≤ s.responseSeen
  · exact ⟨[], s.responseSeen, rfl, hseen⟩
  · have hstep : ∀ k < buf.length, step c registry methodName requestId .deliverResponse
        { s with responseSeen := k } = some { s with responseSeen := k + 1 } := by
      intro k hk
      have hlt : k < s.response.wire.length := by
        rw [hwire, List.length_append]
        omega
      exact if_pos hlt
    have hrun := run_replicate hstep (buf.length - s.responseSeen) s.responseSeen (by omega)
    exact ⟨_, _, hrun, by omega⟩

/-- From here the call returns on some continuation of the run. -/
def Returns (c : Inbound) (registry : Registry) (methodName : String) (requestId : UInt64)
    (s : Handshake) : Prop :=
  ∃ as s', run (step c registry methodName requestId) as s = some s' ∧
    ∃ r, s'.caller = .returned r

theorem Returns.of_run {as : List HandshakeAct}
    (hs : run (step c registry methodName requestId) as s = some s')
    (h : Returns c registry methodName requestId s') :
    Returns c registry methodName requestId s := by
  obtain ⟨bs, s₁, hrun, hr⟩ := h
  exact ⟨as ++ bs, s₁, by rw [run_append, hs]; exact hrun, hr⟩

theorem Returns.of_step {a : HandshakeAct}
    (hs : step c registry methodName requestId a s = some s')
    (h : Returns c registry methodName requestId s') :
    Returns c registry methodName requestId s := by
  have hrun : run (step c registry methodName requestId) [a] s = some s' := by simp [run, hs]
  exact h.of_run hrun

theorem Inv.returns_of_accepted (hf : Fits registry methodName requestId)
    (h : Inv registry methodName requestId s) (hcaller : s.caller = .awaitingAck)
    (hserver : s.server ≠ .accepting) : Returns c registry methodName requestId s := by
  obtain ⟨hne, -⟩ | ⟨-, -, -, ⟨more, hlog, -⟩, -⟩ := h.response
  · exact absurd hne hserver
  · obtain ⟨as, seen, hrun, hseen⟩ := exists_deliverResponse c registry methodName requestId hlog
    refine Returns.of_run hrun ?_
    obtain ⟨hlt, -⟩ | ⟨rest, t, harrived⟩ := arrived_cases hlog seen
    · omega
    · have hack := hf.exactFrame_ack.2.reads rest t
      rw [← harrived] at hack
      have hstep : Handshake.step c registry methodName requestId .readAck
          { s with responseSeen := seen } = some { s with
            responseSeen := seen, caller := .returned (expected registry methodName) } := by
        simp only [Handshake.step, hcaller, hack, openAck_ack]
      exact Returns.of_step hstep ⟨[], _, rfl, _, rfl⟩

theorem Inv.returns (hf : Fits registry methodName requestId)
    (h : Inv registry methodName requestId s) : Returns c registry methodName requestId s := by
  have hawaiting : ∀ {s : Handshake}, Inv registry methodName requestId s →
      s.caller = .awaitingAck → Returns c registry methodName requestId s := by
    intro s h hcaller
    by_cases hserver : s.server = .accepting
    · obtain ⟨hopening, -⟩ | ⟨-, -, more, hlog, -⟩ := h.request
      · rw [hcaller] at hopening
        cases hopening
      · obtain ⟨as, seen, hrun, hseen⟩ := exists_deliverRequest c registry methodName requestId hlog
        have hinv : Inv registry methodName requestId { s with requestSeen := seen } :=
          ⟨h.request, h.response, h.returned⟩
        refine Returns.of_run hrun ?_
        obtain ⟨hlt, -⟩ | ⟨rest, t, harrived⟩ := arrived_cases hlog seen
        · omega
        · have hentry := hf.entry_open.2 rest t
          rw [← harrived] at hentry
          have hstep : Handshake.step c registry methodName requestId .negotiate
              { s with requestSeen := seen } = some (({ s with requestSeen := seen } :
                Handshake).accept c registry (.streaming ⟨methodName, requestId⟩)) := by
            simp only [Handshake.step, hserver, hentry]
          obtain ⟨hinv', hserver', hcaller'⟩ := hinv.negotiate hf hstep
          exact Returns.of_step hstep
            (hinv'.returns_of_accepted hf (hcaller'.trans hcaller) hserver')
    · exact h.returns_of_accepted hf hcaller hserver
  cases hcaller : s.caller with
  | returned r => exact ⟨[], s, rfl, r, hcaller⟩
  | awaitingAck => exact hawaiting h hcaller
  | opening =>
      obtain ⟨-, hfresh⟩ | ⟨hne, -⟩ := h.request
      · obtain ⟨send, hw, -⟩ := writeFrame_fresh
          (f := .openRequest ⟨methodName, requestId⟩) (by rw [hf.frameBytes_open]; rfl)
        have hw' : writeOpenRequest s.request ⟨methodName, requestId⟩ = (.ok (), send) := by
          rw [hfresh]
          exact hw
        have hstep : Handshake.step c registry methodName requestId .openRequest s =
            some { s with request := send, caller := .awaitingAck } := by
          simp only [Handshake.step, hcaller, hw']
        obtain ⟨hinv', hcaller'⟩ := h.openRequest hf hstep
        exact Returns.of_step hstep (hawaiting hinv' hcaller')
      · exact absurd hcaller hne

/-- **Streaming open negotiation is exact.**  In every state that the two sides can reach, in any
interleaving: if the call has returned, then channels when the method is registered for streaming
and otherwise the requested name; at most the one registered handler has been started, behind the
ack, and it has if channels were returned; for a method that is not registered nothing runs and
nothing is written but the request and its refusal.  And the call can always still return. -/
theorem openNegotiation_exact (hf : Fits registry methodName requestId) {as : List HandshakeAct}
    (h : Runs (step c registry methodName requestId) Any as start s) :
    (∀ r, s.caller = .returned r → r = expected registry methodName) ∧
    (s.started = [] ∨ ∃ handler, registry.lookupStreaming methodName = some handler ∧
      s.started = [(handler, [frame (.openResponse ⟨.ok, requestId⟩)])]) ∧
    (s.caller = .returned (.ok ()) → s.started ≠ []) ∧
    (registry.lookupStreaming methodName = none → s.started = [] ∧
      s.request.written <+: [frame (.openRequest ⟨methodName, requestId⟩)] ∧
      s.response.written <+: [frame (.openResponse
        ⟨.err ("unknown streaming method: " ++ methodName), requestId⟩)]) ∧
    Returns c registry methodName requestId s := by
  have hinv : Inv registry methodName requestId s :=
    h.invariant (fun a s s' _ hi hs => hi.step hf hs) inv_start
  refine ⟨fun r hr => (hinv.returned r hr).2, ?_, ?_, ?_, hinv.returns hf⟩
  · obtain ⟨-, -, hstarted⟩ | ⟨-, -, hstarted, -⟩ := hinv.response
    · exact .inl hstarted
    · rw [hstarted]
      unfold starts ackBytes ack
      cases hl : registry.lookupStreaming methodName with
      | none => exact .inl rfl
      | some handler => exact .inr ⟨handler, rfl, rfl⟩
  · intro hcaller
    obtain ⟨hserver, hr⟩ := hinv.returned _ hcaller
    obtain ⟨hne, -⟩ | ⟨-, -, hstarted, -⟩ := hinv.response
    · exact absurd hne hserver
    · rw [hstarted]
      unfold expected at hr
      unfold starts
      cases hl : registry.lookupStreaming methodName with
      | none =>
          rw [hl] at hr
          cases hr
      | some handler => exact List.cons_ne_nil _ _
  · intro hl
    refine ⟨?_, ?_, ?_⟩
    · obtain ⟨-, -, hstarted⟩ | ⟨-, -, hstarted, -⟩ := hinv.response
      · exact hstarted
      · rw [hstarted, starts, hl]
    · obtain ⟨-, hfresh⟩ | ⟨-, -, more, hlog, hmore⟩ := hinv.request
      · rw [hfresh]
        exact List.nil_prefix
      · obtain rfl : more = [] := by
          by_contra hne
          have hr := (hinv.returned _ (hmore hne)).2
          rw [expected, hl] at hr
          cases hr
        rw [written_of_log hlog]
        exact List.prefix_rfl
    · obtain ⟨-, hfresh, -⟩ | ⟨-, -, -, ⟨more, hlog, hmore⟩, -⟩ := hinv.response
      · rw [hfresh]
        exact List.nil_prefix
      · obtain rfl : more = [] := by
          by_contra hne
          exact hmore hne hl
        rw [written_of_log hlog, ackBytes, ack, hl]

end Handshake

section reference

attribute [local instance] reference

/-- A name that looks like the refusal it is put into, on a server without methods. -/
theorem openNegotiation_exact_nested :
    ∃ as s, run (Handshake.step anyInbound MethodRegistry.empty "unknown streaming method: x" 7) as
        Handshake.start = some s ∧
      s.caller = .returned (.error (.unknownMethod "unknown streaming method: x")) ∧
      s.started = [] := by
  have hf : Handshake.Fits MethodRegistry.empty "unknown streaming method: x" 7 :=
    { openRequest := ofCodec_roundTrips StreamingOpenRequest.postcard
      openResponse := ofCodec_roundTrips StreamingOpenResponse.postcard
      requestFits := ⟨_, rfl, by decide⟩
      ackFits := ⟨_, rfl, by decide⟩ }
  obtain ⟨-, -, -, -, as, s, hrun, r, hr⟩ :=
    Handshake.openNegotiation_exact (c := anyInbound) hf (Runs.nil Handshake.start)
  obtain ⟨hreturned, -, -, hunknown, -⟩ :=
    Handshake.openNegotiation_exact hf (runs_any_iff.mpr hrun)
  obtain rfl := hreturned r hr
  exact ⟨as, s, hrun, hr, (hunknown rfl).1⟩

end reference

end NerwRpc
