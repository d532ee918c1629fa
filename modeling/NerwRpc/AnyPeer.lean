import NerwRpc.ClientRuns
import NerwRpc.InboundPumps
import NerwRpc.MethodEntry
import NerwRpc.StreamOutput
import NerwRpc.UnaryCall

/-! # Peers that send anything

Neither side trusts the bytes of the other.

* `inboundSubstream_answers`: whatever bytes a peer sends on a substream, in whatever pieces, and
  whatever write fails, the server writes a front of one answer; and if the answer is within the
  limits of the client's readers, they make of it a front of what it says.
* `callStreaming_views`: whatever bytes a peer sends in answer to an open request, in whatever
  pieces and order of steps, a caller of `call_streaming` sees what `callView` makes of these bytes
  as a whole, and always comes to the end of it. -/

namespace NerwRpc

open ByteStream FramePump Transition

section server

variable [Deps]

/-! ### What the server writes -/

/-- The one frame of a unary answer; an error without an encoding has none. -/
def unaryFrame : RpcResult Bytes → Bytes
  | .ok response => opcodeUnaryResponse :: response
  | .error err => match wireErrorCodec.toAllocvec (.fromRpcError err) with
    | .ok body => opcodeUnaryError :: body
    | .error _ => []

/-- The bytes of the answer to an entry. -/
def answerBytes (c : Inbound) (registry : Registry) : Entry → Bytes
  | .refused none => []
  | .refused (some err) => unaryFrame (.error err)
  | .unary methodName payload => unaryFrame (invoke c registry methodName payload)
  | .streaming openReq => ((answer c registry openReq).map frame).flatten

/-- The framed answer is within the limits of the client's readers. -/
def AnswerFits (c : Inbound) (registry : Registry) : Entry → Prop
  | .refused none => True
  | .refused (some err) => ResponseFits (.error err)
  | .unary methodName payload => ResponseFits (invoke c registry methodName payload)
  | .streaming openReq => ∀ f ∈ answer c registry openReq, BodyFits f

/-- A front of one frame from which the client decodes the result; all of it if no write fails. -/
def UnaryAnswer (fate : Option WriteFate) (result : RpcResult Bytes) (send : SendStream) : Prop :=
  ∃ buf, decodeResponseFrame buf = observed result ∧ buf.length ≤ rpcResponseReadLimit ∧
    send.wire <+: buf ∧ (fate = none → send.wire = buf ∧ send.finished = true)

/-- A front of the frames, cut between two of them or inside one; all of them if no write fails. -/
def StreamingAnswer (fate : Option WriteFate) (fs : List StreamingFrame) (send : SendStream) :
    Prop :=
  (framesIn send.wire).1 <+: fs ∧
    ((framesIn send.wire).2 = .eof ∨
      ∃ reason, (framesIn send.wire).2 = .failed (.transportRead reason)) ∧
    (fate = none → framesIn send.wire = (fs, .eof))

/-- What the client's readers make of the bytes that answer an entry. -/
def ReadBack (c : Inbound) (registry : Registry) (fate : Option WriteFate) :
    Entry → SendStream → Prop
  | .refused none, send => send.wire = []
  | .refused (some err), send => UnaryAnswer fate (.error err) send
  | .unary methodName payload, send =>
      UnaryAnswer fate (invoke c registry methodName payload) send
  | .streaming openReq, send =>
      ∃ fs, Answers c registry openReq fs ∧ StreamingAnswer fate fs send

variable {c : Inbound} {registry : Registry} {fate : Option WriteFate}

/-! ### One frame -/

omit [Deps] in
theorem writeBuf_fresh (reason : String → String) (buf : Bytes) :
    (writeBuf reason (SendStream.fresh fate) buf).2.wire <+: buf ∧
      (fate = none → ∃ send, writeBuf reason (SendStream.fresh fate) buf = (.ok (), send) ∧
        send.wire = buf) := by
  obtain ⟨send, h, hlog, -⟩ | ⟨e, k, send, h, hlog, hfate⟩ :=
    writeBuf_cases reason (SendStream.fresh fate) buf
  · have hwire : send.wire = buf := by
      unfold SendStream.wire
      rw [hlog]
      simp [SendStream.fresh]
    rw [h]
    exact ⟨hwire ▸ List.prefix_refl _, fun _ => ⟨send, rfl, hwire⟩⟩
  · have hwire : send.wire = buf.take k := by
      unfold SendStream.wire
      rw [hlog]
      simp [SendStream.fresh]
    rw [h]
    exact ⟨hwire ▸ List.take_prefix k buf, fun hnone => absurd hnone hfate⟩

omit [Deps] in
theorem finish_fresh {buf : Bytes} {r : RpcResult Unit} {sent send : SendStream}
    (h : writeBuf id (SendStream.fresh fate) buf = (r, sent))
    (hok : r = .ok () → send = sent.finish) (herr : ∀ e, r = .error e → send = sent) :
    send.wire <+: buf ∧ (fate = none → send.wire = buf ∧ send.finished = true) := by
  obtain ⟨hfront, hall⟩ : (writeBuf id (SendStream.fresh fate) buf).2.wire <+: buf ∧ _ :=
    writeBuf_fresh id buf
  rw [h] at hfront hall
  cases r with
  | ok u =>
      obtain rfl := hok rfl
      refine ⟨hfront, fun hnone => ?_⟩
      obtain ⟨_, heq, hwire⟩ := hall hnone
      cases heq
      exact ⟨hwire, rfl⟩
  | error e =>
      obtain rfl := herr e rfl
      refine ⟨hfront, fun hnone => ?_⟩
      obtain ⟨_, heq, -⟩ := hall hnone
      cases heq

theorem respondUnary_front (fate : Option WriteFate) (result : RpcResult Bytes) :
    (respondUnary (SendStream.fresh fate) result).wire <+: unaryFrame result ∧
      (unaryFrame result ≠ [] → fate = none →
        (respondUnary (SendStream.fresh fate) result).wire = unaryFrame result ∧
          (respondUnary (SendStream.fresh fate) result).finished = true) := by
  cases result with
  | ok r =>
      rcases hsent : writeBuf id (SendStream.fresh fate) (opcodeUnaryResponse :: r) with ⟨r', sent⟩
      have hok : r' = .ok () → respondUnary (SendStream.fresh fate) (.ok r) = sent.finish := by
        rintro rfl
        simp only [respondUnary, writeResponse, hsent]
      have herr : ∀ e, r' = .error e → respondUnary (SendStream.fresh fate) (.ok r) = sent := by
        rintro e rfl
        simp only [respondUnary, writeResponse, hsent]
      obtain ⟨hfront, hwhole⟩ := finish_fresh hsent hok herr
      exact ⟨hfront, fun _ => hwhole⟩
  | error e =>
      cases henc : wireErrorCodec.toAllocvec (.fromRpcError e) with
      | error _ =>
          simp only [respondUnary, writeError, henc, unaryFrame]
          exact ⟨List.prefix_rfl, fun hne => absurd rfl hne⟩
      | ok body =>
          rcases hsent : writeBuf id (SendStream.fresh fate) (opcodeUnaryError :: body) with
            ⟨r', sent⟩
          have hframe : unaryFrame (.error e) = opcodeUnaryError :: body := by
            simp only [unaryFrame, henc]
          have hok : r' = .ok () →
              respondUnary (SendStream.fresh fate) (.error e) = sent.finish := by
            rintro rfl
            simp only [respondUnary, writeError, henc, hsent]
          have herr : ∀ e', r' = .error e' →
              respondUnary (SendStream.fresh fate) (.error e) = sent := by
            rintro e' rfl
            simp only [respondUnary, writeError, henc, hsent]
          obtain ⟨hfront, hwhole⟩ := finish_fresh hsent hok herr
          rw [hframe]
          exact ⟨hfront, fun _ => hwhole⟩

theorem respondUnary_answers (hw : EnvelopeCodec) {result : RpcResult Bytes}
    (hfits : ResponseFits result) :
    UnaryAnswer fate result (respondUnary (SendStream.fresh fate) result) := by
  obtain ⟨hfront, hwhole⟩ := respondUnary_front fate result
  cases result with
  | ok r => exact ⟨opcodeUnaryResponse :: r, rfl, hfits, hfront, hwhole (List.cons_ne_nil _ _)⟩
  | error e =>
      obtain ⟨body, henc, hlen⟩ := hfits
      have hframe : unaryFrame (.error e) = opcodeUnaryError :: body := by
        simp only [unaryFrame, henc]
      have hdecoded : decodeResponseFrame (opcodeUnaryError :: body) = observed (.error e) := by
        have hop : ¬ opcodeUnaryError = opcodeUnaryResponse := by decide
        simp only [decodeResponseFrame, if_neg hop, if_true, hw.roundTrips _ _ henc, observed]
      have hlimit : (opcodeUnaryError :: body).length ≤ rpcResponseReadLimit := by
        simp only [List.length_cons, rpcResponseReadLimit] at hlen ⊢
        omega
      rw [hframe] at hfront hwhole
      exact ⟨opcodeUnaryError :: body, hdecoded, hlimit, hfront, hwhole (List.cons_ne_nil _ _)⟩

/-! ### A stream of frames -/

theorem serve_streaming_log (send : SendStream) (openReq : StreamingOpenRequest) :
    (serve c registry send (.streaming openReq)).log =
      (writeFrames send (answer c registry openReq)).2.log := by
  simp only [serve]
  rcases hw : writeOpenResponse send (ack registry openReq) with ⟨_ | _, send₁⟩
  · simp [negotiated, hw, answer, writeFrames, writeFrame]
  · cases hl : registry.lookupStreaming openReq.methodName with
    | none => simp [negotiated, hw, hl, answer, writeFrames, writeFrame]
    | some handler =>
        have hrun : runStreamingHandler send₁ (handler (buildInboundContext c)) = _ :=
          drain_finalise send₁ _ _
        simp only [negotiated, hw, hl]
        rw [hrun, SendStream.log_finish]
        simp [answer, writeFrames, writeFrame, hw, hl]

omit [Deps] in
theorem wire_append {send send' : SendStream} {buf : Bytes} {accepted : ℕ} {ok : Bool}
    (h : send'.log = send.log ++ [⟨buf, accepted, ok⟩]) :
    send'.wire = send.wire ++ buf.take accepted := by
  unfold SendStream.wire
  rw [h]
  simp

/-- Frames that are written until one fails are a front of their bytes. -/
theorem writeFrames_front (fs : List StreamingFrame) (send : SendStream) :
    (writeFrames send fs).2.wire <+: send.wire ++ (fs.map frame).flatten := by
  induction fs generalizing send with
  | nil => exact List.prefix_append _ _
  | cons f fs ih =>
      rw [List.map_cons, List.flatten_cons]
      obtain ⟨buf, send', hbytes, hwrite, hlog, -⟩ | ⟨buf, e, k, send', hbytes, hwrite, hlog, -⟩ |
        ⟨e, -, hwrite⟩ := writeFrame_cases send f
      · have hwire := wire_append hlog
        rw [List.take_length] at hwire
        have hframe : frame f = buf := by
          rw [frame, hbytes]
        have hrest := ih send'
        rw [hwire, List.append_assoc, ← hframe] at hrest
        simp only [writeFrames, hwrite]
        exact hrest
      · have hframe : frame f = buf := by
          rw [frame, hbytes]
        simp only [writeFrames, hwrite]
        rw [wire_append hlog, hframe, List.prefix_append_right_inj]
        exact (List.take_prefix k buf).trans (List.prefix_append _ _)
      · simp only [writeFrames, hwrite]
        exact List.prefix_append _ _

theorem exactFrame_frame (hc : BodiesRoundTrip) {fs : List StreamingFrame}
    (hfit : ∀ f ∈ fs, BodyFits f) :
    List.Forall₂ (fun f bs => ExactFrame readStreamingFrame bs f IsTransportRead) fs
      (fs.map frame) := by
  induction fs with
  | nil => exact .nil
  | cons f fs ih =>
      obtain ⟨hf, hfs⟩ := List.forall_mem_cons.mp hfit
      obtain ⟨bs, hbs, hexact⟩ := exactFrame_readStreamingFrame hc hf
      have hframe : frame f = bs := by
        rw [frame, hbs]
      exact .cons (hframe ▸ hexact) (ih hfs)

/-- The client's reader of frames, on a front of them. -/
theorem framesIn_front (hc : BodiesRoundTrip) {fs : List StreamingFrame}
    (hfit : ∀ f ∈ fs, BodyFits f) {bs : Bytes} (h : bs <+: (fs.map frame).flatten) :
    (framesIn bs).1 <+: fs ∧
      ((framesIn bs).2 = .eof ∨ ∃ reason, (framesIn bs).2 = .failed (.transportRead reason)) ∧
      (bs = (fs.map frame).flatten → framesIn bs = (fs, .eof)) := by
  have htake : bs = (fs.map frame).flatten.take bs.length := List.prefix_iff_eq_take.mp h
  obtain ⟨n, fin, hn, hle, hlt, hread, heof, hfail⟩ :=
    readFrames_cut readStreamingFrame_nil_finished (exactFrame_frame hc hfit) bs.length
      (bs.length + 1) h.length_le (Nat.lt_succ_self _)
  rw [← htake] at hread
  have hframes : framesIn bs = (fs.take n, fin) := hread
  rw [hframes]
  refine ⟨List.take_prefix n fs, ?_, ?_⟩
  · by_cases hcut : bs.length = ((fs.map frame).take n).flatten.length
    · exact .inl (heof hcut)
    · obtain ⟨e, ⟨reason, rfl⟩, rfl⟩ := hfail hcut
      exact .inr ⟨reason, rfl⟩
  · intro hwhole
    have hall : n = fs.length := by
      by_contra hne
      have hshort := hlt (lt_of_le_of_ne hn hne)
      have hmono := (List.take_prefix (n + 1) (fs.map frame)).flatten.length_le
      rw [hwhole] at hshort
      omega
    subst hall
    rw [List.take_length]
    rw [heof (by rw [hwhole, List.take_of_length_le (by simp)])]

/-! ### The whole substream -/

/-- **What the server writes is a front of one answer**, whatever its size. -/
theorem serve_front (c : Inbound) (registry : Registry) (fate : Option WriteFate) (e : Entry) :
    (serve c registry (SendStream.fresh fate) e).wire <+: answerBytes c registry e := by
  cases e with
  | refused err =>
      cases err with
      | none => exact List.prefix_rfl
      | some err => exact (respondUnary_front fate (.error err)).1
  | unary methodName payload => exact (respondUnary_front fate _).1
  | streaming openReq =>
      have hwire : (serve c registry (SendStream.fresh fate) (.streaming openReq)).wire =
          (writeFrames (SendStream.fresh fate) (answer c registry openReq)).2.wire := by
        unfold SendStream.wire
        rw [serve_streaming_log]
      rw [hwire]
      exact writeFrames_front (answer c registry openReq) (SendStream.fresh fate)

theorem serve_reads_back (hw : EnvelopeCodec) (hc : BodiesRoundTrip) {e : Entry}
    (hfits : AnswerFits c registry e) :
    ReadBack c registry fate e (serve c registry (SendStream.fresh fate) e) := by
  cases e with
  | refused err =>
      cases err with
      | none => rfl
      | some err => exact respondUnary_answers hw hfits
  | unary methodName payload => exact respondUnary_answers hw hfits
  | streaming openReq =>
      refine ⟨answer c registry openReq, answers_answer c registry openReq, ?_⟩
      have hbytes : ∀ f ∈ answer c registry openReq, frameBytes f = .ok (frame f) := by
        intro f hf
        obtain ⟨bs, hbs, -⟩ := exactFrame_readStreamingFrame hc (hfits f hf)
        rw [frame, hbs]
      obtain ⟨log, hlog, -, hall⟩ := writeFrames_inOrder hbytes (SendStream.fresh fate)
      have hserved : (serve c registry (SendStream.fresh fate) (.streaming openReq)).log = log := by
        rw [serve_streaming_log, hlog]
        rfl
      obtain ⟨hfront, hend, hwhole⟩ := framesIn_front hc hfits
        (serve_front c registry fate (.streaming openReq))
      refine ⟨hfront, hend, fun hnone => hwhole ?_⟩
      exact wire_of_log (hserved.trans (hall hnone))

/-- **Whatever a peer sends, the server answers well.**  For any bytes in any pieces, ended in any
way, a substream is read as one entry, or waits for more of a stream that has not ended.  What the
server then writes is, whatever write fails, a front of one answer.  If that is within the limits of
the client's readers, the client decodes it to the handler's result or to the error, or reads the
frames of the answer grammar back, cut between two of them or inside one. -/
theorem inboundSubstream_answers (hw : EnvelopeCodec) (hc : BodiesRoundTrip) (c : Inbound)
    (registry : Registry) (fate : Option WriteFate) (t : StreamEnd) (frags : List Bytes) :
    (feed entry t [] frags = .pending ∧ t = .live ∧
      feed (handleInboundSubstream c registry (SendStream.fresh fate)) t [] frags = .pending) ∨
    ∃ e send, feed entry t [] frags = .ready (.ok e) ∧
      feed (handleInboundSubstream c registry (SendStream.fresh fate)) t [] frags =
        .ready (.ok send) ∧
      send.wire <+: answerBytes c registry e ∧
      (AnswerFits c registry e → ReadBack c registry fate e send) := by
  have hstable := (regular_handleInboundSubstream c registry (SendStream.fresh fate)).stable
  rw [feed_eq regular_entry.stable, feed_eq hstable, List.nil_append, handleInboundSubstream_eq]
  simp only [feed]
  cases hentry : entry ⟨frags.flatten, t⟩ with
  | pending =>
      refine .inl ⟨rfl, ?_, ?_⟩
      · by_contra hlive
        exact settles_entry _ hlive hentry
      · rw [ReadM.bind_pending _ hentry]
  | ready r =>
      obtain e | ⟨e, recv⟩ := r
      · exact e.elim
      · refine .inr ⟨e, serve c registry (SendStream.fresh fate) e, rfl, ?_,
          serve_front c registry fate e, fun hfits => serve_reads_back hw hc hfits⟩
        rw [ReadM.bind_ok _ hentry]
        rfl

end server

section reference

attribute [local instance] reference

/-- A streaming open in three pieces, and an answer the second write of which fails. -/
theorem inboundSubstream_answers_halting :
    ∃ send, feed (handleInboundSubstream anyInbound haltingRegistry
        (SendStream.fresh (some ⟨1, 2, ⟨"stopped"⟩⟩))) .live [] [[0x10], [7, 5, 97], [47, 98, 47,
          99, 7]] = .ready (.ok send) ∧
      ReadBack anyInbound haltingRegistry (some ⟨1, 2, ⟨"stopped"⟩⟩)
        (.streaming ⟨"a/b/c", 7⟩) send := by
  have hentry : feed entry .live [] [[0x10], [7, 5, 97], [47, 98, 47, 99, 7]] =
      .ready (.ok (.streaming ⟨"a/b/c", 7⟩)) := by decide +kernel
  have hanswer : answer anyInbound haltingRegistry ⟨"a/b/c", 7⟩ =
      [.openResponse ⟨.ok, 7⟩, .responseChunk [1],
        .error (handlerErrToTerminal .alreadyServing)] := by decide +kernel
  have hfits : AnswerFits anyInbound haltingRegistry (.streaming ⟨"a/b/c", 7⟩) := by
    unfold AnswerFits
    dsimp only
    rw [hanswer]
    intro f hf
    obtain rfl | rfl | rfl : f = .openResponse ⟨.ok, 7⟩ ∨ f = .responseChunk [1] ∨
        f = .error (handlerErrToTerminal .alreadyServing) := by simpa using hf
    · exact ⟨_, rfl, by decide⟩
    · exact show 1 ≤ maxStreamingPayloadLen by decide
    · exact ⟨_, rfl, by decide⟩
  obtain ⟨hpending, -, -⟩ | ⟨e, send, he, hsend, -, hread⟩ :=
    inboundSubstream_answers envelopeCodec_reference bodiesRoundTrip_reference anyInbound
      haltingRegistry (some ⟨1, 2, ⟨"stopped"⟩⟩) .live [[0x10], [7, 5, 97], [47, 98, 47, 99, 7]]
  · rw [hentry] at hpending
    cases hpending
  · rw [hentry] at he
    cases he
    exact ⟨send, hsend, hread hfits⟩

end reference

section client

variable [Deps]

/-! ### What a caller of `call_streaming` sees -/

/-- What the bytes of a peer are to the caller: the error of the open, or the items of its response
stream. -/
def callView (bs : Bytes) : RpcResult (List (RpcResult Bytes)) :=
  match framesIn bs with
  | ([], .failed e) => .error e
  | (fs, fin) => (ClientRun.openAck fs.head?).map fun _ =>
      Direction.toClient.emitted fs.tail fin

/-- Where a call stands: it waits for the ack, it has returned an error, or it has returned the
channels and left the stream to the pump. -/
inductive Opening where
  | awaiting
  | refused (e : RpcError)
  | opened
deriving DecidableEq, Repr

/-- A call behind its open request, with the response leg of its substream. -/
structure StreamCaller where
  opening : Opening
  leg : Leg (RpcResult Bytes)
deriving DecidableEq, Repr

inductive StreamCallerAct where
  | leg (a : LegAct)
  | readAck
deriving DecidableEq, Repr

namespace StreamCaller

def start (bs : Bytes) : StreamCaller := ⟨.awaiting, Leg.opened bs true⟩

/-- Before the call has returned there are neither a pump nor a consumer; bytes arrive. -/
def allows : Opening → LegAct → Bool
  | .opened, _ => true
  | .awaiting, .deliver _ | .awaiting, .deliverFin => true
  | _, _ => false

def step : StreamCallerAct → StreamCaller → Option StreamCaller
  | .leg a, s =>
      if allows s.opening a then
        (Leg.step pumpInboundResponses channelCapacity a s.leg).map fun l => ⟨s.opening, l⟩
      else none
  | .readAck, s => match s.opening with
    | .awaiting => match readStreamingFrame s.leg.recv with
      | .pending => none
      | .ready (.error e) => some ⟨.refused e, s.leg⟩
      | .ready (.ok (ackFrame, recv)) => match ClientRun.openAck ackFrame with
        | .error e => some ⟨.refused e, s.leg⟩
        | .ok () => some ⟨.opened, { s.leg with recv := recv }⟩
    | _ => none

/-- The caller keeps its response stream, and nobody aborts the pump. -/
def Keeps : StreamCallerAct → StreamCaller → Prop
  | .leg a, s => Leg.Keeps a s.leg
  | .readAck, _ => True

/-! ### The bytes on their way -/

/-- The bytes of the peer are there or on their way, and none has been read. -/
structure Waiting (bs : Bytes) (l : Leg (RpcResult Bytes)) : Prop where
  on : Leg.OnBytes pumpInboundResponses bs l
  reading : l.pump = .reading
  bytes : l.recv.buf ++ l.inflight = bs
  nothing : l.got = [] ∧ l.queue = []

/-- What holds in every state of a run on the bytes of a peer. -/
def OnPeerBytes (bs : Bytes) (s : StreamCaller) : Prop :=
  match s.opening with
  | .awaiting => Waiting bs s.leg
  | .refused e => callView bs = .error e
  | .opened => ∃ rest, callView bs = .ok (Direction.toClient.emits rest) ∧
      Leg.OnBytes pumpInboundResponses rest s.leg

section view

variable {bs rest : Bytes} {e : RpcError}

theorem framesIn_none {recv : RecvStream}
    (h : readStreamingFrame ⟨bs, .finished⟩ = .ready (.ok (none, recv))) :
    framesIn bs = ([], .eof) :=
  readFrames_none _ h

theorem callView_error (h : readStreamingFrame ⟨bs, .finished⟩ = .ready (.error e)) :
    callView bs = .error e := by
  unfold callView
  rw [framesIn_error h]

theorem callView_frame {ackFrame : Option StreamingFrame}
    (h : readStreamingFrame ⟨bs, .finished⟩ = .ready (.ok (ackFrame, ⟨rest, .finished⟩))) :
    callView bs = (ClientRun.openAck ackFrame).map fun _ => Direction.toClient.emits rest := by
  cases ackFrame with
  | none =>
      unfold callView
      rw [framesIn_none h]
      rfl
  | some f =>
      unfold callView
      rw [framesIn_frame h]
      rfl

end view

/-! ### The run on the bytes of a peer -/

section run

variable {bs : Bytes} {s s' : StreamCaller} {a : StreamCallerAct}

theorem onPeerBytes_start (bs : Bytes) : OnPeerBytes bs (start bs) where
  on := Leg.onBytes_opened pumpInboundResponses bs
  reading := rfl
  bytes := rfl
  nothing := ⟨rfl, rfl⟩

/-- A read that comes to a result on the bytes that are there comes to it on all of them. -/
theorem Waiting.read_whole {l : Leg (RpcResult Bytes)} (hl : Waiting bs l)
    {r : Except RpcError (Option StreamingFrame × RecvStream)}
    (h : readStreamingFrame l.recv = .ready r) :
    readStreamingFrame ⟨bs, .finished⟩ = .ready (extend l.inflight .finished r) := by
  have hbytes := hl.bytes
  have htidy := hl.on.tidy.tail
  cases hrecv : l.recv with
  | mk buf tail =>
      rw [hrecv] at h hbytes htidy
      dsimp only at hbytes htidy
      obtain rfl | ⟨rfl, -, hnone⟩ := htidy
      · have hwhole := (regular_readStreamingFrame.stable buf l.inflight .finished r h).1
        rw [hbytes] at hwhole
        exact hwhole
      · rw [hnone, List.append_nil] at hbytes
        rw [← hbytes, hnone, h]
        cases r with
        | error e => rfl
        | ok p =>
            obtain ⟨ackFrame, ⟨rest, t⟩⟩ := p
            obtain ⟨-, -, ht⟩ := regular_readStreamingFrame.suffix _ _ _ h
            dsimp only at ht
            simp [extend, ht]

theorem Waiting.arrive {l l' : Leg (RpcResult Bytes)} (hl : Waiting bs l) {a : LegAct}
    (ha : allows .awaiting a = true) (h : Leg.step pumpInboundResponses channelCapacity a l =
      some l') : Waiting bs l' := by
  cases a with
  | deliver n =>
      have hon := hl.on.step (by rintro ⟨⟩) h
      obtain ⟨-, -, -, rfl⟩ := Leg.step_deliver_iff.mp h
      refine ⟨hon, hl.reading, ?_, hl.nothing⟩
      dsimp only
      rw [List.append_assoc, List.take_append_drop]
      exact hl.bytes
  | deliverFin =>
      have hon := hl.on.step (by rintro ⟨⟩) h
      obtain ⟨-, -, -, -, rfl⟩ := Leg.step_deliverFin_iff.mp h
      exact ⟨hon, hl.reading, hl.bytes, hl.nothing⟩
  | _ => cases ha

theorem Waiting.open {l : Leg (RpcResult Bytes)} (hl : Waiting bs l)
    {ackFrame : Option StreamingFrame} {recv : RecvStream}
    (h : readStreamingFrame l.recv = .ready (.ok (ackFrame, recv))) :
    Leg.OnBytes pumpInboundResponses (recv.buf ++ l.inflight) { l with recv := recv } := by
  obtain ⟨-, -, htail⟩ := regular_readStreamingFrame.suffix _ _ _ h
  refine ⟨⟨?_, hl.on.tidy.queue, hl.on.tidy.ended⟩, hl.on.kept, hl.on.closed, ?_⟩
  · dsimp only
    rw [htail]
    exact hl.on.tidy.tail
  · unfold Leg.outlook
    dsimp only
    rw [hl.nothing.1, hl.nothing.2, hl.reading]
    simp [Pump.upstream]

theorem readAck_cases (h : step .readAck s = some s') :
    s.opening = .awaiting ∧
    ((∃ e, readStreamingFrame s.leg.recv = .ready (.error e) ∧ s' = ⟨.refused e, s.leg⟩) ∨
    ∃ ackFrame recv, readStreamingFrame s.leg.recv = .ready (.ok (ackFrame, recv)) ∧
      ((∃ e, ClientRun.openAck ackFrame = .error e ∧ s' = ⟨.refused e, s.leg⟩) ∨
        ClientRun.openAck ackFrame = .ok () ∧ s' = ⟨.opened, { s.leg with recv := recv }⟩)) := by
  obtain ⟨opening, l⟩ := s
  unfold step at h
  dsimp only at h
  cases opening with
  | awaiting =>
      refine ⟨rfl, ?_⟩
      dsimp only at h ⊢
      cases hread : readStreamingFrame l.recv with
      | pending =>
          rw [hread] at h
          cases h
      | ready r =>
          rw [hread] at h
          obtain e | ⟨ackFrame, recv⟩ := r
          · cases h
            exact .inl ⟨e, rfl, rfl⟩
          · refine .inr ⟨ackFrame, recv, rfl, ?_⟩
            dsimp only at h
            cases hack : ClientRun.openAck ackFrame with
            | error e =>
                rw [hack] at h
                cases h
                exact .inl ⟨e, rfl, rfl⟩
            | ok u =>
                rw [hack] at h
                cases h
                exact .inr ⟨rfl, rfl⟩
  | _ => cases h

theorem OnPeerBytes.readAck (hs : OnPeerBytes bs s) (h : step .readAck s = some s') :
    OnPeerBytes bs s' := by
  obtain ⟨hopening, hcases⟩ := readAck_cases h
  unfold OnPeerBytes at hs
  rw [hopening] at hs
  have hl : Waiting bs s.leg := hs
  obtain ⟨e, hread, rfl⟩ | ⟨ackFrame, recv, hread, ⟨e, hack, rfl⟩ | ⟨hack, rfl⟩⟩ := hcases
  · exact callView_error (hl.read_whole hread)
  · have hview := callView_frame (hl.read_whole hread)
    rw [hack] at hview
    exact hview
  · have hview := callView_frame (hl.read_whole hread)
    rw [hack] at hview
    exact ⟨recv.buf ++ s.leg.inflight, hview, hl.open hread⟩

theorem OnPeerBytes.step (hs : OnPeerBytes bs s) (ha : Keeps a s)
    (h : StreamCaller.step a s = some s') : OnPeerBytes bs s' := by
  cases a with
  | readAck => exact hs.readAck h
  | leg a =>
      obtain ⟨opening, l⟩ := s
      unfold StreamCaller.step at h
      dsimp only at h
      split_ifs at h with hallowed
      obtain ⟨l', hl', rfl⟩ := Option.map_eq_some_iff.mp h
      cases opening with
      | awaiting => exact Waiting.arrive hs hallowed hl'
      | refused e => cases hallowed
      | opened =>
          obtain ⟨rest, hview, hon⟩ := hs
          exact ⟨rest, hview, hon.step ha hl'⟩

theorem exists_readAck (hopening : s.opening = .awaiting) (hfin : s.leg.recv.tail = .finished) :
    ∃ s', StreamCaller.step .readAck s = some s' := by
  have hready : readStreamingFrame s.leg.recv ≠ .pending := by
    have hsettles := regular_readStreamingFrame.settles s.leg.recv.buf
    rw [← hfin] at hsettles
    exact hsettles
  unfold StreamCaller.step
  dsimp only
  rw [hopening]
  dsimp only
  cases hread : readStreamingFrame s.leg.recv with
  | pending => exact absurd hread hready
  | ready r =>
      obtain e | ⟨ackFrame, recv⟩ := r
      · exact ⟨_, rfl⟩
      · dsimp only
        cases ClientRun.openAck ackFrame <;> exact ⟨_, rfl⟩

/-- Where no step is left, the call has returned its error or the caller has seen the end. -/
theorem OnPeerBytes.stuck (hs : OnPeerBytes bs s)
    (h : ∀ a, Keeps a s → StreamCaller.step a s = none) :
    (∃ e, s.opening = .refused e) ∨ s.opening = .opened ∧ s.leg.ended = true := by
  obtain ⟨opening, l⟩ := s
  have hleg : ∀ a, Leg.Keeps a l → allows opening a = true →
      Leg.step pumpInboundResponses channelCapacity a l = none := by
    intro a ha hallowed
    have hnone := h (.leg a) ha
    unfold StreamCaller.step at hnone
    dsimp only at hnone
    rw [if_pos hallowed] at hnone
    exact Option.map_eq_none_iff.mp hnone
  cases opening with
  | refused e => exact .inl ⟨e, rfl⟩
  | opened =>
      obtain ⟨rest, -, hon⟩ := hs
      exact .inr ⟨rfl, hon.stuck channelCapacity_pos fun a ha => hleg a ha rfl⟩
  | awaiting =>
      exfalso
      have hl : Waiting bs l := hs
      have hin : l.inflight = [] := by
        by_contra hne
        have hnone := hleg (.deliver l.inflight.length) (by rintro ⟨⟩) rfl
        rw [Leg.step_deliver_iff.mpr
          ⟨hl.reading, List.length_pos_iff.mpr hne, le_refl _, rfl⟩] at hnone
        cases hnone
      obtain hlive | ⟨hfin, -, -⟩ := hl.on.tidy.tail
      · have hnone := hleg .deliverFin (by rintro ⟨⟩) rfl
        rw [Leg.step_deliverFin_iff.mpr ⟨hl.reading, hl.on.closed, hin, hlive, rfl⟩] at hnone
        cases hnone
      · obtain ⟨s', hs'⟩ := exists_readAck (s := ⟨.awaiting, l⟩) rfl hfin
        rw [h .readAck trivial] at hs'
        cases hs'

/-- What is left to do: the ack, and what is left of the response leg. -/
def weight (s : StreamCaller) : ℕ := s.leg.weight + if s.opening = .awaiting then 1 else 0

theorem weight_step (ha : Keeps a s) (h : StreamCaller.step a s = some s') :
    s'.weight < s.weight := by
  cases a with
  | leg a =>
      obtain ⟨opening, l⟩ := s
      unfold StreamCaller.step at h
      dsimp only at h
      split_ifs at h
      obtain ⟨l', hl', rfl⟩ := Option.map_eq_some_iff.mp h
      have hlt : l'.weight < l.weight := by
        apply Leg.weight_step hl'
        rintro rfl
        exact ha trivial
      unfold weight
      dsimp only
      omega
  | readAck =>
      obtain ⟨hopening, hcases⟩ := readAck_cases h
      unfold weight
      rw [hopening]
      obtain ⟨e, -, rfl⟩ | ⟨ackFrame, recv, hread, ⟨e, -, rfl⟩ | ⟨-, rfl⟩⟩ := hcases
      · simp
      · simp
      · obtain ⟨used, hused, htail⟩ := regular_readStreamingFrame.suffix _ _ _ hread
        have hlen := congrArg List.length hused
        rw [List.length_append] at hlen
        unfold Leg.weight
        dsimp only
        rw [htail]
        simp only [reduceCtorEq, if_true, if_false]
        omega

/-- **Whatever a peer sends, a caller of `call_streaming` sees it through.**  On any bytes and the
end of the stream behind them, in any pieces and any order of steps of the transport, the call, the
pump and the caller: the call fails only with the error that `callView` makes of the bytes, and if
it returns the channels the caller reads a front of the items of `callView`, and all of them once it
has seen the end.  Every run is finite, and where no step is left the call has failed or the caller
has seen the end. -/
theorem callStreaming_views (bs : Bytes) (as : List StreamCallerAct) (s : StreamCaller)
    (hruns : Runs StreamCaller.step Keeps as (start bs) s) :
    (∀ e, s.opening = .refused e → callView bs = .error e) ∧
    (s.opening = .opened → ∃ items, callView bs = .ok items ∧
      s.leg.got ++ s.leg.queue <+: items ∧
      (s.leg.ended = true → s.leg.pump = .done ∧ s.leg.got = items)) ∧
    ((∀ a, Keeps a s → StreamCaller.step a s = none) →
      (∃ e, s.opening = .refused e) ∨ s.opening = .opened ∧ s.leg.ended = true) ∧
    as.length ≤ (start bs).weight := by
  have hs : OnPeerBytes bs s :=
    hruns.invariant (fun _ _ _ ha hs h => hs.step ha h) (onPeerBytes_start bs)
  refine ⟨?_, ?_, hs.stuck, ?_⟩
  · intro e he
    unfold OnPeerBytes at hs
    rw [he] at hs
    exact hs
  · intro hopened
    unfold OnPeerBytes at hs
    rw [hopened] at hs
    obtain ⟨rest, hview, hon⟩ := hs
    have hforwards : pumpInboundResponses.forwards rest = Direction.toClient.emits rest :=
      forwards_eq_emits .toClient rest
    rw [← hforwards] at hview
    exact ⟨_, hview, hon.forwarded, hon.ended⟩
  · have hle : as.length + s.weight ≤ (start bs).weight :=
      hruns.length_add_le (fun _ _ _ _ _ _ => trivial) (fun _ _ _ ha _ h => weight_step ha h)
        trivial
    omega

end run

end StreamCaller

end client

section reference

attribute [local instance] reference

/-- An ack, a chunk, and a chunk of the wrong direction. -/
def misdirected : Bytes := [0x11, 0x02, 0x00, 0x07, 0x21, 0x01, 0x07, 0x20, 0x01, 0x08]

def misdirectedRun : List StreamCallerAct :=
  [.leg (.deliver 3), .leg (.deliver 7), .readAck, .leg .read, .leg .send, .leg .read, .leg .send,
    .leg .take, .leg .take, .leg .takeNone]

theorem callStreaming_views_misdirected :
    ∃ s items, run StreamCaller.step misdirectedRun (StreamCaller.start misdirected) = some s ∧
      callView misdirected = .ok items ∧ s.leg.got = items := by
  obtain ⟨s, hs⟩ : ∃ s, run StreamCaller.step misdirectedRun (StreamCaller.start misdirected) =
      some s := Option.isSome_iff_exists.mp (by decide +kernel)
  have hend : s.opening = .opened ∧ s.leg.ended = true := by
    have : (run StreamCaller.step misdirectedRun (StreamCaller.start misdirected)).map
        (fun s => (s.opening, s.leg.ended)) = some (.opened, true) := by
      decide +kernel
    rw [hs] at this
    simpa using this
  have hkeeps : ∀ a ∈ misdirectedRun, ∀ s, StreamCaller.Keeps a s := by
    simp [misdirectedRun, StreamCaller.Keeps, Leg.Keeps, Leg.Loses]
  obtain ⟨-, hopened, -⟩ :=
    StreamCaller.callStreaming_views misdirected misdirectedRun s (runs_of_run hs hkeeps)
  obtain ⟨items, hview, -, hall⟩ := hopened hend.1
  exact ⟨s, items, hs, hview, (hall hend.2).2⟩

end reference

end NerwRpc
