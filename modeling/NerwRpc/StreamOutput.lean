import NerwRpc.FrameCodec
import NerwRpc.Server

/-! # What the server writes on a streaming substream

`answer` is the list of frames a streaming open is answered with: one refusal, or the ack, the
chunks before the first error and one closing frame.

* `handleStreamingSubstream_eq`: the substream writes the frames of `answer` in order until a
  write fails.
* `streamingSubstream_output`: so whatever write fails, what is written is a prefix of the
  grammar, and nothing is attempted behind a failed write or a closing frame. -/

namespace NerwRpc

open ByteStream

section output

variable [Deps]

/-- The ack of a streaming open. -/
def ack (registry : Registry) (openReq : StreamingOpenRequest) : StreamingOpenResponse :=
  match registry.lookupStreaming openReq.methodName with
  | none => ⟨.err ("unknown streaming method: " ++ openReq.methodName), openReq.requestId⟩
  | some _ => ⟨.ok, openReq.requestId⟩

/-- The frames that answer a streaming open. -/
def answer (c : Inbound) (registry : Registry) (openReq : StreamingOpenRequest) :
    List StreamingFrame :=
  .openResponse (ack registry openReq) ::
    match registry.lookupStreaming openReq.methodName with
    | none => []
    | some handler =>
        let b := handler (buildInboundContext c)
        streamFrames b.outcome b.items

/-! ### The frames are written in order until a write fails -/

theorem drain_finalise (send : SendStream) (outcome : Outcome) (items : List (RpcResult Bytes)) :
    (runStreamingHandler send ⟨items, outcome⟩) =
      (writeFrames send (streamFrames outcome items)).2.finish := by
  induction items generalizing send with
  | nil =>
      simp only [runStreamingHandler, drainHandlerResponses, Bool.false_eq_true, if_false,
        finaliseStreaming_eq, streamFrames, writeFrames]
      rcases writeFrame send (closingFrame outcome) with ⟨_ | _, send'⟩ <;> rfl
  | cons item items ih =>
      cases item with
      | ok chunk =>
          rcases hw : writeResponseChunk send chunk with ⟨_ | _, send'⟩
          · simp [runStreamingHandler, drainHandlerResponses, streamFrames, writeFrames, itemFrame,
              writeFrame, hw]
          · have := ih send'
            simpa [runStreamingHandler, drainHandlerResponses, streamFrames, writeFrames, itemFrame,
              writeFrame, hw, isTerminal] using this
      | error err =>
          rcases hw : writeStreamingError send (handlerErrToTerminal err) with ⟨_ | _, send'⟩ <;>
            simp [runStreamingHandler, drainHandlerResponses, streamFrames, writeFrames, itemFrame,
              writeFrame, hw, isTerminal]

/-- What the negotiation makes of an open request. -/
def negotiated (c : Inbound) (registry : Registry) (send : SendStream)
    (openReq : StreamingOpenRequest) : Option (StreamingMethodHandler × RpcContext) × SendStream :=
  match writeOpenResponse send (ack registry openReq), registry.lookupStreaming openReq.methodName with
  | (.error _, send), _ => (none, send)
  | (.ok (), send), none => (none, send.finish)
  | (.ok (), send), some handler => (some (handler, buildInboundContext c), send)

variable {c : Inbound} {registry : Registry} {recv recv' : RecvStream}
  {openReq : StreamingOpenRequest}

theorem streamingNegotiateOpen_ok (send : SendStream)
    (hopen : readStreamingFrameAfterOpcode opcodeStreamingOpenRequest recv =
      .ready (.ok (.openRequest openReq, recv'))) :
    streamingNegotiateOpen c registry send recv =
      .ready (.ok (negotiated c registry send openReq, recv')) := by
  rw [streamingNegotiateOpen, ReadM.bind_ok _ (ReadM.attempt_ok hopen)]
  cases hl : registry.lookupStreaming openReq.methodName with
  | none =>
      rcases hw : writeOpenResponse send (ack registry openReq) with ⟨_ | _, send'⟩ <;>
        simp only [ack, hl] at hw <;> simp only [hl, hw, negotiated, ack] <;> rfl
  | some handler =>
      rcases hw : writeOpenResponse send (ack registry openReq) with ⟨_ | _, send'⟩ <;>
        simp only [ack, hl] at hw <;> simp only [hl, hw, negotiated, ack] <;> rfl

/-- **The substream writes its answer in order until a write fails.** -/
theorem handleStreamingSubstream_eq (send : SendStream)
    (hopen : readStreamingFrameAfterOpcode opcodeStreamingOpenRequest recv =
      .ready (.ok (.openRequest openReq, recv'))) :
    ∃ send', handleStreamingSubstream c registry send recv = .ready (.ok (send', recv')) ∧
      send'.log = (writeFrames send (answer c registry openReq)).2.log := by
  rw [handleStreamingSubstream, ReadM.bind_ok _ (streamingNegotiateOpen_ok send hopen)]
  rcases hw : writeOpenResponse send (ack registry openReq) with ⟨_ | _, send₁⟩
  · exact ⟨send₁, by simp [negotiated, hw], by simp [answer, writeFrames, writeFrame, hw]⟩
  · cases hl : registry.lookupStreaming openReq.methodName with
    | none =>
        exact ⟨send₁.finish, by simp [negotiated, hw, hl],
          by simp [answer, writeFrames, writeFrame, hw, hl]⟩
    | some handler =>
        refine ⟨runStreamingHandler send₁ (handler (buildInboundContext c)),
          by simp [negotiated, hw, hl], ?_⟩
        rw [drain_finalise]
        simp [answer, writeFrames, writeFrame, hw, hl]

/-! ### Writing in order -/

/-- The log of writers that stop at the first failure: the frames of `fs`, or some of them and
one failed attempt of the next. -/
def WrittenInOrder (fs : List StreamingFrame) (log : List WriteAttempt) : Prop :=
  ∃ done failed, log = attempts (done.map frame) ++ failed ∧
    (done = fs ∧ failed = [] ∨
      ∃ f rest accepted, fs = done ++ f :: rest ∧ failed = [⟨frame f, accepted, false⟩])

theorem writeFrames_inOrder {fs : List StreamingFrame}
    (h : ∀ f ∈ fs, frameBytes f = .ok (frame f)) : ∀ send : SendStream,
    ∃ log, (writeFrames send fs).2.log = send.log ++ log ∧ WrittenInOrder fs log ∧
      (send.fate = none → log = attempts (fs.map frame)) := by
  induction fs with
  | nil =>
      intro send
      exact ⟨[], by simp [writeFrames], ⟨[], [], rfl, .inl ⟨rfl, rfl⟩⟩, fun _ => rfl⟩
  | cons f fs ih =>
      intro send
      obtain ⟨hf, hfs⟩ := List.forall_mem_cons.mp h
      rcases writeFrame_cases send f with ⟨buf, send₁, hb, hw, hlog, hfate⟩ |
        ⟨buf, e, k, send₁, hb, hw, hlog, hfate⟩ | ⟨e, he, -⟩
      · obtain rfl := Except.ok.inj (hf.symm.trans hb)
        obtain ⟨log, hlog', ⟨done, failed, rfl, hcase⟩, hall⟩ := ih hfs send₁
        refine ⟨attempts [frame f] ++ (attempts (done.map frame) ++ failed), ?_,
          ⟨f :: done, failed, rfl, ?_⟩, fun hnone => ?_⟩
        · simp only [writeFrames, hw, hlog', hlog]
          simp [attempts]
        · obtain ⟨rfl, rfl⟩ | ⟨g, rest, k, rfl, rfl⟩ := hcase
          · exact .inl ⟨rfl, rfl⟩
          · exact .inr ⟨g, rest, k, rfl, rfl⟩
        · rw [hall (hfate hnone)]
          rfl
      · obtain rfl := Except.ok.inj (hf.symm.trans hb)
        refine ⟨[⟨frame f, k, false⟩], ?_, ⟨[], _, rfl, .inr ⟨f, fs, k, rfl, rfl⟩⟩,
          fun hnone => absurd hnone hfate⟩
        simp only [writeFrames, hw, hlog]
      · rw [hf] at he
        cases he

/-! ### The grammar -/

/-- The closing frame of a behaviour: clean only if the handler sent no error and returned
cleanly, else a terminal error. -/
def IsClosing (b : Behaviour) (f : StreamingFrame) : Prop :=
  (firstError b.items = none ∧ b.outcome = .returned (.ok ()) → f = .responseEnd) ∧
    (¬ (firstError b.items = none ∧ b.outcome = .returned (.ok ())) →
      ∃ message, f = .error ⟨message, true⟩)

theorem streamFrames_grammar (o : Outcome) (items : List (RpcResult Bytes)) :
    ∃ closing, streamFrames o items =
        (Behaviour.chunks ⟨items, o⟩).map .responseChunk ++ [closing] ∧
      IsClosing ⟨items, o⟩ closing := by
  induction items with
  | nil =>
      refine ⟨closingFrame o, rfl, ?_⟩
      rcases o with (e | _) | j <;> simp [IsClosing, closingFrame, firstError, handlerErrToTerminal]
  | cons item items ih =>
      cases item with
      | ok chunk =>
          obtain ⟨closing, heq, hclosing⟩ := ih
          refine ⟨closing, ?_, by simpa [IsClosing, firstError] using hclosing⟩
          simp [streamFrames, isTerminal, heq, itemFrame, Behaviour.chunks, okItems,
            Except.toOption]
      | error err =>
          refine ⟨.error (handlerErrToTerminal err), ?_, ?_⟩
          · simp [streamFrames, isTerminal, itemFrame, Behaviour.chunks, okItems]
          · simp [IsClosing, firstError, handlerErrToTerminal]

/-- The answer of an open request: one refusal, or the ack, the chunks before the first error and
one closing frame. -/
def Answers (c : Inbound) (registry : Registry) (openReq : StreamingOpenRequest)
    (fs : List StreamingFrame) : Prop :=
  match registry.lookupStreaming openReq.methodName with
  | none => ∃ reason, fs = [.openResponse ⟨.err reason, openReq.requestId⟩]
  | some handler => ∃ closing, IsClosing (handler (buildInboundContext c)) closing ∧
      fs = .openResponse ⟨.ok, openReq.requestId⟩ ::
        ((handler (buildInboundContext c)).chunks.map .responseChunk ++ [closing])

theorem answers_answer (c : Inbound) (registry : Registry) (openReq : StreamingOpenRequest) :
    Answers c registry openReq (answer c registry openReq) := by
  unfold Answers answer ack
  cases registry.lookupStreaming openReq.methodName with
  | none => exact ⟨_, rfl⟩
  | some handler =>
      obtain ⟨closing, heq, hclosing⟩ := streamFrames_grammar
        (handler (buildInboundContext c)).outcome (handler (buildInboundContext c)).items
      exact ⟨closing, hclosing, by simp only [heq]⟩

/-- **The output grammar of a streaming substream, under any write failure**: what is written is
the answer of the open request, in order, up to the first failed write; behind that nothing is
attempted, and without one the answer is whole. -/
theorem streamingSubstream_output (fate : Option WriteFate)
    (hopen : readStreamingFrameAfterOpcode opcodeStreamingOpenRequest recv =
      .ready (.ok (.openRequest openReq, recv')))
    (hmem : ∀ f ∈ answer c registry openReq, BodyWithin usizeMax f) :
    ∃ send fs, handleStreamingSubstream c registry (SendStream.fresh fate) recv =
        .ready (.ok (send, recv')) ∧
      Answers c registry openReq fs ∧ WrittenInOrder fs send.log ∧
      (fate = none → send.written = fs.map frame) := by
  obtain ⟨send, hrun, hlog⟩ := handleStreamingSubstream_eq (SendStream.fresh fate) hopen
  obtain ⟨log, hlog', horder, hall⟩ := writeFrames_inOrder (fun f hf => frameBytes_ok (hmem f hf))
    (SendStream.fresh fate)
  have heq : send.log = log := by rw [hlog, hlog']; rfl
  refine ⟨send, answer c registry openReq, hrun, answers_answer c registry openReq, ?_,
    fun hnone => ?_⟩
  · rw [heq]
    exact horder
  · exact written_of_log (heq.trans (hall hnone))

end output

section reference

attribute [local instance] reference

/-- One streaming method, which sends a chunk and an error. -/
def haltingRegistry : Registry :=
  MethodRegistry.empty.insert "a@1/b/c"
    (.streaming fun _ => ⟨[.ok [1], .error .alreadyServing], .returned (.ok ())⟩)
    validateCanonical_pinned

/-- The second write fails half-way through. -/
theorem streamingSubstream_output_halting :
    ∃ send fs, handleStreamingSubstream anyInbound haltingRegistry
        (SendStream.fresh (some ⟨1, 2, ⟨"stopped"⟩⟩)) ⟨[7, 5, 97, 47, 98, 47, 99, 7], .live⟩ =
          .ready (.ok (send, ⟨[], .live⟩)) ∧
      Answers anyInbound haltingRegistry ⟨"a/b/c", 7⟩ fs ∧ WrittenInOrder fs send.log := by
  have hopen : readStreamingFrameAfterOpcode opcodeStreamingOpenRequest
      ⟨[7, 5, 97, 47, 98, 47, 99, 7], .live⟩ =
        .ready (.ok (.openRequest ⟨"a/b/c", 7⟩, ⟨[], .live⟩)) := by decide +kernel
  have hanswer : answer anyInbound haltingRegistry ⟨"a/b/c", 7⟩ =
      [.openResponse ⟨.ok, 7⟩, .responseChunk [1],
        .error (handlerErrToTerminal .alreadyServing)] := by decide +kernel
  have hfits : ∀ f ∈ answer anyInbound haltingRegistry ⟨"a/b/c", 7⟩, BodyWithin usizeMax f := by
    rw [hanswer]
    intro f hf
    obtain rfl | rfl | rfl : f = .openResponse ⟨.ok, 7⟩ ∨ f = .responseChunk [1] ∨
        f = .error (handlerErrToTerminal .alreadyServing) := by simpa using hf
    · exact ⟨_, rfl, by decide⟩
    · exact show 1 ≤ usizeMax by decide
    · exact ⟨_, rfl, by decide⟩
  obtain ⟨send, fs, hrun, hanswers, horder, -⟩ :=
    streamingSubstream_output (some ⟨1, 2, ⟨"stopped"⟩⟩) hopen hfits
  exact ⟨send, fs, hrun, hanswers, horder⟩

end reference

end NerwRpc
