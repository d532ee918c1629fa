import NerwRpc.ClientRuns

/-! # Eviction of stale connections

`call` evicts the cached connection before it returns a failed read or write; `call_streaming`
returns it as it is.  And what `call` evicts is whatever is cached under the peer, whether or not
the connection behind the error is dead, and whether or not it is still the cached one.

* `evicted_before_return`: a failed read or write evicts before the operation returns, as long as
  it is not one of `call_streaming`'s own.
* `only_dead_evicted`: what is evicted is the dead connection of the call itself, as long as no
  live substream fails, no response is too long, and nobody dials a peer that a call is in flight
  to; a step that breaks this opens the way to the eviction of a live connection.

Both conditions are needed: `evicted_before_return_fails`, `only_dead_evicted_fails`. -/

namespace NerwRpc

open ByteStream Transition KeyedHistory

/-! ### Errors that do not evict -/

/-- An error that does not evict the cached connection. -/
def ApplicationError (e : RpcError) : Prop := isTransportIoError e = false

theorem applicationError_intoRpcError (w : WireError) : ApplicationError w.intoRpcError := by
  cases w <;> rfl

theorem failsLive_readByte (n : ℕ) (f : ReadExactError → RpcError) :
    FailsLive ((readExact n).mapErr f) ApplicationError :=
  (failsLive_readExact n).mapErr fun _ h => h.elim

theorem applicationError_writeBuf {reason : String → String} {send : SendStream} {buf : Bytes}
    {e : RpcError} (hsend : ¬ send.Failing) (h : (writeBuf reason send buf).1 = .error e) :
    ApplicationError e := by
  obtain ⟨send', hw, -⟩ := SendStream.writeAll_of_not_failing hsend buf
  rw [writeBuf, hw] at h
  cases h

theorem failsLive_readVarintFrom : ∀ rounds shift result : ℕ,
    FailsLive (readVarintFrom rounds shift result) ApplicationError
  | 0, _, _ => failsLive_fail rfl
  | rounds + 1, shift, result => by
      have hshl : ∀ lower s e, checkedShl lower s = .error e → ApplicationError e := by
        intro lower s e h
        rw [checkedShl] at h
        split at h <;> cases h
        rfl
      have hadd : ∀ r s e, checkedAdd r s = .error e → ApplicationError e := by
        intro r s e h
        rw [checkedAdd] at h
        split at h <;> cases h
        rfl
      refine FailsLive.bind ((regular_readExact 1).mapErr _).stable (failsLive_readByte 1 _) ?_
      intro byteBuf
      refine FailsLive.bind (regular_lift _).stable (failsLive_lift (hshl _ _)) ?_
      intro shifted
      refine FailsLive.bind (regular_lift _).stable (failsLive_lift (hadd _ _)) ?_
      intro result
      split
      · exact failsLive_pure result _
      · exact failsLive_readVarintFrom rounds (shift + 1) result

section reading

variable [Deps]

theorem applicationError_decodeResponseFrame {buf : Bytes} {e : RpcError}
    (h : decodeResponseFrame buf = .error e) : ApplicationError e := by
  cases buf with
  | nil =>
      cases h
      rfl
  | cons opcode body =>
      simp only [decodeResponseFrame] at h
      split at h
      · cases h
      · split at h
        · split at h
          · cases h
            rfl
          · cases h
            exact applicationError_intoRpcError _
        · cases h
          rfl

theorem applicationError_receiveResponse {recv : RecvStream} {e : RpcError}
    (hlen : recv.buf.length ≤ rpcResponseReadLimit) (htail : ∀ r, recv.tail ≠ .broken r)
    (h : receiveResponse recv = .ready (.error e)) : ApplicationError e := by
  obtain ⟨buf, tail⟩ := recv
  cases tail with
  | live =>
      have hwait : readToEnd rpcResponseReadLimit ⟨buf, .live⟩ = .pending := by
        have : ¬ rpcResponseReadLimit < buf.length := by
          exact Nat.not_lt.mpr hlen
        simp [readToEnd, this]
      rw [receiveResponse, ReadM.bind_pending _ (ReadM.mapErr_pending _ hwait)] at h
      cases h
  | finished =>
      rw [receiveResponse, ReadM.bind_ok _ (ReadM.mapErr_ok _ (readToEnd_finished hlen))] at h
      cases hd : decodeResponseFrame buf with
      | ok r => rw [hd] at h; cases h
      | error e' =>
          rw [hd] at h
          cases h
          exact applicationError_decodeResponseFrame hd
  | broken r => exact absurd rfl (htail r)

theorem receiveResponse_tooLong {recv : RecvStream}
    (hlen : rpcResponseReadLimit < recv.buf.length) :
    receiveResponse recv =
      .ready (.error (.transportRead ("read_to_end: " ++ ReadToEndError.tooLong.display))) := by
  have htoo : readToEnd rpcResponseReadLimit recv = .ready (.error .tooLong) := by
    rw [readToEnd, if_pos hlen]
  rw [receiveResponse, ReadM.bind_error _ (ReadM.mapErr_error _ htoo)]

/-! ### The frame of the ack -/

theorem failsLive_readLengthPrefixed : FailsLive readLengthPrefixed ApplicationError := by
  refine FailsLive.bind (regular_readVarintFrom 10 0 0).stable (failsLive_readVarintFrom 10 0 0) ?_
  intro len
  split
  · exact failsLive_fail rfl
  · split
    · exact failsLive_fail rfl
    · split
      · exact failsLive_pure [] _
      · exact failsLive_readByte len _

theorem failsLive_readStreamingFrameAfterOpcode (opcode : UInt8) :
    FailsLive (readStreamingFrameAfterOpcode opcode) ApplicationError := by
  obtain ⟨-, k, hk, h⟩ | ⟨-, r, h, hr⟩ := readStreamingFrameAfterOpcode_cases opcode
  · rw [h]
    refine FailsLive.bind regular_readLengthPrefixed.stable failsLive_readLengthPrefixed ?_
    intro bytes
    refine failsLive_lift ?_
    intro e he
    obtain ⟨reason, rfl⟩ := hk bytes e he
    rfl
  · rw [h]
    refine failsLive_lift ?_
    intro e he
    rw [hr e he]
    rfl

theorem failsLive_readStreamingFrame : FailsLive readStreamingFrame ApplicationError := by
  intro buf e h
  cases buf with
  | nil => cases h
  | cons b buf =>
      rw [readStreamingFrame_cons] at h
      have hbehind : FailsLive (readFrameBehind [b]) ApplicationError :=
        FailsLive.bind (regular_readStreamingFrameAfterOpcode _).stable
          (failsLive_readStreamingFrameAfterOpcode _) fun f => failsLive_pure (some f) _
      exact hbehind buf e h

/-- The stream ends, or breaks off, before a frame is there; an end before the first byte and a
closed stream are clean. -/
def CutShort (recv : RecvStream) : Prop :=
  readStreamingFrame ⟨recv.buf, .live⟩ = .pending ∧ recv.tail ≠ .live ∧
    (recv.buf ≠ [] ∨ ∃ d, recv.tail = .broken (.other d))

theorem applicationError_readStreamingFrame {recv : RecvStream} {e : RpcError}
    (hcut : ¬ CutShort recv) (h : readStreamingFrame recv = .ready (.error e)) :
    ApplicationError e := by
  obtain ⟨buf, tail⟩ := recv
  cases hl : readStreamingFrame ⟨buf, .live⟩ with
  | ready r =>
      have hsame := (regular_readStreamingFrame.stable buf [] tail r hl).1
      rw [List.append_nil, h] at hsame
      cases r with
      | ok p => cases hsame
      | error e' =>
          cases hsame
          exact failsLive_readStreamingFrame buf e hl
  | pending =>
      exfalso
      have htail : tail ≠ .live := by
        rintro rfl
        rw [hl] at h
        cases h
      apply hcut
      refine ⟨hl, htail, ?_⟩
      cases buf with
      | cons b buf => exact .inl (List.cons_ne_nil b buf)
      | nil =>
          cases tail with
          | live => cases h
          | finished => cases h
          | broken r =>
              cases r with
              | closedStream => cases h
              | other d => exact .inr ⟨d, rfl⟩

theorem applicationError_buildUnaryRequestFrame {methodName : String} {request : Bytes}
    {e : RpcError} (h : buildUnaryRequestFrame methodName request = .error e) :
    ApplicationError e := by
  unfold buildUnaryRequestFrame encodeMethodName at h
  dsimp only at h
  split at h
  · cases h
  · cases h
    rfl

theorem applicationError_bodyBytes {α : Type} {codec : PostcardCodec α} {opcode : UInt8} {body : α}
    {e : RpcError} (h : bodyBytes codec opcode body = .error e) : ApplicationError e := by
  unfold bodyBytes lengthPrefixed at h
  split at h
  · split at h <;> cases h
    rfl
  · cases h
    rfl

namespace ClientRun

theorem applicationError_openAck {ackFrame : Option StreamingFrame} {e : RpcError}
    (h : openAck ackFrame = .error e) : ApplicationError e := by
  unfold openAck at h
  split at h
  · cases h
  · split at h <;> cases h <;> rfl
  · cases h
    rfl

theorem applicationError_received_streaming {methodName : String} {recv : RecvStream} {e : RpcError}
    (hcut : ¬ CutShort recv)
    (h : received (.callStreaming methodName) recv = .ready (.error e)) : ApplicationError e := by
  unfold received at h
  obtain hread | ⟨ackFrame, recv', -, hrest⟩ := ReadM.bind_error_inv h
  · exact applicationError_readStreamingFrame hcut hread
  · obtain hack | ⟨_, _, -, hpure⟩ := ReadM.bind_error_inv hrest
    · exact applicationError_openAck (ReadM.lift_error_inv hack)
    · cases hpure

theorem applicationError_received_call {methodName : String} {request : Bytes} {recv : RecvStream}
    {e : RpcError} (hlen : recv.buf.length ≤ rpcResponseReadLimit)
    (htail : ∀ r, recv.tail ≠ .broken r)
    (h : received (.call methodName request) recv = .ready (.error e)) : ApplicationError e := by
  unfold received at h
  obtain hread | ⟨response, recv', -, hrest⟩ := ReadM.bind_error_inv h
  · exact applicationError_receiveResponse hlen htail hread
  · cases hrest

theorem applicationError_sent {op : Operation} {r : UInt64} {send : SendStream} {e : RpcError}
    (hsend : ¬ send.Failing) (h : sent op r send = .error e) : ApplicationError e := by
  cases op with
  | call methodName request =>
      simp only [sent, sendRequest] at h
      cases hb : buildUnaryRequestFrame methodName request with
      | error e' =>
          rw [hb] at h
          cases h
          exact applicationError_buildUnaryRequestFrame hb
      | ok frame =>
          rw [hb] at h
          dsimp only at h
          cases hw : writeBuf ("write_all: " ++ ·) send frame with
          | mk result send' =>
              rw [hw] at h
              cases result with
              | ok u => cases h
              | error e' =>
                  cases h
                  exact applicationError_writeBuf hsend (congrArg Prod.fst hw)
  | callStreaming methodName =>
      simp only [sent, writeOpenRequest, writeBody_eq] at h
      cases hb : bodyBytes openRequestCodec opcodeStreamingOpenRequest ⟨methodName, r⟩ with
      | error e' =>
          rw [hb] at h
          cases h
          exact applicationError_bodyBytes hb
      | ok buf =>
          rw [hb] at h
          exact applicationError_writeBuf hsend h

end ClientRun

end reading

/-! ### Failed operations evict -/

namespace ClientRun

/-- The property of a state: an operation that has returned a failed read or write has evicted
its connection before, and what is opened since is fresh. -/
def EvictedBeforeReturn (s : ClientRun) : Prop :=
  ∀ (i : ℕ) (c : ClientCall) (conn : ℕ) (e : RpcError), s.calls[i]? = some c →
    c.stage = .returned (some conn) (.error e) → isTransportIoError e = true →
    ∃ before removed after, s.trace = before ++ .evicted i c.key conn removed :: after ∧
      .returned i ∈ after ∧ .returned i ∉ before ∧ OpensFresh c.key conn after

structure Evicting (s : ClientRun) : Prop where
  base : TraceInv s
  returned : ∀ i, .returned i ∈ s.trace →
    ∃ c conn r, s.calls[i]? = some c ∧ c.stage = .returned conn r
  evicted : ∀ i c conn e, s.calls[i]? = some c → c.stage = .returned (some conn) (.error e) →
    isTransportIoError e = true →
    ∃ before removed after, s.trace = before ++ .evicted i c.key conn removed :: after ∧
      .returned i ∈ after ∧ .returned i ∉ before

variable {s s' : ClientRun} {i : ℕ} {c : ClientCall}

theorem evicting_start : Evicting start :=
  ⟨traceInv_start, by simp [start], by simp [start]⟩

/-- An operation goes on: it returns at most once, and a failed read or write behind its
eviction. -/
theorem Evicting.advance (hi : Evicting s) (hc : s.calls[i]? = some c)
    (hlive : ∀ conn r, c.stage ≠ .returned conn r) {stage : Stage} {events : List ClientEvent}
    (hb : TraceInv s') (hcalls : s'.calls = s.calls.set i { c with stage := stage })
    (htrace : s'.trace = s.trace ++ events)
    (hret : ∀ j, .returned j ∈ events → j = i ∧ ∃ conn r, stage = .returned conn r)
    (hev : ∀ conn e, stage = .returned (some conn) (.error e) → isTransportIoError e = true →
      ∃ removed, events = [.evicted i c.key conn removed, .returned i]) : Evicting s' := by
  have hlt : i < s.calls.length := (List.getElem?_eq_some_iff.mp hc).1
  have hself : s'.calls[i]? = some { c with stage := stage } := by
    rw [hcalls, List.getElem?_set_self hlt]
  have hother : ∀ j, j ≠ i → s'.calls[j]? = s.calls[j]? := by
    intro j hj
    rw [hcalls, List.getElem?_set_ne (Ne.symm hj)]
  have hfresh : .returned i ∉ s.trace := by
    intro hmem
    obtain ⟨c', conn, r, hc', hst⟩ := hi.returned i hmem
    rw [hc] at hc'
    cases hc'
    exact hlive conn r hst
  refine ⟨hb, ?_, ?_⟩
  · intro j hj
    rw [htrace] at hj
    obtain hj | hj := List.mem_append.mp hj
    · obtain ⟨c', conn, r, hc', hst⟩ := hi.returned j hj
      have hne : j ≠ i := by
        rintro rfl
        exact hfresh hj
      exact ⟨c', conn, r, by rw [hother j hne, hc'], hst⟩
    · obtain ⟨rfl, conn, r, hst⟩ := hret j hj
      exact ⟨_, conn, r, hself, hst⟩
  · intro j c' conn e hc' hst hio
    by_cases hj : j = i
    · rw [hj, hself] at hc'
      cases hc'
      obtain ⟨removed, rfl⟩ := hev conn e hst hio
      exact ⟨s.trace, removed, [.returned i], by rw [hj, htrace]; rfl, by simp [hj], hj ▸ hfresh⟩
    · rw [hother j hj] at hc'
      obtain ⟨before, removed, after, heq, hafter, hbefore⟩ := hi.evicted j c' conn e hc' hst hio
      exact ⟨before, removed, after ++ events, by rw [htrace, heq]; simp,
        List.mem_append_left _ hafter, hbefore⟩

section runs

variable [Deps]

/-- The substreams of `call_streaming` carry the request and the ack. -/
def StreamingSurvives : ClientAct → ClientRun → Prop
  | .call i (.write send), s => ∀ c methodName, s.calls[i]? = some c →
      c.op = .callStreaming methodName → ¬ send.Failing
  | .call i (.read recv), s => ∀ c methodName, s.calls[i]? = some c →
      c.op = .callStreaming methodName → ¬ CutShort recv
  | _, _ => True

/-- The errors of `call_streaming` are not the substream's. -/
theorem applicationError_of_survives (hc : s.calls[i]? = some c) {methodName : String}
    (hop : c.op = .callStreaming methodName) {a : ClientCallAct}
    (hok : StreamingSurvives (.call i a) s) {conn : ℕ} {e : RpcError}
    (h : FailsOn c conn e s a) : ApplicationError e := by
  cases a with
  | write send => exact applicationError_sent (hok c methodName hc hop) h.2
  | read recv =>
      have hread := h.2
      rw [hop] at hread
      exact applicationError_received_streaming (hok c methodName hc hop) hread
  | openSubstream r => exact h.elim
  | evict => exact h.elim

theorem Evicting.callStep (hi : Evicting s) (hc : s.calls[i]? = some c) {a : ClientCallAct}
    (hok : StreamingSurvives (.call i a) s) (h : s.callStep i c a = some s') : Evicting s' := by
  have hb := hi.base.callStep hc h
  obtain ⟨e, hst, rfl⟩ | ⟨r, -, hst, -, rfl⟩ | ⟨conn, r, hst, rfl⟩ | ⟨conn, reply, hst, rfl⟩ |
    ⟨conn, e, r, hfails, rfl⟩ | ⟨conn, e, -, hst, rfl⟩ := callStep_cases h
  · exact hi.advance hc (by rw [hst]; simp) hb rfl rfl (by simp) (by simp)
  · obtain ⟨reason, heq⟩ | ⟨conn, -, heq⟩ | ⟨-, -, heq⟩ := openSubstream_cases s i c r <;>
      rw [heq] at hb ⊢
    · exact hi.advance hc (by rw [hst]; simp) hb rfl rfl (by simp) (by simp)
    · exact hi.advance hc (by rw [hst]; simp) hb rfl rfl (by simp) (by simp)
    · exact hi.advance hc (by rw [hst]; simp) hb rfl rfl (by simp) (by simp)
  · exact hi.advance hc (by rw [hst]; simp) hb rfl rfl (by simp) (by simp)
  · exact hi.advance hc (by rw [hst]; simp) hb rfl rfl (by simp) (by simp)
  · have hlive : ∀ conn' r', c.stage ≠ .returned conn' r' := by
      intro conn' r' hst
      exact hfails.ne_returned hst
    obtain ⟨_, _, -, -, heq⟩ | ⟨hstreaming, heq⟩ :=
      failed_cases { s with streamingRequestId := r } i c conn e <;> rw [heq] at hb ⊢
    · exact hi.advance hc hlive hb rfl rfl (by simp) (by simp)
    · refine hi.advance hc hlive hb rfl rfl (by simp) ?_
      intro conn' e' heq' hio
      cases heq'
      obtain ⟨methodName, hop⟩ := hstreaming hio
      have happ := applicationError_of_survives hc hop hok hfails
      rw [happ] at hio
      cases hio
  · refine hi.advance hc (by rw [hst]; simp) hb rfl rfl (by simp) ?_
    intro conn' e' heq hio'
    cases heq
    exact ⟨_, rfl⟩

/-- **The step lemma.** -/
theorem Evicting.step (hi : Evicting s) {a : ClientAct} (hok : StreamingSurvives a s)
    (h : step a s = some s') : Evicting s' := by
  have hb := hi.base.step h
  obtain ⟨peer, op, rfl⟩ | ⟨i, b, c, rfl, hc, hs⟩ | ⟨conn, hlt, rfl⟩ := step_cases h
  · have hold : ∀ (j : ℕ) (c' : ClientCall), s.calls[j]? = some c' →
        (s.calls ++ [⟨peer, op, .started⟩])[j]? = some c' := by
      intro j c' hc'
      rw [List.getElem?_append_left (List.getElem?_eq_some_iff.mp hc').1, hc']
    refine ⟨hb, ?_, ?_⟩
    · intro j hj
      obtain ⟨c', conn, r, hc', hst⟩ := hi.returned j hj
      exact ⟨c', conn, r, hold j c' hc', hst⟩
    · intro j c' conn e hc' hst hio
      obtain hlt | hge := Nat.lt_or_ge j s.calls.length
      · rw [List.getElem?_append_left hlt] at hc'
        exact hi.evicted j c' conn e hc' hst hio
      · rw [List.getElem?_append_right hge] at hc'
        cases List.mem_singleton.mp (List.mem_of_getElem? hc')
        cases hst
  · exact hi.callStep hc hok hs
  · refine ⟨hb, ?_, ?_⟩
    · intro j hj
      obtain hj | hj := List.mem_append.mp hj
      · exact hi.returned j hj
      · cases List.mem_singleton.mp hj
    · intro j c' conn' e hc' hst hio
      obtain ⟨before, removed, after, heq, hafter, hbefore⟩ := hi.evicted j c' conn' e hc' hst hio
      exact ⟨before, removed, after ++ [.died conn], by simp [heq],
        List.mem_append_left _ hafter, hbefore⟩

/-- **Failed reads and writes evict before the operation returns**, and the next operation
dials. -/
theorem evicted_before_return {as : List ClientAct} {s : ClientRun}
    (hrun : Runs step StreamingSurvives as start s) : s.EvictedBeforeReturn := by
  have hi : Evicting s := hrun.invariant (fun _ _ _ hok hi h => hi.step hok h) evicting_start
  intro i c conn e hc hst hio
  obtain ⟨before, removed, after, heq, hafter, hbefore⟩ := hi.evicted i c conn e hc hst hio
  have htraced := hi.base.traced
  rw [heq] at htraced
  exact ⟨before, removed, after, heq, hafter, hbefore, htraced.opensFresh⟩

end runs

/-- A call whose connection dies under it, and another call behind it. -/
def staleCall : List ClientAct :=
  [.begin "peer" (.call "m" [1]), .call 0 (.openSubstream (.ok ())), .call 0 (.write (.fresh none)),
    .dies 0, .call 0 (.read ⟨[], .broken .closedStream⟩), .call 0 .evict,
    .begin "peer" (.call "m" [1]), .call 1 (.openSubstream (.ok ()))]

theorem evicted_before_return_staleCall :
    letI := reference
    ∃ s, run step staleCall start = some s ∧
      s.trace = [.dialed 0 ("peer", alpnNerwRpc) 0, .died 0,
        .evicted 0 ("peer", alpnNerwRpc) 0 (some 0), .returned 0,
        .dialed 1 ("peer", alpnNerwRpc) 1] ∧ s.EvictedBeforeReturn := by
  let _ := reference
  refine ⟨_, rfl, rfl, ?_⟩
  have hfresh : ¬ (SendStream.fresh none).Failing := by
    rintro ⟨k, e, h⟩
    cases h
  have hclosed : ¬ CutShort ⟨[], .broken .closedStream⟩ := by
    rintro ⟨-, -, h | ⟨d, h⟩⟩
    · exact h rfl
    · cases h
  have hrun : ∀ s, run step staleCall start = some s → s.EvictedBeforeReturn := by
    intro s hs
    apply evicted_before_return (runs_of_run hs ?_)
    simp only [staleCall, List.forall_mem_cons, StreamingSurvives]
    simp [hfresh, hclosed]
  exact hrun _ rfl

/-- The same of a streaming call, which fails in its first write. -/
def staleStreaming : List ClientAct :=
  [.begin "peer" (.callStreaming "m"), .call 0 (.openSubstream (.ok ())), .dies 0,
    .call 0 (.write (.fresh (some ⟨0, 0, ⟨"connection lost"⟩⟩))),
    .begin "peer" (.callStreaming "m"), .call 1 (.openSubstream (.ok ()))]

/-- `call_streaming` leaves the dead connection in the cache, and the next operation reuses it. -/
theorem evicted_before_return_fails :
    letI := reference
    (∃ s, run step staleStreaming start = some s ∧ .reused 1 ("peer", alpnNerwRpc) 0 ∈ s.trace) ∧
      ¬ ∀ as s, run step as start = some s → s.EvictedBeforeReturn := by
  let _ := reference
  have htrace : ∃ s, run step staleStreaming start = some s ∧
      s.trace = [.dialed 0 ("peer", alpnNerwRpc) 0, .died 0, .returned 0,
        .reused 1 ("peer", alpnNerwRpc) 0] ∧
      ∃ c e, s.calls[0]? = some c ∧ c.stage = .returned (some 0) (.error e) ∧
        isTransportIoError e = true := ⟨_, rfl, rfl, _, _, rfl, rfl, rfl⟩
  obtain ⟨s, hs, htrace, c, e, hc, hst, hio⟩ := htrace
  refine ⟨⟨s, hs, by rw [htrace]; simp⟩, ?_⟩
  intro h
  obtain ⟨before, removed, after, heq, -⟩ := h _ s hs 0 c 0 e hc hst hio
  have hmem : .evicted 0 c.key 0 removed ∈ s.trace := by
    rw [heq]
    simp
  rw [htrace] at hmem
  simp at hmem

/-! ### What is evicted is dead -/

/-- The property of a state: whatever `call` evicts, its own connection has died before, and it is
that connection that is removed, if any. -/
def OnlyDeadEvicted (s : ClientRun) : Prop :=
  ∀ before i key own removed after,
    s.trace = before ++ .evicted i key own removed :: after →
    .died own ∈ before ∧ (removed = none ∨ removed = some own)

/-- The connection that an operation has a substream on and has not returned from. -/
def inFlight? : Stage → Option ℕ
  | .writing conn | .reading conn | .evicting conn _ => some conn
  | _ => none

theorem conn?_of_inFlight {stage : Stage} {conn : ℕ} (h : inFlight? stage = some conn) :
    stage.conn? = some conn := by
  cases stage with
  | started => cases h
  | returned was r => cases h
  | _ => exact h

/-- A `call` is in flight on a connection. -/
def InFlightOn (conn : ℕ) (c : ClientCall) : Prop :=
  (∃ methodName request, c.op = .call methodName request) ∧ inFlight? c.stage = some conn

/-- A `call` on a live connection writes its request and is delivered a response within the limit,
and nobody dials a peer that a `call` is in flight to. -/
def CallSurvives [Deps] : ClientAct → ClientRun → Prop
  | .call i (.openSubstream (.ok ())), s => ∀ c, s.calls[i]? = some c → prepare c.op = .ok () →
      s.cached c.key = none → ∀ c' ∈ s.calls, c'.key = c.key → ∀ conn, ¬ InFlightOn conn c'
  | .call i (.write send), s => ∀ c conn methodName request, s.calls[i]? = some c →
      c.stage = .writing conn → c.op = .call methodName request →
      conn ∈ s.dead ∨ ¬ send.Failing
  | .call i (.read recv), s => ∀ c conn methodName request, s.calls[i]? = some c →
      c.stage = .reading conn → c.op = .call methodName request →
      conn ∈ s.dead ∨
        recv.buf.length ≤ rpcResponseReadLimit ∧ ∀ r, recv.tail ≠ .broken r
  | _, _ => True

/-- No other connection is cached in the place of this one. -/
def Unreplaced (cached : ConnectionKey → Option ℕ) (key : ConnectionKey) (conn : ℕ) : Prop :=
  cached key = none ∨ cached key = some conn

theorem Unreplaced.drop {cached : ConnectionKey → Option ℕ} {key : ConnectionKey} {conn : ℕ}
    (h : Unreplaced cached key conn) (dropped : ConnectionKey) :
    Unreplaced (Function.update cached dropped none) key conn := by
  unfold Unreplaced
  by_cases hkey : key = dropped
  · rw [hkey, Function.update_self]
    exact .inl rfl
  · rw [Function.update_of_ne hkey]
    exact h

/-- What an eviction finds. -/
def FindsDead (before : List ClientEvent) : ClientEvent → Prop
  | .evicted _ _ own removed => .died own ∈ before ∧ (removed = none ∨ removed = some own)
  | _ => True

structure EvictsDead (s : ClientRun) : Prop where
  dead : ∀ conn ∈ s.dead, .died conn ∈ s.trace
  evicting : ∀ c ∈ s.calls, ∀ conn e, c.stage = .evicting conn e →
    conn ∈ s.dead ∧ InFlightOn conn c
  unreplaced : ∀ c ∈ s.calls, ∀ conn, InFlightOn conn c → Unreplaced s.cached c.key conn
  found : Each FindsDead s.trace

theorem evictsDead_start : EvictsDead start :=
  ⟨by simp [start], by simp [start], by simp [start], each_nil⟩

/-- An operation goes on: only a dead connection makes it evict, and nobody replaces a connection
that a `call` is in flight on. -/
theorem EvictsDead.advance (hi : EvictsDead s) {stage : Stage} {events : List ClientEvent}
    (hcalls : s'.calls = s.calls.set i { c with stage := stage })
    (htrace : s'.trace = s.trace ++ events) (hdead : s'.dead = s.dead)
    (hothers : ∀ c' ∈ s.calls, ∀ conn, InFlightOn conn c' → Unreplaced s'.cached c'.key conn)
    (hstage : ∀ conn e, stage = .evicting conn e →
      conn ∈ s.dead ∧ InFlightOn conn { c with stage := stage })
    (hown : ∀ conn, InFlightOn conn { c with stage := stage } → Unreplaced s'.cached c.key conn)
    (hfound : Each FindsDead (s.trace ++ events)) : EvictsDead s' := by
  refine ⟨?_, ?_, ?_, htrace ▸ hfound⟩
  · intro conn hconn
    rw [hdead] at hconn
    rw [htrace]
    exact List.mem_append_left _ (hi.dead conn hconn)
  · intro c' hc' conn e hst
    rw [hcalls] at hc'
    rw [hdead]
    obtain hc' | rfl := List.mem_or_eq_of_mem_set hc'
    · exact hi.evicting c' hc' conn e hst
    · exact hstage conn e hst
  · intro c' hc' conn hin
    rw [hcalls] at hc'
    obtain hc' | rfl := List.mem_or_eq_of_mem_set hc'
    · exact hothers c' hc' conn hin
    · exact hown conn hin

theorem not_inFlightOn_returned {conn : ℕ} {was : Option ℕ} {r : RpcResult Reply} :
    ¬ InFlightOn conn { c with stage := .returned was r } := by
  rintro ⟨-, h⟩
  cases h

section runs

variable [Deps]

/-- A `call` whose connection is alive does not fail with an error that evicts. -/
theorem mem_dead_of_survives (hc : s.calls[i]? = some c) {methodName : String} {request : Bytes}
    (hop : c.op = .call methodName request) {a : ClientCallAct}
    (hok : CallSurvives (.call i a) s) {conn : ℕ} {e : RpcError} (h : FailsOn c conn e s a)
    (hio : isTransportIoError e = true) : conn ∈ s.dead := by
  have happ : ¬ ApplicationError e := by
    intro happ
    rw [happ] at hio
    cases hio
  cases a with
  | write send =>
      obtain hdead | hsend := hok c conn methodName request hc h.1 hop
      · exact hdead
      · exact absurd (applicationError_sent hsend h.2) happ
  | read recv =>
      obtain hdead | ⟨hlen, htail⟩ := hok c conn methodName request hc h.1 hop
      · exact hdead
      · have hread := h.2
        rw [hop] at hread
        exact absurd (applicationError_received_call hlen htail hread) happ
  | openSubstream r => exact h.elim
  | evict => exact h.elim

theorem EvictsDead.openSubstream (hi : EvictsDead s) (hc : s.calls[i]? = some c)
    (hprepared : prepare c.op = .ok ()) {r : Except String Unit}
    (hok : CallSurvives (.call i (.openSubstream r)) s) : EvictsDead (s.openSubstream i c r) := by
  obtain ⟨reason, heq⟩ | ⟨conn, hcached, heq⟩ | ⟨rfl, hcached, heq⟩ :=
    openSubstream_cases s i c r <;> rw [heq]
  · have hfailed : Each FindsDead (s.trace ++ [.openFailed i c.key]) :=
      hi.found.append_singleton trivial
    have hboth := hfailed.append_singleton (e := .returned i) trivial
    exact hi.advance rfl rfl rfl
      (fun c' hc' conn hin => (hi.unreplaced c' hc' conn hin).drop c.key) nofun
      (fun conn h => absurd h not_inFlightOn_returned) (by simpa using hboth)
  · refine hi.advance rfl rfl rfl hi.unreplaced nofun ?_ (hi.found.append_singleton trivial)
    rintro _ ⟨-, ⟨⟩⟩
    exact .inr hcached
  · refine hi.advance rfl rfl rfl ?_ nofun ?_ (hi.found.append_singleton trivial)
    · intro c' hc' conn hin
      have hne : c'.key ≠ c.key := by
        intro hkey
        exact hok c hc hprepared hcached c' hc' hkey conn hin
      unfold Unreplaced
      dsimp only
      rw [Function.update_of_ne hne]
      exact hi.unreplaced c' hc' conn hin
    · rintro _ ⟨-, ⟨⟩⟩
      exact .inr (Function.update_self _ _ _)

omit [Deps] in
/-- A `call` fails on its connection: it evicts only if that is dead. -/
theorem EvictsDead.failed (hi : EvictsDead s) (hc : c ∈ s.calls) {conn : ℕ} {e : RpcError}
    (hin : inFlight? c.stage = some conn)
    (hdead : ∀ methodName request, c.op = .call methodName request → isTransportIoError e = true →
      conn ∈ s.dead) (r : UInt64) :
    EvictsDead (({ s with streamingRequestId := r } : ClientRun).failed i c conn e) := by
  obtain ⟨methodName, request, hop, hio, heq⟩ | ⟨-, heq⟩ :=
    failed_cases { s with streamingRequestId := r } i c conn e <;> rw [heq]
  · refine hi.advance rfl rfl rfl hi.unreplaced ?_ ?_ (by simpa using hi.found)
    · rintro _ _ ⟨⟩
      exact ⟨hdead methodName request hop hio, ⟨methodName, request, hop⟩, rfl⟩
    · rintro _ ⟨-, ⟨⟩⟩
      exact hi.unreplaced c hc conn ⟨⟨methodName, request, hop⟩, hin⟩
  · exact hi.advance rfl rfl rfl hi.unreplaced nofun
      (fun conn h => absurd h not_inFlightOn_returned) (hi.found.append_singleton trivial)

theorem FailsOn.inFlight?_eq {conn : ℕ} {e : RpcError} {a : ClientCallAct}
    (h : FailsOn c conn e s a) : inFlight? c.stage = some conn := by
  cases a with
  | write send => rw [h.1]; rfl
  | read recv => rw [h.1]; rfl
  | openSubstream r => exact h.elim
  | evict => exact h.elim

theorem EvictsDead.callStep (hi : EvictsDead s) (hc : s.calls[i]? = some c) {a : ClientCallAct}
    (hok : CallSurvives (.call i a) s) (h : s.callStep i c a = some s') : EvictsDead s' := by
  have hmem := List.mem_of_getElem? hc
  have hreturned : Each FindsDead (s.trace ++ [.returned i]) :=
    hi.found.append_singleton trivial
  obtain ⟨e, -, rfl⟩ | ⟨r, rfl, -, hprepared, rfl⟩ | ⟨conn, r, hst, rfl⟩ | ⟨conn, reply, -, rfl⟩ |
    ⟨conn, e, r, hfails, rfl⟩ | ⟨conn, e, rfl, hst, rfl⟩ := callStep_cases h
  · exact hi.advance rfl rfl rfl hi.unreplaced nofun
      (fun conn h => absurd h not_inFlightOn_returned) hreturned
  · exact hi.openSubstream hc hprepared hok
  · refine hi.advance rfl rfl rfl hi.unreplaced nofun ?_ (by simpa using hi.found)
    rintro _ ⟨hop, ⟨⟩⟩
    exact hi.unreplaced c hmem conn ⟨hop, by rw [hst]; rfl⟩
  · exact hi.advance rfl rfl rfl hi.unreplaced nofun
      (fun conn h => absurd h not_inFlightOn_returned) hreturned
  · refine hi.failed hmem hfails.inFlight?_eq ?_ r
    intro methodName request hop hio
    exact mem_dead_of_survives hc hop hok hfails hio
  · obtain ⟨hdead, hin⟩ := hi.evicting c hmem conn e hst
    have hfinds : FindsDead s.trace (.evicted i c.key conn (s.cached c.key)) :=
      ⟨hi.dead conn hdead, hi.unreplaced c hmem conn hin⟩
    have hboth := (hi.found.append_singleton hfinds).append_singleton (e := .returned i) trivial
    exact hi.advance rfl rfl rfl
      (fun c' hc' conn' hin' => (hi.unreplaced c' hc' conn' hin').drop c.key) nofun
      (fun conn h => absurd h not_inFlightOn_returned) (by simpa using hboth)

/-- **The step lemma.** -/
theorem EvictsDead.step (hi : EvictsDead s) {a : ClientAct} (hok : CallSurvives a s)
    (h : step a s = some s') : EvictsDead s' := by
  obtain ⟨peer, op, rfl⟩ | ⟨i, b, c, rfl, hc, hs⟩ | ⟨conn, -, rfl⟩ := step_cases h
  · refine ⟨hi.dead, ?_, ?_, hi.found⟩
    · intro c hc conn e hst
      obtain hc | hc := List.mem_append.mp hc
      · exact hi.evicting c hc conn e hst
      · rw [List.mem_singleton.mp hc] at hst
        cases hst
    · intro c hc conn hin
      obtain hc | hc := List.mem_append.mp hc
      · exact hi.unreplaced c hc conn hin
      · rw [List.mem_singleton.mp hc] at hin
        cases hin.2
  · exact hi.callStep hc hok hs
  · refine ⟨?_, ?_, hi.unreplaced, hi.found.append_singleton trivial⟩
    · intro d hd
      obtain rfl | hd := List.mem_cons.mp hd
      · exact List.mem_append_right _ (List.mem_singleton_self _)
      · exact List.mem_append_left _ (hi.dead d hd)
    · intro c hc d e hst
      obtain ⟨hdead, hin⟩ := hi.evicting c hc d e hst
      exact ⟨List.mem_cons_of_mem _ hdead, hin⟩

/-! ### What leads to the eviction of a live connection -/

/-- What holds in every state that can be reached: the dead connections are those that have died,
and an operation with a substream has its request. -/
structure Tracked (s : ClientRun) : Prop where
  base : TraceInv s
  died : ∀ conn, .died conn ∈ s.trace → conn ∈ s.dead
  prepared : ∀ c ∈ s.calls, ∀ conn, inFlight? c.stage = some conn → prepare c.op = .ok ()

theorem tracked_start : Tracked start :=
  ⟨traceInv_start, by simp [start], by simp [start]⟩

theorem Tracked.advance (hi : Tracked s) {stage : Stage} {events : List ClientEvent}
    (hb : TraceInv s') (hcalls : s'.calls = s.calls.set i { c with stage := stage })
    (htrace : s'.trace = s.trace ++ events) (hdead : s'.dead = s.dead)
    (hevents : ∀ conn, .died conn ∉ events)
    (hown : ∀ conn, inFlight? stage = some conn → prepare c.op = .ok ()) : Tracked s' := by
  refine ⟨hb, ?_, ?_⟩
  · intro conn hdied
    rw [htrace] at hdied
    rw [hdead]
    obtain hdied | hdied := List.mem_append.mp hdied
    · exact hi.died conn hdied
    · exact absurd hdied (hevents conn)
  · intro c' hc' conn hin
    rw [hcalls] at hc'
    obtain hc' | rfl := List.mem_or_eq_of_mem_set hc'
    · exact hi.prepared c' hc' conn hin
    · exact hown conn hin

theorem Tracked.callStep (hi : Tracked s) (hc : s.calls[i]? = some c) {a : ClientCallAct}
    (h : s.callStep i c a = some s') : Tracked s' := by
  have hb := hi.base.callStep hc h
  have hprepared := hi.prepared c (List.mem_of_getElem? hc)
  obtain ⟨e, -, rfl⟩ | ⟨r, -, -, hprepare, rfl⟩ | ⟨conn, r, hst, rfl⟩ | ⟨conn, reply, -, rfl⟩ |
    ⟨conn, e, r, hfails, rfl⟩ | ⟨conn, e, -, -, rfl⟩ := callStep_cases h
  · exact hi.advance hb rfl rfl rfl (by simp) nofun
  · obtain ⟨reason, heq⟩ | ⟨conn, -, heq⟩ | ⟨-, -, heq⟩ := openSubstream_cases s i c r <;>
      rw [heq] at hb ⊢
    · exact hi.advance hb rfl rfl rfl (by simp) nofun
    · exact hi.advance hb rfl rfl rfl (by simp) fun _ _ => hprepare
    · exact hi.advance hb rfl rfl rfl (by simp) fun _ _ => hprepare
  · exact hi.advance hb rfl rfl rfl (by simp) fun _ _ => hprepared conn (by rw [hst]; rfl)
  · exact hi.advance hb rfl rfl rfl (by simp) nofun
  · have hown := hprepared conn hfails.inFlight?_eq
    obtain ⟨_, _, -, -, heq⟩ | ⟨-, heq⟩ :=
      failed_cases { s with streamingRequestId := r } i c conn e <;> rw [heq] at hb ⊢
    · exact hi.advance hb rfl rfl rfl (by simp) fun _ _ => hown
    · exact hi.advance hb rfl rfl rfl (by simp) nofun
  · exact hi.advance hb rfl rfl rfl (by simp) nofun

theorem Tracked.step (hi : Tracked s) {a : ClientAct} (h : step a s = some s') : Tracked s' := by
  have hb := hi.base.step h
  obtain ⟨peer, op, rfl⟩ | ⟨i, b, c, -, hc, hs⟩ | ⟨conn, -, rfl⟩ := step_cases h
  · refine ⟨hb, hi.died, ?_⟩
    intro c hc conn hin
    obtain hc | hc := List.mem_append.mp hc
    · exact hi.prepared c hc conn hin
    · rw [List.mem_singleton.mp hc] at hin
      cases hin
  · exact hi.callStep hc hs
  · refine ⟨hb, ?_, hi.prepared⟩
    intro d hd
    obtain hd | hd := List.mem_append.mp hd
    · exact List.mem_cons_of_mem _ (hi.died d hd)
    · cases List.mem_singleton.mp hd
      exact List.mem_cons_self

theorem tracked_of_run {as : List ClientAct} (hrun : run step as start = some s) : Tracked s :=
  (runs_any_iff.mpr hrun).invariant (fun _ _ _ _ hi h => hi.step h) tracked_start

theorem sent_failing {methodName : String} {request : Bytes}
    (hprepared : prepare (.call methodName request) = .ok ()) {send : SendStream}
    (hsend : send.Failing) (requestId : UInt64) :
    ∃ e, sent (.call methodName request) requestId send = .error e ∧
      isTransportIoError e = true := by
  simp only [prepare] at hprepared
  cases hframe : buildUnaryRequestFrame methodName request with
  | error e =>
      rw [hframe] at hprepared
      cases hprepared
  | ok frame =>
      obtain ⟨e, send', hw⟩ := SendStream.writeAll_of_failing hsend frame
      simp only [sent, sendRequest, hframe, writeBuf, hw]
      exact ⟨_, rfl, rfl⟩

theorem received_failing (methodName : String) (request : Bytes) {recv : RecvStream}
    (h : rpcResponseReadLimit < recv.buf.length ∨ ∃ r, recv.tail = .broken r) :
    ∃ e, received (.call methodName request) recv = .ready (.error e) ∧
      isTransportIoError e = true := by
  have hread : ∃ e, readToEnd rpcResponseReadLimit recv = .ready (.error e) := by
    by_cases hlong : rpcResponseReadLimit < recv.buf.length
    · exact ⟨.tooLong, by rw [readToEnd, if_pos hlong]⟩
    · obtain h | ⟨r, hbroken⟩ := h
      · exact absurd h hlong
      · exact ⟨.readError r, by rw [readToEnd, if_neg hlong, hbroken]⟩
  obtain ⟨e, he⟩ := hread
  refine ⟨.transportRead ("read_to_end: " ++ e.display), ?_, rfl⟩
  exact ReadM.bind_error _ (ReadM.bind_error _ (ReadM.mapErr_error _ he))

/-- A `call` that fails on its substream goes on to evict. -/
theorem step_fails {methodName : String} {request : Bytes} (hc : s.calls[i]? = some c)
    (hop : c.op = .call methodName request) {a : ClientCallAct} {conn : ℕ} {e : RpcError}
    (hfails : FailsOn c conn e s a) (hio : isTransportIoError e = true) :
    step (.call i a) s = some (s.advance i c (.evicting conn e) []) := by
  cases a with
  | write send =>
      obtain ⟨hst, hsent⟩ := hfails
      rw [hop] at hsent
      simp only [step, hc, callStep, hst, hop, hsent, takeRequestId, failed, hio, if_true]
  | read recv =>
      obtain ⟨hst, hread⟩ := hfails
      rw [hop] at hread
      simp only [step, hc, callStep, hst, hop, hread, failed, hio, if_true]
  | openSubstream r => exact hfails.elim
  | evict => exact hfails.elim

/-- An eviction by a call whose connection is alive, or is not the cached one. -/
theorem Tracked.evicts (hi : Tracked s) (hc : s.calls[i]? = some c) {conn : ℕ} {e : RpcError}
    (hst : c.stage = .evicting conn e) (hbad : conn ∉ s.dead ∨ ¬ Unreplaced s.cached c.key conn) :
    ∃ s', ClientRun.step (.call i .evict) s = some s' ∧ ¬ s'.OnlyDeadEvicted := by
  refine ⟨s.evict i c conn e, by simp only [ClientRun.step, hc, ClientRun.callStep, hst],
    fun h => ?_⟩
  obtain ⟨hdied, hremoved⟩ := h s.trace i c.key conn (s.cached c.key) [.returned i] rfl
  obtain halive | hreplaced := hbad
  · exact halive (hi.died conn hdied)
  · exact hreplaced hremoved

/-- The substream of a `call` can fail, and then the call evicts. -/
theorem Tracked.leads (hi : Tracked s) (hc : s.calls[i]? = some c) {conn : ℕ}
    (hin : InFlightOn conn c) (hreplaced : ¬ Unreplaced s.cached c.key conn) :
    ∃ bs s', run ClientRun.step bs s = some s' ∧ ¬ s'.OnlyDeadEvicted := by
  obtain ⟨⟨methodName, request, hop⟩, hstage⟩ := hin
  have hlt : i < s.calls.length := (List.getElem?_eq_some_iff.mp hc).1
  have hfail : ∀ a e, FailsOn c conn e s a → isTransportIoError e = true →
      ∃ bs s', run ClientRun.step bs s = some s' ∧ ¬ s'.OnlyDeadEvicted := by
    intro a e hfails hio
    have hs := step_fails hc hop hfails hio
    have hself : (s.advance i c (.evicting conn e) []).calls[i]? =
        some { c with stage := .evicting conn e } := List.getElem?_set_self hlt
    obtain ⟨s', hs', hbad⟩ := (hi.step hs).evicts hself rfl (.inr hreplaced)
    exact ⟨[.call i a, .call i .evict], s', by simp only [run, hs, hs', Option.bind_some], hbad⟩
  have hprepared := hi.prepared c (List.mem_of_getElem? hc) conn hstage
  rw [hop] at hprepared
  cases hst : c.stage with
  | started =>
      rw [hst] at hstage
      cases hstage
  | writing was =>
      rw [hst] at hstage
      cases hstage
      have hlost : (SendStream.fresh (some ⟨0, 0, ⟨"connection lost"⟩⟩)).Failing := ⟨0, _, rfl⟩
      obtain ⟨e, hsent, hio⟩ := sent_failing hprepared hlost s.streamingRequestId
      exact hfail (.write _) e ⟨hst, by rw [hop]; exact hsent⟩ hio
  | reading was =>
      rw [hst] at hstage
      cases hstage
      have hbroken : ∃ r, (⟨[], .broken .closedStream⟩ : RecvStream).tail = .broken r := ⟨_, rfl⟩
      obtain ⟨e, hread, hio⟩ := received_failing methodName request (.inr hbroken)
      exact hfail (.read _) e ⟨hst, by rw [hop]; exact hread⟩ hio
  | evicting was e =>
      rw [hst] at hstage
      cases hstage
      obtain ⟨s', hs', hbad⟩ := hi.evicts hc hst (.inr hreplaced)
      exact ⟨[.call i .evict], s', by simp only [run, hs', Option.bind_some], hbad⟩
  | returned was r =>
      rw [hst] at hstage
      cases hstage

/-- A `call` on a live connection that fails on its substream evicts that connection. -/
theorem Tracked.evicts_live (hi : Tracked s) (hc : s.calls[i]? = some c) {methodName : String}
    {request : Bytes} (hop : c.op = .call methodName request) {a : ClientCallAct} {conn : ℕ}
    {e : RpcError} (hfails : FailsOn c conn e s a) (hio : isTransportIoError e = true)
    (halive : conn ∉ s.dead) (h : ClientRun.step (.call i a) s = some s') :
    ∃ bs s'', run ClientRun.step bs s' = some s'' ∧ ¬ s''.OnlyDeadEvicted := by
  have hi' := hi.step h
  obtain rfl := Option.some.inj ((step_fails hc hop hfails hio).symm.trans h)
  have hlt : i < s.calls.length := (List.getElem?_eq_some_iff.mp hc).1
  have hself : (s.advance i c (.evicting conn e) []).calls[i]? =
      some { c with stage := .evicting conn e } := List.getElem?_set_self hlt
  obtain ⟨s'', hs'', hbad⟩ := hi'.evicts hself rfl (.inl halive)
  exact ⟨[.call i .evict], s'', by simp only [run, hs'', Option.bind_some], hbad⟩

/-- A peer is dialed that a `call` is in flight to: if its substream fails now, the call evicts the
connection just dialed. -/
theorem Tracked.redials (hi : Tracked s) (hc : s.calls[i]? = some c)
    (hprepared : prepare c.op = .ok ()) (hcached : s.cached c.key = none) {c' : ClientCall}
    (hc' : c' ∈ s.calls) (hkey : c'.key = c.key) {conn : ℕ} (hin : InFlightOn conn c')
    (h : ClientRun.step (.call i (.openSubstream (.ok ()))) s = some s') :
    ∃ bs s'', run ClientRun.step bs s' = some s'' ∧ ¬ s''.OnlyDeadEvicted := by
  have hi' := hi.step h
  simp only [ClientRun.step, hc, ClientRun.callStep, hprepared] at h
  split at h
  · rename_i hprep
    cases hprep
  · rename_i hst _
    cases h
    obtain ⟨j, hj⟩ := List.getElem?_of_mem hc'
    have hne : i ≠ j := by
      rintro rfl
      rw [hc] at hj
      cases hj
      have hstage := hin.2
      rw [hst] at hstage
      cases hstage
    have hconn : conn < s.connections :=
      hi.base.stages c' hc' conn (conn?_of_inFlight hin.2)
    unfold ClientRun.openSubstream at hi' ⊢
    simp only [hcached] at hi' ⊢
    refine hi'.leads (i := j) (c := c') ?_ hin ?_
    · exact (List.getElem?_set_ne hne).trans hj
    · rw [hkey]
      unfold Unreplaced
      dsimp only
      rw [Function.update_self]
      simp only [reduceCtorEq, Option.some.injEq, false_or]
      omega
  · cases h

/-- A step that does not meet the condition leads to the eviction of a live connection. -/
theorem Tracked.unsafe_step (hi : Tracked s) {a : ClientAct} (h : ClientRun.step a s = some s')
    (hnot : ¬ CallSurvives a s) :
    ∃ bs s'', run ClientRun.step bs s' = some s'' ∧ ¬ s''.OnlyDeadEvicted := by
  cases a with
  | begin peer op => exact absurd trivial hnot
  | dies conn => exact absurd trivial hnot
  | call i b =>
      cases b with
      | evict => exact absurd trivial hnot
      | openSubstream r =>
          cases r with
          | error reason => exact absurd trivial hnot
          | ok u =>
              simp only [CallSurvives, not_forall, not_not] at hnot
              obtain ⟨c, hc, hprepared, hcached, c', hc', hkey, conn, hin⟩ := hnot
              exact hi.redials hc hprepared hcached hc' hkey hin h
      | write send =>
          simp only [CallSurvives, not_forall, not_or, not_not] at hnot
          obtain ⟨c, conn, methodName, request, hc, hst, hop, halive, hsend⟩ := hnot
          have hprepared := hi.prepared c (List.mem_of_getElem? hc) conn (by rw [hst]; rfl)
          rw [hop] at hprepared
          obtain ⟨e, hsent, hio⟩ := sent_failing hprepared hsend s.streamingRequestId
          have hfails : FailsOn c conn e s (.write send) := ⟨hst, by rw [hop]; exact hsent⟩
          exact hi.evicts_live hc hop hfails hio halive h
      | read recv =>
          simp only [CallSurvives, not_forall, not_or, not_and_or, not_not] at hnot
          obtain ⟨c, conn, methodName, request, hc, hst, hop, halive, hrecv⟩ := hnot
          have hfailing : rpcResponseReadLimit < recv.buf.length ∨ ∃ r, recv.tail = .broken r := by
            obtain hlong | hbroken := hrecv
            · exact .inl (Nat.not_le.mp hlong)
            · exact .inr hbroken
          obtain ⟨e, hread, hio⟩ := received_failing methodName request hfailing
          have hfails : FailsOn c conn e s (.read recv) := ⟨hst, by rw [hop]; exact hread⟩
          exact hi.evicts_live hc hop hfails hio halive h

/-- **Only dead connections are evicted**, each by a call of its own, in every run whose steps all
meet the condition; and behind a step that does not, the run can go on to an eviction that breaks
this. -/
theorem only_dead_evicted {as : List ClientAct} {s : ClientRun} :
    (Runs step CallSurvives as start s → s.OnlyDeadEvicted) ∧
      (run step as start = some s → ∀ a s', step a s = some s' → ¬ CallSurvives a s →
        ∃ bs s'', run step bs s' = some s'' ∧ ¬ s''.OnlyDeadEvicted) := by
  refine ⟨fun hruns => ?_, fun hrun a s' h hnot => (tracked_of_run hrun).unsafe_step h hnot⟩
  have hi : EvictsDead s :=
    hruns.invariant (fun _ _ _ hok hi h => hi.step hok h) evictsDead_start
  intro before i key own removed after heq
  exact hi.found before _ after heq

end runs

theorem only_dead_evicted_staleCall :
    letI := reference
    (∃ s, run step staleCall start = some s ∧ s.OnlyDeadEvicted) ∧
    ∃ s s', run step [.begin "peer" (.call "m" []), .call 0 (.openSubstream (.ok ()))] start =
        some s ∧ step (.call 0 (.write (.fresh (some ⟨0, 0, ⟨"stopped"⟩⟩)))) s = some s' ∧
      ∃ bs s'', run step bs s' = some s'' ∧ ¬ s''.OnlyDeadEvicted := by
  let _ := reference
  have hfresh : ¬ (SendStream.fresh none).Failing := by
    rintro ⟨k, e, h⟩
    cases h
  have hruns : ∃ s, Runs step CallSurvives staleCall start s := by
    refine ⟨_, .cons trivial rfl (.cons ?_ rfl (.cons ?_ rfl (.cons trivial rfl
      (.cons ?_ rfl (.cons trivial rfl (.cons trivial rfl (.cons ?_ rfl (.nil _))))))))⟩
    · rintro c - - - c' hc' - conn ⟨-, hin⟩
      cases List.mem_singleton.mp hc'
      cases hin
    · intro c conn methodName request hc hst hop
      exact .inr hfresh
    · intro c conn methodName request hc hst hop
      cases hc
      cases hst
      exact .inl (List.mem_singleton_self 0)
    · rintro c - - - c' hc' - conn ⟨-, hin⟩
      obtain rfl | hc' := List.mem_cons.mp hc'
      · cases hin
      · cases List.mem_singleton.mp hc'
        cases hin
  have hlive : ∃ s s', run step [.begin "peer" (.call "m" []),
      .call 0 (.openSubstream (.ok ()))] start = some s ∧
      step (.call 0 (.write (.fresh (some ⟨0, 0, ⟨"stopped"⟩⟩)))) s = some s' ∧
      s.calls[0]? = some ⟨"peer", .call "m" [], .writing 0⟩ ∧ s.dead = [] :=
    ⟨_, _, rfl, rfl, rfl, rfl⟩
  obtain ⟨s, hs⟩ := hruns
  obtain ⟨t, t', hrun, hstep, hcall, hdead⟩ := hlive
  refine ⟨⟨s, hs.run_eq, only_dead_evicted.1 hs⟩, t, t', hrun, hstep, ?_⟩
  refine only_dead_evicted.2 hrun _ t' hstep fun hok => ?_
  obtain hin | hsend := hok _ 0 "m" [] hcall rfl rfl
  · rw [hdead] at hin
    cases hin
  · exact hsend ⟨0, _, rfl⟩

/-- A call that is delivered a response on a live connection. -/
def delivered (response : Bytes) : List ClientAct :=
  [.begin "peer" (.call "m" []), .call 0 (.openSubstream (.ok ())),
    .call 0 (.write (.fresh none)), .call 0 (.read ⟨response, .finished⟩), .call 0 .evict]

/-- Two calls whose connection dies under them; the first one evicts, a third one dials, and the
second one evicts that. -/
def redialed : List ClientAct :=
  [.begin "peer" (.call "m" []), .begin "peer" (.call "m" []), .begin "peer" (.call "m" []),
    .call 0 (.openSubstream (.ok ())), .call 1 (.openSubstream (.ok ())),
    .call 0 (.write (.fresh none)), .call 1 (.write (.fresh none)), .dies 0,
    .call 0 (.read ⟨[], .broken .closedStream⟩), .call 1 (.read ⟨[], .broken .closedStream⟩),
    .call 0 .evict, .call 2 (.openSubstream (.ok ())), .call 1 .evict]

theorem tooLong_evicts [Deps] {response : Bytes} (hlen : rpcResponseReadLimit < response.length) :
    ∃ s, run step (delivered response) start = some s ∧
      s.trace = [.dialed 0 ("peer", alpnNerwRpc) 0,
        .evicted 0 ("peer", alpnNerwRpc) 0 (some 0), .returned 0] := by
  have hsent : ∃ s, run step (delivered response |>.take 3) start = some s ∧
      s.calls = [⟨"peer", .call "m" [], .reading 0⟩] ∧
      s.trace = [.dialed 0 ("peer", alpnNerwRpc) 0] ∧
      s.cached ("peer", alpnNerwRpc) = some 0 := ⟨_, rfl, rfl, rfl, rfl⟩
  obtain ⟨s, hrun, hcalls, htrace, hcached⟩ := hsent
  generalize he : RpcError.transportRead ("read_to_end: " ++ ReadToEndError.tooLong.display) = e
  have hread : received (.call "m" []) ⟨response, .finished⟩ = .ready (.error e) :=
    he ▸ ReadM.bind_error _ (receiveResponse_tooLong hlen)
  have hio : isTransportIoError e = true := by
    rw [← he]
    rfl
  have hread' : step (.call 0 (.read ⟨response, .finished⟩)) s =
      some (s.advance 0 ⟨"peer", .call "m" [], .reading 0⟩ (.evicting 0 e) []) := by
    simp only [step, hcalls, List.getElem?_cons_zero, callStep, hread, failed, hio, if_true]
  have hcalls' : (s.advance 0 ⟨"peer", .call "m" [], .reading 0⟩ (.evicting 0 e) []).calls[0]? =
      some ⟨"peer", .call "m" [], .evicting 0 e⟩ := by
    simp only [advance, hcalls]
    rfl
  have hevict : ∃ s', step (.call 0 .evict) (s.advance 0 ⟨"peer", .call "m" [], .reading 0⟩
      (.evicting 0 e) []) = some s' ∧ s'.trace = [.dialed 0 ("peer", alpnNerwRpc) 0,
        .evicted 0 ("peer", alpnNerwRpc) 0 (some 0), .returned 0] := by
    refine ⟨_, by simp only [step, hcalls', callStep]; rfl, ?_⟩
    simp [evict, advance, htrace, hcached, ClientCall.key]
  obtain ⟨s', hs', htrace'⟩ := hevict
  refine ⟨s', ?_, htrace'⟩
  rw [← List.take_append_drop 3 (delivered response), run_append, hrun]
  simp only [Option.bind_some, delivered, List.drop, run, hread', hs']

/-- What `call` evicts has not died: the peer has delivered one byte too much, or another call has
dialed since. -/
theorem only_dead_evicted_fails :
    letI := reference
    (∃ s, run step (delivered (List.replicate (rpcResponseReadLimit + 1) 1)) start = some s ∧
      ¬ s.OnlyDeadEvicted) ∧
    ∃ s, run step redialed start = some s ∧
      .evicted 1 ("peer", alpnNerwRpc) 0 (some 1) ∈ s.trace ∧ .died 1 ∉ s.trace ∧
      ¬ s.OnlyDeadEvicted := by
  let _ := reference
  constructor
  · have hlen : rpcResponseReadLimit <
        (List.replicate (rpcResponseReadLimit + 1) (1 : UInt8)).length := by
      rw [List.length_replicate]
      omega
    obtain ⟨s, hs, htrace⟩ := tooLong_evicts hlen
    refine ⟨s, hs, ?_⟩
    intro h
    have hdied := (h [_] _ _ _ _ _ htrace).1
    simp at hdied
  · have hrun : ∃ s, run step redialed start = some s ∧
        s.trace = [.dialed 0 ("peer", alpnNerwRpc) 0, .reused 1 ("peer", alpnNerwRpc) 0, .died 0,
          .evicted 0 ("peer", alpnNerwRpc) 0 (some 0), .returned 0,
          .dialed 2 ("peer", alpnNerwRpc) 1,
          .evicted 1 ("peer", alpnNerwRpc) 0 (some 1), .returned 1] := ⟨_, rfl, rfl⟩
    obtain ⟨s, hs, htrace⟩ := hrun
    refine ⟨s, hs, by simp [htrace], by simp [htrace], ?_⟩
    intro h
    have hremoved := (h [_, _, _, _, _, _] _ _ _ _ _ htrace).2
    simp at hremoved

end ClientRun

end NerwRpc
