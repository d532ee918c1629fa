import NerwRpc.Backlog
import NerwRpc.RequestFlow
import NerwRpc.ResponseFlow
import NerwRpc.SizeLimits

/-! # Back-pressure on a streaming call

Both channels of either direction hold sixteen items, and the transport as much as its window.  So
whoever sends, the caller or the handler, is stopped by a slow reader on the other side.

* `whole_chunkFrame`, `whole_itemFrame`: the frames of both directions, oversized ones included.
* `requests_backpressure`, `responses_backpressure`: the chunks that have been accepted for sending
  and not been read are at most those in both channels, one in either pump and those in the
  window. -/

namespace NerwRpc

open ByteStream FramePump Transition

/-! ### The frames -/

/-- An item that was accepted and not read is in a channel, in the hand of a pump or in the
window. -/
def backlogLimit (window : ℕ) : ℕ := 2 * (channelCapacity + 1) + window / 2

theorem two_le_length_frame (opcode : UInt8) (n : ℕ) (body : Bytes) :
    2 ≤ (opcode :: (Leb128.encode n ++ body)).length := by
  have hpos : 0 < (Leb128.encode n).length := by
    by_cases h : n < 128
    · rw [Leb128.encode_of_lt h]
      exact Nat.one_pos
    · rw [Leb128.encode_of_ge (Nat.le_of_not_lt h)]
      exact Nat.succ_pos _
  simp only [List.length_cons, List.length_append]
  omega

section frames

variable [Deps] {P : Pump RpcError StreamingFrame (RpcResult Bytes)}

theorem whole_oversized (hread : P.read = readStreamingFrame) {opcode : UInt8}
    (hop : opcode ∈ bodyOpcodes) {body : Bytes} (hn : body.length < 2 ^ 64)
    (hlt : maxStreamingPayloadLen < body.length) :
    Whole P (opcode :: (Leb128.encode body.length ++ body)) := by
  apply whole_of_refused (two_le_length_frame opcode _ body)
  intro more
  obtain ⟨e, he, -⟩ := readFrameBehind_rejects hop hn hlt (body ++ more) .live
  refine ⟨e, ?_⟩
  rw [hread, List.cons_append, readStreamingFrame_cons, List.append_assoc]
  exact he

theorem lengthPrefixed_eq_ok {opcode : UInt8} {body buf : Bytes}
    (h : lengthPrefixed opcode body = .ok buf) :
    body.length < 2 ^ 64 ∧ buf = opcode :: (Leb128.encode body.length ++ body) := by
  have hlen : body.length < 2 ^ 64 := by
    by_contra hlen
    rw [lengthPrefixed, if_neg hlen] at h
    cases h
  rw [lengthPrefixed_ok hlen] at h
  cases h
  exact ⟨hlen, rfl⟩

theorem whole_of_body (hread : P.read = readStreamingFrame) (f : StreamingFrame) (opcode : UInt8)
    (hop : opcode ∈ bodyOpcodes) (hcloses : ∀ item, P.onFrame f ≠ .send item .always)
    {body buf : Bytes} (h : lengthPrefixed opcode body = .ok buf)
    (hexact : body.length ≤ maxStreamingPayloadLen →
      ExactFrame readStreamingFrame buf f IsTransportRead) : Whole P buf := by
  obtain ⟨hlen, rfl⟩ := lengthPrefixed_eq_ok h
  by_cases hfits : body.length ≤ maxStreamingPayloadLen
  · exact whole_of_exact (hread ▸ hexact hfits) (two_le_length_frame opcode _ body) hcloses
  · exact whole_oversized hread hop hlen (Nat.lt_of_not_le hfits)

theorem whole_chunkFrame {c : Bytes} (hc : c.length ≤ usizeMax) :
    Whole pumpInboundRequests (chunkFrame c) := by
  refine whole_of_body rfl (.requestChunk c) opcodeStreamingRequestChunk (by decide) ?_
    (frameBytes_requestChunk hc) exactFrame_chunkFrame
  intro item h
  cases h

/-- Neither a chunk nor a terminal error keeps a pump going whose caller is gone. -/
theorem whole_itemFrame (hcodec : streamingErrorCodec.RoundTrips) {item : RpcResult Bytes}
    {buf : Bytes} (h : frameBytes (itemFrame item) = .ok buf) :
    Whole pumpInboundResponses buf := by
  cases item with
  | ok c =>
      refine whole_of_body rfl (.responseChunk c) opcodeStreamingResponseChunk (by decide) ?_ h ?_
      · intro item hitem
        cases hitem
      · intro hfits
        obtain ⟨bs, hbs, hexact⟩ : ∃ bs, lengthPrefixed opcodeStreamingResponseChunk c = .ok bs ∧
          ExactFrame readStreamingFrame bs (.responseChunk c) IsTransportRead :=
            exactFrame_chunk rfl hfits
        cases hbs.symm.trans h
        exact hexact
  | error err =>
      have hbody : bodyBytes streamingErrorCodec opcodeStreamingError (handlerErrToTerminal err) =
        .ok buf := h
      unfold bodyBytes at hbody
      cases henc : streamingErrorCodec.toAllocvec (handlerErrToTerminal err) with
      | error e =>
          rw [henc] at hbody
          cases hbody
      | ok encoded =>
          rw [henc] at hbody
          refine whole_of_body rfl (.error (handlerErrToTerminal err)) opcodeStreamingError
            (by decide) ?_ hbody ?_
          · intro item hitem
            cases hitem
          · intro hfits
            obtain ⟨bs, hbs, hexact⟩ : ∃ bs, frameBytes (.error (handlerErrToTerminal err)) =
              .ok bs ∧ ExactFrame readStreamingFrame bs (.error (handlerErrToTerminal err))
                IsTransportRead := exactFrame_body rfl hcodec ⟨encoded, henc, hfits⟩
            cases hbs.symm.trans h
            exact hexact

end frames

/-! ### Requests -/

namespace RequestFlow

section requests

variable [Deps] {window : ℕ} {s s' : RequestFlow}

/-- The inbound pump takes no byte behind the frame it reads. -/
def Thrifty : RequestAct → RequestFlow → Prop
  | .leg a, s => Leg.Thrifty pumpInboundRequests a s.leg
  | _, _ => True

instance (a : RequestAct) (s : RequestFlow) : Decidable (Thrifty a s) :=
  match a with
  | .leg a => inferInstanceAs (Decidable (Leg.Thrifty pumpInboundRequests a s.leg))
  | .callerSend _ | .callerDrop | .recv | .write _ | .writeFails | .abort => isTrue trivial

/-- The chunks that have been sent are the whole frames that have been pushed, the chunk in the
hand of the outbound pump and those queued for it. -/
def Pushing (s : RequestFlow) : Prop :=
  ∃ n part, Leg.Behind pumpInboundRequests channelCapacity n part s.leg ∧ PartOf part s.out ∧
    (∀ c ∈ outHeld s.out, c.length ≤ usizeMax) ∧
    s.sent.length = n + (outHeld s.out).length + s.queue.length

/-- While the outbound pump runs the handler is behind by what the stages hold; once it is done no
chunk is accepted. -/
structure Paced (window : ℕ) (s : RequestFlow) : Prop where
  base : Base s
  room : s.queue.length ≤ channelCapacity
  inflight : s.leg.inflight.length ≤ window
  pace : s.out = .done ∧ s.sent.length ≤ s.leg.got.length + backlogLimit window ∨ Pushing s

theorem Paced.limit (h : Paced window s) :
    s.sent.length ≤ s.leg.got.length + backlogLimit window := by
  obtain ⟨-, hle⟩ | ⟨n, part, hbehind, -, -, hsent⟩ := h.pace
  · exact hle
  · have hlag := hbehind.lag
    have hroom := h.room
    have hinflight := h.inflight
    have hheld : (outHeld s.out).length ≤ 1 := by
      cases s.out <;> simp [outHeld]
    unfold Leg.Lag at hlag
    unfold backlogLimit
    omega

theorem paced_start : Paced window start := by
  refine ⟨base_start, Nat.zero_le _, Nat.zero_le _, .inr ⟨0, [], Leg.behind_start, rfl, ?_, rfl⟩⟩
  intro c hc
  cases hc

theorem step_write_inflight {n : ℕ} (h : RequestFlow.step window (.write n) s = some s') :
    s'.leg.inflight.length ≤ window := by
  cases ho : s.out with
  | writing c left =>
      simp only [RequestFlow.step, write, ho] at h
      split_ifs at h with hn hleft
      all_goals
        cases h
        simp only [Leg.push, List.length_append, List.length_take]
        omega
  | ending =>
      simp only [RequestFlow.step, write, ho] at h
      split_ifs at h with hn
      cases h
      simp only [finished, stop, Leg.close, Leg.push, List.length_append, List.length_singleton]
      omega
  | recv => simp [RequestFlow.step, write, ho] at h
  | done => simp [RequestFlow.step, write, ho] at h

/-- **The handler does not fall further behind than the stages hold.** -/
theorem Paced.step (h : Paced window s) {a : RequestAct} (ht : Thrifty a s)
    (hs : RequestFlow.step window a s = some s') : Paced window s' := by
  have hbase := h.base.step hs
  have hlimit := h.limit
  have hstop : Base s.stop → Paced window s.stop := fun hb =>
    ⟨hb, Nat.zero_le _, h.inflight, .inl ⟨rfl, hlimit⟩⟩
  cases a with
  | callerSend c =>
      obtain ⟨-, -, hfree, ho, rfl⟩ := step_callerSend_iff.mp hs
      refine ⟨hbase, ?_, h.inflight, ?_⟩
      · simp only [List.length_append, List.length_singleton]
        omega
      · obtain ⟨hdone, -⟩ | ⟨n, part, hbehind, hpart, hsize, hsent⟩ := h.pace
        · exact absurd hdone ho
        · refine .inr ⟨n, part, hbehind, hpart, hsize, ?_⟩
          simp only [List.length_append, List.length_singleton]
          omega
  | callerDrop =>
      obtain ⟨-, rfl⟩ := step_callerDrop_iff.mp hs
      exact ⟨hbase, h.room, h.inflight, h.pace⟩
  | recv =>
      have hsizes := fun c hc => h.base.sizes c (h.base.queue c hc)
      obtain ⟨ho, hcase⟩ := step_recv_cases hsizes hs
      obtain ⟨hdone, -⟩ | ⟨n, part, hbehind, hpart, -, hsent⟩ := h.pace
      · cases ho.symm.trans hdone
      · rw [ho] at hpart hsent
        obtain rfl : part = [] := hpart
        obtain ⟨c, queue, hq, rfl⟩ | ⟨hq, -, rfl⟩ := hcase
        · have hroom := h.room
          rw [hq, List.length_cons] at hroom
          refine ⟨hbase, by dsimp only; omega, h.inflight, .inr ⟨n, [], hbehind, ?_, ?_, ?_⟩⟩
          · exact ⟨rfl, chunkFrame_ne_nil c⟩
          · intro d hd
            rw [List.mem_singleton.mp hd]
            exact hsizes c (by rw [hq]; exact List.mem_cons_self)
          · rw [hq] at hsent
            simp only [outHeld, List.length_cons, List.length_nil] at hsent ⊢
            omega
        · refine ⟨hbase, h.room, h.inflight, .inr ⟨n, [], hbehind, rfl, ?_, hsent⟩⟩
          intro d hd
          cases hd
  | write k =>
      have hinflight := step_write_inflight hs
      obtain hcase := step_write_cases hs
      obtain ⟨hdone, -⟩ | ⟨n, part, hbehind, hpart, hsize, hsent⟩ := h.pace
      · obtain ⟨_, _, ho, -⟩ | ⟨_, _, ho, -⟩ | ⟨ho, -⟩ := hcase <;> cases ho.symm.trans hdone
      · obtain ⟨c, left, ho, hleft, rfl⟩ | ⟨c, left, ho, rfl⟩ | ⟨ho, rfl⟩ := hcase
        · rw [ho] at hpart hsize hsent
          obtain ⟨hparts, -⟩ := hpart
          have hw : Whole pumpInboundRequests (part ++ left.take k ++ left.drop k) := by
            rw [List.append_assoc, List.take_append_drop, hparts]
            exact whole_chunkFrame (hsize c List.mem_cons_self)
          refine ⟨hbase, h.room, hinflight, .inr ⟨n, part ++ left.take k,
            hbehind.push_part hleft hw, ⟨?_, hleft⟩, hsize, hsent⟩⟩
          rw [List.append_assoc, List.take_append_drop, hparts]
        · rw [ho] at hpart hsize hsent
          obtain ⟨hparts, -⟩ := hpart
          have hw : Whole pumpInboundRequests (part ++ left) := by
            rw [hparts]
            exact whole_chunkFrame (hsize c List.mem_cons_self)
          refine ⟨hbase, h.room, hinflight, .inr ⟨n + 1, [], hbehind.push_whole hw, rfl, ?_, ?_⟩⟩
          · intro d hd
            cases hd
          · simp only [outHeld, List.length_cons, List.length_nil] at hsent ⊢
            omega
        · exact ⟨hbase, Nat.zero_le _, hinflight, .inl ⟨rfl, hlimit⟩⟩
  | writeFails =>
      obtain ⟨-, rfl⟩ := step_writeFails_cases hs
      exact hstop hbase
  | abort =>
      obtain rfl := step_abort_iff.mp hs
      exact hstop hbase
  | leg a =>
      obtain ⟨l, hl, rfl⟩ := step_leg_iff.mp hs
      have hinflight := Leg.step_inflight_le hl
      refine ⟨hbase, h.room, hinflight.trans h.inflight, ?_⟩
      obtain ⟨hdone, hle⟩ | ⟨n, part, hbehind, hpart, hsize, hsent⟩ := h.pace
      · exact .inl ⟨hdone, hle.trans (Nat.add_le_add_right (Leg.step_got_le hl) _)⟩
      · exact .inr ⟨n, part, hbehind.step ht hl, hpart, hsize, hsent⟩

/-- **A slow handler holds the caller back**: whatever is aborted, refused or dropped, the sends
that have returned are ahead of the chunks the handler has read by what both channels, both pumps
and the window hold. -/
theorem requests_backpressure {as : List RequestAct}
    (h : Runs (RequestFlow.step window) Thrifty as start s) :
    s.sent.length ≤ s.leg.got.length + backlogLimit window := by
  have hpaced : Paced window s :=
    h.invariant (fun _ _ _ ht hp hs => Paced.step hp ht hs) paced_start
  exact hpaced.limit

end requests

/-- An empty chunk on its way into the hand of the inbound pump. -/
def relayOne : List RequestAct :=
  [.callerSend [], .recv, .write 2, .leg (.deliver 1), .leg (.deliver 1), .leg .read]

/-- The handler's channel, the pumps, the window and the caller's channel filled up in turn. -/
def fillUp : List RequestAct :=
  (List.replicate 16 (relayOne ++ [.leg .send])).flatten ++ relayOne ++
    [.callerSend [], .recv, .write 2, .callerSend [], .recv] ++ List.replicate 16 (.callerSend [])

/-- The limit is reached. -/
theorem requests_backpressure_fillUp :
    letI := reference
    ∃ s : RequestFlow, s.leg.got = [] ∧ s.sent.length = backlogLimit 2 ∧
      s.sent.length ≤ s.leg.got.length + backlogLimit 2 := by
  let _ := reference
  have hrun : (runAllowed (RequestFlow.step 2) Thrifty fillUp start).map
      (fun s => (s.leg.got, s.sent.length)) = some ([], backlogLimit 2) := by decide +kernel
  obtain ⟨s, hs, hpair⟩ := Option.map_eq_some_iff.mp hrun
  obtain ⟨hgot, hsent⟩ := Prod.mk.inj hpair
  exact ⟨s, hgot, hsent, requests_backpressure (runs_of_runAllowed hs)⟩

end RequestFlow

/-! ### Responses -/

namespace ResponseFlow

section responses

variable [Deps] {window n n' : ℕ} {s s' : ResponseFlow}

/-- The inbound pump takes no byte behind the frame it reads. -/
def Thrifty : ResponseAct → ResponseFlow → Prop
  | .leg a, s => Leg.Thrifty pumpInboundResponses a s.leg
  | _, _ => True

instance (a : ResponseAct) (s : ResponseFlow) : Decidable (Thrifty a s) :=
  match a with
  | .leg a => inferInstanceAs (Decidable (Leg.Thrifty pumpInboundResponses a s.leg))
  | .handlerSend _ | .handlerDrop | .handlerEnd _ | .recv | .write _ | .writeFails | .join
  | .finish => isTrue trivial

/-- The handler's channel takes an item. -/
def accepts : ResponseAct → ResponseFlow → Bool
  | .handlerSend _, s => Receiving s.task
  | _, _ => false

/-- A step, and the number of items that the channel has taken. -/
def countStep (window : ℕ) (a : ResponseAct) (p : ℕ × ResponseFlow) :
    Option (ℕ × ResponseFlow) :=
  (step window a p.2).map fun s => (p.1 + (accepts a p.2).toNat, s)

/-- The items whose frames the substream task has in its hand. -/
def taskHeld : ServerTask → ℕ
  | .writing _ _ => 1
  | _ => 0

/-- `part` is what is on the wire of the frame in writing. -/
def TaskPart (part : Bytes) : ServerTask → Prop
  | .draining => part = []
  | .writing _ left => left ≠ [] ∧ Whole pumpInboundResponses (part ++ left)
  | _ => False

/-- The items that have been taken are the whole frames that have been pushed, the one in the hand
of the substream task and those queued for it. -/
def Pushing (n : ℕ) (s : ResponseFlow) : Prop :=
  ∃ k part, Leg.Behind pumpInboundResponses channelCapacity k part s.leg ∧
    TaskPart part s.task ∧ n = k + taskHeld s.task + s.queue.length

/-- While the substream task drains the handler's channel the caller is behind by what the stages
hold; after that no item is taken. -/
structure Paced (window n : ℕ) (s : ResponseFlow) : Prop where
  room : s.queue.length ≤ channelCapacity
  inflight : s.leg.inflight.length ≤ window
  pace : ¬ Receiving s.task ∧ n ≤ s.leg.got.length + backlogLimit window ∨ Pushing n s

theorem Paced.limit (h : Paced window n s) : n ≤ s.leg.got.length + backlogLimit window := by
  obtain ⟨-, hle⟩ | ⟨k, part, hbehind, -, hn⟩ := h.pace
  · exact hle
  · have hlag := hbehind.lag
    have hroom := h.room
    have hinflight := h.inflight
    have hheld : taskHeld s.task ≤ 1 := by
      cases s.task <;> simp [taskHeld]
    unfold Leg.Lag at hlag
    unfold backlogLimit
    omega

theorem paced_start : Paced window 0 start :=
  ⟨Nat.zero_le _, Nat.zero_le _, .inr ⟨0, [], Leg.behind_start, rfl, rfl⟩⟩

theorem step_write_inflight {k : ℕ} (h : ResponseFlow.step window (.write k) s = some s') :
    s'.leg.inflight.length ≤ window := by
  cases ho : s.task with
  | writing t left =>
      simp only [ResponseFlow.step, write, ho] at h
      split_ifs at h with hn hleft
      · cases h
        unfold wrote
        split
        all_goals
          simp only [drained, Leg.push, List.length_append, List.length_take]
          omega
      · cases h
        simp only [Leg.push, List.length_append, List.length_take]
        omega
  | closing left =>
      simp only [ResponseFlow.step, write, ho] at h
      split_ifs at h with hn hleft
      all_goals
        cases h
        simp only [Leg.push, List.length_append, List.length_take]
        omega
  | _ => simp [ResponseFlow.step, write, ho] at h

theorem step_handlerSend_room {item : RpcResult Bytes} (hr : Receiving s.task)
    (h : ResponseFlow.step window (.handlerSend item) s = some s') :
    s.queue.length < channelCapacity := by
  simp only [ResponseFlow.step, hr, not_true, if_false] at h
  split_ifs at h with _ hfree
  exact hfree

theorem Paced.recv (hcodec : streamingErrorCodec.RoundTrips) (h : Paced window n s)
    (hs : ResponseFlow.step window .recv s = some s') : Paced window n s' := by
  have hlimit := h.limit
  obtain ⟨ho, hcase⟩ := step_recv_cases hs
  obtain ⟨hdone, -⟩ | ⟨k, part, hbehind, hpart, hn⟩ := h.pace
  · rw [ho] at hdone
    exact absurd trivial hdone
  · rw [ho] at hpart hn
    obtain rfl : part = [] := hpart
    obtain ⟨item, queue, buf, hq, hbuf, rfl⟩ | ⟨item, queue, e, hq, -, rfl⟩ | ⟨-, -, rfl⟩ := hcase
    · have hroom := h.room
      rw [hq, List.length_cons] at hroom hn
      refine ⟨by dsimp only; omega, h.inflight, .inr ⟨k, [], hbehind, ?_, ?_⟩⟩
      · exact ⟨frameBytes_ne_nil hbuf, whole_itemFrame hcodec hbuf⟩
      · simp only [taskHeld] at hn ⊢
        omega
    · exact ⟨Nat.zero_le _, h.inflight, .inl ⟨id, hlimit⟩⟩
    · exact ⟨h.room, h.inflight, .inl ⟨id, hlimit⟩⟩

theorem Paced.write (h : Paced window n s) {k : ℕ}
    (hs : ResponseFlow.step window (.write k) s = some s') : Paced window n s' := by
  have hlimit := h.limit
  have hinflight := step_write_inflight hs
  obtain ⟨left, -, -, hcase⟩ := step_write_cases hs
  obtain ⟨t, ho, hleft, rfl⟩ | ⟨t, ho, rfl⟩ | ⟨ho, -, rfl⟩ | ⟨ho, rfl⟩ := hcase
  · obtain ⟨hdone, -⟩ | ⟨m, part, hbehind, hpart, hn⟩ := h.pace
    · rw [ho] at hdone
      exact absurd trivial hdone
    · rw [ho] at hpart hn
      obtain ⟨-, hw⟩ := hpart
      have hsplit : part ++ left.take k ++ left.drop k = part ++ left := by
        rw [List.append_assoc, List.take_append_drop]
      refine ⟨h.room, hinflight, .inr ⟨m, part ++ left.take k,
        hbehind.push_part hleft (hsplit ▸ hw), ⟨hleft, hsplit ▸ hw⟩, hn⟩⟩
  · cases t with
    | true => exact ⟨Nat.zero_le _, hinflight, .inl ⟨id, hlimit⟩⟩
    | false =>
        obtain ⟨hdone, -⟩ | ⟨m, part, hbehind, hpart, hn⟩ := h.pace
        · rw [ho] at hdone
          exact absurd trivial hdone
        · rw [ho] at hpart hn
          refine ⟨h.room, hinflight, .inr ⟨m + 1, [], hbehind.push_whole hpart.2, rfl, ?_⟩⟩
          simp only [wrote, taskHeld, Bool.false_eq_true, if_false] at hn ⊢
          omega
  · exact ⟨h.room, hinflight, .inl ⟨id, hlimit⟩⟩
  · exact ⟨h.room, hinflight, .inl ⟨id, hlimit⟩⟩

/-- **The caller does not fall further behind than the stages hold.** -/
theorem Paced.step (hcodec : streamingErrorCodec.RoundTrips) (h : Paced window n s)
    {a : ResponseAct} (ht : Thrifty a s) (hs : ResponseFlow.step window a s = some s') :
    Paced window (n + (accepts a s).toNat) s' := by
  have hlimit := h.limit
  have hover : ¬ Receiving s'.task → s'.queue.length ≤ channelCapacity →
      s'.leg.inflight.length ≤ window → s'.leg.got = s.leg.got → accepts a s = false →
      Paced window (n + (accepts a s).toNat) s' := by
    intro htask hqueue hinflight hgot haccepts
    refine ⟨hqueue, hinflight, .inl ⟨htask, ?_⟩⟩
    rw [hgot, haccepts]
    exact hlimit
  cases a with
  | handlerSend item =>
      obtain ⟨-, ⟨hr, hsame⟩ | ⟨hr, rfl⟩⟩ := step_handlerSend_cases hs
      · have haccepts : accepts (.handlerSend item) s = false := decide_eq_false hr
        rw [haccepts, hsame]
        exact h
      · have haccepts : accepts (.handlerSend item) s = true := decide_eq_true hr
        have hfree := step_handlerSend_room hr hs
        rw [haccepts]
        obtain ⟨hdone, -⟩ | ⟨k, part, hbehind, hpart, hn⟩ := h.pace
        · exact absurd hr hdone
        · refine ⟨?_, h.inflight, .inr ⟨k, part, hbehind, hpart, ?_⟩⟩
          all_goals
            simp only [List.length_append, List.length_singleton, Bool.toNat_true]
            omega
  | handlerDrop =>
      obtain ⟨-, rfl⟩ := step_handlerDrop_iff.mp hs
      exact ⟨h.room, h.inflight, h.pace⟩
  | handlerEnd o =>
      obtain ⟨-, rfl⟩ := step_handlerEnd_iff.mp hs
      exact ⟨h.room, h.inflight, h.pace⟩
  | recv => exact h.recv hcodec hs
  | write k => exact h.write hs
  | writeFails =>
      obtain ⟨-, ⟨_, _, -, rfl⟩ | ⟨_, -, rfl⟩⟩ := step_writeFails_cases hs
      · exact hover id (Nat.zero_le _) h.inflight rfl rfl
      · exact hover id h.room h.inflight rfl rfl
  | join =>
      obtain ⟨_, -, ⟨-, rfl⟩ | ⟨_, -, -, rfl⟩ | ⟨_, -, -, rfl⟩⟩ := step_join_cases hs
      all_goals exact hover id h.room h.inflight rfl rfl
  | finish =>
      obtain ⟨-, rfl⟩ := step_finish_iff.mp hs
      exact hover id h.room h.inflight rfl rfl
  | leg a =>
      obtain ⟨l, hl, rfl⟩ := step_leg_iff.mp hs
      have hinflight := Leg.step_inflight_le hl
      refine ⟨h.room, hinflight.trans h.inflight, ?_⟩
      obtain ⟨hdone, hle⟩ | ⟨k, part, hbehind, hpart, hn⟩ := h.pace
      · exact .inl ⟨hdone, hle.trans (Nat.add_le_add_right (Leg.step_got_le hl) _)⟩
      · exact .inr ⟨k, part, hbehind.step ht hl, hpart, hn⟩

/-- **A slow caller holds the handler back**: whatever is aborted, refused or dropped, the items
that the handler's channel has taken are ahead of those the caller has read by what both channels,
both pumps and the window hold. -/
theorem responses_backpressure (hcodec : streamingErrorCodec.RoundTrips) {as : List ResponseAct}
    {p : ℕ × ResponseFlow}
    (h : Runs (countStep window) (fun a p => Thrifty a p.2) as (0, start) p) :
    p.1 ≤ p.2.leg.got.length + backlogLimit window := by
  have hpaced : (fun p : ℕ × ResponseFlow => Paced window p.1 p.2) p := by
    apply h.invariant ?_ ?_
    · rintro a ⟨n, s⟩ p ht hp hs
      obtain ⟨s', hs', rfl⟩ := Option.map_eq_some_iff.mp hs
      exact Paced.step hcodec hp ht hs'
    · exact paced_start
  exact Paced.limit hpaced

end responses

/-- An empty chunk on its way into the hand of the inbound pump. -/
def relayOne : List ResponseAct :=
  [.handlerSend (.ok []), .recv, .write 2, .leg (.deliver 1), .leg (.deliver 1), .leg .read]

/-- The caller's channel, the pumps, the window and the handler's channel filled up in turn. -/
def fillUp : List ResponseAct :=
  (List.replicate 16 (relayOne ++ [.leg .send])).flatten ++ relayOne ++
    [.handlerSend (.ok []), .recv, .write 2, .handlerSend (.ok []), .recv] ++
    List.replicate 16 (.handlerSend (.ok []))

/-- The limit is reached. -/
theorem responses_backpressure_fillUp :
    letI := reference
    ∃ (n : ℕ) (s : ResponseFlow), s.leg.got = [] ∧ n = backlogLimit 2 ∧
      n ≤ s.leg.got.length + backlogLimit 2 := by
  let _ := reference
  have hrun : (runAllowed (countStep 2) (fun a p => Thrifty a p.2) fillUp (0, start)).map
      (fun p => (p.1, p.2.leg.got)) = some (backlogLimit 2, []) := by decide +kernel
  obtain ⟨⟨n, s⟩, hs, hpair⟩ := Option.map_eq_some_iff.mp hrun
  obtain ⟨hn, hgot⟩ := Prod.mk.inj hpair
  exact ⟨n, s, hgot, hn, responses_backpressure (ofCodec_roundTrips _) (runs_of_runAllowed hs)⟩

end ResponseFlow

end NerwRpc
