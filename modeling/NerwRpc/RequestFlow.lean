import NerwRpc.StreamPumps
import NerwRpc.Transition
import NerwRpc.Reference

/-! # The request direction of a streaming call

The caller, its channel, `pump_outbound_requests`, the substream and, as a `Leg`,
`pump_inbound_requests`, its channel and the handler.  Both channels hold sixteen items; the
transport takes bytes of a write in arbitrary fragments, as far as its window allows.

* `Stages` is the invariant of the pipeline at every byte boundary: what has been sent is, in
  order, what the handler has read, what is queued for it, what its pump holds, the whole
  frames on the wire, what the outbound pump holds and what is queued for it.
* `Stages.step`: every step keeps it, until a pump stops, the handler drops its stream or an
  oversized chunk is refused.
* `inOrder_of_run`: whatever stops, what the handler has read is a prefix of what was
  sent. -/

namespace NerwRpc

open ByteStream FramePump Transition

/-- The task `pump_outbound_requests`: it waits for a chunk, has bytes of a chunk's frame or the
end frame left to write, or has returned. -/
inductive OutboundPump where
  | recv
  | writing (chunk left : Bytes)
  | ending
  | done
deriving DecidableEq, Repr

/-- `sent` is the history of the chunks the caller's sends have put in the channel. -/
structure RequestFlow where
  sent : List Bytes
  senderDropped : Bool
  queue : List Bytes
  out : OutboundPump
  leg : Leg (RpcResult Bytes)
deriving DecidableEq, Repr

inductive RequestAct where
  | callerSend (chunk : Bytes)
  | callerDrop
  | recv
  | write (n : ℕ)
  | writeFails
  | abort
  | leg (a : LegAct)
deriving DecidableEq, Repr

namespace RequestFlow

def start : RequestFlow := ⟨[], false, [], .recv, Leg.start⟩

/-- The outbound pump is gone: its channel is closed, and dropping its send half finishes
it. -/
def stop (s : RequestFlow) : RequestFlow :=
  { s with queue := [], out := .done, leg := s.leg.close }

/-- The end frame is written: the outbound pump finishes its half and returns. -/
def finished (s : RequestFlow) : RequestFlow :=
  stop { s with leg := s.leg.push [opcodeStreamingRequestEnd] }

/-! ### The stages of the pipeline -/

/-- The chunk the outbound pump holds. -/
def outHeld : OutboundPump → List Bytes
  | .writing c _ => [c]
  | _ => []

/-- The bytes of its frame that the outbound pump has left to write. -/
def outLeft : OutboundPump → Bytes
  | .writing _ left => left
  | _ => []

/-- The item the inbound pump holds. -/
def inHeld : PumpState (RpcResult Bytes) → List (RpcResult Bytes)
  | .sending item _ => [item]
  | _ => []

/-- `part` is what is on the wire of the frame in writing. -/
def PartOf (part : Bytes) : OutboundPump → Prop
  | .writing c left => part ++ left = chunkFrame c ∧ left ≠ []
  | .done => False
  | _ => part = []

/-- The stages of the pipeline while both pumps run: `wire` are the chunks whose frames are
whole on the wire. -/
structure Stages (s : RequestFlow) (wire : List Bytes) (part : Bytes) : Prop where
  bytes : s.leg.recv.buf ++ s.leg.inflight = chunkFrames wire ++ part
  part : PartOf part s.out
  items : s.sent.map .ok = s.leg.got ++ (s.leg.queue ++ (inHeld s.leg.pump ++
    (wire ++ (outHeld s.out ++ s.queue)).map .ok))
  pump : s.leg.pump = .reading ∨ ∃ c, s.leg.pump = .sending (.ok c) .whileOpen
  ending : s.out = .ending → s.senderDropped = true ∧ s.queue = []

/-- What has been sent is what the handler has read, what is queued for it, `held`, what is on the
wire, what the outbound pump holds and what is queued there. -/
def InStages (held : List (RpcResult Bytes)) (s : RequestFlow) : Prop :=
  ∃ wire part, s.leg.recv.buf ++ s.leg.inflight = chunkFrames wire ++ part ∧ PartOf part s.out ∧
    s.sent.map .ok =
      s.leg.got ++ (s.leg.queue ++ (held ++ (wire ++ (outHeld s.out ++ s.queue)).map .ok))

variable {s s' : RequestFlow}

theorem Stages.out_ne {wire : List Bytes} {part : Bytes} (h : Stages s wire part) :
    s.out ≠ .done := by
  intro ho
  have := h.part
  rw [ho] at this
  exact this

theorem Stages.pump_ne {wire : List Bytes} {part : Bytes} (h : Stages s wire part) :
    s.leg.pump ≠ .done := by
  rcases h.pump with hp | ⟨c, hp⟩ <;> rw [hp] <;> nofun

theorem Stages.mem_sent {wire : List Bytes} {part : Bytes} (h : Stages s wire part) {c : Bytes}
    (hc : c ∈ wire ++ outHeld s.out) : c ∈ s.sent := by
  have : (Except.ok c : RpcResult Bytes) ∈ s.sent.map .ok := by
    rw [h.items, ← List.append_assoc wire]
    simp only [List.map_append, List.mem_append, List.mem_map, Except.ok.injEq,
      exists_eq_right] at hc ⊢
    tauto
  simpa using this

/-- A cut loses the end of what has been sent. -/
theorem okItems_cut {sent ws rest : List Bytes} {front tail : List (RpcResult Bytes)}
    (h : sent.map .ok = front ++ (ws ++ rest).map .ok) (ht : okItems tail = []) :
    okItems (front ++ (ws.map .ok ++ tail)) <+: sent := by
  have hsent := congrArg okItems h
  simp only [okItems_append, okItems_map_ok, ht, List.append_nil] at hsent ⊢
  rw [hsent]
  simp

/-! ### The steps -/

section steps

variable [Deps] (window : ℕ)

/-- The transport takes `n` bytes of the buffer in writing; `write_all` returns when it has
taken the last one. -/
def write (n : ℕ) (s : RequestFlow) : Option RequestFlow :=
  match s.out with
  | .writing chunk left =>
      if 0 < n ∧ n ≤ left.length ∧ s.leg.inflight.length + n ≤ window then
        some { s with out := if left.drop n = [] then .recv else .writing chunk (left.drop n)
                      leg := s.leg.push (left.take n) }
      else none
  | .ending =>
      if n = 1 ∧ s.leg.inflight.length + n ≤ window then
        some s.finished
      else none
  | _ => none

/-- One action; `none` when it is not possible.  A write fails only once the peer's reader is
gone. -/
def step : RequestAct → RequestFlow → Option RequestFlow
  | .callerSend chunk, s =>
      if s.senderDropped = false ∧ chunk.length ≤ usizeMax ∧ s.queue.length < channelCapacity ∧
          s.out ≠ .done then
        some { s with sent := s.sent ++ [chunk], queue := s.queue ++ [chunk] }
      else none
  | .callerDrop, s =>
      if s.senderDropped = false then some { s with senderDropped := true } else none
  | .recv, s => match s.out, s.queue with
    | .recv, chunk :: queue => match frameBytes (.requestChunk chunk) with
      | .ok buf => some { s with queue := queue, out := .writing chunk buf }
      | .error _ => some s.stop
    | .recv, [] => if s.senderDropped = true then some { s with out := .ending } else none
    | _, _ => none
  | .write n, s => s.write window n
  | .writeFails, s => match s.out with
    | .writing _ _ | .ending => if s.leg.pump = .done then some s.stop else none
    | _ => none
  | .abort, s => some s.stop
  | .leg a, s => (s.leg.step pumpInboundRequests channelCapacity a).map fun l => { s with leg := l }

variable {window}

/-! ### What a step can do -/

theorem step_callerSend_iff {c : Bytes} : step window (.callerSend c) s = some s' ↔
    s.senderDropped = false ∧ c.length ≤ usizeMax ∧ s.queue.length < channelCapacity ∧
      s.out ≠ .done ∧ s' = { s with sent := s.sent ++ [c], queue := s.queue ++ [c] } := by
  simp [step, and_assoc, @eq_comm _ _ s']

theorem step_callerDrop_iff : step window .callerDrop s = some s' ↔
    s.senderDropped = false ∧ s' = { s with senderDropped := true } := by
  simp [step, @eq_comm _ _ s']

theorem step_recv_cases (hsize : ∀ c ∈ s.queue, c.length ≤ usizeMax)
    (h : step window .recv s = some s') : s.out = .recv ∧
      ((∃ c queue, s.queue = c :: queue ∧
        s' = { s with queue := queue, out := .writing c (chunkFrame c) }) ∨
      s.queue = [] ∧ s.senderDropped = true ∧ s' = { s with out := .ending }) := by
  cases ho : s.out with
  | recv =>
      refine ⟨rfl, ?_⟩
      cases hq : s.queue with
      | nil =>
          simp only [step, ho, hq] at h
          split_ifs at h with hd
          cases h
          exact .inr ⟨rfl, hd, rfl⟩
      | cons c queue =>
          have hc : c.length ≤ usizeMax := hsize c (by rw [hq]; exact List.mem_cons_self)
          simp only [step, ho, hq, frameBytes_requestChunk hc] at h
          cases h
          exact .inl ⟨c, queue, rfl, rfl⟩
  | writing c left => simp [step, ho] at h
  | ending => simp [step, ho] at h
  | done => simp [step, ho] at h

theorem step_write_cases {n : ℕ} (h : step window (.write n) s = some s') :
    (∃ c left, s.out = .writing c left ∧ left.drop n ≠ [] ∧
      s' = { s with out := .writing c (left.drop n), leg := s.leg.push (left.take n) }) ∨
    (∃ c left, s.out = .writing c left ∧ s' = { s with out := .recv, leg := s.leg.push left }) ∨
    s.out = .ending ∧ s' = s.finished := by
  cases ho : s.out with
  | writing c left =>
      simp only [step, write, ho] at h
      split_ifs at h with hn hleft
      · cases h
        refine .inr (.inl ⟨c, left, rfl, ?_⟩)
        rw [List.take_of_length_le (List.drop_eq_nil_iff.mp hleft)]
      · cases h
        exact .inl ⟨c, left, rfl, hleft, rfl⟩
  | ending =>
      simp only [step, write, ho] at h
      split_ifs at h
      cases h
      exact .inr (.inr ⟨rfl, rfl⟩)
  | recv => simp [step, write, ho] at h
  | done => simp [step, write, ho] at h

theorem step_writeFails_cases (h : step window .writeFails s = some s') :
    s.leg.pump = .done ∧ s' = s.stop := by
  cases ho : s.out with
  | writing c left => simpa [step, ho, @eq_comm _ _ s'] using h
  | ending => simpa [step, ho, @eq_comm _ _ s'] using h
  | recv => simp [step, ho] at h
  | done => simp [step, ho] at h

theorem step_abort_iff : step window .abort s = some s' ↔ s' = s.stop := by
  simp [step, @eq_comm _ _ s']

theorem step_leg_iff {a : LegAct} : step window (.leg a) s = some s' ↔
    ∃ l, s.leg.step pumpInboundRequests channelCapacity a = some l ∧ s' = { s with leg := l } := by
  simp [step, @eq_comm _ _ s']

/-! ### The invariant of the stages -/

/-- What holds in every state. -/
structure Base (s : RequestFlow) : Prop where
  tidy : s.leg.Tidy
  sizes : ∀ c ∈ s.sent, c.length ≤ usizeMax
  queue : ∀ c ∈ s.queue, c ∈ s.sent
  closed : s.leg.closed = true ↔ s.out = .done

/-- What the inbound pump will be given, if nothing more is written, is a stream of chunk
frames cut inside the frame in writing. -/
theorem Stages.requestStream (hb : Base s) {wire : List Bytes} {part : Bytes}
    (h : Stages s wire part) : RequestStream (wire ++ outHeld s.out) [] ∧
      (s.leg.recv.buf ++ s.leg.inflight) ++ outLeft s.out =
        chunkFrames (wire ++ outHeld s.out) ++ [] := by
  refine ⟨⟨fun c hc => hb.sizes c (h.mem_sent hc), .inl rfl⟩, ?_⟩
  have hpart := h.part
  rw [h.bytes, List.append_assoc, chunkFrames_append, List.append_nil]
  cases ho : s.out with
  | recv =>
      rw [ho] at hpart
      simp [outLeft, outHeld, show part = [] from hpart]
  | writing c left =>
      rw [ho] at hpart
      simp [outLeft, outHeld, hpart.1]
  | ending =>
      rw [ho] at hpart
      simp [outLeft, outHeld, show part = [] from hpart]
  | done => exact absurd ho h.out_ne

theorem Stages.outlook_eq {wire : List Bytes} {part : Bytes} (h : Stages s wire part)
    (Z : Bytes) : s.leg.outlook pumpInboundRequests Z = s.leg.got ++ (s.leg.queue ++
      (inHeld s.leg.pump ++
        pumpInboundRequests.forwards (s.leg.recv.buf ++ (s.leg.inflight ++ Z)))) := by
  rcases h.pump with hp | ⟨c, hp⟩ <;> simp [Leg.outlook, hp, inHeld, Pump.upstream]

/-- What the handler will see if nothing more is written: the chunks whose frames are whole, up
to the first oversized one, and an error unless the bytes end between two frames. -/
theorem Stages.cut (hb : Base s) {wire : List Bytes} {part : Bytes} (h : Stages s wire part) :
    ∃ ws rest, wire ++ outHeld s.out = ws ++ rest ∧
      ((s.leg.outlook pumpInboundRequests [] =
          s.leg.got ++ (s.leg.queue ++ (inHeld s.leg.pump ++ ws.map .ok)) ∧
        (∀ c ∈ ws, c.length ≤ maxStreamingPayloadLen) ∧
        s.leg.recv.buf ++ s.leg.inflight = chunkFrames ws) ∨
      ∃ e, s.leg.outlook pumpInboundRequests [] =
        s.leg.got ++ (s.leg.queue ++ (inHeld s.leg.pump ++ (ws.map .ok ++ [.error e])))) := by
  obtain ⟨hstream, hbytes⟩ := h.requestStream hb
  obtain ⟨ws, rest, hws, hcase⟩ := forwards_cut hstream hbytes
  refine ⟨ws, rest, hws, ?_⟩
  rw [h.outlook_eq, List.append_nil]
  obtain ⟨hf, hfit, hwhole | ⟨rfl, hleft⟩⟩ | ⟨e, hf⟩ := hcase
  · exact .inl ⟨by rw [hf], hfit, hwhole⟩
  · refine .inl ⟨by rw [hf], hfit, ?_⟩
    rw [hws, hleft] at hbytes
    simpa using hbytes
  · exact .inr ⟨e, by rw [hf]⟩

/-! ### Every step keeps the stages -/

theorem Stages.leg_read (hb : Base s) {wire : List Bytes} {part : Bytes} (h : Stages s wire part)
    {l : Leg (RpcResult Bytes)}
    (hl : s.leg.step pumpInboundRequests channelCapacity .read = some l) :
    (∃ wire', Stages { s with leg := l } wire' part) ∨
    ∃ c ∈ s.sent, maxStreamingPayloadLen < c.length ∧ ∃ e, s.leg.pump = .reading ∧
      l = { s.leg with pump := .sending (.error e) .last } := by
  obtain ⟨hp, r, hr, rfl⟩ := Leg.step_read_iff.mp hl
  have hlive : s.leg.recv.tail = .live := by
    obtain ht | ⟨-, hc, -⟩ := hb.tidy.tail
    · exact ht
    · exact absurd (hb.closed.mp hc) h.out_ne
  obtain ⟨hstream, hbytes⟩ := h.requestStream hb
  rw [List.append_assoc] at hbytes
  have hr' : readStreamingFrame ⟨s.leg.recv.buf, .live⟩ = .ready r := by
    rw [← hlive]
    exact hr
  rcases read_cut hstream hbytes hr' with ⟨c, cs, buf, hcs, hbuf, rfl⟩ |
    ⟨hnil, hbuf, -, -⟩ | ⟨c, hc, hlarge, e, rfl⟩
  · refine .inl ?_
    cases wire with
    | cons d wire =>
        obtain ⟨rfl, rfl⟩ : d = c ∧ wire ++ outHeld s.out = cs := by simpa using hcs
        refine ⟨wire, ?_, h.part, ?_, .inr ⟨d, rfl⟩, h.ending⟩
        · have := h.bytes
          rw [hbuf, chunkFrames_cons, List.append_assoc, List.append_assoc] at this
          exact List.append_cancel_left this
        · rw [h.items]
          simp [hp, inHeld, pumpInboundRequests, Pump.afterRead]
    | nil =>
        exfalso
        have hpart := h.part
        have hwhole := h.bytes
        rw [hbuf, chunkFrames_nil, List.nil_append, List.append_assoc] at hwhole
        cases ho : s.out with
        | writing d left =>
            rw [ho] at hcs hpart
            obtain ⟨rfl, -⟩ : d = c ∧ [] = cs := by simpa [outHeld] using hcs
            obtain ⟨hparts, hne⟩ := hpart
            rw [← hwhole, List.append_assoc] at hparts
            have := List.append_cancel_left (hparts.trans (List.append_nil _).symm)
            exact hne (List.append_eq_nil_iff.mp this).2
        | recv => simp [ho, outHeld] at hcs
        | ending => simp [ho, outHeld] at hcs
        | done => exact absurd ho h.out_ne
  · rw [hnil, hbuf] at hbytes
    simp at hbytes
  · exact .inr ⟨c, h.mem_sent hc, hlarge, e, hp, rfl⟩

/-- The bytes behind the inbound pump do not matter any more: there will be no others, or it
will not read them. -/
def Fixed (s : RequestFlow) : Prop :=
  s.out = .done ∨ s.leg.pump = .done ∨
    s.leg.Sealed ∧ ∃ c ∈ s.sent, maxStreamingPayloadLen < c.length

/-- What the handler will see is a prefix of what has been sent. -/
def Prefixed (s : RequestFlow) : Prop :=
  okItems (s.leg.outlook pumpInboundRequests []) <+: s.sent

/-- The handler will see an error, or everything that has been and will be sent. -/
def Honest (s : RequestFlow) : Prop :=
  (∃ e, .error e ∈ s.leg.outlook pumpInboundRequests []) ∨
    s.senderDropped = true ∧ s.leg.outlook pumpInboundRequests [] = s.sent.map .ok

theorem Stages.prefixed (hb : Base s) {wire : List Bytes} {part : Bytes}
    (h : Stages s wire part) : Prefixed s := by
  obtain ⟨ws, rest, hws, hcase⟩ := h.cut hb
  have hitems : s.sent.map .ok = (s.leg.got ++ (s.leg.queue ++ inHeld s.leg.pump)) ++
      (ws ++ (rest ++ s.queue)).map .ok := by
    rw [h.items, ← List.append_assoc wire, hws]
    simp
  obtain ⟨ho, -⟩ | ⟨e, ho⟩ := hcase
  · have := okItems_cut hitems (show okItems [] = [] from rfl)
    rw [Prefixed, ho]
    simpa using this
  · have := okItems_cut hitems (okItems_error e)
    rw [Prefixed, ho]
    simpa using this

/-- Behind the end frame the handler sees everything that has been sent, or the error of an
oversized chunk. -/
theorem Stages.finished (hb : Base s) {wire : List Bytes} {part : Bytes}
    (h : Stages s wire part) (ho : s.out = .ending) :
    Prefixed s.finished ∧ Honest s.finished := by
  obtain ⟨hstream, -⟩ := h.requestStream hb
  obtain rfl : part = [] := by simpa [ho, PartOf] using h.part
  have hnil : outHeld s.out = [] := by rw [ho]; rfl
  rw [hnil, List.append_nil] at hstream
  obtain ⟨hdropped, hqueue⟩ := h.ending ho
  have hitems : s.sent.map .ok = (s.leg.got ++ (s.leg.queue ++ inHeld s.leg.pump)) ++
      wire.map .ok := by
    rw [h.items, hnil, hqueue]
    simp
  have hout : s.finished.leg.outlook pumpInboundRequests [] =
      (s.leg.got ++ (s.leg.queue ++ inHeld s.leg.pump)) ++
        pumpInboundRequests.forwards (chunkFrames wire ++ [opcodeStreamingRequestEnd]) := by
    have hbytes := h.bytes
    rw [List.append_nil] at hbytes
    rw [RequestFlow.finished, stop, Leg.outlook_close, Leg.outlook_push, h.outlook_eq, ← hbytes]
    simp
  have hends : RequestStream wire [opcodeStreamingRequestEnd] := ⟨hstream.sizes, .inr rfl⟩
  obtain ⟨ws, rest, rfl, hcase⟩ := forwards_cut hends (List.append_nil _)
  obtain ⟨hf, -, hwhole⟩ | ⟨e, hf⟩ := hcase
  · obtain rfl : rest = [] := by
      obtain hp | ⟨rfl, -⟩ := hwhole
      · rw [chunkFrames_append, List.append_assoc] at hp
        have := List.append_cancel_left (hp.trans (List.append_nil _).symm)
        simp at this
      · rfl
    have hall : s.finished.leg.outlook pumpInboundRequests [] = s.sent.map .ok := by
      rw [hout, hf, hitems, List.append_nil]
    refine ⟨?_, .inr ⟨hdropped, hall⟩⟩
    rw [Prefixed, hall, okItems_map_ok]
    exact List.prefix_refl _
  · refine ⟨?_, .inl ⟨e, ?_⟩⟩
    · rw [Prefixed, hout, hf]
      exact okItems_cut hitems (okItems_error e)
    · rw [hout, hf]
      simp

theorem Stages.recv (hb : Base s) {wire : List Bytes} {part : Bytes} (h : Stages s wire part)
    (hs : RequestFlow.step window .recv s = some s') : Stages s' wire [] := by
  obtain ⟨hbytes, hpart, hitems, hpump, hending⟩ := h
  obtain ⟨ho, ⟨c, queue, hq, rfl⟩ | ⟨hq, hd, rfl⟩⟩ :=
    step_recv_cases (fun c hc => hb.sizes c (hb.queue c hc)) hs
  · obtain rfl : part = [] := by simpa [ho, PartOf] using hpart
    refine ⟨hbytes, ⟨rfl, chunkFrame_ne_nil c⟩, ?_, hpump, by simp⟩
    simp [hitems, ho, hq, outHeld]
  · obtain rfl : part = [] := by simpa [ho, PartOf] using hpart
    refine ⟨hbytes, rfl, ?_, hpump, fun _ => ⟨hd, hq⟩⟩
    simp [hitems, ho, outHeld]

theorem Stages.write (hb : Base s) {wire : List Bytes} {part : Bytes} (h : Stages s wire part)
    {n : ℕ} (hs : RequestFlow.step window (.write n) s = some s') :
    (∃ wire' part', Stages s' wire' part') ∨ Fixed s' ∧ Prefixed s' ∧ Honest s' := by
  obtain ⟨hbytes, hpart, hitems, hpump, hending⟩ := id h
  obtain ⟨c, left, ho, hne, rfl⟩ | ⟨c, left, ho, rfl⟩ | ⟨ho, rfl⟩ := step_write_cases hs
  · obtain ⟨hparts, -⟩ : part ++ left = chunkFrame c ∧ left ≠ [] := by
      simpa [ho, PartOf] using hpart
    refine .inl ⟨wire, part ++ left.take n, ?_, ⟨?_, hne⟩, ?_, hpump, by simp⟩
    · simp [Leg.push, ← List.append_assoc, hbytes]
    · rw [List.append_assoc, List.take_append_drop, hparts]
    · simpa [ho, outHeld] using hitems
  · obtain ⟨hparts, -⟩ : part ++ left = chunkFrame c ∧ left ≠ [] := by
      simpa [ho, PartOf] using hpart
    refine .inl ⟨wire ++ [c], [], ?_, rfl, ?_, hpump, by simp⟩
    · rw [chunkFrames_append, chunkFrames_cons, ← hparts]
      simp [Leg.push, ← List.append_assoc, hbytes]
    · simpa [ho, outHeld] using hitems
  · exact .inr ⟨.inl rfl, h.finished hb ho⟩

theorem Stages.read (hb : Base s) {wire : List Bytes} {part : Bytes} (h : Stages s wire part)
    {l : Leg (RpcResult Bytes)}
    (hl : s.leg.step pumpInboundRequests channelCapacity .read = some l) :
    (∃ wire', Stages { s with leg := l } wire' part) ∨
      Fixed { s with leg := l } ∧ Prefixed { s with leg := l } ∧ Honest { s with leg := l } := by
  obtain ⟨wire', h'⟩ | ⟨c, hc, hlarge, e, hp, rfl⟩ := h.leg_read hb hl
  · exact .inl ⟨wire', h'⟩
  · refine .inr ⟨.inr (.inr ⟨.inr ⟨_, rfl⟩, c, hc, hlarge⟩), ?_, .inl ⟨e, ?_⟩⟩
    · have hcut : s.sent.map .ok = (s.leg.got ++ s.leg.queue) ++
          ([] ++ (wire ++ (outHeld s.out ++ s.queue))).map .ok := by
        simpa [hp, inHeld] using h.items
      simpa [Prefixed, Leg.outlook, Pump.upstream] using okItems_cut hcut (okItems_error e)
    · simp [Leg.outlook, Pump.upstream]

/-- **What a step makes of the stages**: it keeps them, or the handler drops its stream, or the
rest is settled, or one of the two tasks is cancelled. -/
theorem Stages.step (hb : Base s) {wire : List Bytes} {part : Bytes} (h : Stages s wire part)
    {a : RequestAct} (hs : RequestFlow.step window a s = some s') :
    s'.leg.dropped = true ∨ (∃ wire' part', Stages s' wire' part') ∨
      (Fixed s' ∧ Prefixed s' ∧ Honest s') ∨ (a = .abort ∧ s' = s.stop) ∨
      (a = .leg .abort ∧ s' = { s with leg := { s.leg with pump := .done } }) := by
  obtain ⟨hbytes, hpart, hitems, hpump, hending⟩ := id h
  cases a with
  | callerSend c =>
      obtain ⟨hopen, -, -, -, rfl⟩ := step_callerSend_iff.mp hs
      refine .inr (.inl ⟨wire, part, hbytes, hpart, ?_, hpump, fun ho => ?_⟩)
      · simp [hitems]
      · have := (hending ho).1
        simp [hopen] at this
  | callerDrop =>
      obtain ⟨-, rfl⟩ := step_callerDrop_iff.mp hs
      exact .inr (.inl ⟨wire, part, hbytes, hpart, hitems, hpump, fun ho => ⟨rfl, (hending ho).2⟩⟩)
  | recv => exact .inr (.inl ⟨wire, [], h.recv hb hs⟩)
  | write n =>
      obtain hstages | hfixed := h.write hb hs
      · exact .inr (.inl hstages)
      · exact .inr (.inr (.inl hfixed))
  | writeFails => exact absurd (step_writeFails_cases hs).1 h.pump_ne
  | abort => exact .inr (.inr (.inr (.inl ⟨rfl, step_abort_iff.mp hs⟩)))
  | leg a =>
      obtain ⟨l, hl, rfl⟩ := step_leg_iff.mp hs
      cases a with
      | deliver n =>
          obtain ⟨hp, -, -, rfl⟩ := Leg.step_deliver_iff.mp hl
          refine .inr (.inl ⟨wire, part, ?_, hpart, hitems, hpump, hending⟩)
          simpa using hbytes
      | deliverFin =>
          obtain ⟨-, hc, -⟩ := Leg.step_deliverFin_iff.mp hl
          exact absurd (hb.closed.mp hc) h.out_ne
      | read =>
          obtain ⟨wire', h'⟩ | hfixed := h.read hb hl
          · exact .inr (.inl ⟨wire', part, h'⟩)
          · exact .inr (.inr (.inl hfixed))
      | send =>
          obtain ⟨item, next, hp, ⟨hd, rfl⟩ | ⟨-, -, rfl⟩⟩ := Leg.step_send_iff.mp hl
          · exact .inl hd
          · obtain hr | ⟨c, hc⟩ := hpump
            · rw [hp] at hr
              cases hr
            · cases hp.symm.trans hc
              refine .inr (.inl ⟨wire, part, hbytes, hpart, ?_, .inl rfl, hending⟩)
              simpa [hp, inHeld] using hitems
      | take =>
          obtain ⟨item, queue, hq, rfl⟩ := Leg.step_take_iff.mp hl
          refine .inr (.inl ⟨wire, part, hbytes, hpart, ?_, hpump, hending⟩)
          simpa [hq] using hitems
      | takeNone => exact absurd (Leg.step_takeNone_iff.mp hl).2.1 h.pump_ne
      | dropReceiver =>
          obtain ⟨-, rfl⟩ := Leg.step_dropReceiver_iff.mp hl
          exact .inl rfl
      | abort => exact .inr (.inr (.inr (.inr ⟨rfl, by rw [Leg.step_abort_iff.mp hl]⟩)))

/-! ### Every step keeps what holds in every state -/

theorem base_start : Base start := ⟨Leg.tidy_start, nofun, nofun, by simp [start, Leg.start]⟩

theorem Base.stop (hb : Base s) : Base s.stop :=
  ⟨hb.tidy.close, hb.sizes, nofun, by simp [RequestFlow.stop]⟩

theorem Base.open (hb : Base s) (ho : s.out ≠ .done) : s.leg.closed = false := by
  cases hc : s.leg.closed with
  | false => rfl
  | true => exact absurd (hb.closed.mp hc) ho

theorem Base.step (hb : Base s) {a : RequestAct} (hs : RequestFlow.step window a s = some s') :
    Base s' := by
  obtain ⟨htidy, hsizes, hqueue, hclosed⟩ := id hb
  cases a with
  | callerSend c =>
      obtain ⟨-, hc, -, ho, rfl⟩ := step_callerSend_iff.mp hs
      refine ⟨htidy, fun d hd => ?_, fun d hd => ?_, hclosed⟩
      · obtain hd | hd := List.mem_append.mp hd
        · exact hsizes d hd
        · obtain rfl := List.mem_singleton.mp hd
          exact hc
      · obtain hd | hd := List.mem_append.mp hd
        · exact List.mem_append_left _ (hqueue d hd)
        · exact List.mem_append_right _ hd
  | callerDrop =>
      obtain ⟨-, rfl⟩ := step_callerDrop_iff.mp hs
      exact ⟨htidy, hsizes, hqueue, hclosed⟩
  | recv =>
      obtain ⟨ho, ⟨c, queue, hq, rfl⟩ | ⟨-, -, rfl⟩⟩ :=
        step_recv_cases (fun c hc => hsizes c (hqueue c hc)) hs
      · refine ⟨htidy, hsizes, fun d hd => hqueue d ?_, ?_⟩
        · rw [hq]
          exact List.mem_cons_of_mem c hd
        · simpa [ho] using hclosed
      · exact ⟨htidy, hsizes, hqueue, by simpa [ho] using hclosed⟩
  | write n =>
      obtain ⟨c, left, ho, -, rfl⟩ | ⟨c, left, ho, rfl⟩ | ⟨ho, rfl⟩ := step_write_cases hs
      · exact ⟨htidy.push (hb.open (by simp [ho])) _, hsizes, hqueue, by simpa [ho] using hclosed⟩
      · exact ⟨htidy.push (hb.open (by simp [ho])) _, hsizes, hqueue, by simpa [ho] using hclosed⟩
      · refine ⟨(htidy.push (hb.open (by simp [ho])) _).close, hsizes, nofun, ?_⟩
        simp [finished, RequestFlow.stop]
  | writeFails => rw [(step_writeFails_cases hs).2]; exact hb.stop
  | abort => rw [step_abort_iff.mp hs]; exact hb.stop
  | leg a =>
      obtain ⟨l, hl, rfl⟩ := step_leg_iff.mp hs
      refine ⟨htidy.step hl, hsizes, hqueue, ?_⟩
      rw [Leg.step_closed hl]
      exact hclosed

theorem step_history (hb : Base s) {a : RequestAct} (hs : RequestFlow.step window a s = some s') :
    s.sent <+: s'.sent ∧
      (s.senderDropped = true → s'.senderDropped = true ∧ s'.sent = s.sent) := by
  cases a with
  | callerSend c =>
      obtain ⟨hopen, -, -, -, rfl⟩ := step_callerSend_iff.mp hs
      exact ⟨List.prefix_append _ _, fun hd => by simp [hopen] at hd⟩
  | callerDrop =>
      obtain ⟨-, rfl⟩ := step_callerDrop_iff.mp hs
      exact ⟨List.prefix_refl _, fun _ => ⟨rfl, rfl⟩⟩
  | recv =>
      obtain ⟨-, ⟨c, queue, -, rfl⟩ | ⟨-, -, rfl⟩⟩ :=
        step_recv_cases (fun c hc => hb.sizes c (hb.queue c hc)) hs
      · exact ⟨List.prefix_refl _, fun hd => ⟨hd, rfl⟩⟩
      · exact ⟨List.prefix_refl _, fun hd => ⟨hd, rfl⟩⟩
  | write n =>
      obtain ⟨c, left, -, -, rfl⟩ | ⟨c, left, -, rfl⟩ | ⟨-, rfl⟩ := step_write_cases hs
      all_goals exact ⟨List.prefix_refl _, fun hd => ⟨hd, rfl⟩⟩
  | writeFails =>
      rw [(step_writeFails_cases hs).2]
      exact ⟨List.prefix_refl _, fun hd => ⟨hd, rfl⟩⟩
  | abort =>
      rw [step_abort_iff.mp hs]
      exact ⟨List.prefix_refl _, fun hd => ⟨hd, rfl⟩⟩
  | leg a =>
      obtain ⟨l, -, rfl⟩ := step_leg_iff.mp hs
      exact ⟨List.prefix_refl _, fun hd => ⟨hd, rfl⟩⟩

theorem step_leg_eq_or (hb : Base s) {a : RequestAct}
    (hs : RequestFlow.step window a s = some s') :
    s'.leg.dropped = s.leg.dropped ∧ s'.leg.got = s.leg.got ∧ s'.leg.ended = s.leg.ended ∨
      ∃ b l, a = .leg b ∧ s.leg.step pumpInboundRequests channelCapacity b = some l ∧
        s' = { s with leg := l } := by
  cases a with
  | callerSend c =>
      obtain ⟨-, -, -, -, rfl⟩ := step_callerSend_iff.mp hs
      exact .inl ⟨rfl, rfl, rfl⟩
  | callerDrop =>
      obtain ⟨-, rfl⟩ := step_callerDrop_iff.mp hs
      exact .inl ⟨rfl, rfl, rfl⟩
  | recv =>
      obtain ⟨-, ⟨c, queue, -, rfl⟩ | ⟨-, -, rfl⟩⟩ :=
        step_recv_cases (fun c hc => hb.sizes c (hb.queue c hc)) hs
      all_goals exact .inl ⟨rfl, rfl, rfl⟩
  | write n =>
      obtain ⟨c, left, -, -, rfl⟩ | ⟨c, left, -, rfl⟩ | ⟨-, rfl⟩ := step_write_cases hs
      all_goals exact .inl ⟨rfl, rfl, rfl⟩
  | writeFails => rw [(step_writeFails_cases hs).2]; exact .inl ⟨rfl, rfl, rfl⟩
  | abort => rw [step_abort_iff.mp hs]; exact .inl ⟨rfl, rfl, rfl⟩
  | leg b =>
      obtain ⟨l, hl, rfl⟩ := step_leg_iff.mp hs
      exact .inr ⟨b, l, rfl, hl, rfl⟩

/-! ### Once the stages are over -/

omit [Deps] in
theorem Fixed.of_sent (h : Fixed s) (hsent : s.sent <+: s'.sent)
    (hout : s.out = .done → s'.out = .done) (hdone : s.leg.pump = .done → s'.leg.pump = .done)
    (hsealed : s.leg.Sealed → s'.leg.Sealed) : Fixed s' := by
  obtain ho | hp | ⟨hl, c, hc, hlarge⟩ := h
  · exact .inl (hout ho)
  · exact .inr (.inl (hdone hp))
  · exact .inr (.inr ⟨hsealed hl, c, hsent.subset hc, hlarge⟩)

omit [Deps] in
/-- A pump that can still write meets a sealed leg. -/
theorem Fixed.sealed (h : Fixed s) (ho : s.out ≠ .done) : s.leg.Sealed := by
  obtain hd | hp | ⟨hl, -⟩ := h
  · exact absurd hd ho
  · exact .inl hp
  · exact hl

/-- **The outlook is settled**: no step changes it, unless the handler drops its stream or the
inbound pump is cancelled. -/
theorem Fixed.step (hb : Base s) (h : Fixed s) {a : RequestAct}
    (hs : RequestFlow.step window a s = some s') :
    s'.leg.dropped = true ∨ Fixed s' ∧
      (s'.leg.outlook pumpInboundRequests [] = s.leg.outlook pumpInboundRequests [] ∨
        a = .leg .abort ∧
          s'.leg.outlook pumpInboundRequests [] = s.leg.got ++ s.leg.queue) := by
  have hsent := (step_history hb hs).1
  cases a with
  | callerSend c =>
      obtain ⟨-, -, -, -, rfl⟩ := step_callerSend_iff.mp hs
      exact .inr ⟨h.of_sent hsent id id id, .inl rfl⟩
  | callerDrop =>
      obtain ⟨-, rfl⟩ := step_callerDrop_iff.mp hs
      exact .inr ⟨h.of_sent hsent id id id, .inl rfl⟩
  | recv =>
      obtain ⟨ho, ⟨c, queue, -, rfl⟩ | ⟨-, -, rfl⟩⟩ :=
        step_recv_cases (fun c hc => hb.sizes c (hb.queue c hc)) hs
      · exact .inr ⟨h.of_sent hsent (fun hd => by simp [ho] at hd) id id, .inl rfl⟩
      · exact .inr ⟨h.of_sent hsent (fun hd => by simp [ho] at hd) id id, .inl rfl⟩
  | write n =>
      obtain ⟨c, left, ho, -, rfl⟩ | ⟨c, left, ho, rfl⟩ | ⟨ho, rfl⟩ := step_write_cases hs
      · refine .inr ⟨h.of_sent hsent (fun hd => by simp [ho] at hd) id id, .inl ?_⟩
        rw [Leg.outlook_push]
        exact (h.sealed (by simp [ho])).outlook_eq _ _
      · refine .inr ⟨h.of_sent hsent (fun hd => by simp [ho] at hd) id id, .inl ?_⟩
        rw [Leg.outlook_push]
        exact (h.sealed (by simp [ho])).outlook_eq _ _
      · refine .inr ⟨.inl rfl, .inl ?_⟩
        rw [finished, stop, Leg.outlook_close, Leg.outlook_push]
        exact (h.sealed (by simp [ho])).outlook_eq _ _
  | writeFails =>
      rw [(step_writeFails_cases hs).2]
      exact .inr ⟨.inl rfl, .inl rfl⟩
  | abort =>
      rw [step_abort_iff.mp hs]
      exact .inr ⟨.inl rfl, .inl rfl⟩
  | leg a =>
      obtain ⟨l, hl, rfl⟩ := step_leg_iff.mp hs
      cases hd : l.dropped with
      | true => exact .inl rfl
      | false =>
          have hfixed : Fixed { s with leg := l } :=
            h.of_sent hsent id (Leg.step_pump_done hl) fun hsealed => hsealed.step hl
          refine .inr ⟨hfixed, ?_⟩
          by_cases hdrop : a = .dropReceiver
          · subst hdrop
            obtain ⟨-, rfl⟩ := Leg.step_dropReceiver_iff.mp hl
            cases hd
          by_cases habort : a = .abort
          · subst habort
            obtain rfl := Leg.step_abort_iff.mp hl
            exact .inr ⟨rfl, Leg.outlook_done rfl []⟩
          · have hkeeps : ¬ Leg.Loses a := by
              cases a <;> first | exact absurd rfl hdrop | exact absurd rfl habort | exact id
            rw [Leg.step_dropped hl hdrop] at hd
            exact .inl (Leg.outlook_step hb.tidy hl hkeeps hd fun _ => rfl)

/-! ### The order of the chunks -/

/-- While the handler keeps its stream, the stages hold, or they are over and what is left for
the handler is settled. -/
structure InOrder (s : RequestFlow) : Prop where
  base : Base s
  got : okItems s.leg.got <+: s.sent
  running : s.leg.dropped = false →
    (∃ wire part, Stages s wire part) ∨ Fixed s ∧ Prefixed s

omit [Deps] in
theorem stages_start : Stages start [] [] := ⟨rfl, rfl, rfl, .inl rfl, nofun⟩

theorem inOrder_start : InOrder start :=
  ⟨base_start, List.nil_prefix, fun _ => .inl ⟨[], [], stages_start⟩⟩

theorem Prefixed.got (h : Prefixed s) : okItems s.leg.got <+: s.sent :=
  (okItems_mono (Leg.got_prefix_outlook _ _)).trans h

/-- A cancelled inbound pump loses what it holds and what is on the wire. -/
theorem Prefixed.abort (h : Prefixed s) :
    Prefixed { s with leg := { s.leg with pump := .done } } := by
  have hgot := (okItems_mono (Leg.outlook_abort_prefix s.leg [])).trans h
  rw [Prefixed, Leg.outlook_done rfl]
  exact hgot

/-- Finishing its half early does not change what the handler will see. -/
theorem Prefixed.stop (h : Prefixed s) : Prefixed s.stop := h

theorem InOrder.step (h : InOrder s) {a : RequestAct}
    (hs : RequestFlow.step window a s = some s') : InOrder s' := by
  have hb' := h.base.step hs
  have hsent := (step_history h.base hs).1
  cases hd' : s'.leg.dropped with
  | true =>
      have hgot : s'.leg.got = s.leg.got := by
        obtain ⟨-, hgot, -⟩ | ⟨b, l, -, hl, rfl⟩ := step_leg_eq_or h.base hs
        · exact hgot
        · exact Leg.step_got h.base.tidy hl hd'
      exact ⟨hb', by rw [hgot]; exact h.got.trans hsent, fun hd => by rw [hd'] at hd; cases hd⟩
  | false =>
      have hd : s.leg.dropped = false := by
        obtain ⟨hd, -⟩ | ⟨b, l, -, hl, rfl⟩ := step_leg_eq_or h.base hs
        · rw [← hd, hd']
        · exact Leg.dropped_of_step hl hd'
      have hrun : (∃ wire part, Stages s' wire part) ∨ Fixed s' ∧ Prefixed s' := by
        obtain ⟨wire, part, hstages⟩ | ⟨hfixed, hprefixed⟩ := h.running hd
        · obtain hdrop | hstages' | ⟨hf, hp, -⟩ | ⟨-, rfl⟩ | ⟨-, rfl⟩ := hstages.step h.base hs
          · rw [hd'] at hdrop
            cases hdrop
          · exact .inl hstages'
          · exact .inr ⟨hf, hp⟩
          · exact .inr ⟨.inl rfl, (hstages.prefixed h.base).stop⟩
          · exact .inr ⟨.inr (.inl rfl), (hstages.prefixed h.base).abort⟩
        · obtain hdrop | ⟨hf, ho | ⟨-, ho⟩⟩ := hfixed.step h.base hs
          · rw [hd'] at hdrop
            cases hdrop
          · refine .inr ⟨hf, ?_⟩
            rw [Prefixed, ho]
            exact hprefixed.trans hsent
          · refine .inr ⟨hf, ?_⟩
            rw [Prefixed, ho]
            exact ((okItems_mono (Leg.outlook_abort_prefix _ _)).trans hprefixed).trans hsent
      refine ⟨hb', ?_, fun _ => hrun⟩
      obtain ⟨wire, part, hstages⟩ | ⟨-, hprefixed⟩ := hrun
      · exact (hstages.prefixed hb').got
      · exact hprefixed.got

theorem inOrder_of_run {as : List RequestAct}
    (h : run (RequestFlow.step window) as start = some s) : InOrder s :=
  (runs_any_iff.mpr h).invariant (fun _ _ _ _ hs h => hs.step h) inOrder_start

/-- **No loss, duplication or reordering**: in every reachable state the chunks the handler has
read are a prefix of those sent; and while no pump has stopped and the handler keeps its stream,
what is in the stages, with what the inbound pump holds, is exactly what has been sent. -/
theorem requestChunks_inOrder {as : List RequestAct}
    (h : run (RequestFlow.step window) as start = some s)
    (hsizes : ∀ c ∈ s.sent, c.length ≤ maxStreamingPayloadLen) :
    okItems s.leg.got <+: s.sent ∧
      (s.out ≠ .done → s.leg.pump ≠ .done → s.leg.dropped = false →
        InStages (inHeld s.leg.pump) s) := by
  have hinv := inOrder_of_run h
  refine ⟨hinv.got, fun hout hpump hd => ?_⟩
  obtain ⟨wire, part, hstages⟩ | ⟨ho | hp | ⟨-, c, hc, hlarge⟩, -⟩ := hinv.running hd
  · exact ⟨wire, part, hstages.bytes, hstages.part, hstages.items⟩
  · exact absurd ho hout
  · exact absurd hp hpump
  · exact absurd (hsizes c hc) (by omega)

end steps

section reference

attribute [local instance] reference

/-- A chunk the handler has read and one whose frame is cut on the wire. -/
def midFrame : RequestFlow :=
  ⟨[[7, 8], [9]], false, [], .writing [9] [9],
    ⟨[0x20, 1], false, ⟨[], .live⟩, .reading, [], [.ok [7, 8]], false, false⟩⟩

theorem requestChunks_inOrder_midFrame :
    okItems midFrame.leg.got <+: midFrame.sent ∧ InStages [] midFrame := by
  have hrun : run (RequestFlow.step 64) [.callerSend [7, 8], .recv, .write 4, .leg (.deliver 3),
      .leg (.deliver 1), .leg .read, .leg .send, .leg .take, .callerSend [9], .recv, .write 2]
      start = some midFrame := by decide
  have h := requestChunks_inOrder hrun (by decide)
  exact ⟨h.1, h.2 nofun nofun rfl⟩

/-- An empty chunk on its way from the caller to the inbound pump. -/
def relayEmpty : List RequestAct :=
  [.callerSend [], .recv, .write 2, .leg (.deliver 2), .leg .read]

/-- The chunk the inbound pump holds while the handler's channel is full is in no other stage;
and a handler that drops its stream takes the queued chunks with it. -/
theorem requestChunks_blocked_or_dropped :
    (¬ ∀ (window : ℕ) (as : List RequestAct) (s : RequestFlow),
      run (RequestFlow.step window) as start = some s →
      (∀ c ∈ s.sent, c.length ≤ maxStreamingPayloadLen) →
      okItems s.leg.got <+: s.sent ∧ (s.out ≠ .done → s.leg.pump ≠ .done → InStages [] s)) ∧
    ¬ ∀ (window : ℕ) (as : List RequestAct) (s : RequestFlow),
      run (RequestFlow.step window) as start = some s →
      (∀ c ∈ s.sent, c.length ≤ maxStreamingPayloadLen) →
      s.out ≠ .done → s.leg.pump ≠ .done → InStages (inHeld s.leg.pump) s := by
  constructor
  · intro h
    have hrun : run (RequestFlow.step 64)
        ((List.replicate 16 (relayEmpty ++ [.leg .send])).flatten ++ relayEmpty) start =
        some ⟨List.replicate 17 [], false, [], .recv, ⟨[], false, ⟨[], .live⟩,
          .sending (.ok []) .whileOpen, List.replicate 16 (.ok []), [], false, false⟩⟩ := by
      decide +kernel
    obtain ⟨wire, part, hbytes, -, hitems⟩ := (h 64 _ _ hrun (by decide)).2 (by simp) (by simp)
    cases wire with
    | nil => simpa [outHeld] using congrArg List.length hitems
    | cons c wire => simp [chunkFrame] at hbytes
  · intro h
    have hrun : run (RequestFlow.step 64)
        (relayEmpty ++ [.leg .send, .leg .dropReceiver]) start =
        some ⟨[[]], false, [], .recv, ⟨[], false, ⟨[], .live⟩, .reading, [], [], true, false⟩⟩ := by
      decide
    obtain ⟨wire, part, hbytes, -, hitems⟩ := h 64 _ _ hrun (by decide) (by simp) (by simp)
    cases wire with
    | nil => simpa [outHeld, inHeld] using congrArg List.length hitems
    | cons c wire => simp [chunkFrame] at hbytes

end reference

end RequestFlow

end NerwRpc
