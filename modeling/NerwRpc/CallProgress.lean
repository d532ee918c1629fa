import NerwRpc.StreamingCall
import NerwRpc.ScriptedFlow

/-! # A call whose caller reads while it writes does not get stuck

`ServedCall` is a streaming call with both of its ends fixed: a caller that sends its chunks, drops
its sender behind the last one and is always ready to read, and a handler that reads one request
after another and sends some chunks behind each of them.  All the tasks between them are those of
`StreamingCall`; the transport hands bytes over only when a pump needs them, so that each direction
is a bounded queue.

* `RequestFlow.Live.progress`, `ResponseFlow.Live.progress`: one direction can act, unless it waits
  for the caller, or for the handler.
* `Inv.step`: what every step keeps, above all when the handler drops what.
* `call_neverStuck`: until the caller has seen the end of the responses, some step is possible. -/

namespace NerwRpc

open ByteStream FramePump Transition

/-! ### The request direction -/

namespace RequestFlow

variable [Deps] {window : ℕ} {s s' : RequestFlow}

/-- What holds in every state: a buffer in writing is not empty. -/
structure Live (s : RequestFlow) : Prop where
  base : Base s
  left : ∀ c left, s.out = .writing c left → left ≠ []

theorem live_start : Live start := ⟨base_start, nofun⟩

theorem Live.step (h : Live s) {a : RequestAct} (hs : RequestFlow.step window a s = some s') :
    Live s' := by
  refine ⟨h.base.step hs, ?_⟩
  intro c left hout
  cases a with
  | callerSend d =>
      obtain ⟨-, -, -, -, rfl⟩ := step_callerSend_iff.mp hs
      exact h.left c left hout
  | callerDrop =>
      obtain ⟨-, rfl⟩ := step_callerDrop_iff.mp hs
      exact h.left c left hout
  | recv =>
      obtain ⟨-, ⟨d, queue, -, rfl⟩ | ⟨-, -, rfl⟩⟩ :=
        step_recv_cases (fun c hc => h.base.sizes c (h.base.queue c hc)) hs
      · cases hout
        exact chunkFrame_ne_nil c
      · cases hout
  | write n =>
      obtain ⟨d, bs, -, hbs, rfl⟩ | ⟨d, bs, -, rfl⟩ | ⟨-, rfl⟩ := step_write_cases hs
      · cases hout
        exact hbs
      · cases hout
      · cases hout
  | writeFails =>
      obtain ⟨-, rfl⟩ := step_writeFails_cases hs
      cases hout
  | abort =>
      obtain rfl := step_abort_iff.mp hs
      cases hout
  | leg b =>
      obtain ⟨l, -, rfl⟩ := step_leg_iff.mp hs
      exact h.left c left hout

/-- Only the handler sees the end of its stream, and only it drops it. -/
theorem Live.leg_kept (h : Live s) {a : RequestAct}
    (hs : RequestFlow.step window a s = some s') (hnone : a ≠ .leg .takeNone)
    (hdrop : a ≠ .leg .dropReceiver) :
    s'.leg.dropped = s.leg.dropped ∧ s'.leg.ended = s.leg.ended := by
  obtain ⟨hd, -, he⟩ | ⟨b, l, rfl, hl, rfl⟩ := step_leg_eq_or h.base hs
  · exact ⟨hd, he⟩
  · have hb : b ≠ .dropReceiver := fun hb => hdrop (congrArg RequestAct.leg hb)
    have hb' : b ≠ .takeNone := fun hb => hnone (congrArg RequestAct.leg hb)
    exact ⟨Leg.step_dropped hl hb, Leg.step_ended hl hb'⟩

/-- The actions of the tasks between the caller and the handler, of the transport, and of a handler
that reads. -/
def Moves (s : RequestFlow) : RequestAct → Prop
  | .recv | .write _ => True
  | .leg a => ¬ Leg.Loses a ∧ ∀ n, a = .deliver n → s.leg.waits pumpInboundRequests = true
  | _ => False

/-- **Progress**: the handler has seen the end of the requests, or the direction can act, or it
waits for the caller. -/
theorem Live.progress (hw : 0 < window) (h : Live s) (hd : s.leg.dropped = false) :
    s.leg.ended = true ∨ (∃ a s', s.Moves a ∧ RequestFlow.step window a s = some s') ∨
      s.out = .recv ∧ s.queue = [] ∧ s.senderDropped = false := by
  obtain hend | ⟨a, l, ha, hneeds, hl⟩ | ⟨-, hopen, hnil⟩ :=
    Leg.progress_waits (P := pumpInboundRequests) h.base.tidy hd channelCapacity_pos
  · exact .inl hend
  · exact .inr (.inl ⟨.leg a, _, ⟨ha, hneeds⟩, step_leg_iff.mpr ⟨l, hl, rfl⟩⟩)
  · have hroom : s.leg.inflight.length + 1 ≤ window := by
      rw [hnil, List.length_nil]
      omega
    cases ho : s.out with
    | recv =>
        cases hq : s.queue with
        | nil =>
            cases hdrop : s.senderDropped with
            | false => exact .inr (.inr ⟨rfl, rfl, rfl⟩)
            | true =>
                refine .inr (.inl ⟨.recv, { s with out := .ending }, trivial, ?_⟩)
                simp only [RequestFlow.step, ho, hq, hdrop, if_true]
        | cons c queue =>
            have hc : c.length ≤ usizeMax :=
              h.base.sizes c (h.base.queue c (by rw [hq]; exact List.mem_cons_self))
            refine .inr (.inl ⟨.recv, { s with
              queue := queue, out := .writing c (chunkFrame c) }, trivial, ?_⟩)
            simp only [RequestFlow.step, ho, hq, frameBytes_requestChunk hc]
    | writing c left =>
        have hpos : 1 ≤ left.length := List.length_pos_iff.mpr (h.left c left ho)
        have hstep : ∃ s', RequestFlow.step window (.write 1) s = some s' := by
          simp [RequestFlow.step, RequestFlow.write, ho, hroom, hpos]
        obtain ⟨s', hs⟩ := hstep
        exact .inr (.inl ⟨.write 1, s', trivial, hs⟩)
    | ending =>
        refine .inr (.inl ⟨.write 1, s.finished, trivial, ?_⟩)
        simp only [RequestFlow.step, RequestFlow.write, ho, hroom, and_self, if_true]
    | done =>
        rw [h.base.closed.mpr ho] at hopen
        cases hopen

end RequestFlow

/-! ### The response direction -/

namespace ResponseFlow

open ScriptedFlow (leftOf)

variable [Deps] {window : ℕ} {s s' : ResponseFlow}

/-- What holds in every state, as long as the caller keeps its stream: the half is finished by the
last step of the substream task, and a buffer in writing is not empty. -/
structure Live (s : ResponseFlow) : Prop where
  tidy : s.leg.Tidy
  kept : s.leg.dropped = false
  closed : s.leg.closed = true ↔ s.task = .done
  left : ∀ left, leftOf s.task = some left → left ≠ []

omit [Deps] in
theorem live_start : Live start where
  tidy := Leg.tidy_start
  kept := rfl
  closed := by simp [start, Leg.start]
  left := nofun

omit [Deps] in
theorem Live.open (h : Live s) (ht : s.task ≠ .done) : s.leg.closed = false := by
  cases hc : s.leg.closed with
  | false => rfl
  | true => exact absurd (h.closed.mp hc) ht

omit [Deps] in
theorem leftNone {t : ServerTask} (ht : leftOf t = none) :
    ∀ left, leftOf t = some left → left ≠ [] := by
  intro left hl
  rw [ht] at hl
  cases hl

theorem Live.step (h : Live s) {a : ResponseAct} (ha : ∀ b, a = .leg b → ¬ Leg.Loses b)
    (hs : ResponseFlow.step window a s = some s') : Live s' := by
  obtain ⟨htidy, hkept, hclosed, hleft⟩ := id h
  cases a with
  | handlerSend item =>
      obtain ⟨-, ⟨-, rfl⟩ | ⟨-, rfl⟩⟩ := step_handlerSend_cases hs
      · exact h
      · exact ⟨htidy, hkept, hclosed, hleft⟩
  | handlerDrop =>
      obtain ⟨-, rfl⟩ := step_handlerDrop_iff.mp hs
      exact ⟨htidy, hkept, hclosed, hleft⟩
  | handlerEnd o =>
      obtain ⟨-, rfl⟩ := step_handlerEnd_iff.mp hs
      exact ⟨htidy, hkept, hclosed, hleft⟩
  | recv =>
      obtain ⟨ht, ⟨item, queue, buf, -, hbuf, rfl⟩ | ⟨item, queue, e, -, -, rfl⟩ | ⟨-, -, rfl⟩⟩ :=
        step_recv_cases hs
      · refine ⟨htidy, hkept, by simpa [ht] using hclosed, ?_⟩
        rintro left hl
        cases hl
        exact frameBytes_ne_nil hbuf
      · exact ⟨htidy, hkept, by simpa [ht, drained] using hclosed, leftNone rfl⟩
      · exact ⟨htidy, hkept, by simpa [ht] using hclosed, leftNone rfl⟩
  | write n =>
      obtain ⟨bs, -, -, ⟨t, ht, hbs, rfl⟩ | ⟨t, ht, rfl⟩ | ⟨ht, hbs, rfl⟩ | ⟨ht, rfl⟩⟩ :=
        step_write_cases hs
      · refine ⟨htidy.push (h.open (by simp [ht])) _, hkept, by simpa [ht] using hclosed, ?_⟩
        rintro left hl
        cases hl
        exact hbs
      · have hpush := htidy.push (h.open (by simp [ht])) bs
        cases t with
        | true => exact ⟨hpush, hkept, by simpa [ht, wrote, drained] using hclosed, leftNone rfl⟩
        | false => exact ⟨hpush, hkept, by simpa [ht, wrote] using hclosed, leftNone rfl⟩
      · refine ⟨htidy.push (h.open (by simp [ht])) _, hkept, by simpa [ht] using hclosed, ?_⟩
        rintro left hl
        cases hl
        exact hbs
      · have hpush := htidy.push (h.open (by simp [ht])) bs
        exact ⟨hpush, hkept, by simpa [ht] using hclosed, leftNone rfl⟩
  | writeFails =>
      obtain ⟨-, ⟨t, left, ht, rfl⟩ | ⟨left, ht, rfl⟩⟩ := step_writeFails_cases hs
      · exact ⟨htidy, hkept, by simpa [ht, drained] using hclosed, leftNone rfl⟩
      · exact ⟨htidy, hkept, by simpa [ht] using hclosed, leftNone rfl⟩
  | join =>
      obtain ⟨o, -, ⟨ht, rfl⟩ | ⟨buf, ht, hbuf, rfl⟩ | ⟨e, ht, -, rfl⟩⟩ := step_join_cases hs
      · exact ⟨htidy, hkept, by simpa [ht] using hclosed, leftNone rfl⟩
      · refine ⟨htidy, hkept, by simpa [ht] using hclosed, ?_⟩
        rintro left hl
        cases hl
        exact frameBytes_ne_nil hbuf
      · exact ⟨htidy, hkept, by simpa [ht] using hclosed, leftNone rfl⟩
  | finish =>
      obtain ⟨-, rfl⟩ := step_finish_iff.mp hs
      exact ⟨htidy.close, hkept, by simp, leftNone rfl⟩
  | leg b =>
      obtain ⟨l, hl, rfl⟩ := step_leg_iff.mp hs
      have hdrop : b ≠ .dropReceiver := fun hb => ha b rfl (hb ▸ trivial)
      exact ⟨htidy.step hl, (Leg.step_dropped hl hdrop).trans hkept,
        (iff_of_eq (congrArg (· = true) (Leg.step_closed hl))).trans hclosed, hleft⟩

/-- Only the handler drops its sender, and only its task has an outcome. -/
theorem step_handler_kept {a : ResponseAct} (hs : ResponseFlow.step window a s = some s')
    (hdrop : a ≠ .handlerDrop) (hend : ∀ o, a ≠ .handlerEnd o) :
    s'.sendersDropped = s.sendersDropped ∧ s'.outcome = s.outcome := by
  cases a with
  | handlerSend item =>
      obtain ⟨-, ⟨-, rfl⟩ | ⟨-, rfl⟩⟩ := step_handlerSend_cases hs
      · exact ⟨rfl, rfl⟩
      · exact ⟨rfl, rfl⟩
  | handlerDrop => exact absurd rfl hdrop
  | handlerEnd o => exact absurd rfl (hend o)
  | recv =>
      obtain ⟨-, ⟨_, _, _, -, -, rfl⟩ | ⟨_, _, _, -, -, rfl⟩ | ⟨-, -, rfl⟩⟩ := step_recv_cases hs
      all_goals exact ⟨rfl, rfl⟩
  | write n =>
      obtain ⟨bs, -, -, ⟨t, -, -, rfl⟩ | ⟨t, -, rfl⟩ | ⟨-, -, rfl⟩ | ⟨-, rfl⟩⟩ :=
        step_write_cases hs
      · exact ⟨rfl, rfl⟩
      · cases t <;> exact ⟨rfl, rfl⟩
      · exact ⟨rfl, rfl⟩
      · exact ⟨rfl, rfl⟩
  | writeFails =>
      obtain ⟨-, ⟨_, _, -, rfl⟩ | ⟨_, -, rfl⟩⟩ := step_writeFails_cases hs
      all_goals exact ⟨rfl, rfl⟩
  | join =>
      obtain ⟨o, -, ⟨-, rfl⟩ | ⟨_, -, -, rfl⟩ | ⟨_, -, -, rfl⟩⟩ := step_join_cases hs
      all_goals exact ⟨rfl, rfl⟩
  | finish =>
      obtain ⟨-, rfl⟩ := step_finish_iff.mp hs
      exact ⟨rfl, rfl⟩
  | leg b =>
      obtain ⟨l, -, rfl⟩ := step_leg_iff.mp hs
      exact ⟨rfl, rfl⟩

/-- The actions of the substream task, of the transport and of a caller that reads. -/
def Moves (s : ResponseFlow) : ResponseAct → Prop
  | .recv | .write _ | .join | .finish => True
  | .leg a => ¬ Leg.Loses a ∧ ∀ n, a = .deliver n → s.leg.waits pumpInboundResponses = true
  | _ => False

theorem moves_of_taskAct {a : ResponseAct} (h : ScriptedFlow.TaskAct a) : s.Moves a := by
  cases a with
  | leg b => exact h.elim
  | _ => exact h

/-- **Progress**: the caller has seen the end of the responses, or the direction can act, or it
waits for the handler: for a response, or for its end. -/
theorem Live.progress (hw : 0 < window) (h : Live s) :
    s.leg.ended = true ∨ (∃ a s', s.Moves a ∧ ResponseFlow.step window a s = some s') ∨
      (s.task = .draining ∧ s.queue = [] ∧ s.sendersDropped = false) ∨
      (∃ w, s.task = .joining w) ∧ s.outcome = none := by
  obtain hend | ⟨a, l, ha, hneeds, hl⟩ | ⟨-, hopen, hnil⟩ :=
    Leg.progress_waits (P := pumpInboundResponses) h.tidy h.kept channelCapacity_pos
  · exact .inl hend
  · exact .inr (.inl ⟨.leg a, _, ⟨ha, hneeds⟩, step_leg_iff.mpr ⟨l, hl, rfl⟩⟩)
  · have hroom : s.leg.inflight.length + 1 ≤ window := by
      rw [hnil, List.length_nil]
      omega
    have hne : s.task ≠ .done := by
      intro ht
      rw [h.closed.mpr ht] at hopen
      cases hopen
    obtain ⟨a, s', ha, hs⟩ | hwaits := ScriptedFlow.task_progress h.left hroom hne
    · exact .inr (.inl ⟨a, s', moves_of_taskAct ha, hs⟩)
    · exact .inr (.inr hwaits)

end ResponseFlow

/-! ### The call with its two ends -/

/-- A handler that reads one request after another: behind the requests it has read it sends
`replies`, and reads on unless it `leaves`.  It returns `Ok` on `None`, and also, if it `breaks`,
when a send fails. -/
structure RequestHandler where
  replies : List (RpcResult Bytes) → List Bytes
  leaves : List (RpcResult Bytes) → Option (RpcResult Unit)
  breaks : Bool

/-- The handler's task: it waits for a request, has chunks to send, drops its two channel ends on
its way out, or has ended. -/
inductive HandlerTurn where
  | reading
  | sending (chunk : Bytes) (left : List Bytes) (next : Option (RpcResult Unit))
  | returning (result : RpcResult Unit)
  | ended
deriving DecidableEq, Repr

namespace HandlerTurn

/-- The task behind a request, or behind a send. -/
def goOn (left : List Bytes) (next : Option (RpcResult Unit)) : HandlerTurn :=
  match left with
  | chunk :: left => .sending chunk left next
  | [] => match next with
    | none => .reading
    | some result => .returning result

/-- The body of the handler runs. -/
def Serving : HandlerTurn → Prop
  | .reading | .sending _ _ _ => True
  | _ => False

theorem goOn_ne_ended (left : List Bytes) (next : Option (RpcResult Unit)) :
    goOn left next ≠ .ended := by
  unfold goOn
  split
  · nofun
  · split <;> nofun

end HandlerTurn

/-- `todo` are the chunks the caller has still to send. -/
structure ServedCall where
  todo : List Bytes
  handler : HandlerTurn
  call : StreamingCall
deriving DecidableEq, Repr

inductive ServedAct where
  | callerSend
  | callerDrop
  | handlerTake
  | handlerNone
  | handlerSend
  | handlerDropRequests
  | handlerDropResponses
  | handlerEnd
  | task (a : CallAct)
deriving DecidableEq, Repr

/-- A write fails, or a pump is aborted. -/
def ServedAct.Interrupts : ServedAct → Bool
  | .task (.req .writeFails) | .task (.req .abort) | .task (.req (.leg .abort)) => true
  | .task (.resp .writeFails) => true
  | _ => false

/-- The actions of the four pumps, the substream task and the transport, and of a caller that
reads.  A task that has returned is not aborted. -/
def StreamingCall.Acts [Deps] (s : StreamingCall) : CallAct → Bool
  | .req a => match a with
    | .recv | .write _ | .writeFails => true
    | .abort => decide (s.req.out ≠ .done)
    | .leg b => match b with
      | .deliver _ => s.req.leg.waits pumpInboundRequests
      | .deliverFin | .read | .send => true
      | .abort => decide (s.req.leg.pump ≠ .done)
      | .take | .takeNone | .dropReceiver => false
    | .callerSend _ | .callerDrop => false
  | .resp a => match a with
    | .recv | .write _ | .writeFails | .join | .finish => true
    | .leg b => match b with
      | .deliver _ => s.resp.leg.waits pumpInboundResponses
      | .deliverFin | .read | .send | .take | .takeNone => true
      | .abort | .dropReceiver => false
    | .handlerSend _ | .handlerDrop | .handlerEnd _ => false

/-- One action of the call; the two directions of the substream have their own capacity. -/
def StreamingCall.act [Deps] (up down : ℕ) : CallAct → StreamingCall → Option StreamingCall
  | .req a, s => s.step up (.req a)
  | .resp a, s => s.step down (.resp a)

theorem StreamingCall.act_req_iff [Deps] {up down : ℕ} {a : RequestAct} {s s' : StreamingCall} :
    s.act up down (.req a) = some s' ↔
      s.MayAbort a ∧ ∃ f, s.req.step up a = some f ∧ s' = { s with req := f } :=
  step_req_iff

theorem StreamingCall.act_resp_iff [Deps] {up down : ℕ} {a : ResponseAct}
    {s s' : StreamingCall} : s.act up down (.resp a) = some s' ↔
      a ≠ .leg .abort ∧ ∃ f, s.resp.step down a = some f ∧ s' = { s with resp := f } :=
  step_resp_iff

namespace ServedCall

def start (requests : List Bytes) : ServedCall := ⟨requests, .reading, .start⟩

section steps

variable [Deps] (up down : ℕ) (h : RequestHandler)

/-- One action; `none` when it is not possible.  A send of the caller fails once the outbound pump
is gone; the handler's locals are dropped before its task can be joined. -/
def step : ServedAct → ServedCall → Option ServedCall
  | .callerSend, s => match s.todo with
    | [] => none
    | chunk :: todo =>
        if s.call.req.out = .done then some { s with todo := todo }
        else (s.call.act up down (.req (.callerSend chunk))).map fun call =>
          { s with todo := todo, call := call }
  | .callerDrop, s =>
      if s.todo = [] then
        (s.call.act up down (.req .callerDrop)).map fun call => { s with call := call }
      else none
  | .handlerTake, s => match s.handler with
    | .reading => (s.call.act up down (.req (.leg .take))).map fun call =>
        { s with
          handler := .goOn (h.replies call.req.leg.got) (h.leaves call.req.leg.got), call := call }
    | _ => none
  | .handlerNone, s => match s.handler with
    | .reading => (s.call.act up down (.req (.leg .takeNone))).map fun call =>
        { s with handler := .returning (.ok ()), call := call }
    | _ => none
  | .handlerSend, s => match s.handler with
    | .sending chunk left next =>
        if h.breaks = true ∧ ¬ ResponseFlow.Receiving s.call.resp.task then
          some { s with handler := .returning (.ok ()) }
        else (s.call.act up down (.resp (.handlerSend (.ok chunk)))).map fun call =>
          { s with handler := .goOn left next, call := call }
    | _ => none
  | .handlerDropRequests, s => match s.handler with
    | .returning _ =>
        (s.call.act up down (.req (.leg .dropReceiver))).map fun call => { s with call := call }
    | _ => none
  | .handlerDropResponses, s => match s.handler with
    | .returning _ =>
        (s.call.act up down (.resp .handlerDrop)).map fun call => { s with call := call }
    | _ => none
  | .handlerEnd, s => match s.handler with
    | .returning result =>
        if s.call.req.leg.dropped = true ∧ s.call.resp.sendersDropped = true then
          (s.call.act up down (.resp (.handlerEnd (.returned result)))).map fun call =>
            { s with handler := .ended, call := call }
        else none
    | _ => none
  | .task a, s =>
      if s.call.Acts a = true then (s.call.act up down a).map fun call => { s with call := call }
      else none

/-- Some step is possible that interrupts nothing. -/
def CanStep (s : ServedCall) : Prop :=
  ∃ a s', a.Interrupts = false ∧ step up down h a s = some s'

variable {up down} {h : RequestHandler} {s s' : ServedCall}

/-! ### What every step keeps -/

structure Inv (s : ServedCall) : Prop where
  req : s.call.req.Live
  resp : s.call.resp.Live
  sizes : ∀ chunk ∈ s.todo, chunk.length ≤ usizeMax
  serving : s.handler.Serving → s.call.resp.sendersDropped = false ∧
    s.call.req.leg.dropped = false ∧ s.call.req.leg.ended = false
  outcome : s.call.resp.outcome = none ↔ s.handler ≠ .ended
  ended : s.handler = .ended → s.call.resp.sendersDropped = true

theorem inv_start {requests : List Bytes} (hsizes : ∀ chunk ∈ requests, chunk.length ≤ usizeMax) :
    Inv (start requests) where
  req := RequestFlow.live_start
  resp := ResponseFlow.live_start
  sizes := hsizes
  serving _ := ⟨rfl, rfl, rfl⟩
  outcome := by simp [start, StreamingCall.start, ResponseFlow.start]
  ended := nofun

theorem Inv.req_step (hi : Inv s) {a : RequestAct} {call : StreamingCall}
    (hs : s.call.act up down (.req a) = some call) (hnone : a ≠ .leg .takeNone)
    (hdrop : a ≠ .leg .dropReceiver) : Inv { s with call := call } := by
  obtain ⟨-, f, hf, rfl⟩ := StreamingCall.act_req_iff.mp hs
  obtain ⟨hd, he⟩ := hi.req.leg_kept hf hnone hdrop
  refine ⟨hi.req.step hf, hi.resp, hi.sizes, ?_, hi.outcome, hi.ended⟩
  intro hserving
  rw [hd, he]
  exact hi.serving hserving

theorem live_resp_step (hi : Inv s) {a : ResponseAct} {f : ResponseFlow}
    (hne : a ≠ .leg .abort) (hkeep : a ≠ .leg .dropReceiver)
    (hf : s.call.resp.step down a = some f) : f.Live := by
  apply hi.resp.step ?_ hf
  rintro b rfl hloses
  cases b with
  | dropReceiver => exact hkeep rfl
  | abort => exact hne rfl
  | _ => exact hloses

theorem Inv.resp_step (hi : Inv s) {a : ResponseAct} {call : StreamingCall}
    (hs : s.call.act up down (.resp a) = some call) (hdrop : a ≠ .handlerDrop)
    (hend : ∀ o, a ≠ .handlerEnd o) (hkeep : a ≠ .leg .dropReceiver) :
    Inv { s with call := call } := by
  obtain ⟨hne, f, hf, rfl⟩ := StreamingCall.act_resp_iff.mp hs
  obtain ⟨hd, ho⟩ := ResponseFlow.step_handler_kept hf hdrop hend
  refine ⟨hi.req, live_resp_step hi hne hkeep hf, hi.sizes, ?_, ?_, ?_⟩
  · intro hserving
    show f.sendersDropped = false ∧ _
    rw [hd]
    exact hi.serving hserving
  · show f.outcome = none ↔ _
    rw [ho]
    exact hi.outcome
  · intro hended
    show f.sendersDropped = true
    rw [hd]
    exact hi.ended hended

theorem Inv.turn (hi : Inv s) (hserving : s.handler.Serving) {t : HandlerTurn} (ht : t ≠ .ended) :
    Inv { s with handler := t } := by
  have hne : s.handler ≠ .ended := by
    intro h
    rw [h] at hserving
    exact hserving
  refine ⟨hi.req, hi.resp, hi.sizes, fun _ => hi.serving hserving, ?_, fun h => absurd h ht⟩
  exact hi.outcome.trans ⟨fun _ => ht, fun _ => hne⟩

theorem Inv.step (hi : Inv s) {a : ServedAct} (hs : ServedCall.step up down h a s = some s') :
    Inv s' := by
  cases a with
  | callerSend =>
      cases htodo : s.todo with
      | nil => simp [ServedCall.step, htodo] at hs
      | cons chunk todo =>
          have hsizes : ∀ c ∈ todo, c.length ≤ usizeMax := by
            intro c hc
            apply hi.sizes c
            rw [htodo]
            exact List.mem_cons_of_mem chunk hc
          simp only [ServedCall.step, htodo] at hs
          split at hs
          · cases hs
            exact { hi with sizes := hsizes }
          · obtain ⟨call, hcall, rfl⟩ := Option.map_eq_some_iff.mp hs
            exact { hi.req_step hcall nofun nofun with sizes := hsizes }
  | callerDrop =>
      simp only [ServedCall.step] at hs
      split at hs
      · obtain ⟨call, hcall, rfl⟩ := Option.map_eq_some_iff.mp hs
        exact hi.req_step hcall nofun nofun
      · cases hs
  | handlerTake =>
      cases hh : s.handler with
      | reading =>
          simp only [ServedCall.step, hh] at hs
          obtain ⟨call, hcall, rfl⟩ := Option.map_eq_some_iff.mp hs
          have hi' := hi.req_step hcall nofun nofun
          exact hi'.turn (by rw [hh]; trivial) (HandlerTurn.goOn_ne_ended _ _)
      | _ => simp [ServedCall.step, hh] at hs
  | handlerNone =>
      cases hh : s.handler with
      | reading =>
          simp only [ServedCall.step, hh] at hs
          obtain ⟨call, hcall, rfl⟩ := Option.map_eq_some_iff.mp hs
          obtain ⟨-, f, hf, rfl⟩ := StreamingCall.act_req_iff.mp hcall
          refine ⟨hi.req.step hf, hi.resp, hi.sizes, nofun, ?_, nofun⟩
          exact hi.outcome.trans ⟨fun _ => nofun, fun _ => by rw [hh]; nofun⟩
      | _ => simp [ServedCall.step, hh] at hs
  | handlerSend =>
      cases hh : s.handler with
      | sending chunk left next =>
          have hserving : s.handler.Serving := by
            rw [hh]
            trivial
          simp only [ServedCall.step, hh] at hs
          split at hs
          · cases hs
            exact hi.turn hserving nofun
          · obtain ⟨call, hcall, rfl⟩ := Option.map_eq_some_iff.mp hs
            have hi' := hi.resp_step hcall nofun nofun nofun
            exact hi'.turn hserving (HandlerTurn.goOn_ne_ended _ _)
      | _ => simp [ServedCall.step, hh] at hs
  | handlerDropRequests =>
      cases hh : s.handler with
      | returning result =>
          simp only [ServedCall.step, hh] at hs
          obtain ⟨call, hcall, rfl⟩ := Option.map_eq_some_iff.mp hs
          obtain ⟨-, f, hf, rfl⟩ := StreamingCall.act_req_iff.mp hcall
          exact ⟨hi.req.step hf, hi.resp, hi.sizes, nofun, hh ▸ hi.outcome, nofun⟩
      | _ => simp [ServedCall.step, hh] at hs
  | handlerDropResponses =>
      cases hh : s.handler with
      | returning result =>
          simp only [ServedCall.step, hh] at hs
          obtain ⟨call, hcall, rfl⟩ := Option.map_eq_some_iff.mp hs
          obtain ⟨hne, f, hf, rfl⟩ := StreamingCall.act_resp_iff.mp hcall
          have hlive := live_resp_step hi hne nofun hf
          obtain ⟨-, rfl⟩ := ResponseFlow.step_handlerDrop_iff.mp hf
          exact ⟨hi.req, hlive, hi.sizes, nofun, hh ▸ hi.outcome, nofun⟩
      | _ => simp [ServedCall.step, hh] at hs
  | handlerEnd =>
      cases hh : s.handler with
      | returning result =>
          simp only [ServedCall.step, hh] at hs
          split at hs
          · rename_i hdropped
            obtain ⟨call, hcall, rfl⟩ := Option.map_eq_some_iff.mp hs
            obtain ⟨hne, f, hf, rfl⟩ := StreamingCall.act_resp_iff.mp hcall
            have hlive := live_resp_step hi hne nofun hf
            obtain ⟨-, rfl⟩ := ResponseFlow.step_handlerEnd_iff.mp hf
            exact ⟨hi.req, hlive, hi.sizes, nofun, by simp, fun _ => hdropped.2⟩
          · cases hs
      | _ => simp [ServedCall.step, hh] at hs
  | task b =>
      simp only [ServedCall.step] at hs
      split at hs
      · rename_i hacts
        obtain ⟨call, hcall, rfl⟩ := Option.map_eq_some_iff.mp hs
        cases b with
        | req c =>
            apply hi.req_step hcall
            · rintro rfl
              cases hacts
            · rintro rfl
              cases hacts
        | resp c =>
            apply hi.resp_step hcall
            · rintro rfl
              cases hacts
            · rintro o rfl
              cases hacts
            · rintro rfl
              cases hacts
      · cases hs

/-! ### Some step is possible -/

theorem exists_task {a : CallAct} {call : StreamingCall} (ha : s.call.Acts a = true)
    (hi : ServedAct.Interrupts (.task a) = false) (hs : s.call.act up down a = some call) :
    CanStep up down h s := by
  refine ⟨.task a, { s with call := call }, hi, ?_⟩
  simp only [ServedCall.step, ha, if_true, hs, Option.map_some]

theorem exists_of_req {a : RequestAct} {f : RequestFlow} (hh : s.handler = .reading)
    (ha : s.call.req.Moves a) (hf : s.call.req.step up a = some f) :
    CanStep up down h s := by
  have hcall : s.call.MayAbort a → s.call.act up down (.req a) = some { s.call with req := f } :=
    fun hmay => StreamingCall.act_req_iff.mpr ⟨hmay, f, hf, rfl⟩
  cases a with
  | recv => exact exists_task rfl rfl (hcall trivial)
  | write n => exact exists_task rfl rfl (hcall trivial)
  | leg b =>
      obtain ⟨hloses, hneeds⟩ := ha
      cases b with
      | deliver n =>
          have hacts : s.call.Acts (.req (.leg (.deliver n))) = true := hneeds n rfl
          exact exists_task hacts rfl (hcall trivial)
      | deliverFin => exact exists_task rfl rfl (hcall trivial)
      | read => exact exists_task rfl rfl (hcall trivial)
      | send => exact exists_task rfl rfl (hcall trivial)
      | take =>
          refine ⟨.handlerTake, ⟨s.todo, .goOn (h.replies f.leg.got) (h.leaves f.leg.got),
            { s.call with req := f }⟩, rfl, ?_⟩
          simp only [ServedCall.step, hh, hcall trivial, Option.map_some]
      | takeNone =>
          refine ⟨.handlerNone, ⟨s.todo, .returning (.ok ()), { s.call with req := f }⟩, rfl, ?_⟩
          simp only [ServedCall.step, hh, hcall trivial, Option.map_some]
      | dropReceiver => exact absurd trivial hloses
      | abort => exact absurd trivial hloses
  | _ => exact ha.elim

theorem exists_of_resp {a : ResponseAct} {f : ResponseFlow} (ha : s.call.resp.Moves a)
    (hf : s.call.resp.step down a = some f) :
    CanStep up down h s := by
  have hcall : a ≠ .leg .abort →
      s.call.act up down (.resp a) = some { s.call with resp := f } :=
    fun hne => StreamingCall.act_resp_iff.mpr ⟨hne, f, hf, rfl⟩
  cases a with
  | recv => exact exists_task rfl rfl (hcall nofun)
  | write n => exact exists_task rfl rfl (hcall nofun)
  | join => exact exists_task rfl rfl (hcall nofun)
  | finish => exact exists_task rfl rfl (hcall nofun)
  | leg b =>
      obtain ⟨hloses, hneeds⟩ := ha
      cases b with
      | deliver n =>
          have hacts : s.call.Acts (.resp (.leg (.deliver n))) = true := hneeds n rfl
          exact exists_task hacts rfl (hcall nofun)
      | dropReceiver => exact absurd trivial hloses
      | abort => exact absurd trivial hloses
      | _ => exact exists_task rfl rfl (hcall nofun)
  | _ => exact ha.elim

theorem Inv.exists_caller (hi : Inv s) (hout : s.call.req.out = .recv)
    (hqueue : s.call.req.queue = []) (hsender : s.call.req.senderDropped = false) :
    CanStep up down h s := by
  cases htodo : s.todo with
  | nil =>
      obtain ⟨call, hcall⟩ : ∃ call, s.call.act up down (.req .callerDrop) = some call :=
        ⟨_, StreamingCall.act_req_iff.mpr
          ⟨trivial, _, RequestFlow.step_callerDrop_iff.mpr ⟨hsender, rfl⟩, rfl⟩⟩
      refine ⟨.callerDrop, { s with call := call }, rfl, ?_⟩
      simp only [ServedCall.step, htodo, if_true, hcall, Option.map_some]
  | cons chunk todo =>
      have hsize : chunk.length ≤ usizeMax := by
        apply hi.sizes chunk
        rw [htodo]
        exact List.mem_cons_self
      have hroom : s.call.req.queue.length < channelCapacity := by
        rw [hqueue]
        exact channelCapacity_pos
      have hne : s.call.req.out ≠ .done := by
        rw [hout]
        nofun
      obtain ⟨call, hcall⟩ : ∃ call, s.call.act up down (.req (.callerSend chunk)) = some call :=
        ⟨_, StreamingCall.act_req_iff.mpr ⟨trivial, _,
          RequestFlow.step_callerSend_iff.mpr ⟨hsender, hsize, hroom, hne, rfl⟩, rfl⟩⟩
      refine ⟨.callerSend, { s with todo := todo, call := call }, rfl, ?_⟩
      simp only [ServedCall.step, htodo, if_neg hne, hcall, Option.map_some]

/-- A handler that waits for a request gets one, or its end, or some task is on the way there. -/
theorem Inv.exists_reading (hup : 0 < up) (hi : Inv s) (hh : s.handler = .reading) :
    CanStep up down h s := by
  obtain ⟨-, hkept, hopen⟩ := hi.serving (by rw [hh]; trivial)
  obtain hend | ⟨a, f, ha, hf⟩ | ⟨hout, hqueue, hsender⟩ := hi.req.progress hup hkept
  · rw [hopen] at hend
    cases hend
  · exact exists_of_req hh ha hf
  · exact hi.exists_caller hout hqueue hsender

/-- A handler that has not ended can act, if there is room for a response. -/
theorem Inv.exists_handler (hup : 0 < up) (hi : Inv s) (hrunning : s.call.resp.outcome = none)
    (hroom : ResponseFlow.Receiving s.call.resp.task → s.call.resp.queue = []) :
    CanStep up down h s := by
  cases hh : s.handler with
  | reading => exact hi.exists_reading hup hh
  | sending chunk left next =>
      obtain ⟨hsenders, -, -⟩ := hi.serving (by rw [hh]; trivial)
      by_cases hbreaks : h.breaks = true ∧ ¬ ResponseFlow.Receiving s.call.resp.task
      · refine ⟨.handlerSend, { s with handler := .returning (.ok ()) }, rfl, ?_⟩
        simp only [ServedCall.step, hh, if_pos hbreaks]
      · have hsend : ∃ f, s.call.resp.step down (.handlerSend (.ok chunk)) = some f := by
          by_cases hr : ResponseFlow.Receiving s.call.resp.task
          · simp [ResponseFlow.step, hsenders, hr, hroom hr, channelCapacity_pos]
          · simp [ResponseFlow.step, hsenders, hr]
        obtain ⟨f, hf⟩ := hsend
        have hcall : s.call.act up down (.resp (.handlerSend (.ok chunk))) =
            some { s.call with resp := f } :=
          StreamingCall.act_resp_iff.mpr ⟨by simp, f, hf, rfl⟩
        refine ⟨.handlerSend, ⟨s.todo, .goOn left next, { s.call with resp := f }⟩, rfl, ?_⟩
        simp only [ServedCall.step, hh, if_neg hbreaks, hcall, Option.map_some]
  | returning result =>
      by_cases hrequests : s.call.req.leg.dropped = true
      · by_cases hresponses : s.call.resp.sendersDropped = true
        · obtain ⟨call, hcall⟩ : ∃ call,
              s.call.act up down (.resp (.handlerEnd (.returned result))) = some call :=
            ⟨_, StreamingCall.act_resp_iff.mpr
              ⟨by simp, _, ResponseFlow.step_handlerEnd_iff.mpr ⟨hrunning, rfl⟩, rfl⟩⟩
          refine ⟨.handlerEnd, { s with handler := .ended, call := call }, rfl, ?_⟩
          simp only [ServedCall.step, hh, hrequests, hresponses, and_self, if_true, hcall,
            Option.map_some]
        · obtain ⟨call, hcall⟩ : ∃ call, s.call.act up down (.resp .handlerDrop) = some call :=
            ⟨_, StreamingCall.act_resp_iff.mpr ⟨by simp, _,
              ResponseFlow.step_handlerDrop_iff.mpr ⟨Bool.eq_false_iff.mpr hresponses, rfl⟩, rfl⟩⟩
          refine ⟨.handlerDropResponses, { s with call := call }, rfl, ?_⟩
          simp only [ServedCall.step, hh, hcall, Option.map_some]
      · obtain ⟨l, hl⟩ : ∃ l, s.call.req.leg.step pumpInboundRequests channelCapacity
            .dropReceiver = some l :=
          ⟨_, Leg.step_dropReceiver_iff.mpr ⟨Bool.eq_false_iff.mpr hrequests, rfl⟩⟩
        obtain ⟨call, hcall⟩ : ∃ call,
            s.call.act up down (.req (.leg .dropReceiver)) = some call :=
          ⟨_, StreamingCall.act_req_iff.mpr
            ⟨trivial, _, RequestFlow.step_leg_iff.mpr ⟨l, hl, rfl⟩, rfl⟩⟩
        refine ⟨.handlerDropRequests, { s with call := call }, rfl, ?_⟩
        simp only [ServedCall.step, hh, hcall, Option.map_some]
  | ended => exact absurd hh (hi.outcome.mp hrunning)

/-- **Progress**: until the caller has seen the end of the responses, some step is possible. -/
theorem Inv.progress (hup : 0 < up) (hdown : 0 < down) (hi : Inv s)
    (hopen : s.call.resp.leg.ended = false) :
    CanStep up down h s := by
  obtain hend | ⟨a, f, ha, hf⟩ | ⟨htask, hqueue, hsenders⟩ | ⟨⟨w, htask⟩, hrunning⟩ :=
    hi.resp.progress hdown
  · rw [hopen] at hend
    cases hend
  · exact exists_of_resp ha hf
  · apply hi.exists_handler hup ?_ fun _ => hqueue
    rw [hi.outcome]
    intro hended
    rw [hi.ended hended] at hsenders
    cases hsenders
  · apply hi.exists_handler hup hrunning
    intro hreceiving
    rw [htask] at hreceiving
    exact hreceiving.elim

/-- **No stuck state in a call whose caller reads while it writes.**  For all chunks of the caller
and every such handler, in any interleaving and with any capacity of the two directions of the
substream: in every state that can be reached, until the caller has seen the end of the
responses, some step is possible, and not only a failing write or an abort. -/
theorem call_neverStuck {requests : List Bytes} (hup : 0 < up) (hdown : 0 < down)
    (hsizes : ∀ chunk ∈ requests, chunk.length ≤ usizeMax) {as : List ServedAct}
    (hrun : run (step up down h) as (start requests) = some s)
    (hopen : s.call.resp.leg.ended = false) : CanStep up down h s := by
  have hi : Inv s :=
    (runs_any_iff.mpr hrun).invariant (fun _ _ _ _ hi hs => hi.step hs) (inv_start hsizes)
  exact hi.progress hup hdown hopen

end steps

section reference

attribute [local instance] reference

/-- The handler that sends every chunk back, and returns at an error or when a send fails. -/
def echoHandler : RequestHandler where
  replies got := (got.getLast?.bind Except.toOption).toList
  leaves got := match got.getLast? with
    | some (.error e) => some (.error e)
    | _ => none
  breaks := true

/-- One chunk and back, up to the caller. -/
def echoRun : List ServedAct :=
  [.callerSend, .task (.req .recv), .task (.req (.write 3)), .task (.req (.leg (.deliver 3))),
    .task (.req (.leg .read)), .task (.req (.leg .send)), .handlerTake, .handlerSend,
    .task (.resp .recv), .task (.resp (.write 3)), .task (.resp (.leg (.deliver 3))),
    .task (.resp (.leg .read)), .task (.resp (.leg .send)), .task (.resp (.leg .take)),
    .callerDrop]

theorem call_neverStuck_echo :
    ∃ s, run (step 3 3 echoHandler) echoRun (start [[1]]) = some s ∧
      s.call.resp.leg.got = [.ok [1]] ∧ CanStep 3 3 echoHandler s := by
  obtain ⟨s, hs⟩ : ∃ s, run (step 3 3 echoHandler) echoRun (start [[1]]) = some s :=
    Option.isSome_iff_exists.mp (by decide +kernel)
  have hleg : (run (step 3 3 echoHandler) echoRun (start [[1]])).map (fun s =>
      (s.call.resp.leg.ended, s.call.resp.leg.got)) = some (false, [.ok [1]]) := by
    decide +kernel
  simp only [hs, Option.map_some, Option.some.injEq, Prod.mk.injEq] at hleg
  exact ⟨s, hs, hleg.2, call_neverStuck (by decide) (by decide) (by decide) hs hleg.1⟩

end reference

end ServedCall

end NerwRpc
