import NerwRpc.Backpressure
import NerwRpc.CallOutcome

/-! # A caller that writes before it reads

A caller that sends all its chunks and reads the responses after that.  As both directions hold only
so much, it never comes to the responses if the handler answers every chunk before it reads the
next one and there are more chunks than both directions hold: the caller waits for the handler to
read, which waits for the caller to read.

* `Held`: while chunks are to be sent, nothing has stopped, and the handler has not read more than
  it has answered.
* `writeFirst_deadlocks`: so the call gets stuck, with chunks unsent and no response read. -/

namespace NerwRpc

open ByteStream FramePump Transition

namespace RequestFlow

variable [Deps] {window : ℕ} {s s' : RequestFlow} {a : RequestAct}

theorem step_sent_got (hb : Base s) (hs : RequestFlow.step window a s = some s')
    (hsend : ∀ c, a ≠ .callerSend c) (htake : a ≠ .leg .take) :
    s'.sent = s.sent ∧ s'.leg.got = s.leg.got := by
  refine ⟨?_, ?_⟩
  · cases a with
    | callerSend c => exact absurd rfl (hsend c)
    | callerDrop =>
        obtain ⟨-, rfl⟩ := step_callerDrop_iff.mp hs
        rfl
    | recv =>
        obtain ⟨-, ⟨_, _, -, rfl⟩ | ⟨-, -, rfl⟩⟩ :=
          step_recv_cases (fun c hc => hb.sizes c (hb.queue c hc)) hs
        all_goals rfl
    | write n =>
        obtain ⟨_, _, -, -, rfl⟩ | ⟨_, _, -, rfl⟩ | ⟨-, rfl⟩ := step_write_cases hs
        all_goals rfl
    | writeFails => rw [(step_writeFails_cases hs).2]; rfl
    | abort => rw [step_abort_iff.mp hs]; rfl
    | leg b =>
        obtain ⟨l, -, rfl⟩ := step_leg_iff.mp hs
        rfl
  · obtain ⟨-, hgot, -⟩ | ⟨b, l, rfl, hl, rfl⟩ := step_leg_eq_or hb hs
    · exact hgot
    · exact Leg.step_got_of_ne hl fun hb => htake (congrArg RequestAct.leg hb)

theorem step_out_done (hb : Base s) (hs : RequestFlow.step window a s = some s')
    (hout : s.out ≠ .done) (hdone : s'.out = .done) :
    a = .abort ∨ s.leg.pump = .done ∨ s.out = .ending := by
  cases a with
  | callerSend c =>
      obtain ⟨-, -, -, -, rfl⟩ := step_callerSend_iff.mp hs
      exact absurd hdone hout
  | callerDrop =>
      obtain ⟨-, rfl⟩ := step_callerDrop_iff.mp hs
      exact absurd hdone hout
  | recv =>
      obtain ⟨-, ⟨_, _, -, rfl⟩ | ⟨-, -, rfl⟩⟩ :=
        step_recv_cases (fun c hc => hb.sizes c (hb.queue c hc)) hs
      all_goals cases hdone
  | write n =>
      obtain ⟨_, _, -, -, rfl⟩ | ⟨_, _, -, rfl⟩ | ⟨hending, -⟩ := step_write_cases hs
      · cases hdone
      · cases hdone
      · exact .inr (.inr hending)
  | writeFails => exact .inr (.inl (step_writeFails_cases hs).1)
  | abort => exact .inl rfl
  | leg b =>
      obtain ⟨l, -, rfl⟩ := step_leg_iff.mp hs
      exact absurd hdone hout

end RequestFlow

theorem ResponseFlow.step_got_of_ne [Deps] {window : ℕ} {s s' : ResponseFlow} {a : ResponseAct}
    (hs : ResponseFlow.step window a s = some s') (htake : a ≠ .leg .take) :
    s'.leg.got = s.leg.got := by
  cases a with
  | handlerSend item =>
      obtain ⟨-, ⟨-, rfl⟩ | ⟨-, rfl⟩⟩ := step_handlerSend_cases hs
      all_goals rfl
  | handlerDrop =>
      obtain ⟨-, rfl⟩ := step_handlerDrop_iff.mp hs
      rfl
  | handlerEnd o =>
      obtain ⟨-, rfl⟩ := step_handlerEnd_iff.mp hs
      rfl
  | recv =>
      obtain ⟨-, ⟨_, _, _, -, -, rfl⟩ | ⟨_, _, _, -, -, rfl⟩ | ⟨-, -, rfl⟩⟩ := step_recv_cases hs
      all_goals rfl
  | write n =>
      obtain ⟨left, -, -, ⟨t, -, -, rfl⟩ | ⟨t, -, rfl⟩ | ⟨-, -, rfl⟩ | ⟨-, rfl⟩⟩ :=
        step_write_cases hs
      · rfl
      · cases t <;> rfl
      · rfl
      · rfl
  | writeFails =>
      obtain ⟨-, ⟨_, _, -, rfl⟩ | ⟨_, -, rfl⟩⟩ := step_writeFails_cases hs
      all_goals rfl
  | join =>
      obtain ⟨_, -, ⟨-, rfl⟩ | ⟨_, -, -, rfl⟩ | ⟨_, -, -, rfl⟩⟩ := step_join_cases hs
      all_goals rfl
  | finish =>
      obtain ⟨-, rfl⟩ := step_finish_iff.mp hs
      rfl
  | leg b =>
      obtain ⟨l, hl, rfl⟩ := step_leg_iff.mp hs
      exact Leg.step_got_of_ne hl fun hb => htake (congrArg ResponseAct.leg hb)

namespace ServedCall

section steps

variable [Deps] {up down : ℕ} {h : RequestHandler} {requests : List Bytes} {s s' : ServedCall}

/-- The caller reads no response before it has sent its last chunk, and neither pump takes a byte
behind the frame it reads. -/
def WritesFirst : ServedAct → ServedCall → Prop
  | .task (.req a), s => RequestFlow.Thrifty a s.call.req
  | .task (.resp a), s =>
      ResponseFlow.Thrifty a s.call.resp ∧ (a = .leg .take → s.todo = [])
  | _, _ => True

/-- The handler answers every chunk, and goes on. -/
def Answers (h : RequestHandler) : Prop :=
  ∀ chunks : List Bytes, chunks ≠ [] →
    h.replies (chunks.map .ok) ≠ [] ∧ h.leaves (chunks.map .ok) = none

/-- What the handler has read and not answered. -/
def unanswered : HandlerTurn → ℕ
  | .sending _ _ _ => 1
  | _ => 0

/-- While the caller writes nothing has stopped, no response is read, and the handler has read no
more than it has answered. -/
structure Held (up down : ℕ) (h : RequestHandler) (requests : List Bytes) (s : ServedCall) :
    Prop where
  determined : Determined h requests s
  inOrder : s.call.req.InOrder
  handler : s.handler = .reading ∨ ∃ chunk left, s.handler = .sending chunk left none
  writing : s.call.req.out ≠ .done
  sent : s.call.req.sent ++ s.todo = requests
  unread : s.call.resp.leg.got = []
  requests : s.call.req.Paced up
  responses : ∃ n, s.call.resp.Paced down n ∧
    s.call.req.leg.got.length ≤ n + unanswered s.handler

/-- The caller has not sent more than both directions hold. -/
theorem Held.sent_le (hh : Held up down h requests s) :
    s.call.req.sent.length ≤ backlogLimit up + backlogLimit down + 1 := by
  obtain ⟨n, hpaced, hgot⟩ := hh.responses
  have hreq := hh.requests.limit
  have hresp := hpaced.limit
  have hone : unanswered s.handler ≤ 1 := by
    cases s.handler <;> simp [unanswered]
  rw [hh.unread, List.length_nil] at hresp
  omega

/-- What the handler has read and will read are the requests. -/
theorem Held.reads (hfit : ∀ chunk ∈ requests, chunk.length ≤ maxStreamingPayloadLen)
    (hh : Held up down h requests s) : s.call.req.leg.dropped = false ∧
      s.call.req.leg.got ++ s.toRead = requests.map .ok := by
  have hserving : s.handler.Serving := by
    obtain hr | ⟨_, _, hr⟩ := hh.handler
    · rw [hr]
      trivial
    · rw [hr]
      trivial
  obtain ⟨hkept, hreads, -⟩ := hh.determined.running hserving
  exact ⟨hkept, by rw [hreads, RequestHandler.received_eq hfit]⟩

/-- The inbound pump runs as long as there are chunks to send. -/
theorem Held.pump_ne (hfit : ∀ chunk ∈ requests, chunk.length ≤ maxStreamingPayloadLen)
    (hh : Held up down h requests s) (htodo : s.todo ≠ []) : s.call.req.leg.pump ≠ .done := by
  intro hp
  obtain ⟨hkept, hreads⟩ := hh.reads hfit
  obtain ⟨wire, part, hstages⟩ | ⟨-, hprefixed⟩ := hh.inOrder.running hkept
  · exact hstages.pump_ne hp
  · rw [RequestFlow.Prefixed, Leg.outlook_done hp] at hprefixed
    have htoRead : s.toRead = s.call.req.leg.queue := by
      rw [toRead, hp]
      exact List.append_nil _
    rw [htoRead] at hreads
    rw [hreads, okItems_map_ok] at hprefixed
    have hle := hprefixed.length_le
    have hlength := congrArg List.length hh.sent
    rw [List.length_append] at hlength
    exact htodo (List.length_eq_zero_iff.mp (by omega))

theorem Held.take (hh : Held up down h requests s) (hanswers : Answers h)
    (hfit : ∀ chunk ∈ requests, chunk.length ≤ maxStreamingPayloadLen) {f : RequestFlow}
    (hread : s.handler = .reading) (hf : s.call.req.step up (.leg .take) = some f)
    (hd : Determined h requests ⟨s.todo, .goOn (h.replies f.leg.got) (h.leaves f.leg.got),
      ⟨f, s.call.resp⟩⟩) :
    Held up down h requests ⟨s.todo, .goOn (h.replies f.leg.got) (h.leaves f.leg.got),
      ⟨f, s.call.resp⟩⟩ := by
  obtain ⟨n, hpaced, hgot⟩ := hh.responses
  have hinOrder := hh.inOrder.step hf
  have hthrifty : RequestFlow.Thrifty (.leg .take) s.call.req := trivial
  have hreq := hh.requests.step hthrifty hf
  obtain ⟨hkept, hreads⟩ := hh.reads hfit
  obtain ⟨l, hl, rfl⟩ := RequestFlow.step_leg_iff.mp hf
  obtain ⟨item, queue, hq, rfl⟩ := Leg.step_take_iff.mp hl
  obtain ⟨chunks, hchunks, hne⟩ : ∃ chunks : List Bytes,
      s.call.req.leg.got ++ [item] = chunks.map .ok ∧ chunks ≠ [] := by
    have hsplit : s.call.req.leg.got ++ [item] ++ (queue ++ pumpInboundRequests.upstream
        (s.call.req.leg.recv.buf ++ (s.call.req.leg.inflight ++ s.call.req.toWrite s.todo))
        s.call.req.leg.pump) = requests.map .ok := by
      rw [← hreads, toRead, hq]
      simp
    obtain ⟨xs, ys, -, hxs, -⟩ := List.map_eq_append_iff.mp hsplit.symm
    refine ⟨xs, hxs.symm, ?_⟩
    rintro rfl
    simp at hxs
  dsimp only at hd ⊢
  rw [hchunks] at hd ⊢
  obtain ⟨hreplies, hleaves⟩ := hanswers chunks hne
  rw [hleaves] at hd ⊢
  cases hfirst : h.replies (chunks.map .ok) with
  | nil => exact absurd hfirst hreplies
  | cons chunk left =>
      rw [hfirst] at hd
      refine ⟨hd, ?_, .inr ⟨chunk, left, rfl⟩, hh.writing, hh.sent, hh.unread, ?_, n, hpaced, ?_⟩
      · rw [hchunks] at hinOrder
        exact hinOrder
      · rw [hchunks] at hreq
        exact hreq
      · rw [hread] at hgot
        have hlength := congrArg List.length hchunks
        rw [List.length_append, List.length_singleton] at hlength
        simp only [HandlerTurn.goOn, unanswered] at hgot ⊢
        omega

theorem Held.send (hc : streamingErrorCodec.RoundTrips)
    (hb : ResponseFlow.Fits (h.behaviour requests)) (hh : Held up down h requests s)
    {chunk : Bytes} {left : List Bytes} {next : Option (RpcResult Unit)} {f : ResponseFlow}
    (hsend : s.handler = .sending chunk left next)
    (hf : s.call.resp.step down (.handlerSend (.ok chunk)) = some f)
    (hd : Determined h requests ⟨s.todo, .goOn left next, ⟨s.call.req, f⟩⟩) :
    Held up down h requests ⟨s.todo, .goOn left next, ⟨s.call.req, f⟩⟩ := by
  obtain ⟨n, hpaced, hgot⟩ := hh.responses
  obtain ⟨-, -, chunks, hsame, hpromises⟩ := hh.determined.running (by rw [hsend]; trivial)
  have hreceiving := (hpromises.running (fits_sent hb hsame)).1
  have hthrifty : ResponseFlow.Thrifty (.handlerSend (.ok chunk)) s.call.resp := trivial
  have hpaced' := hpaced.step hc hthrifty hf
  have haccepts : ResponseFlow.accepts (.handlerSend (.ok chunk)) s.call.resp = true :=
    decide_eq_true hreceiving
  rw [haccepts, Bool.toNat_true] at hpaced'
  obtain rfl : next = none := by
    obtain hr | ⟨_, _, hr⟩ := hh.handler
    · cases hsend.symm.trans hr
    · cases hsend.symm.trans hr
      rfl
  rw [hsend] at hgot
  refine ⟨hd, hh.inOrder, ?_, hh.writing, hh.sent, ?_, hh.requests, n + 1, hpaced', ?_⟩
  · cases left with
    | nil => exact .inl rfl
    | cons c left => exact .inr ⟨c, left, rfl⟩
  · exact (ResponseFlow.step_got_of_ne hf (by simp)).trans hh.unread
  · simp only [unanswered] at hgot
    exact hgot.trans (Nat.le_add_right _ _)

/-- **While there are chunks to send nothing stops.** -/
theorem Held.step (hc : streamingErrorCodec.RoundTrips)
    (hb : ResponseFlow.Fits (h.behaviour requests)) (hanswers : Answers h)
    (hfit : ∀ chunk ∈ requests, chunk.length ≤ maxStreamingPayloadLen)
    (hh : Held up down h requests s) (htodo : s.todo ≠ []) {a : ServedAct}
    (hok : WritesFirst a s) (hs : Moved up down h s a s') : Held up down h requests s' := by
  have hd' := (hh.determined.step hc hb hs).1
  have hpump := hh.pump_ne hfit htodo
  have hserving : ∀ result, s.handler ≠ .returning result := by
    intro result hret
    obtain hr | ⟨_, _, hr⟩ := hh.handler <;> cases hret.symm.trans hr
  cases hs with
  | sendFails _ hout => exact absurd hout hh.writing
  | @callerSend c _ _ htodo' hf =>
      have hinOrder := hh.inOrder.step hf
      have hthrifty : RequestFlow.Thrifty (.callerSend c) s.call.req := trivial
      have hreq := hh.requests.step hthrifty hf
      obtain ⟨-, -, -, -, rfl⟩ := RequestFlow.step_callerSend_iff.mp hf
      refine ⟨hd', hinOrder, hh.handler, hh.writing, ?_, hh.unread, hreq, hh.responses⟩
      rw [← hh.sent, htodo']
      simp
  | callerDrop hnil _ => exact absurd hnil htodo
  | take hread hf => exact hh.take hanswers hfit hread hf hd'
  | takeNone hread hf =>
      obtain ⟨l, hl, -⟩ := RequestFlow.step_leg_iff.mp hf
      exact absurd (Leg.step_takeNone_iff.mp hl).2.1 hpump
  | breaks hsend hgone =>
      obtain ⟨-, -, chunks, hsame, hpromises⟩ := hh.determined.running (by rw [hsend]; trivial)
      exact absurd (hpromises.running (fits_sent hb hsame)).1 hgone
  | send hsend hf => exact hh.send hc hb hsend hf hd'
  | dropRequests hret _ => exact absurd hret (hserving _)
  | dropResponses hret _ => exact absurd hret (hserving _)
  | ended hret _ _ => exact absurd hret (hserving _)
  | req hacts hmay hf =>
      obtain ⟨n, hpaced, hgot⟩ := hh.responses
      obtain ⟨hsend, -, -, htake, -, -⟩ := acts_req hacts
      obtain ⟨hsent, hsame⟩ := RequestFlow.step_sent_got hh.inOrder.base hf hsend htake
      refine ⟨hd', hh.inOrder.step hf, hh.handler, ?_, ?_, hh.unread, hh.requests.step hok hf,
        n, hpaced, ?_⟩
      · intro hdone
        obtain rfl | hp | hending := RequestFlow.step_out_done hh.inOrder.base hf hh.writing hdone
        · have hserves : s.handler.Serving := by
            obtain hr | ⟨_, _, hr⟩ := hh.handler <;> rw [hr] <;> trivial
          exact (hh.determined.no_abort hb hserves hmay).1 rfl
        · exact hpump hp
        · exact htodo (hh.determined.planned.dropped (hh.determined.planned.ending hending).1)
      · dsimp only
        rw [hsent]
        exact hh.sent
      · dsimp only
        rw [hsame]
        exact hgot
  | @resp a f hacts hf =>
      obtain ⟨n, hpaced, hgot⟩ := hh.responses
      obtain ⟨hthrifty, htake⟩ := hok
      have hpaced' := hpaced.step hc hthrifty hf
      have hnone : ResponseFlow.accepts a s.call.resp = false := by
        cases a with
        | handlerSend item => cases hacts
        | _ => rfl
      rw [hnone] at hpaced'
      refine ⟨hd', hh.inOrder, hh.handler, hh.writing, hh.sent, ?_, hh.requests, n, hpaced', hgot⟩
      exact (ResponseFlow.step_got_of_ne hf fun ha => htodo (htake ha)).trans hh.unread

theorem held_start (hc : streamingErrorCodec.RoundTrips) (h : RequestHandler)
    (requests : List Bytes) : Held up down h requests (start requests) where
  determined := determined_start hc h requests
  inOrder := RequestFlow.inOrder_start
  handler := .inl rfl
  writing := by rintro ⟨⟩
  sent := List.nil_append requests
  unread := rfl
  requests := RequestFlow.paced_start
  responses := ⟨0, ResponseFlow.paced_start, Nat.zero_le _⟩

/-- More chunks than both directions hold are never all sent. -/
theorem Held.todo_ne (hmany : backlogLimit up + backlogLimit down + 1 < requests.length)
    (hh : Held up down h requests s) : s.todo ≠ [] := by
  intro hnil
  have hsent := hh.sent
  rw [hnil, List.append_nil] at hsent
  have hle := hh.sent_le
  rw [hsent] at hle
  omega

/-- **Writing first deadlocks**: if the handler answers every chunk and there are more chunks than
both directions hold, every schedule stops with chunks unsent and no response read. -/
theorem writeFirst_deadlocks (hc : streamingErrorCodec.RoundTrips)
    (hb : ResponseFlow.Fits (h.behaviour requests)) (hanswers : Answers h)
    (hfit : ∀ chunk ∈ requests, chunk.length ≤ maxStreamingPayloadLen)
    (hmany : backlogLimit up + backlogLimit down + 1 < requests.length) {as : List ServedAct}
    (hrun : Runs (ServedCall.step up down h) WritesFirst as (start requests) s) :
    s.todo ≠ [] ∧ s.call.resp.leg.got = [] ∧ as.length ≤ weight h requests (start requests) ∧
      ∃ bs s', Runs (ServedCall.step up down h) WritesFirst bs s s' ∧ s'.todo ≠ [] ∧
        ∀ a, WritesFirst a s' → ServedCall.step up down h a s' = none := by
  have hkeeps : ∀ a t t', WritesFirst a t → Held up down h requests t →
      ServedCall.step up down h a t = some t' → Held up down h requests t' := by
    intro a t t' hok hh hs
    exact hh.step hc hb hanswers hfit (hh.todo_ne hmany) hok (moved_of_step hs)
  have hlt : ∀ a t t', WritesFirst a t → Held up down h requests t →
      ServedCall.step up down h a t = some t' → weight h requests t' < weight h requests t := by
    intro a t t' _ hh hs
    exact Follows.weight_lt hc hb hh.determined (hh.determined.step hc hb (moved_of_step hs)).2
  have hstart : Held up down h requests (start requests) := held_start hc h requests
  have hheld : Held up down h requests s := hrun.invariant hkeeps hstart
  have hlength := hrun.length_add_le hkeeps hlt hstart
  refine ⟨hheld.todo_ne hmany, hheld.unread, by omega, ?_⟩
  obtain ⟨bs, s', hrun', hhalt⟩ := exists_halt
    (fun a t t' hok hh hs => ⟨hkeeps a t t' hok hh hs, hlt a t t' hok hh hs⟩) hheld
  exact ⟨bs, s', hrun', (hrun'.invariant hkeeps hheld).todo_ne hmany, hhalt⟩

end steps

section reference

attribute [local instance] reference

theorem transcript_echo (seen : List (RpcResult Bytes)) (chunks : List Bytes) :
    echoHandler.transcript seen (chunks.map .ok) = ⟨chunks.map .ok, .returned (.ok ())⟩ := by
  induction chunks generalizing seen with
  | nil => rfl
  | cons chunk chunks ih =>
      rw [List.map_cons, RequestHandler.transcript, ih]
      simp [echoHandler, orReturn, Behaviour.after, Except.toOption]

theorem answers_echo : Answers echoHandler := by
  intro chunks hne
  obtain ⟨front, last, rfl⟩ := List.eq_nil_or_concat chunks |>.resolve_left hne
  simp [echoHandler, Except.toOption]

/-- A caller that sends more empty chunks than a small transport holds. -/
theorem writeFirst_deadlocks_echo :
    ∃ bs s, Runs (ServedCall.step 2 2 echoHandler) WritesFirst bs
        (start (List.replicate (2 * backlogLimit 2 + 2) [])) s ∧ s.todo ≠ [] ∧
      ∀ a, WritesFirst a s → ServedCall.step 2 2 echoHandler a s = none := by
  have hfit : ∀ chunk ∈ List.replicate (2 * backlogLimit 2 + 2) ([] : Bytes),
      chunk.length ≤ maxStreamingPayloadLen := by
    intro chunk hchunk
    rw [List.eq_of_mem_replicate hchunk]
    exact Nat.zero_le _
  have hfits : ResponseFlow.Fits
      (echoHandler.behaviour (List.replicate (2 * backlogLimit 2 + 2) [])) := by
    rw [RequestHandler.behaviour, RequestHandler.received_eq hfit, transcript_echo]
    refine ⟨fun item hitem => ?_, trivial⟩
    obtain ⟨chunk, hchunk, rfl⟩ := List.mem_map.mp hitem
    exact hfit chunk hchunk
  exact (writeFirst_deadlocks (ofCodec_roundTrips StreamingError.postcard) hfits answers_echo hfit
    (by decide) (Runs.nil _)).2.2.2

end reference

end ServedCall

end NerwRpc
