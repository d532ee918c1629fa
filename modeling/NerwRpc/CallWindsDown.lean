import NerwRpc.CallOutcome

/-! # A call winds down

When nothing more can happen in a served call, nothing of it is left: the substream task and the
three pumps have returned, the handler's task has ended and the caller has seen the end.

* `task_unwinds`: behind the caller's pump the substream task does not need room to write.
* `over_of_stuck`, `Over.stuck`: a state without a step is one in which everything is over. -/

namespace NerwRpc

open ByteStream FramePump Transition

namespace ServedCall

section steps

variable [Deps] {up down : ℕ} {h : RequestHandler} {requests : List Bytes} {s s' : ServedCall}

/-- Every task has returned, and every end of a channel is dropped but the one of the responses. -/
structure Unwound (s : ServedCall) : Prop where
  todo : s.todo = []
  sender : s.call.req.senderDropped = true
  out : s.call.req.out = .done
  inbound : s.call.req.leg.pump = .done
  requests : s.call.req.leg.dropped = true
  handler : s.handler = .ended
  responses : s.call.resp.sendersDropped = true
  task : s.call.resp.task = .done
  caller : s.call.resp.leg.pump = .done

/-- Nothing of the call is left, and the caller has seen the end. -/
def Over (s : ServedCall) : Prop := s.Unwound ∧ s.call.resp.leg.ended = true

/-- A handler drops its request stream before its task ends. -/
def DropsFirst (s : ServedCall) : Prop := s.handler = .ended → s.call.req.leg.dropped = true

theorem DropsFirst.step (hb : s.call.req.Base) (hd : DropsFirst s) {a : ServedAct}
    (hs : Moved up down h s a s') : DropsFirst s' := by
  have hreq : ∀ {a : RequestAct} {f : RequestFlow}, s.call.req.step up a = some f →
      s.handler = .ended → f.leg.dropped = true := by
    intro a f hf hended
    obtain ⟨hsame, -⟩ | ⟨b, l, -, hl, rfl⟩ := RequestFlow.step_leg_eq_or hb hf
    · exact hsame.trans (hd hended)
    · exact Leg.step_keeps_dropped hl (hd hended)
  cases hs with
  | sendFails _ _ => exact hd
  | callerSend _ hf => exact hreq hf
  | callerDrop _ hf => exact hreq hf
  | take _ _ => exact fun hended => absurd hended (HandlerTurn.goOn_ne_ended _ _)
  | takeNone _ _ => exact fun hended => by cases hended
  | breaks _ _ => exact fun hended => by cases hended
  | send _ _ => exact fun hended => absurd hended (HandlerTurn.goOn_ne_ended _ _)
  | dropRequests _ hf => exact hreq hf
  | dropResponses _ _ => exact hd
  | ended _ hdropped _ => exact fun _ => hdropped
  | req _ _ hf => exact hreq hf
  | resp _ _ => exact hd

/-- Behind the caller's pump the substream task returns, unless it waits for the handler: a write
that does not find room fails. -/
theorem task_unwinds (down : ℕ) (hp : s.call.resp.leg.pump = .done) :
    s.call.resp.task = .done ∨
      (∃ a f, s.call.Acts (.resp a) = true ∧ a ≠ .leg .abort ∧
        s.call.resp.step down a = some f) ∨
      (s.call.resp.task = .draining ∧ s.call.resp.queue = [] ∧
        s.call.resp.sendersDropped = false) ∨
      (∃ w, s.call.resp.task = .joining w) ∧ s.call.resp.outcome = none := by
  cases ht : s.call.resp.task with
  | draining =>
      cases hq : s.call.resp.queue with
      | nil =>
          cases hd : s.call.resp.sendersDropped with
          | false => exact .inr (.inr (.inl ⟨rfl, rfl, rfl⟩))
          | true =>
              refine .inr (.inl ⟨.recv, { s.call.resp with task := .joining false }, rfl,
                by simp, ?_⟩)
              simp only [ResponseFlow.step, ht, hq, hd, if_true]
      | cons item queue =>
          have hstep : ∃ f, s.call.resp.step down .recv = some f := by
            cases hf : frameBytes (itemFrame item) <;> simp [ResponseFlow.step, ht, hq, hf]
          obtain ⟨f, hf⟩ := hstep
          exact .inr (.inl ⟨.recv, f, rfl, by simp, hf⟩)
  | writing t left =>
      refine .inr (.inl ⟨.writeFails, s.call.resp.drained, rfl, by simp, ?_⟩)
      simp only [ResponseFlow.step, ht, hp, if_true]
  | closing left =>
      refine .inr (.inl ⟨.writeFails, { s.call.resp with task := .finishing }, rfl, by simp, ?_⟩)
      simp only [ResponseFlow.step, ht, hp, if_true]
  | joining w =>
      cases ho : s.call.resp.outcome with
      | none => exact .inr (.inr (.inr ⟨⟨w, rfl⟩, rfl⟩))
      | some o =>
          have hstep : ∃ f, s.call.resp.step down .join = some f := by
            cases w with
            | true => simp [ResponseFlow.step, ht, ho]
            | false =>
                cases hf : frameBytes (closingFrame o) <;> simp [ResponseFlow.step, ht, ho, hf]
          obtain ⟨f, hf⟩ := hstep
          exact .inr (.inl ⟨.join, f, rfl, by simp, hf⟩)
  | finishing =>
      exact .inr (.inl ⟨.finish, _, rfl, by simp, ResponseFlow.step_finish_iff.mpr ⟨ht, rfl⟩⟩)
  | done => exact .inl rfl

/-- Behind the substream task nothing of the call is left. -/
theorem over_of_stuck (hup : 0 < up) (hdown : 0 < down) (hi : Inv s) (hd : DropsFirst s)
    (hstuck : ∀ a, ServedCall.step up down h a s = none) : Over s := by
  have hnot : ¬ CanStep up down h s := by
    rintro ⟨a, s', -, hs⟩
    rw [hstuck a] at hs
    cases hs
  have hend : s.call.resp.leg.ended = true := by
    cases he : s.call.resp.leg.ended with
    | true => rfl
    | false => exact absurd (hi.progress hup hdown he) hnot
  obtain ⟨hp, -⟩ := hi.resp.tidy.ended hend
  have htask : s.call.resp.task = .done := by
    obtain hdone | ⟨a, f, hacts, hne, hf⟩ | ⟨ht, hq, hopen⟩ | ⟨⟨w, ht⟩, hrunning⟩ :=
      task_unwinds down hp
    · exact hdone
    · have hs : ServedCall.step up down h (.task (.resp a)) s =
          some { s with call := { s.call with resp := f } } := by
        simp only [ServedCall.step, hacts, if_true,
          StreamingCall.act_resp_iff.mpr ⟨hne, f, hf, rfl⟩, Option.map_some]
      rw [hstuck] at hs
      cases hs
    · refine absurd (hi.exists_handler hup ?_ fun _ => hq) hnot
      rw [hi.outcome]
      intro hended
      rw [hi.ended hended] at hopen
      cases hopen
    · refine absurd (hi.exists_handler hup hrunning fun hr => ?_) hnot
      rw [ht] at hr
      exact hr.elim
  have hhandler : s.handler = .ended := by
    by_contra hne
    refine hnot (hi.exists_handler hup (hi.outcome.mpr hne) fun hr => ?_)
    rw [htask] at hr
    exact hr.elim
  -- the caller's pump and the substream task have returned, so the other two pumps are aborted
  have habort : ∀ a f, s.call.Acts (.req a) = true → s.call.MayAbort a →
      s.call.req.step up a = some f → False := by
    intro a f hacts hmay hf
    have hs : ServedCall.step up down h (.task (.req a)) s =
        some { s with call := { s.call with req := f } } := by
      simp only [ServedCall.step, hacts, if_true,
        StreamingCall.act_req_iff.mpr ⟨hmay, f, hf, rfl⟩, Option.map_some]
    rw [hstuck] at hs
    cases hs
  have hout : s.call.req.out = .done := by
    by_contra hne
    exact habort .abort s.call.req.stop (decide_eq_true hne) hp rfl
  have hinbound : s.call.req.leg.pump = .done := by
    by_contra hne
    exact habort (.leg .abort) _ (decide_eq_true hne) (.inr htask)
      (RequestFlow.step_leg_iff.mpr ⟨_, Leg.step_abort_iff.mpr rfl, rfl⟩)
  have htodo : s.todo = [] := by
    cases htodo : s.todo with
    | nil => rfl
    | cons chunk todo =>
        have hs : ServedCall.step up down h .callerSend s = some { s with todo := todo } := by
          simp only [ServedCall.step, htodo, hout, if_true]
        rw [hstuck] at hs
        cases hs
  have hsender : s.call.req.senderDropped = true := by
    by_contra hopen
    obtain ⟨call, hcall⟩ : ∃ call, s.call.act up down (.req .callerDrop) = some call :=
      ⟨_, StreamingCall.act_req_iff.mpr ⟨trivial, _,
        RequestFlow.step_callerDrop_iff.mpr ⟨Bool.eq_false_iff.mpr hopen, rfl⟩, rfl⟩⟩
    have hs : ServedCall.step up down h .callerDrop s = some { s with call := call } := by
      simp only [ServedCall.step, htodo, if_true, hcall, Option.map_some]
    rw [hstuck] at hs
    cases hs
  exact ⟨⟨htodo, hsender, hout, hinbound, hd hhandler, hhandler, hi.ended hhandler, htask, hp⟩,
    hend⟩

theorem Over.stuck (hi : Inv s) (ho : Over s) (a : ServedAct) :
    ServedCall.step up down h a s = none := by
  obtain ⟨ho, hend⟩ := ho
  have hp := ho.caller
  have hq : s.call.resp.leg.queue = [] := (hi.resp.tidy.ended hend).2
  cases hs : ServedCall.step up down h a s with
  | none => rfl
  | some s' =>
      exfalso
      cases moved_of_step hs with
      | sendFails htodo _ => cases ho.todo.symm.trans htodo
      | callerSend htodo _ => cases ho.todo.symm.trans htodo
      | callerDrop _ hf =>
          have hopen := (RequestFlow.step_callerDrop_iff.mp hf).1
          rw [ho.sender] at hopen
          cases hopen
      | take hh _ => cases ho.handler.symm.trans hh
      | takeNone hh _ => cases ho.handler.symm.trans hh
      | breaks hh _ => cases ho.handler.symm.trans hh
      | send hh _ => cases ho.handler.symm.trans hh
      | dropRequests hh _ => cases ho.handler.symm.trans hh
      | dropResponses hh _ => cases ho.handler.symm.trans hh
      | ended hh _ _ => cases ho.handler.symm.trans hh
      | req hacts hmay hf =>
          rename_i b f
          obtain ⟨hsend, hdrop, hdropRequests, htake, htakeNone, hfresh⟩ := acts_req hacts
          cases b with
          | callerSend c => exact hsend c rfl
          | callerDrop => exact hdrop rfl
          | recv => simp [RequestFlow.step, ho.out] at hf
          | write n => simp [RequestFlow.step, RequestFlow.write, ho.out] at hf
          | writeFails => simp [RequestFlow.step, ho.out] at hf
          | abort => exact hfresh ho.out
          | leg c =>
              obtain ⟨l, hl, rfl⟩ := RequestFlow.step_leg_iff.mp hf
              cases c with
              | take => exact htake rfl
              | takeNone => exact htakeNone rfl
              | dropReceiver => exact hdropRequests rfl
              | abort => exact hfresh ho.inbound
              | _ => simp [Leg.step, ho.inbound] at hl
      | resp hacts hf =>
          rename_i b f
          cases b with
          | leg c =>
              obtain ⟨l, hl, rfl⟩ := ResponseFlow.step_leg_iff.mp hf
              cases c with
              | dropReceiver => cases hacts
              | abort => cases hacts
              | take => simp [Leg.step, hq] at hl
              | takeNone => simp [Leg.step, hq, hp, hend] at hl
              | _ => simp [Leg.step, hp] at hl
          | write n => simp [ResponseFlow.step, ResponseFlow.write, ho.task] at hf
          | handlerSend item => cases hacts
          | handlerDrop => cases hacts
          | handlerEnd o => cases hacts
          | _ => simp [ResponseFlow.step, ho.task] at hf

/-- **Nothing is left behind**: a run cannot go on exactly when it has taken every task down,
whatever the handler did and whatever was aborted. -/
theorem call_windsDown (hup : 0 < up) (hdown : 0 < down)
    (hsizes : ∀ chunk ∈ requests, chunk.length ≤ usizeMax) {as : List ServedAct}
    (hrun : run (ServedCall.step up down h) as (start requests) = some s) :
    (∀ a, ServedCall.step up down h a s = none) ↔ Over s := by
  have hboth : (fun s => Inv s ∧ DropsFirst s) s := by
    apply (runs_any_iff.mpr hrun).invariant
    · intro a s s' _ hi hs
      exact ⟨hi.1.step hs, hi.2.step hi.1.req.base (moved_of_step hs)⟩
    · exact ⟨inv_start hsizes, nofun⟩
  exact ⟨over_of_stuck hup hdown hboth.1 hboth.2, fun ho => ho.stuck hboth.1⟩

end steps

section reference

attribute [local instance] reference

theorem call_windsDown_echo : Over echoed ∧ ¬ ∃ a, step 3 3 echoHandler a echoed ≠ none := by
  have hover : Over echoed := ⟨⟨rfl, rfl, rfl, rfl, rfl, rfl, rfl, rfl, rfl⟩, rfl⟩
  have hstuck :=
    (call_windsDown (h := echoHandler) (by decide) (by decide) (by decide) run_wholeEcho).mpr hover
  exact ⟨hover, fun ⟨a, hstep⟩ => hstep (hstuck a)⟩

end reference

end ServedCall

end NerwRpc
