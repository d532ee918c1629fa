import NerwRpc.CallProgress
import NerwRpc.RequestPlan

/-! # What a served call comes to

A `ServedCall` has many interleavings, and in some of them a pump is aborted or a write fails.  The
chunks of the caller and the handler fix what it comes to all the same.

* `RequestHandler.behaviour`: what a handler makes of the requests.
* `ResponseFlow.Promises`: while the handler runs, the response direction is on its way for every
  continuation of what the handler has sent, so that none of its tasks can have stopped.
* `Determined.step`: the call follows the scripted flow of that behaviour.
* `call_determinate`, `call_terminates`: what the caller reads does not depend on the schedule, and
  every schedule comes to an end. -/

namespace NerwRpc

open ByteStream FramePump Transition

/-! ### What a handler makes of its requests -/

/-- The chunks, and then what `b` says. -/
def Behaviour.after (b : Behaviour) (chunks : List Bytes) : Behaviour :=
  ⟨chunks.map .ok ++ b.items, b.outcome⟩

theorem Behaviour.after_append (b : Behaviour) (xs ys : List Bytes) :
    (b.after ys).after xs = b.after (xs ++ ys) := by
  simp [Behaviour.after]

/-- The handler returns, or reads on and does what `b` says. -/
def orReturn (next : Option (RpcResult Unit)) (b : Behaviour) : Behaviour :=
  match next with
  | none => b
  | some result => ⟨[], .returned result⟩

namespace HandlerTurn

/-- What the handler's task has still to do, if it does what `b` says when it reads on. -/
def ahead (b : Behaviour) : HandlerTurn → Behaviour
  | .reading => b
  | .sending chunk left next => (orReturn next b).after (chunk :: left)
  | .returning result => ⟨[], .returned result⟩
  | .ended => ⟨[], b.outcome⟩

theorem ahead_goOn (left : List Bytes) (next : Option (RpcResult Unit)) (b : Behaviour) :
    (goOn left next).ahead b = (orReturn next b).after left := by
  cases left with
  | cons chunk left => rfl
  | nil =>
      cases next with
      | none => rfl
      | some result => rfl

theorem ahead_items_of_not_serving {t : HandlerTurn} (h : ¬ t.Serving) (b : Behaviour) :
    (t.ahead b).items = [] := by
  cases t with
  | reading => exact absurd trivial h
  | sending chunk left next => exact absurd trivial h
  | returning result => rfl
  | ended => rfl

end HandlerTurn

namespace RequestHandler

/-- What a handler that has read `seen` makes of the items to come. -/
def transcript (h : RequestHandler) (seen : List (RpcResult Bytes)) :
    List (RpcResult Bytes) → Behaviour
  | [] => ⟨[], .returned (.ok ())⟩
  | item :: items =>
      (orReturn (h.leaves (seen ++ [item])) (h.transcript (seen ++ [item]) items)).after
        (h.replies (seen ++ [item]))

variable [Deps]

/-- What the handler is given for the requests. -/
def received (requests : List Bytes) : List (RpcResult Bytes) :=
  pumpInboundRequests.forwards (requestBytes requests)

/-- What the handler makes of the requests. -/
def behaviour (h : RequestHandler) (requests : List Bytes) : Behaviour :=
  h.transcript [] (received requests)

theorem received_eq {requests : List Bytes}
    (hfit : ∀ chunk ∈ requests, chunk.length ≤ maxStreamingPayloadLen) :
    received requests = requests.map .ok := by
  unfold received
  induction requests with
  | nil => exact pumpInboundRequests.forwards_frame exactFrame_requestEnd
  | cons c requests ih =>
      obtain ⟨hc, hrest⟩ := List.forall_mem_cons.mp hfit
      rw [requestBytes_cons, forwards_chunkFrame hc, ih hrest, List.map_cons]

end RequestHandler

/-! ### The response direction of a handler that runs -/

namespace ResponseFlow

variable [Deps] {window : ℕ} {chunks : List Bytes} {f f' : ResponseFlow}

theorem responses_after (chunks : List Bytes) (b : Behaviour) :
    responses (b.after chunks) = chunks.map .ok ++ responses b := by
  induction chunks with
  | nil => rfl
  | cons c chunks ih =>
      have hcons : b.after (c :: chunks) = ⟨.ok c :: (b.after chunks).items, b.outcome⟩ := rfl
      rw [hcons, responses_ok]
      exact congrArg (.ok c :: ·) ih

/-- The chunks have been sent; whatever the handler does behind them, the caller will see it. -/
def Promises (chunks : List Bytes) (f : ResponseFlow) : Prop :=
  ∀ b : Behaviour, Fits (b.after chunks) → ScriptedFlow.Inv (b.after chunks) ⟨b.items, f⟩

theorem promises_start (hc : streamingErrorCodec.RoundTrips) : Promises [] start := by
  intro b hb
  exact ScriptedFlow.inv_start hc hb

theorem fits_after {chunks : List Bytes} (hfit : ∀ c ∈ chunks, BodyFits (itemFrame (.ok c)))
    (more : Bool) : Fits ((⟨if more then [.ok []] else [], .returned (.ok ())⟩ :
      Behaviour).after chunks) := by
  refine ⟨fun item hi => ?_, trivial⟩
  obtain hi | hi := List.mem_append.mp hi
  · obtain ⟨c, hc, rfl⟩ := List.mem_map.mp hi
    exact hfit c hc
  · cases more with
    | false => simp at hi
    | true =>
        obtain rfl : item = .ok [] := by simpa using hi
        exact Nat.zero_le _

/-- While the handler may go on, neither the substream task nor the caller's pump has stopped. -/
theorem Promises.running (hp : Promises chunks f)
    (hfit : ∀ c ∈ chunks, BodyFits (itemFrame (.ok c))) :
    Receiving f.task ∧ f.leg.pump ≠ .done := by
  have hless := (hp _ (fits_after hfit false)).outlook
  have hmore := (hp _ (fits_after hfit true)).outlook
  have hne : ∀ Z Z', f.leg.outlook pumpInboundResponses Z = responses
        ((⟨[], .returned (.ok ())⟩ : Behaviour).after chunks) →
      f.leg.outlook pumpInboundResponses Z' = responses
        ((⟨[.ok []], .returned (.ok ())⟩ : Behaviour).after chunks) →
      f.leg.outlook pumpInboundResponses Z ≠ f.leg.outlook pumpInboundResponses Z' := by
    intro Z Z' h h' heq
    rw [h, h', responses_after, responses_after] at heq
    have := List.append_cancel_left heq
    rw [responses_ok] at this
    exact List.cons_ne_self _ _ this.symm
  constructor
  · by_contra hr
    apply hne _ _ hless hmore
    rw [ScriptedFlow.remaining_of_not_receiving hr _ _ []]
    exact congrArg _ (ScriptedFlow.remaining_of_not_receiving hr _ _ _)
  · intro hdone
    apply hne _ _ hless hmore
    rw [Leg.outlook_done hdone, Leg.outlook_done hdone]

theorem Promises.step (hc : streamingErrorCodec.RoundTrips) (hp : Promises chunks f)
    {a : ResponseAct} (ha : ScriptedFlow.Inner a = true) (hs : f.step window a = some f') :
    Promises chunks f' := by
  intro b hb
  exact (hp b hb).step hc hb (ScriptedFlow.step_flow (s := ⟨b.items, f⟩) ha hs)

theorem Promises.send (hc : streamingErrorCodec.RoundTrips) (hp : Promises chunks f) {c : Bytes}
    (hs : f.step window (.handlerSend (.ok c)) = some f') : Promises (chunks ++ [c]) f' := by
  intro b hb
  have hsame : b.after (chunks ++ [c]) = (b.after [c]).after chunks :=
    (Behaviour.after_append b chunks [c]).symm
  rw [hsame] at hb ⊢
  have hscript : ScriptedFlow.step window ((b.after [c]).after chunks) .handlerSend
      ⟨(b.after [c]).items, f⟩ = some ⟨b.items, f'⟩ := by
    simp only [ScriptedFlow.step, Behaviour.after, List.map_cons, List.map_nil, List.cons_append,
      List.nil_append, hs, Option.map_some]
  exact (hp _ hb).step hc hb hscript

end ResponseFlow

/-! ### Every step of the call -/

namespace ServedCall

section steps

variable [Deps] {up down : ℕ} {h : RequestHandler} {s s' : ServedCall}

/-- What a step of the call can be. -/
inductive Moved (up down : ℕ) (h : RequestHandler) (s : ServedCall) :
    ServedAct → ServedCall → Prop
  | sendFails {chunk : Bytes} {todo : List Bytes} : s.todo = chunk :: todo →
      s.call.req.out = .done → Moved up down h s .callerSend { s with todo := todo }
  | callerSend {chunk : Bytes} {todo : List Bytes} {f : RequestFlow} : s.todo = chunk :: todo →
      s.call.req.step up (.callerSend chunk) = some f →
      Moved up down h s .callerSend ⟨todo, s.handler, ⟨f, s.call.resp⟩⟩
  | callerDrop {f : RequestFlow} : s.todo = [] → s.call.req.step up .callerDrop = some f →
      Moved up down h s .callerDrop ⟨s.todo, s.handler, ⟨f, s.call.resp⟩⟩
  | take {f : RequestFlow} : s.handler = .reading → s.call.req.step up (.leg .take) = some f →
      Moved up down h s .handlerTake
        ⟨s.todo, .goOn (h.replies f.leg.got) (h.leaves f.leg.got), ⟨f, s.call.resp⟩⟩
  | takeNone {f : RequestFlow} : s.handler = .reading →
      s.call.req.step up (.leg .takeNone) = some f →
      Moved up down h s .handlerNone ⟨s.todo, .returning (.ok ()), ⟨f, s.call.resp⟩⟩
  | breaks {chunk : Bytes} {left : List Bytes} {next : Option (RpcResult Unit)} :
      s.handler = .sending chunk left next → ¬ ResponseFlow.Receiving s.call.resp.task →
      Moved up down h s .handlerSend { s with handler := .returning (.ok ()) }
  | send {chunk : Bytes} {left : List Bytes} {next : Option (RpcResult Unit)}
      {f : ResponseFlow} : s.handler = .sending chunk left next →
      s.call.resp.step down (.handlerSend (.ok chunk)) = some f →
      Moved up down h s .handlerSend ⟨s.todo, .goOn left next, ⟨s.call.req, f⟩⟩
  | dropRequests {result : RpcResult Unit} {f : RequestFlow} : s.handler = .returning result →
      s.call.req.step up (.leg .dropReceiver) = some f →
      Moved up down h s .handlerDropRequests ⟨s.todo, s.handler, ⟨f, s.call.resp⟩⟩
  | dropResponses {result : RpcResult Unit} {f : ResponseFlow} : s.handler = .returning result →
      s.call.resp.step down .handlerDrop = some f →
      Moved up down h s .handlerDropResponses ⟨s.todo, s.handler, ⟨s.call.req, f⟩⟩
  | ended {result : RpcResult Unit} {f : ResponseFlow} : s.handler = .returning result →
      s.call.req.leg.dropped = true →
      s.call.resp.step down (.handlerEnd (.returned result)) = some f →
      Moved up down h s .handlerEnd ⟨s.todo, .ended, ⟨s.call.req, f⟩⟩
  | req {a : RequestAct} {f : RequestFlow} : s.call.Acts (.req a) = true → s.call.MayAbort a →
      s.call.req.step up a = some f →
      Moved up down h s (.task (.req a)) ⟨s.todo, s.handler, ⟨f, s.call.resp⟩⟩
  | resp {a : ResponseAct} {f : ResponseFlow} : s.call.Acts (.resp a) = true →
      s.call.resp.step down a = some f →
      Moved up down h s (.task (.resp a)) ⟨s.todo, s.handler, ⟨s.call.req, f⟩⟩

theorem moved_of_step {a : ServedAct} (hs : step up down h a s = some s') :
    Moved up down h s a s' := by
  cases a with
  | callerSend =>
      cases htodo : s.todo with
      | nil => simp [step, htodo] at hs
      | cons chunk todo =>
          simp only [step, htodo] at hs
          split at hs
          · rename_i hout
            cases hs
            exact .sendFails htodo hout
          · obtain ⟨call, hcall, rfl⟩ := Option.map_eq_some_iff.mp hs
            obtain ⟨-, f, hf, rfl⟩ := StreamingCall.act_req_iff.mp hcall
            exact .callerSend htodo hf
  | callerDrop =>
      simp only [step] at hs
      split at hs
      · rename_i htodo
        obtain ⟨call, hcall, rfl⟩ := Option.map_eq_some_iff.mp hs
        obtain ⟨-, f, hf, rfl⟩ := StreamingCall.act_req_iff.mp hcall
        exact .callerDrop htodo hf
      · cases hs
  | handlerTake =>
      cases hh : s.handler with
      | reading =>
          simp only [step, hh] at hs
          obtain ⟨call, hcall, rfl⟩ := Option.map_eq_some_iff.mp hs
          obtain ⟨-, f, hf, rfl⟩ := StreamingCall.act_req_iff.mp hcall
          exact .take hh hf
      | _ => simp [step, hh] at hs
  | handlerNone =>
      cases hh : s.handler with
      | reading =>
          simp only [step, hh] at hs
          obtain ⟨call, hcall, rfl⟩ := Option.map_eq_some_iff.mp hs
          obtain ⟨-, f, hf, rfl⟩ := StreamingCall.act_req_iff.mp hcall
          exact .takeNone hh hf
      | _ => simp [step, hh] at hs
  | handlerSend =>
      cases hh : s.handler with
      | sending chunk left next =>
          simp only [step, hh] at hs
          split at hs
          · rename_i hbreaks
            cases hs
            exact .breaks hh hbreaks.2
          · obtain ⟨call, hcall, rfl⟩ := Option.map_eq_some_iff.mp hs
            obtain ⟨-, f, hf, rfl⟩ := StreamingCall.act_resp_iff.mp hcall
            exact .send hh hf
      | _ => simp [step, hh] at hs
  | handlerDropRequests =>
      cases hh : s.handler with
      | returning result =>
          simp only [step, hh] at hs
          obtain ⟨call, hcall, rfl⟩ := Option.map_eq_some_iff.mp hs
          obtain ⟨-, f, hf, rfl⟩ := StreamingCall.act_req_iff.mp hcall
          exact hh ▸ .dropRequests hh hf
      | _ => simp [step, hh] at hs
  | handlerDropResponses =>
      cases hh : s.handler with
      | returning result =>
          simp only [step, hh] at hs
          obtain ⟨call, hcall, rfl⟩ := Option.map_eq_some_iff.mp hs
          obtain ⟨-, f, hf, rfl⟩ := StreamingCall.act_resp_iff.mp hcall
          exact hh ▸ .dropResponses hh hf
      | _ => simp [step, hh] at hs
  | handlerEnd =>
      cases hh : s.handler with
      | returning result =>
          simp only [step, hh] at hs
          split at hs
          · rename_i hdropped
            obtain ⟨call, hcall, rfl⟩ := Option.map_eq_some_iff.mp hs
            obtain ⟨-, f, hf, rfl⟩ := StreamingCall.act_resp_iff.mp hcall
            exact .ended hh hdropped.1 hf
          · cases hs
      | _ => simp [step, hh] at hs
  | task b =>
      simp only [step] at hs
      split at hs
      · rename_i hacts
        obtain ⟨call, hcall, rfl⟩ := Option.map_eq_some_iff.mp hs
        cases b with
        | req c =>
            obtain ⟨hmay, f, hf, rfl⟩ := StreamingCall.act_req_iff.mp hcall
            exact .req hacts hmay hf
        | resp c =>
            obtain ⟨-, f, hf, rfl⟩ := StreamingCall.act_resp_iff.mp hcall
            exact .resp hacts hf
      · cases hs

theorem acts_req {a : RequestAct} (ha : s.call.Acts (.req a) = true) :
    (∀ c, a ≠ .callerSend c) ∧ a ≠ .callerDrop ∧ a ≠ .leg .dropReceiver ∧ a ≠ .leg .take ∧
      a ≠ .leg .takeNone ∧ s.call.req.Fresh a := by
  refine ⟨?_, ?_, ?_, ?_, ?_, ?_⟩
  · rintro c rfl
    cases ha
  · rintro rfl
    cases ha
  · rintro rfl
    cases ha
  · rintro rfl
    cases ha
  · rintro rfl
    cases ha
  · unfold RequestFlow.Fresh
    split
    · exact of_decide_eq_true ha
    · exact of_decide_eq_true ha
    · trivial

theorem acts_resp {a : ResponseAct} (ha : s.call.Acts (.resp a) = true) :
    ScriptedFlow.Inner a = true := by
  cases a with
  | leg b => cases b <;> first | rfl | cases ha
  | _ => first | rfl | cases ha

/-! ### What the chunks and the handler determine -/

/-- The items the handler has still to read. -/
def toRead (s : ServedCall) : List (RpcResult Bytes) :=
  s.call.req.leg.queue ++ pumpInboundRequests.upstream
    (s.call.req.leg.recv.buf ++ (s.call.req.leg.inflight ++ s.call.req.toWrite s.todo))
    s.call.req.leg.pump

/-- What the handler has still to do. -/
def ahead (h : RequestHandler) (s : ServedCall) : Behaviour :=
  s.handler.ahead (h.transcript s.call.req.leg.got s.toRead)

/-- The response direction, with what the handler has still to send. -/
def scripted (h : RequestHandler) (s : ServedCall) : ScriptedFlow :=
  ⟨(s.ahead h).items, s.call.resp⟩

/-- The handler runs: what it has read and has still to read are all the requests, and what it has
sent and has still to do is its behaviour. -/
structure Running (h : RequestHandler) (requests : List Bytes) (s : ServedCall) : Prop where
  kept : s.call.req.leg.dropped = false
  reads : s.call.req.leg.got ++ s.toRead = RequestHandler.received requests
  sends : ∃ chunks, h.behaviour requests = (s.ahead h).after chunks ∧
    ResponseFlow.Promises chunks s.call.resp

/-- The handler has returned with the outcome of its behaviour. -/
structure Returned (h : RequestHandler) (requests : List Bytes) (s : ServedCall) : Prop where
  flow : ScriptedFlow.Inv (h.behaviour requests) ⟨[], s.call.resp⟩
  outcome : ∀ result, s.handler = .returning result →
    (h.behaviour requests).outcome = .returned result

structure Determined (h : RequestHandler) (requests : List Bytes) (s : ServedCall) : Prop where
  planned : s.call.req.Planned s.todo
  running : s.handler.Serving → Running h requests s
  returned : ¬ s.handler.Serving → Returned h requests s

variable {requests : List Bytes}

theorem fits_sent (hb : ResponseFlow.Fits (h.behaviour requests)) {b : Behaviour}
    {chunks : List Bytes} (hsame : h.behaviour requests = b.after chunks) :
    ∀ c ∈ chunks, BodyFits (itemFrame (.ok c)) := by
  intro c hc
  apply hb.items
  rw [hsame]
  exact List.mem_append_left _ (List.mem_map_of_mem hc)

/-- The handler goes on, or returns, with its behaviour ahead of it. -/
theorem determined_of_ahead (hb : ResponseFlow.Fits (h.behaviour requests))
    (hplanned : s.call.req.Planned s.todo) (hkept : s.call.req.leg.dropped = false)
    (hreads : s.call.req.leg.got ++ s.toRead = RequestHandler.received requests)
    (chunks : List Bytes) (hsame : h.behaviour requests = (s.ahead h).after chunks)
    (hpromises : ResponseFlow.Promises chunks s.call.resp) : Determined h requests s := by
  refine ⟨hplanned, fun _ => ⟨hkept, hreads, chunks, hsame, hpromises⟩, fun hreturns => ?_⟩
  have hnil : (s.ahead h).items = [] := HandlerTurn.ahead_items_of_not_serving hreturns _
  refine ⟨?_, ?_⟩
  · have hfits := hb
    rw [hsame] at hfits ⊢
    have := hpromises _ hfits
    rwa [hnil] at this
  · intro result hresult
    rw [hsame, ahead, hresult]
    rfl

theorem Determined.flow (hb : ResponseFlow.Fits (h.behaviour requests))
    (hd : Determined h requests s) :
    ScriptedFlow.Inv (h.behaviour requests) (s.scripted h) := by
  by_cases hserving : s.handler.Serving
  · obtain ⟨-, -, chunks, hsame, hpromises⟩ := hd.running hserving
    have hfits := hb
    rw [hsame] at hfits ⊢
    exact hpromises _ hfits
  · have hnil : (s.ahead h).items = [] := HandlerTurn.ahead_items_of_not_serving hserving _
    have := (hd.returned hserving).flow
    rwa [← hnil] at this

/-! ### Every step keeps it -/

/-- The cost of what is left of the request direction. -/
def requestWeight (s : ServedCall) : ℕ := s.call.req.weight s.todo + 3 * s.todo.length

theorem planned_sendFails (hp : s.call.req.Planned s.todo) {chunk : Bytes} {todo : List Bytes}
    (htodo : s.todo = chunk :: todo) (hout : s.call.req.out = .done) :
    s.call.req.Planned todo ∧ requestWeight { s with todo := todo } < s.requestWeight := by
  refine ⟨⟨hp.base, fun hdropped => ?_, hp.ending⟩, ?_⟩
  · have := hp.dropped hdropped
    rw [htodo] at this
    cases this
  · simp only [requestWeight, RequestFlow.weight, RequestFlow.toWrite_done hout, htodo,
      List.length_cons]
    omega

theorem planned_callerSend (hp : s.call.req.Planned s.todo) {chunk : Bytes} {todo : List Bytes}
    {f : RequestFlow} (htodo : s.todo = chunk :: todo)
    (hf : s.call.req.step up (.callerSend chunk) = some f) : f.Planned todo ∧
      f.leg = s.call.req.leg ∧ f.toWrite todo = s.call.req.toWrite s.todo ∧
      requestWeight ⟨todo, s.handler, ⟨f, s.call.resp⟩⟩ < s.requestWeight := by
  rw [htodo] at hp
  obtain ⟨hplanned, hleg, hwrite, hweight⟩ := hp.send hf
  refine ⟨hplanned, hleg, hwrite.trans (by rw [htodo]), ?_⟩
  simp only [requestWeight, hweight, htodo, List.length_cons]
  omega

theorem planned_callerDrop (hp : s.call.req.Planned s.todo) {f : RequestFlow} (htodo : s.todo = [])
    (hf : s.call.req.step up .callerDrop = some f) : f.Planned s.todo ∧
      f.leg = s.call.req.leg ∧ f.toWrite s.todo = s.call.req.toWrite s.todo ∧
      requestWeight ⟨s.todo, s.handler, ⟨f, s.call.resp⟩⟩ < s.requestWeight := by
  rw [htodo] at hp
  obtain ⟨hplanned, hleg, hwrite, hweight⟩ := hp.drop hf
  unfold requestWeight
  rw [htodo]
  exact ⟨hplanned, hleg, hwrite, by simpa using hweight⟩

theorem requestWeight_lt (hp : s.call.req.Planned s.todo) {a : RequestAct} {f : RequestFlow}
    (hf : s.call.req.step up a = some f) (hsend : ∀ c, a ≠ .callerSend c) (hdrop : a ≠ .callerDrop)
    (hfresh : s.call.req.Fresh a) (t : HandlerTurn) :
    requestWeight ⟨s.todo, t, ⟨f, s.call.resp⟩⟩ < s.requestWeight := by
  have := hp.weight_step hf hsend hdrop hfresh
  unfold requestWeight
  dsimp only
  omega

/-- A step of the call is one of the scripted flow, or leaves it as it is and brings the request
direction on. -/
def Follows (down : ℕ) (h : RequestHandler) (requests : List Bytes) (s s' : ServedCall) : Prop :=
  (s'.scripted h = s.scripted h ∧ s'.requestWeight < s.requestWeight) ∨
    s'.requestWeight = s.requestWeight ∧ ∃ a,
      ScriptedFlow.step down (h.behaviour requests) a (s.scripted h) = some (s'.scripted h)

/-- A step of the caller or of the request direction: it matters only while the handler runs. -/
theorem Determined.req_step (hd : Determined h requests s) {todo : List Bytes} {f : RequestFlow}
    (hplanned : f.Planned todo) (hsame : s.handler.Serving →
      f.leg.dropped = s.call.req.leg.dropped ∧ f.leg.got = s.call.req.leg.got ∧
        f.leg.outlook pumpInboundRequests (f.toWrite todo) =
          s.call.req.leg.outlook pumpInboundRequests (s.call.req.toWrite s.todo)) :
    Determined h requests ⟨todo, s.handler, ⟨f, s.call.resp⟩⟩ ∧
      scripted h ⟨todo, s.handler, ⟨f, s.call.resp⟩⟩ = s.scripted h := by
  by_cases hserving : s.handler.Serving
  · obtain ⟨hkept, hreads, chunks, hb, hpromises⟩ := hd.running hserving
    obtain ⟨hdropped, hgot, houtlook⟩ := hsame hserving
    have hread : toRead ⟨todo, s.handler, ⟨f, s.call.resp⟩⟩ = s.toRead := by
      have hall : f.leg.got ++ toRead ⟨todo, s.handler, ⟨f, s.call.resp⟩⟩ =
          s.call.req.leg.got ++ s.toRead := houtlook
      rw [hgot] at hall
      exact List.append_cancel_left hall
    have hahead : ahead h ⟨todo, s.handler, ⟨f, s.call.resp⟩⟩ = s.ahead h := by
      unfold ahead
      rw [hread]
      exact congrArg (fun got => s.handler.ahead (h.transcript got s.toRead)) hgot
    refine ⟨⟨hplanned, fun _ => ⟨hdropped.trans hkept, ?_, chunks, ?_, hpromises⟩,
      fun hnot => absurd hserving hnot⟩, ?_⟩
    · exact houtlook.trans hreads
    · rw [hahead]
      exact hb
    · unfold scripted
      rw [hahead]
  · refine ⟨⟨hplanned, fun hserves => absurd hserves hserving, fun _ => ?_⟩, ?_⟩
    · obtain ⟨hflow, houtcome⟩ := hd.returned hserving
      exact ⟨hflow, houtcome⟩
    · have hnil : ∀ b, (s.handler.ahead b).items = [] :=
        HandlerTurn.ahead_items_of_not_serving hserving
      simp only [scripted, ahead, hnil]

theorem Determined.handler_reads (hb : ResponseFlow.Fits (h.behaviour requests))
    (hd : Determined h requests s) (hh : s.handler = .reading) {t : HandlerTurn} {f : RequestFlow}
    (hplanned : f.Planned s.todo) (hkept : f.leg.dropped = s.call.req.leg.dropped)
    (houtlook : f.leg.outlook pumpInboundRequests (f.toWrite s.todo) =
      s.call.req.leg.outlook pumpInboundRequests (s.call.req.toWrite s.todo))
    (hahead : ahead h ⟨s.todo, t, ⟨f, s.call.resp⟩⟩ = s.ahead h) :
    Determined h requests ⟨s.todo, t, ⟨f, s.call.resp⟩⟩ ∧
      scripted h ⟨s.todo, t, ⟨f, s.call.resp⟩⟩ = s.scripted h := by
  obtain ⟨hopen, hreads, chunks, hsame, hpromises⟩ := hd.running (by rw [hh]; trivial)
  refine ⟨determined_of_ahead hb hplanned (hkept.trans hopen) (houtlook.trans hreads)
    chunks ?_ hpromises, ?_⟩
  · rw [hahead]
    exact hsame
  · unfold scripted
    rw [hahead]

/-- What the handler makes of an item it takes is what was ahead of it. -/
theorem ahead_take (hh : s.handler = .reading) {f : RequestFlow}
    (hs : s.call.req.step up (.leg .take) = some f) :
    ahead h ⟨s.todo, .goOn (h.replies f.leg.got) (h.leaves f.leg.got), ⟨f, s.call.resp⟩⟩ =
      s.ahead h := by
  obtain ⟨l, hl, rfl⟩ := RequestFlow.step_leg_iff.mp hs
  obtain ⟨item, queue, hq, rfl⟩ := Leg.step_take_iff.mp hl
  have hread : s.toRead = item :: toRead ⟨s.todo, s.handler, ⟨{ s.call.req with leg :=
      { s.call.req.leg with queue := queue, got := s.call.req.leg.got ++ [item] } },
      s.call.resp⟩⟩ := by
    simp only [toRead, hq, List.cons_append]
    rfl
  simp only [ahead, HandlerTurn.ahead_goOn, hh, hread]
  rfl

theorem ahead_takeNone (hh : s.handler = .reading) {f : RequestFlow}
    (hs : s.call.req.step up (.leg .takeNone) = some f) :
    ahead h ⟨s.todo, .returning (.ok ()), ⟨f, s.call.resp⟩⟩ = s.ahead h := by
  obtain ⟨l, hl, rfl⟩ := RequestFlow.step_leg_iff.mp hs
  obtain ⟨hq, hp, -, -, rfl⟩ := Leg.step_takeNone_iff.mp hl
  have hread : s.toRead = [] := by
    simp only [toRead, hq, hp, Pump.upstream, List.append_nil]
  simp only [ahead, hh, hread]
  rfl

/-- While the handler runs no task of the request direction is aborted. -/
theorem Determined.no_abort (hb : ResponseFlow.Fits (h.behaviour requests))
    (hd : Determined h requests s) (hserving : s.handler.Serving) {a : RequestAct}
    (hmay : s.call.MayAbort a) : a ≠ .abort ∧ a ≠ .leg .abort := by
  obtain ⟨-, -, chunks, hsame, hpromises⟩ := hd.running hserving
  obtain ⟨hreceiving, hpump⟩ := hpromises.running (fits_sent hb hsame)
  constructor
  · rintro rfl
    exact hpump hmay
  · rintro rfl
    rcases hmay with ht | ht
    · rw [ht] at hreceiving
      exact hreceiving
    · rw [ht] at hreceiving
      exact hreceiving

theorem Determined.task_req (hb : ResponseFlow.Fits (h.behaviour requests))
    (hd : Determined h requests s) {a : RequestAct} {f : RequestFlow}
    (hacts : s.call.Acts (.req a) = true) (hmay : s.call.MayAbort a)
    (hf : s.call.req.step up a = some f) :
    Determined h requests ⟨s.todo, s.handler, ⟨f, s.call.resp⟩⟩ ∧
      Follows down h requests s ⟨s.todo, s.handler, ⟨f, s.call.resp⟩⟩ := by
  obtain ⟨hsend, hdrop, hdropRequests, htake, htakeNone, hfresh⟩ := acts_req hacts
  have hlt := requestWeight_lt hd.planned hf hsend hdrop hfresh s.handler
  have hplanned := hd.planned.step hf hsend hdrop
  obtain ⟨hd', hsame⟩ := hd.req_step hplanned fun hserving => by
    obtain ⟨habort, hleg⟩ := hd.no_abort hb hserving hmay
    have hkeeps : ∀ b, a = .leg b → ¬ Leg.Loses b := by
      rintro b rfl hloses
      cases b with
      | dropReceiver => exact hdropRequests rfl
      | abort => exact hleg rfl
      | _ => exact hloses
    have houtlook := hd.planned.outlook_step hf hsend hdrop habort hkeeps
      (hd.running hserving).kept
    obtain ⟨hdropped, hgot, -⟩ | ⟨b, l, rfl, hl, rfl⟩ :=
      RequestFlow.step_leg_eq_or hd.planned.base hf
    · exact ⟨hdropped, hgot, houtlook⟩
    · have hb' : b ≠ .dropReceiver := fun hb' => hdropRequests (congrArg RequestAct.leg hb')
      have ht : b ≠ .take := fun ht => htake (congrArg RequestAct.leg ht)
      exact ⟨Leg.step_dropped hl hb', Leg.step_got_of_ne hl ht, houtlook⟩
  exact ⟨hd', .inl ⟨hsame, hlt⟩⟩

theorem Determined.task_resp (hc : streamingErrorCodec.RoundTrips)
    (hb : ResponseFlow.Fits (h.behaviour requests)) (hd : Determined h requests s)
    {a : ResponseAct} {f : ResponseFlow} (hacts : s.call.Acts (.resp a) = true)
    (hf : s.call.resp.step down a = some f) :
    Determined h requests ⟨s.todo, s.handler, ⟨s.call.req, f⟩⟩ ∧
      Follows down h requests s ⟨s.todo, s.handler, ⟨s.call.req, f⟩⟩ := by
  have hinner := acts_resp hacts
  refine ⟨⟨hd.planned, fun hserving => ?_, fun hreturns => ?_⟩, .inr ⟨rfl, .flow a, ?_⟩⟩
  · obtain ⟨hkept, hreads, chunks, hsame, hpromises⟩ := hd.running hserving
    exact ⟨hkept, hreads, chunks, hsame, hpromises.step hc hinner hf⟩
  · obtain ⟨hflow, houtcome⟩ := hd.returned hreturns
    exact ⟨hflow.step hc hb (ScriptedFlow.step_flow (s := ⟨[], s.call.resp⟩) hinner hf), houtcome⟩
  · exact ScriptedFlow.step_flow (s := s.scripted h) hinner hf

theorem Determined.send (hc : streamingErrorCodec.RoundTrips)
    (hb : ResponseFlow.Fits (h.behaviour requests)) (hd : Determined h requests s) {chunk : Bytes}
    {left : List Bytes} {next : Option (RpcResult Unit)} {f : ResponseFlow}
    (hh : s.handler = .sending chunk left next)
    (hf : s.call.resp.step down (.handlerSend (.ok chunk)) = some f) :
    Determined h requests ⟨s.todo, .goOn left next, ⟨s.call.req, f⟩⟩ ∧
      Follows down h requests s ⟨s.todo, .goOn left next, ⟨s.call.req, f⟩⟩ := by
  have hahead : s.ahead h =
      (ahead h ⟨s.todo, .goOn left next, ⟨s.call.req, f⟩⟩).after [chunk] := by
    simp only [ahead, hh, HandlerTurn.ahead_goOn, Behaviour.after_append, List.singleton_append]
    rfl
  obtain ⟨hkept, hreads, chunks, hsame, hpromises⟩ := hd.running (by rw [hh]; trivial)
  refine ⟨determined_of_ahead hb hd.planned hkept hreads (chunks ++ [chunk]) ?_
    (hpromises.send hc hf), .inr ⟨rfl, .handlerSend, ?_⟩⟩
  · rw [hsame, hahead, Behaviour.after_append]
  · simp only [scripted, hahead, Behaviour.after, List.map_cons, List.map_nil, List.cons_append,
      List.nil_append, ScriptedFlow.step, hf, Option.map_some]

theorem Determined.drop_responses (hc : streamingErrorCodec.RoundTrips)
    (hb : ResponseFlow.Fits (h.behaviour requests)) (hd : Determined h requests s)
    {result : RpcResult Unit} {f : ResponseFlow} (hh : s.handler = .returning result)
    (hf : s.call.resp.step down .handlerDrop = some f) :
    Determined h requests ⟨s.todo, s.handler, ⟨s.call.req, f⟩⟩ ∧
      Follows down h requests s ⟨s.todo, s.handler, ⟨s.call.req, f⟩⟩ := by
  have hreturns : ¬ s.handler.Serving := by
    rw [hh]
    exact id
  obtain ⟨hflow, houtcome⟩ := hd.returned hreturns
  have hstep : ScriptedFlow.step down (h.behaviour requests) .handlerDrop ⟨[], s.call.resp⟩ =
      some ⟨[], f⟩ := by
    simp only [ScriptedFlow.step, if_true, hf, Option.map_some]
  refine ⟨⟨hd.planned, fun hserves => absurd hserves hreturns, fun _ =>
    ⟨hflow.step hc hb hstep, houtcome⟩⟩, .inr ⟨rfl, .handlerDrop, ?_⟩⟩
  simp only [scripted, ahead, hh]
  exact hstep

theorem Determined.ended (hc : streamingErrorCodec.RoundTrips)
    (hb : ResponseFlow.Fits (h.behaviour requests)) (hd : Determined h requests s)
    {result : RpcResult Unit} {f : ResponseFlow} (hh : s.handler = .returning result)
    (hf : s.call.resp.step down (.handlerEnd (.returned result)) = some f) :
    Determined h requests ⟨s.todo, .ended, ⟨s.call.req, f⟩⟩ ∧
      Follows down h requests s ⟨s.todo, .ended, ⟨s.call.req, f⟩⟩ := by
  obtain ⟨hflow, houtcome⟩ := hd.returned (by rw [hh]; exact id)
  have hstep : ScriptedFlow.step down (h.behaviour requests) .handlerEnd ⟨[], s.call.resp⟩ =
      some ⟨[], f⟩ := by
    simp only [ScriptedFlow.step, houtcome result hh, hf, Option.map_some]
  refine ⟨⟨hd.planned, fun hserves => hserves.elim, fun _ =>
    ⟨hflow.step hc hb hstep, ?_⟩⟩, .inr ⟨rfl, .handlerEnd, ?_⟩⟩
  · rintro result' ⟨⟩
  simp only [scripted, ahead, hh]
  exact hstep

/-- **The call follows its scripted flow**: whatever the interleaving, every step keeps what the
chunks and the handler determine, and is a step of the scripted flow or none of its concern. -/
theorem Determined.step (hc : streamingErrorCodec.RoundTrips)
    (hb : ResponseFlow.Fits (h.behaviour requests)) (hd : Determined h requests s)
    {a : ServedAct} (hs : Moved up down h s a s') :
    Determined h requests s' ∧ Follows down h requests s s' := by
  cases hs with
  | sendFails htodo hout =>
      obtain ⟨hplanned, hlt⟩ := planned_sendFails hd.planned htodo hout
      obtain ⟨hd', hsame⟩ := hd.req_step hplanned fun _ =>
        ⟨rfl, rfl, by rw [RequestFlow.toWrite_done hout, RequestFlow.toWrite_done hout]⟩
      exact ⟨hd', .inl ⟨hsame, hlt⟩⟩
  | callerSend htodo hf =>
      obtain ⟨hplanned, hleg, hwrite, hlt⟩ := planned_callerSend hd.planned htodo hf
      obtain ⟨hd', hsame⟩ := hd.req_step hplanned fun _ =>
        ⟨by rw [hleg], by rw [hleg], by rw [hleg, hwrite]⟩
      exact ⟨hd', .inl ⟨hsame, hlt⟩⟩
  | callerDrop htodo hf =>
      obtain ⟨hplanned, hleg, hwrite, hlt⟩ := planned_callerDrop hd.planned htodo hf
      obtain ⟨hd', hsame⟩ := hd.req_step hplanned fun _ =>
        ⟨by rw [hleg], by rw [hleg], by rw [hleg, hwrite]⟩
      exact ⟨hd', .inl ⟨hsame, hlt⟩⟩
  | take hh hf =>
      have hkept := (hd.running (by rw [hh]; trivial)).kept
      have houtlook := hd.planned.outlook_step hf nofun nofun nofun
        (by rintro b ⟨⟩; exact id) hkept
      obtain ⟨l, hl, rfl⟩ := RequestFlow.step_leg_iff.mp hf
      obtain ⟨hd', hsame⟩ := hd.handler_reads hb hh (hd.planned.step hf nofun nofun)
        (Leg.step_dropped hl nofun) houtlook (ahead_take hh hf)
      exact ⟨hd', .inl ⟨hsame, requestWeight_lt hd.planned hf nofun nofun trivial _⟩⟩
  | takeNone hh hf =>
      have hkept := (hd.running (by rw [hh]; trivial)).kept
      have houtlook := hd.planned.outlook_step hf nofun nofun nofun
        (by rintro b ⟨⟩; exact id) hkept
      obtain ⟨l, hl, rfl⟩ := RequestFlow.step_leg_iff.mp hf
      obtain ⟨hd', hsame⟩ := hd.handler_reads hb hh (hd.planned.step hf nofun nofun)
        (Leg.step_dropped hl nofun) houtlook (ahead_takeNone hh hf)
      exact ⟨hd', .inl ⟨hsame, requestWeight_lt hd.planned hf nofun nofun trivial _⟩⟩
  | breaks hh hgone =>
      obtain ⟨-, -, chunks, hsame, hpromises⟩ := hd.running (by rw [hh]; trivial)
      exact absurd (hpromises.running (fits_sent hb hsame)).1 hgone
  | send hh hf => exact hd.send hc hb hh hf
  | dropRequests hh hf =>
      have hreturns : ¬ s.handler.Serving := by
        rw [hh]
        exact id
      obtain ⟨hd', hsame⟩ := hd.req_step (hd.planned.step hf nofun nofun)
        fun hserves => absurd hserves hreturns
      exact ⟨hd', .inl ⟨hsame, requestWeight_lt hd.planned hf nofun nofun trivial _⟩⟩
  | dropResponses hh hf => exact hd.drop_responses hc hb hh hf
  | ended hh _ hf => exact hd.ended hc hb hh hf
  | req hacts hmay hf => exact hd.task_req hb hacts hmay hf
  | resp hacts hf => exact hd.task_resp hc hb hacts hf

theorem determined_start (hc : streamingErrorCodec.RoundTrips) (h : RequestHandler)
    (requests : List Bytes) : Determined h requests (start requests) := by
  have hread : (start requests).toRead = RequestHandler.received requests := rfl
  refine ⟨RequestFlow.planned_start requests, fun _ => ⟨rfl, rfl, [], ?_, ?_⟩,
    fun hreturns => absurd trivial hreturns⟩
  · unfold ahead
    rw [hread]
    rfl
  · exact ResponseFlow.promises_start hc

theorem determined_of_run (hc : streamingErrorCodec.RoundTrips)
    (hb : ResponseFlow.Fits (h.behaviour requests)) {as : List ServedAct}
    (hrun : run (ServedCall.step up down h) as (start requests) = some s) :
    Determined h requests s :=
  (runs_any_iff.mpr hrun).invariant
    (fun _ _ _ _ hd hs => (hd.step hc hb (moved_of_step hs)).1) (determined_start hc h requests)

/-- What the caller has read is the front of what the handler makes of the requests. -/
theorem Determined.responses (hb : ResponseFlow.Fits (h.behaviour requests))
    (hd : Determined h requests s) :
    s.call.resp.leg.got <+: ResponseFlow.responses (h.behaviour requests) ∧
      (s.call.resp.leg.ended = true →
        s.call.resp.leg.got = ResponseFlow.responses (h.behaviour requests)) := by
  have hflow := hd.flow hb
  refine ⟨?_, fun hend => ?_⟩
  · rw [← hflow.outlook]
    exact Leg.got_prefix_outlook _ _
  · obtain ⟨hp, hq⟩ := hflow.tidy.ended hend
    have hq' : s.call.resp.leg.queue = [] := hq
    rw [← hflow.outlook, Leg.outlook_done hp]
    exact (by rw [scripted, hq', List.append_nil])

/-- **A call whose caller reads while it writes is determinate**: the scheduling, the fragments of
the transport, its capacity, the aborts and the writes that fail make no difference to what the
caller reads.  In every state it is the front of what the handler makes of the requests, and all of
it once the caller has seen the end. -/
theorem call_determinate (hc : streamingErrorCodec.RoundTrips)
    (hb : ResponseFlow.Fits (h.behaviour requests)) {as : List ServedAct}
    (hrun : run (ServedCall.step up down h) as (start requests) = some s) :
    s.call.resp.leg.got <+: ResponseFlow.responses (h.behaviour requests) ∧
      (s.call.resp.leg.ended = true →
        s.call.resp.leg.got = ResponseFlow.responses (h.behaviour requests)) :=
  (determined_of_run hc hb hrun).responses hb

/-! ### Every run is finite -/

/-- What is left of the call. -/
def weight (h : RequestHandler) (requests : List Bytes) (s : ServedCall) : ℕ :=
  s.requestWeight + ScriptedFlow.weight (h.behaviour requests) (s.scripted h)

theorem Follows.weight_lt (hc : streamingErrorCodec.RoundTrips)
    (hb : ResponseFlow.Fits (h.behaviour requests)) (hd : Determined h requests s)
    (hf : Follows down h requests s s') : weight h requests s' < weight h requests s := by
  unfold weight
  obtain ⟨hsame, hlt⟩ | ⟨hsame, a, hs⟩ := hf
  · rw [hsame]
    omega
  · have := ScriptedFlow.weight_step hc hb (hd.flow hb) hs
    omega

/-- **Every schedule comes to an end**: no run, with its aborts and failing writes, is longer than
the chunks and the handler allow. -/
theorem call_terminates (hc : streamingErrorCodec.RoundTrips)
    (hb : ResponseFlow.Fits (h.behaviour requests)) {as : List ServedAct}
    (hrun : run (ServedCall.step up down h) as (start requests) = some s) :
    as.length ≤ weight h requests (start requests) := by
  have hlength : as.length + weight h requests s ≤ weight h requests (start requests) := by
    refine (runs_any_iff.mpr hrun).length_add_le ?_ ?_ (determined_start hc h requests)
    · intro a s s' _ hd hs
      exact (hd.step hc hb (moved_of_step hs)).1
    · intro a s s' _ hd hs
      exact Follows.weight_lt hc hb hd (hd.step hc hb (moved_of_step hs)).2
  omega

end steps

section reference

attribute [local instance] reference

/-- One chunk and back, and the end of both directions. -/
def wholeEchoRun : List ServedAct :=
  echoRun ++ [.task (.req .recv), .task (.req (.write 1)), .task (.req (.leg (.deliver 1))),
    .task (.req (.leg .read)), .handlerNone, .handlerDropResponses, .handlerDropRequests,
    .handlerEnd, .task (.resp .recv), .task (.resp .join), .task (.resp (.write 1)),
    .task (.resp .finish), .task (.resp (.leg (.deliver 1))), .task (.resp (.leg .read)),
    .task (.resp (.leg .takeNone))]

/-- What it leaves. -/
def echoed : ServedCall :=
  ⟨[], .ended,
    ⟨⟨[[1]], true, [], .done, ⟨[], true, ⟨[], .live⟩, .done, [], [.ok [1]], true, true⟩⟩,
      ⟨[], true, some (.returned (.ok ())), .done,
        ⟨[], true, ⟨[], .live⟩, .done, [], [.ok [1]], false, true⟩⟩⟩⟩

theorem run_wholeEcho : run (step 3 3 echoHandler) wholeEchoRun (start [[1]]) = some echoed := by
  decide +kernel

theorem behaviour_echo : echoHandler.behaviour [[1]] = ⟨[.ok [1]], .returned (.ok ())⟩ := by
  unfold RequestHandler.behaviour
  rw [RequestHandler.received_eq (by decide)]
  rfl

theorem fits_echo : ResponseFlow.Fits (echoHandler.behaviour [[1]]) := by
  rw [behaviour_echo]
  refine ⟨fun item hi => ?_, trivial⟩
  obtain rfl : item = .ok [1] := by simpa using hi
  exact show 1 ≤ maxStreamingPayloadLen by decide

theorem call_determinate_echo : echoed.call.resp.leg.got = [.ok [1]] := by
  have hall := (call_determinate (ofCodec_roundTrips StreamingError.postcard) fits_echo
    run_wholeEcho).2 rfl
  rw [hall, behaviour_echo]
  rfl

theorem call_terminates_echo :
    wholeEchoRun.length ≤ weight echoHandler [[1]] (start [[1]]) :=
  call_terminates (ofCodec_roundTrips StreamingError.postcard) fits_echo run_wholeEcho

end reference

end ServedCall

end NerwRpc
