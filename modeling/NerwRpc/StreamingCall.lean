import NerwRpc.RequestFlow
import NerwRpc.ResponseFlow

/-! # Both directions of a streaming call

The client aborts `pump_outbound_requests` when `pump_inbound_responses` has returned, and the
server aborts `pump_inbound_requests` when the closing frame has been written.  Either cuts the
request direction where it stands, and a bare end of stream reaches the handler as `None`.

* `Integral.step`: a handler that sees `None` and no error has everything that was sent, as long
  as no abort loses a chunk unseen.
* `requests_endOfStream`: the same of every run; `requests_cutShort` is a run in which the
  client's abort loses a chunk. -/

namespace NerwRpc

open ByteStream FramePump Transition

namespace RequestFlow

/-- The handler has seen an error, or everything, behind a dropped sender. -/
def Delivered (s : RequestFlow) : Prop :=
  (∃ e, .error e ∈ s.leg.got) ∨ s.senderDropped = true ∧ s.leg.got = s.sent.map .ok

/-- Aborting the outbound pump is not a clean end of stream to the handler, or nothing that the
caller has sent or can send is lost: the pump has returned, the inbound pump has, the handler has
dropped its stream or is to see an error; the bytes on the wire are not whole chunk frames; or the
sender is dropped and its last chunk is on the wire. -/
def AbortSafe (s : RequestFlow) : Prop :=
  s.out = .done ∨ s.leg.pump = .done ∨ s.leg.dropped = true ∨
    (∃ e, .error e ∈ s.leg.got ++ (s.leg.queue ++ inHeld s.leg.pump)) ∨
    (∀ ws : List Bytes, (∀ c ∈ ws, c.length ≤ maxStreamingPayloadLen) →
      s.leg.recv.buf ++ s.leg.inflight ≠ chunkFrames ws) ∨
    s.senderDropped = true ∧ s.queue = [] ∧ (s.out = .recv ∨ s.out = .ending)

/-- The same of aborting the inbound pump. -/
def LegAbortSafe (s : RequestFlow) : Prop :=
  s.leg.pump = .done ∨ s.leg.dropped = true ∨ (∃ e, .error e ∈ s.leg.got ++ s.leg.queue) ∨
    s.senderDropped = true ∧ s.leg.got ++ s.leg.queue = s.sent.map .ok

/-- An abort is safe where it happens. -/
def SafeAct : RequestAct → RequestFlow → Prop
  | .abort, s => s.AbortSafe
  | .leg .abort, s => s.LegAbortSafe
  | _, _ => True

structure Integral [Deps] (s : RequestFlow) : Prop where
  base : Base s
  running : s.leg.dropped = false → (∃ wire part, Stages s wire part) ∨ Fixed s ∧ Honest s
  ended : s.leg.ended = true → Delivered s

variable {s s' : RequestFlow}

/-- While both pumps run, no error is on its way. -/
theorem Stages.no_error {wire : List Bytes} {part : Bytes} (h : Stages s wire part) (e : RpcError) :
    .error e ∉ s.leg.got ++ (s.leg.queue ++ inHeld s.leg.pump) := by
  intro he
  have : (.error e : RpcResult Bytes) ∈ s.sent.map .ok := by
    rw [h.items, ← List.append_assoc s.leg.queue, ← List.append_assoc]
    exact List.mem_append_left _ (by simpa [List.append_assoc] using he)
  simp at this

variable [Deps] {window : ℕ}

theorem Honest.stop (h : Honest s) : Honest s.stop := h

theorem Stages.honest_stop (hb : Base s) {wire : List Bytes} {part : Bytes}
    (h : Stages s wire part) (hd : s.leg.dropped = false) (hsafe : AbortSafe s) : Honest s := by
  obtain ⟨ws, rest, hws, ⟨hout, hfit, hbytes⟩ | ⟨e, hout⟩⟩ := h.cut hb
  · obtain ho | hp | hdrop | ⟨e, he⟩ | hcut | ⟨hdropped, hqueue, hidle⟩ := hsafe
    · exact absurd ho h.out_ne
    · exact absurd hp h.pump_ne
    · rw [hd] at hdrop
      cases hdrop
    · exact absurd he (h.no_error e)
    · exact absurd hbytes (hcut ws hfit)
    · have hidle' : outHeld s.out = [] ∧ part = [] := by
        have hpart := h.part
        rcases hidle with ho | ho <;> rw [ho] at hpart ⊢ <;> exact ⟨rfl, hpart⟩
      have hwire : chunkFrames (ws ++ rest) = chunkFrames ws := by
        rw [← hws, hidle'.1, List.append_nil, ← hbytes, h.bytes, hidle'.2, List.append_nil]
      obtain rfl : rest = [] := by
        rw [chunkFrames_append] at hwire
        have := List.append_cancel_left (hwire.trans (List.append_nil _).symm)
        cases rest with
        | nil => rfl
        | cons c rest => simp [chunkFrame] at this
      refine .inr ⟨hdropped, ?_⟩
      rw [hout, h.items, ← List.append_assoc wire, hws, hqueue]
      simp
  · exact .inl ⟨e, by rw [hout]; simp⟩

theorem Honest.leg_abort (hd : s.leg.dropped = false) (hsafe : LegAbortSafe s)
    (h : s.leg.pump = .done → Honest s) :
    Honest { s with leg := { s.leg with pump := .done } } := by
  have hout : ({ s.leg with pump := .done } : Leg (RpcResult Bytes)).outlook
      pumpInboundRequests [] = s.leg.got ++ s.leg.queue := Leg.outlook_done rfl []
  obtain hp | hdrop | ⟨e, he⟩ | ⟨hdropped, hall⟩ := hsafe
  · have hsame : ({ s.leg with pump := .done } : Leg (RpcResult Bytes)) = s.leg := by rw [← hp]
    rw [hsame]
    exact h hp
  · rw [hd] at hdrop
    cases hdrop
  · exact .inl ⟨e, hout ▸ he⟩
  · exact .inr ⟨hdropped, hout.trans hall⟩

theorem Honest.of_outlook (h : Honest s)
    (ho : s'.leg.outlook pumpInboundRequests [] = s.leg.outlook pumpInboundRequests [])
    (hdrop : s.senderDropped = true → s'.senderDropped = true ∧ s'.sent = s.sent) :
    Honest s' := by
  obtain ⟨e, he⟩ | ⟨hdropped, hall⟩ := h
  · exact .inl ⟨e, ho ▸ he⟩
  · obtain ⟨hd, hsent⟩ := hdrop hdropped
    exact .inr ⟨hd, by rw [ho, hsent, hall]⟩

theorem Integral.running_step (h : Integral s) {a : RequestAct} (hsafe : SafeAct a s)
    (hs : RequestFlow.step window a s = some s') (hd' : s'.leg.dropped = false)
    (hd : s.leg.dropped = false) :
    (∃ wire part, Stages s' wire part) ∨ Fixed s' ∧ Honest s' := by
  have hhistory := (step_history h.base hs).2
  obtain ⟨wire, part, hstages⟩ | ⟨hfixed, hhonest⟩ := h.running hd
  · obtain hdrop | hstages' | ⟨hf, -, hh⟩ | ⟨rfl, rfl⟩ | ⟨rfl, rfl⟩ := hstages.step h.base hs
    · rw [hd'] at hdrop
      cases hdrop
    · exact .inl hstages'
    · exact .inr ⟨hf, hh⟩
    · exact .inr ⟨.inl rfl, (hstages.honest_stop h.base hd hsafe).stop⟩
    · exact .inr ⟨.inr (.inl rfl), Honest.leg_abort hd hsafe fun hp => absurd hp hstages.pump_ne⟩
  · obtain hdrop | ⟨hf, ho | ⟨rfl, -⟩⟩ := hfixed.step h.base hs
    · rw [hd'] at hdrop
      cases hdrop
    · exact .inr ⟨hf, hhonest.of_outlook ho hhistory⟩
    · obtain ⟨l, hl, rfl⟩ := step_leg_iff.mp hs
      obtain rfl := Leg.step_abort_iff.mp hl
      exact .inr ⟨hf, Honest.leg_abort hd hsafe fun _ => hhonest⟩

/-- What has been delivered stays so once the handler has seen the end. -/
theorem Delivered.step (hb : Base s) (h : Delivered s) (he : s.leg.ended = true) {a : RequestAct}
    (hs : RequestFlow.step window a s = some s') : Delivered s' := by
  have hgot : s'.leg.got = s.leg.got := by
    obtain ⟨-, hgot, -⟩ | ⟨c, l, -, hl, rfl⟩ := step_leg_eq_or hb hs
    · exact hgot
    · exact (Leg.step_got_ended hb.tidy hl he).1
  obtain ⟨e, herr⟩ | ⟨hdropped, hall⟩ := h
  · exact .inl ⟨e, hgot ▸ herr⟩
  · obtain ⟨hd, hsent⟩ := (step_history hb hs).2 hdropped
    exact .inr ⟨hd, by rw [hgot, hsent, hall]⟩

/-- **Every step with safe aborts keeps the integrity of the stream.** -/
theorem Integral.step (h : Integral s) {a : RequestAct} (hsafe : SafeAct a s)
    (hs : RequestFlow.step window a s = some s') : Integral s' := by
  have hb' := h.base.step hs
  cases hd' : s'.leg.dropped with
  | true =>
      refine ⟨hb', fun hd => (Bool.false_ne_true (hd.symm.trans hd')).elim, fun he' => ?_⟩
      have he : s.leg.ended = true := by
        obtain ⟨-, -, he⟩ | ⟨c, l, rfl, hl, rfl⟩ := step_leg_eq_or h.base hs
        · rw [← he, he']
        · exact Leg.ended_of_dropped hl hd' he'
      exact (h.ended he).step h.base he hs
  | false =>
      have hd : s.leg.dropped = false := by
        obtain ⟨hd, -⟩ | ⟨c, l, -, hl, rfl⟩ := step_leg_eq_or h.base hs
        · rw [← hd, hd']
        · exact Leg.dropped_of_step hl hd'
      have hrun := h.running_step hsafe hs hd' hd
      refine ⟨hb', fun _ => hrun, fun he => ?_⟩
      obtain ⟨hp, hq⟩ := hb'.tidy.ended he
      obtain ⟨wire, part, hstages⟩ | ⟨-, hhonest⟩ := hrun
      · exact absurd hp hstages.pump_ne
      · rwa [Honest, Leg.outlook_done hp, hq, List.append_nil] at hhonest

theorem integral_start : Integral start :=
  ⟨base_start, fun _ => .inl ⟨[], [], stages_start⟩, nofun⟩

end RequestFlow

/-- Both directions; what the handler does with one does not constrain what it does with the
other. -/
structure StreamingCall where
  req : RequestFlow
  resp : ResponseFlow
deriving DecidableEq, Repr

inductive CallAct where
  | req (a : RequestAct)
  | resp (a : ResponseAct)
deriving DecidableEq, Repr

namespace StreamingCall

def start : StreamingCall := ⟨.start, .start⟩

/-- When a task of the request direction may be aborted: the outbound pump behind
`pump_inbound_responses`, the inbound pump behind the closing frame. -/
def MayAbort (s : StreamingCall) : RequestAct → Prop
  | .abort => s.resp.leg.pump = .done
  | .leg .abort => s.resp.task = .finishing ∨ s.resp.task = .done
  | _ => True

instance (s : StreamingCall) : DecidablePred s.MayAbort := fun a => by
  unfold MayAbort
  split <;> infer_instance

section steps

variable [Deps] (window : ℕ)

/-- `pump_inbound_responses` is never aborted. -/
def step : CallAct → StreamingCall → Option StreamingCall
  | .req a, s =>
      if s.MayAbort a then (s.req.step window a).map fun f => { s with req := f } else none
  | .resp (.leg .abort), _ => none
  | .resp a, s => (s.resp.step window a).map fun f => { s with resp := f }

/-- An abort is safe where it happens. -/
def SafeAct : CallAct → StreamingCall → Prop
  | .req a, s => s.req.SafeAct a
  | .resp _, _ => True

variable {window} {s s' : StreamingCall}

theorem step_req_iff {a : RequestAct} : step window (.req a) s = some s' ↔
    s.MayAbort a ∧ ∃ f, s.req.step window a = some f ∧ s' = { s with req := f } := by
  unfold step
  by_cases h : s.MayAbort a
  · simp [h, @eq_comm _ _ s']
  · simp [h]

theorem step_resp_iff {a : ResponseAct} : step window (.resp a) s = some s' ↔
    a ≠ .leg .abort ∧ ∃ f, s.resp.step window a = some f ∧ s' = { s with resp := f } := by
  by_cases h : a = .leg .abort
  · subst h
    simp [step]
  · have hstep : step window (.resp a) s =
        (s.resp.step window a).map fun f => { s with resp := f } := by
      unfold step
      split
      · cases ‹CallAct.resp a = _›
      · cases ‹CallAct.resp a = _›
        exact absurd rfl h
      · cases ‹CallAct.resp a = _›
        rfl
    rw [hstep]
    simp [h, @eq_comm _ _ s']

/-- A step of the call is one of its request direction, or does not touch it. -/
theorem step_req {a : CallAct} (h : step window a s = some s') (hsafe : SafeAct a s) :
    s'.req = s.req ∨ ∃ b, RequestFlow.SafeAct b s.req ∧ s.req.step window b = some s'.req := by
  cases a with
  | req b =>
      obtain ⟨-, f, hf, rfl⟩ := step_req_iff.mp h
      exact .inr ⟨b, hsafe, hf⟩
  | resp b =>
      obtain ⟨-, f, -, rfl⟩ := step_resp_iff.mp h
      exact .inl rfl

/-- **End-of-stream integrity**: in every run whose aborts are safe, a handler that has seen the
end of its requests has seen an error, or the sender is dropped and every chunk was delivered. -/
theorem requests_endOfStream {as : List CallAct} (h : Runs (step window) SafeAct as start s) :
    s.req.leg.ended = true → (∃ e, .error e ∈ s.req.leg.got) ∨
      s.req.senderDropped = true ∧ s.req.leg.got = s.req.sent.map .ok := by
  obtain ⟨bs, hbs⟩ := h.project StreamingCall.req fun a s s' hsafe hs => step_req hs hsafe
  exact (hbs.invariant (fun _ _ _ hsafe h hs => h.step hsafe hs) RequestFlow.integral_start).ended

end steps

section reference

attribute [local instance] reference

/-- One chunk and the end of the requests. -/
def uploadRun : List CallAct :=
  [.req (.callerSend [1]), .req .recv, .req (.write 2), .req .callerDrop, .req (.write 1),
    .req (.leg (.deliver 3)), .req (.leg .read), .req (.leg .send), .req .recv, .req (.write 1),
    .req (.leg .take), .req (.leg (.deliver 1)), .req (.leg .read), .req (.leg .takeNone)]

theorem requests_endOfStream_upload :
    ∃ s, run (step 64) uploadRun start = some s ∧
      ((∃ e, .error e ∈ s.req.leg.got) ∨
        s.req.senderDropped = true ∧ s.req.leg.got = s.req.sent.map .ok) := by
  obtain ⟨s, hs⟩ : ∃ s, run (step 64) uploadRun start = some s :=
    Option.isSome_iff_exists.mp (by decide +kernel)
  have hend : s.req.leg.ended = true := by
    have : (run (step 64) uploadRun start).map (fun s => s.req.leg.ended) = some true := by
      decide +kernel
    simpa [hs] using this
  have hsafe : ∀ a ∈ uploadRun, ∀ s, SafeAct a s := by
    simp [uploadRun, SafeAct, RequestFlow.SafeAct]
  exact ⟨s, hs, requests_endOfStream (runs_of_run hs hsafe) hend⟩

/-- The handler sends an error in band and goes on reading; the client's response pump returns
behind it and aborts the outbound pump, with a chunk in its channel. -/
def cutShortRun : List CallAct :=
  [.resp (.handlerSend (.error (.handler "x"))), .resp .recv, .resp (.write 20),
    .resp (.leg (.deliver 20)), .resp (.leg .read), .resp (.leg .send), .req (.callerSend [1]),
    .req .abort, .req (.leg .deliverFin), .req (.leg .read), .req (.leg .takeNone)]

/-- The handler sees a clean end although the sender is not dropped and a chunk is lost. -/
theorem requests_cutShort :
    ¬ ∀ (window : ℕ) (as : List CallAct) (s : StreamingCall),
      run (step window) as start = some s → s.req.leg.ended = true →
      (∀ e, .error e ∉ s.req.leg.got) →
      s.req.senderDropped = true ∧ s.req.leg.got = s.req.sent.map .ok := by
  intro h
  obtain ⟨s, hs⟩ : ∃ s, run (step 64) cutShortRun start = some s :=
    Option.isSome_iff_exists.mp (by decide +kernel)
  have hstate : (run (step 64) cutShortRun start).map (fun s =>
      (s.req.leg.ended, s.req.leg.got, s.req.senderDropped)) = some (true, [], false) := by
    decide +kernel
  simp only [hs, Option.map_some, Option.some.injEq, Prod.mk.injEq] at hstate
  obtain ⟨hend, hgot, hopen⟩ := hstate
  have := (h 64 cutShortRun s hs hend (by simp [hgot])).1
  rw [hopen] at this
  cases this

end reference

end StreamingCall

end NerwRpc
