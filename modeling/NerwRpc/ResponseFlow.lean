import NerwRpc.Server
import NerwRpc.StreamPumps
import NerwRpc.Transition
import NerwRpc.Reference

/-! # The response direction of a streaming call

The handler's task, its channel, the substream task on the server (`drain_handler_responses`,
the join, `finalise_streaming`) and, as a `Leg`, `pump_inbound_responses`, its channel and the
caller.

`ResponseFlow.step` leaves the handler free: what it sends and how it ends is up to the actions.
`ScriptedFlow` fixes them to one `Behaviour`, in any interleaving, with no task cancelled and a
caller that keeps its stream.

* `outlook_step`: what the caller will see is decided by the behaviour alone, in every state.
* `responses_exact`: every run is finite, does not get stuck before the caller has seen the end
  of the stream, and what it has seen then is exactly what the behaviour says. -/

namespace NerwRpc

open ByteStream FramePump Transition

/-- The substream task: it waits for a response, has bytes of a frame left to write, waits for
the handler's task, has bytes of the closing frame left to write, or is about to finish its
half. -/
inductive ServerTask where
  | draining
  | writing (terminal : Bool) (left : Bytes)
  | joining (wroteTerminal : Bool)
  | closing (left : Bytes)
  | finishing
  | done
deriving DecidableEq, Repr

structure ResponseFlow where
  queue : List (RpcResult Bytes)
  sendersDropped : Bool
  outcome : Option Outcome
  task : ServerTask
  leg : Leg (RpcResult Bytes)
deriving DecidableEq, Repr

inductive ResponseAct where
  | handlerSend (item : RpcResult Bytes)
  | handlerDrop
  | handlerEnd (outcome : Outcome)
  | recv
  | write (n : ℕ)
  | writeFails
  | join
  | finish
  | leg (a : LegAct)
deriving DecidableEq, Repr

namespace ResponseFlow

def start : ResponseFlow := ⟨[], false, none, .draining, Leg.start⟩

/-- The substream task still has its end of the handler's channel. -/
def Receiving : ServerTask → Prop
  | .draining | .writing _ _ => True
  | _ => False

instance : DecidablePred Receiving := fun t => by
  cases t <;> unfold Receiving <;> infer_instance

/-- `drain_handler_responses` returns `true`, and its channel is closed. -/
def drained (s : ResponseFlow) : ResponseFlow := { s with queue := [], task := .joining true }

variable [Deps]

/-- A response item has been written. -/
def wrote (terminal : Bool) (s : ResponseFlow) : ResponseFlow :=
  if terminal then s.drained else { s with task := .draining }

variable (window : ℕ)

/-- The transport takes `n` bytes of the buffer in writing; `write_all` returns when it has
taken the last one. -/
def write (n : ℕ) (s : ResponseFlow) : Option ResponseFlow :=
  match s.task with
  | .writing terminal left =>
      if 0 < n ∧ n ≤ left.length ∧ s.leg.inflight.length + n ≤ window then
        some (if left.drop n = [] then wrote terminal { s with leg := s.leg.push (left.take n) }
          else { s with task := .writing terminal (left.drop n), leg := s.leg.push (left.take n) })
      else none
  | .closing left =>
      if 0 < n ∧ n ≤ left.length ∧ s.leg.inflight.length + n ≤ window then
        some { s with task := if left.drop n = [] then .finishing else .closing (left.drop n)
                      leg := s.leg.push (left.take n) }
      else none
  | _ => none

/-- One action; `none` when it is not possible.  A send into a closed channel fails and changes
nothing; a write fails only once the peer's reader is gone. -/
def step : ResponseAct → ResponseFlow → Option ResponseFlow
  | .handlerSend item, s =>
      if s.sendersDropped = true then none
      else if ¬ Receiving s.task then some s
      else if s.queue.length < channelCapacity then some { s with queue := s.queue ++ [item] }
      else none
  | .handlerDrop, s =>
      if s.sendersDropped = false then some { s with sendersDropped := true } else none
  | .handlerEnd outcome, s =>
      if s.outcome = none then some { s with outcome := some outcome } else none
  | .recv, s => match s.task, s.queue with
    | .draining, item :: queue => match frameBytes (itemFrame item) with
      | .ok buf => some { s with queue := queue, task := .writing (isTerminal item) buf }
      | .error _ => some s.drained
    | .draining, [] =>
        if s.sendersDropped = true then some { s with task := .joining false } else none
    | _, _ => none
  | .write n, s => s.write window n
  | .writeFails, s => match s.task with
    | .writing _ _ => if s.leg.pump = .done then some s.drained else none
    | .closing _ => if s.leg.pump = .done then some { s with task := .finishing } else none
    | _ => none
  | .join, s => match s.task, s.outcome with
    | .joining true, some _ => some { s with task := .finishing }
    | .joining false, some outcome => match frameBytes (closingFrame outcome) with
      | .ok buf => some { s with task := .closing buf }
      | .error _ => some { s with task := .finishing }
    | _, _ => none
  | .finish, s => match s.task with
    | .finishing => some { s with task := .done, leg := s.leg.close }
    | _ => none
  | .leg a, s =>
      (s.leg.step pumpInboundResponses channelCapacity a).map fun l => { s with leg := l }

variable {window} {s s' : ResponseFlow}

/-! ### What a step can do -/

theorem step_handlerSend_cases {item : RpcResult Bytes}
    (h : step window (.handlerSend item) s = some s') : s.sendersDropped = false ∧
      (¬ Receiving s.task ∧ s' = s ∨
        Receiving s.task ∧ s' = { s with queue := s.queue ++ [item] }) := by
  simp only [step] at h
  split_ifs at h with hd hr
  · cases h
    exact ⟨by simpa using hd, .inr ⟨hr, rfl⟩⟩
  · cases h
    exact ⟨by simpa using hd, .inl ⟨hr, rfl⟩⟩

theorem step_handlerDrop_iff : step window .handlerDrop s = some s' ↔
    s.sendersDropped = false ∧ s' = { s with sendersDropped := true } := by
  simp [step, @eq_comm _ _ s']

theorem step_handlerEnd_iff {o : Outcome} : step window (.handlerEnd o) s = some s' ↔
    s.outcome = none ∧ s' = { s with outcome := some o } := by
  simp [step, @eq_comm _ _ s']

theorem step_recv_cases (h : step window .recv s = some s') : s.task = .draining ∧
    ((∃ item queue buf, s.queue = item :: queue ∧ frameBytes (itemFrame item) = .ok buf ∧
      s' = { s with queue := queue, task := .writing (isTerminal item) buf }) ∨
    (∃ item queue e, s.queue = item :: queue ∧ frameBytes (itemFrame item) = .error e ∧
      s' = s.drained) ∨
    s.queue = [] ∧ s.sendersDropped = true ∧ s' = { s with task := .joining false }) := by
  cases ht : s.task with
  | draining =>
      refine ⟨rfl, ?_⟩
      cases hq : s.queue with
      | nil =>
          simp only [step, ht, hq] at h
          split_ifs at h with hd
          cases h
          exact .inr (.inr ⟨rfl, hd, rfl⟩)
      | cons item queue =>
          cases hf : frameBytes (itemFrame item) with
          | ok buf =>
              simp only [step, ht, hq, hf] at h
              cases h
              exact .inl ⟨item, queue, buf, rfl, hf, rfl⟩
          | error e =>
              simp only [step, ht, hq, hf] at h
              cases h
              exact .inr (.inl ⟨item, queue, e, rfl, hf, rfl⟩)
  | _ => simp [step, ht] at h

theorem step_write_cases {n : ℕ} (h : step window (.write n) s = some s') :
    ∃ left, 0 < n ∧ n ≤ left.length ∧
      ((∃ t, s.task = .writing t left ∧ left.drop n ≠ [] ∧
        s' = { s with task := .writing t (left.drop n), leg := s.leg.push (left.take n) }) ∨
      (∃ t, s.task = .writing t left ∧ s' = wrote t { s with leg := s.leg.push left }) ∨
      (s.task = .closing left ∧ left.drop n ≠ [] ∧
        s' = { s with task := .closing (left.drop n), leg := s.leg.push (left.take n) }) ∨
      s.task = .closing left ∧ s' = { s with task := .finishing, leg := s.leg.push left }) := by
  cases ht : s.task with
  | writing t left =>
      simp only [step, write, ht] at h
      split_ifs at h with hn hleft
      · cases h
        refine ⟨left, hn.1, hn.2.1, .inr (.inl ⟨t, rfl, ?_⟩)⟩
        rw [List.take_of_length_le (List.drop_eq_nil_iff.mp hleft)]
      · cases h
        exact ⟨left, hn.1, hn.2.1, .inl ⟨t, rfl, hleft, rfl⟩⟩
  | closing left =>
      simp only [step, write, ht] at h
      split_ifs at h with hn hleft
      · cases h
        refine ⟨left, hn.1, hn.2.1, .inr (.inr (.inr ⟨rfl, ?_⟩))⟩
        rw [List.take_of_length_le (List.drop_eq_nil_iff.mp hleft)]
      · cases h
        exact ⟨left, hn.1, hn.2.1, .inr (.inr (.inl ⟨rfl, hleft, rfl⟩))⟩
  | _ => simp [step, write, ht] at h

theorem step_writeFails_cases (h : step window .writeFails s = some s') : s.leg.pump = .done ∧
    ((∃ t left, s.task = .writing t left ∧ s' = s.drained) ∨
      ∃ left, s.task = .closing left ∧ s' = { s with task := .finishing }) := by
  cases ht : s.task with
  | writing t left => simpa [step, ht, @eq_comm _ _ s'] using h
  | closing left => simpa [step, ht, @eq_comm _ _ s'] using h
  | _ => simp [step, ht] at h

theorem step_join_cases (h : step window .join s = some s') : ∃ o, s.outcome = some o ∧
    ((s.task = .joining true ∧ s' = { s with task := .finishing }) ∨
    (∃ buf, s.task = .joining false ∧ frameBytes (closingFrame o) = .ok buf ∧
      s' = { s with task := .closing buf }) ∨
    ∃ e, s.task = .joining false ∧ frameBytes (closingFrame o) = .error e ∧
      s' = { s with task := .finishing }) := by
  cases ht : s.task with
  | joining w =>
      cases ho : s.outcome with
      | none => cases w <;> simp [step, ht, ho] at h
      | some o =>
          refine ⟨o, rfl, ?_⟩
          cases w with
          | true =>
              simp only [step, ht, ho] at h
              cases h
              exact .inl ⟨rfl, rfl⟩
          | false =>
              cases hf : frameBytes (closingFrame o) with
              | ok buf =>
                  simp only [step, ht, ho, hf] at h
                  cases h
                  exact .inr (.inl ⟨buf, rfl, rfl, rfl⟩)
              | error e =>
                  simp only [step, ht, ho, hf] at h
                  cases h
                  exact .inr (.inr ⟨e, rfl, rfl, rfl⟩)
  | _ => simp [step, ht] at h

theorem step_finish_iff : step window .finish s = some s' ↔
    s.task = .finishing ∧ s' = { s with task := .done, leg := s.leg.close } := by
  cases ht : s.task <;> simp [step, ht, @eq_comm _ _ s']

theorem step_leg_iff {a : LegAct} : step window (.leg a) s = some s' ↔
    ∃ l, s.leg.step pumpInboundResponses channelCapacity a = some l ∧
      s' = { s with leg := l } := by
  simp [step, @eq_comm _ _ s']

/-! ### What the substream task still has to write -/

/-- The bytes of a behaviour. -/
def framesOf (o : Outcome) (items : List (RpcResult Bytes)) : Bytes :=
  (streamFrames o items).flatMap frame

theorem framesOf_nil (o : Outcome) : framesOf o [] = frame (closingFrame o) := by
  simp [framesOf, streamFrames]

theorem framesOf_cons (o : Outcome) (item : RpcResult Bytes) (items : List (RpcResult Bytes)) :
    framesOf o (item :: items) =
      frame (itemFrame item) ++ if isTerminal item then [] else framesOf o items := by
  cases item <;> simp [framesOf, streamFrames, isTerminal]

/-- The bytes the substream task will still hand to the transport, if `items` are to come. -/
def remaining (o : Outcome) (items : List (RpcResult Bytes)) : ServerTask → Bytes
  | .draining => framesOf o items
  | .writing terminal left => left ++ if terminal then [] else framesOf o items
  | .joining wroteTerminal => if wroteTerminal then [] else frame (closingFrame o)
  | .closing left => left
  | .finishing | .done => []

/-- Every frame the behaviour gives rise to has a body within the limit. -/
structure Fits (b : Behaviour) : Prop where
  items : ∀ item ∈ b.items, BodyFits (itemFrame item)
  outcome : BodyFits (closingFrame b.outcome)

theorem frameBytes_eq_frame (hc : streamingErrorCodec.RoundTrips) {f : StreamingFrame}
    (hf : BodyFits f) (hserver : (∃ item, f = itemFrame item) ∨ ∃ o, f = closingFrame o) :
    frameBytes f = .ok (frame f) ∧ ExactFrame readStreamingFrame (frame f) f IsTransportRead := by
  have key : ∃ bs, frameBytes f = .ok bs ∧ ExactFrame readStreamingFrame bs f IsTransportRead := by
    obtain ⟨_ | _, rfl⟩ | ⟨(_ | _) | _, rfl⟩ := hserver
    · exact exactFrame_body rfl hc hf
    · exact exactFrame_chunk rfl hf
    · exact exactFrame_body rfl hc hf
    · exact ⟨_, rfl, exactFrame_opcode rfl⟩
    · exact exactFrame_body rfl hc hf
  obtain ⟨bs, hbs, hexact⟩ := key
  have hframe : frame f = bs := by rw [frame, hbs]
  rw [hframe]
  exact ⟨hbs, hexact⟩

/-! ### What the caller is to see -/

/-- The text of the error frame that closes the stream for an outcome. -/
def outcomeText : Outcome → Option String
  | .returned (.ok ()) => none
  | .returned (.error handlerErr) => some handlerErr.display
  | .panicked joinErr => some ("streaming handler join failure: " ++ joinErr)

/-- The text of the terminal error of a behaviour: of its first error item, else of its
outcome. -/
def terminalText (b : Behaviour) : Option String :=
  ((firstError b.items).map RpcError.display).or (outcomeText b.outcome)

/-- The chunks before the first error, and one error if there is an error item or the outcome is
one. -/
def responses (b : Behaviour) : List (RpcResult Bytes) :=
  b.chunks.map .ok ++
    (terminalText b).toList.map fun text => .error (.handler text)

theorem responses_ok (c : Bytes) (items : List (RpcResult Bytes)) (o : Outcome) :
    responses ⟨.ok c :: items, o⟩ = .ok c :: responses ⟨items, o⟩ := by
  simp [responses, terminalText, Behaviour.chunks, firstError, isTerminal, okItems,
    Except.toOption]

theorem responses_error (e : RpcError) (items : List (RpcResult Bytes)) (o : Outcome) :
    responses ⟨.error e :: items, o⟩ = [.error (.handler e.display)] := by
  simp [responses, terminalText, Behaviour.chunks, firstError, isTerminal, okItems]

theorem forwards_responseChunk {c bs : Bytes} (more : Bytes)
    (h : ExactFrame readStreamingFrame bs (.responseChunk c) IsTransportRead) :
    pumpInboundResponses.forwards (bs ++ more) = .ok c :: pumpInboundResponses.forwards more :=
  pumpInboundResponses.forwards_frame h

theorem forwards_error {text : String} {bs : Bytes}
    (h : ExactFrame readStreamingFrame bs (.error ⟨text, true⟩) IsTransportRead) :
    pumpInboundResponses.forwards bs = [.error (.handler text)] := by
  rw [← List.append_nil bs]
  exact pumpInboundResponses.forwards_frame h

theorem forwards_closingFrame (hc : streamingErrorCodec.RoundTrips) {o : Outcome}
    (ho : BodyFits (closingFrame o)) :
    pumpInboundResponses.forwards (frame (closingFrame o)) = responses ⟨[], o⟩ := by
  obtain ⟨-, hexact⟩ := frameBytes_eq_frame hc ho (.inr ⟨o, rfl⟩)
  obtain (handlerErr | _) | joinErr := o
  · exact forwards_error hexact
  · rw [← List.append_nil (frame _)]
    exact pumpInboundResponses.forwards_frame hexact
  · exact forwards_error hexact

/-- **The frames of a behaviour, read back**. -/
theorem forwards_framesOf (hc : streamingErrorCodec.RoundTrips) {o : Outcome}
    (ho : BodyFits (closingFrame o)) : ∀ {items : List (RpcResult Bytes)},
    (∀ item ∈ items, BodyFits (itemFrame item)) →
      pumpInboundResponses.forwards (framesOf o items) = responses ⟨items, o⟩
  | [], _ => by rw [framesOf_nil, forwards_closingFrame hc ho]
  | .ok c :: items, hitems => by
      obtain ⟨hitem, hrest⟩ := List.forall_mem_cons.mp hitems
      obtain ⟨-, hexact⟩ := frameBytes_eq_frame hc hitem (.inl ⟨_, rfl⟩)
      rw [framesOf_cons, isTerminal, if_neg Bool.false_ne_true, forwards_responseChunk _ hexact,
        forwards_framesOf hc ho hrest, responses_ok]
  | .error e :: items, hitems => by
      obtain ⟨hitem, -⟩ := List.forall_mem_cons.mp hitems
      obtain ⟨-, hexact⟩ := frameBytes_eq_frame hc hitem (.inl ⟨_, rfl⟩)
      rw [framesOf_cons, isTerminal, if_pos rfl, List.append_nil, responses_error]
      exact forwards_error hexact

end ResponseFlow

end NerwRpc
