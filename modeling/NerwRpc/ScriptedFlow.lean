import NerwRpc.ResponseFlow

/-! # Every run of one handler behaviour

A `ScriptedFlow` is the response direction with the items the handler has still to send.  The
handler sends them in order and drops its senders behind the last one; its task may end before or
after that, since a clone of the sender can outlive it.  No task is cancelled and the caller keeps
its stream.

* `Inv.step`: what the caller has read, what is queued for it and what its pump will make of the
  bytes in flight and of all that is still to be written is what the behaviour says.
* `weight_step`, `progress`: every step decreases a measure, and a state without a step is one in
  which the caller has seen the end. -/

namespace NerwRpc

open ByteStream FramePump Transition ResponseFlow

structure ScriptedFlow where
  script : List (RpcResult Bytes)
  flow : ResponseFlow
deriving DecidableEq, Repr

inductive ScriptedAct where
  | handlerSend
  | handlerDrop
  | handlerEnd
  | flow (a : ResponseAct)
deriving DecidableEq, Repr

namespace ScriptedFlow

/-- The actions that are not the handler's and lose nothing. -/
def Inner : ResponseAct → Bool
  | .handlerSend _ | .handlerDrop | .handlerEnd _ => false
  | .leg .dropReceiver | .leg .abort => false
  | _ => true

def start (b : Behaviour) : ScriptedFlow := ⟨b.items, ResponseFlow.start⟩

section steps

variable [Deps] (window : ℕ) (b : Behaviour)

def step : ScriptedAct → ScriptedFlow → Option ScriptedFlow
  | .handlerSend, s => match s.script with
    | [] => none
    | item :: script => (s.flow.step window (.handlerSend item)).map fun f => ⟨script, f⟩
  | .handlerDrop, s =>
      if s.script = [] then (s.flow.step window .handlerDrop).map fun f => { s with flow := f }
      else none
  | .handlerEnd, s =>
      (s.flow.step window (.handlerEnd b.outcome)).map fun f => { s with flow := f }
  | .flow a, s =>
      if Inner a then (s.flow.step window a).map fun f => { s with flow := f } else none

variable {window} {b} {s s' : ScriptedFlow}

theorem step_cases {a : ScriptedAct} (h : step window b a s = some s') :
    (∃ item script, a = .handlerSend ∧ s.script = item :: script ∧
      ∃ f, s.flow.step window (.handlerSend item) = some f ∧ s' = ⟨script, f⟩) ∨
    (∃ f, a = .handlerDrop ∧ s.script = [] ∧ s.flow.step window .handlerDrop = some f ∧
      s' = ⟨[], f⟩) ∨
    (∃ f, a = .handlerEnd ∧ s.flow.step window (.handlerEnd b.outcome) = some f ∧
      s' = { s with flow := f }) ∨
    ∃ c f, a = .flow c ∧ Inner c = true ∧ s.flow.step window c = some f ∧
      s' = { s with flow := f } := by
  cases a with
  | handlerSend =>
      cases hs : s.script with
      | nil => simp [step, hs] at h
      | cons item script =>
          simp only [step, hs, Option.map_eq_some_iff] at h
          obtain ⟨f, hf, rfl⟩ := h
          exact .inl ⟨item, script, rfl, rfl, f, hf, rfl⟩
  | handlerDrop =>
      simp only [step] at h
      split_ifs at h with hs
      obtain ⟨f, hf, rfl⟩ := Option.map_eq_some_iff.mp h
      exact .inr (.inl ⟨f, rfl, hs, hf, by rw [hs]⟩)
  | handlerEnd =>
      obtain ⟨f, hf, rfl⟩ := Option.map_eq_some_iff.mp h
      exact .inr (.inr (.inl ⟨f, rfl, hf, rfl⟩))
  | flow c =>
      simp only [step] at h
      split_ifs at h with hc
      obtain ⟨f, hf, rfl⟩ := Option.map_eq_some_iff.mp h
      exact .inr (.inr (.inr ⟨c, f, rfl, hc, hf, rfl⟩))

/-! ### The invariant -/

/-- The buffer in writing. -/
def leftOf : ServerTask → Option Bytes
  | .writing _ left | .closing left => some left
  | _ => none

/-- The items the substream task has still to see. -/
def toCome (s : ScriptedFlow) : List (RpcResult Bytes) := s.flow.queue ++ s.script

structure Inv (b : Behaviour) (s : ScriptedFlow) : Prop where
  tidy : s.flow.leg.Tidy
  keeps : s.flow.leg.dropped = false
  closed : s.flow.leg.closed = true ↔ s.flow.task = .done
  items : ∀ item ∈ s.toCome, BodyFits (itemFrame item)
  senders : s.flow.sendersDropped = true → s.script = []
  outcome : ∀ o, s.flow.outcome = some o → o = b.outcome
  left : ∀ left, leftOf s.flow.task = some left → left ≠ []
  outlook : s.flow.leg.outlook pumpInboundResponses
    (remaining b.outcome s.toCome s.flow.task) = responses b

theorem inv_start (hc : streamingErrorCodec.RoundTrips) (hb : Fits b) : Inv b (start b) where
  tidy := Leg.tidy_start
  keeps := rfl
  closed := by simp [start, ResponseFlow.start, Leg.start]
  items := hb.items
  senders := nofun
  outcome := nofun
  left := nofun
  outlook := forwards_framesOf hc hb.outcome hb.items

/-- Once the task has left the channel, the items to come do not matter. -/
theorem remaining_of_not_receiving {t : ServerTask} (h : ¬ Receiving t) (o : Outcome)
    (items items' : List (RpcResult Bytes)) : remaining o items t = remaining o items' t := by
  cases t with
  | draining => exact absurd trivial h
  | writing terminal left => exact absurd trivial h
  | _ => rfl

theorem Inv.handlerSend (h : Inv b s) {item : RpcResult Bytes} {script : List (RpcResult Bytes)}
    {f : ResponseFlow} (hscript : s.script = item :: script)
    (hf : s.flow.step window (.handlerSend item) = some f) : Inv b ⟨script, f⟩ := by
  obtain ⟨hopen, ⟨hr, rfl⟩ | ⟨-, rfl⟩⟩ := step_handlerSend_cases hf
  · refine { h with items := fun i hi => h.items i ?_, senders := ?_, outlook := ?_ }
    · rw [toCome, hscript]
      obtain hi | hi := List.mem_append.mp hi
      · exact List.mem_append_left _ hi
      · exact List.mem_append_right _ (List.mem_cons_of_mem _ hi)
    · intro hd
      rw [hopen] at hd
      cases hd
    · rw [remaining_of_not_receiving hr _ _ s.toCome]
      exact h.outlook
  · have hcome : (⟨script, { s.flow with queue := s.flow.queue ++ [item] }⟩ :
        ScriptedFlow).toCome = s.toCome := by
      simp [toCome, hscript]
    refine { h with items := ?_, senders := ?_, outlook := ?_ }
    · rw [hcome]
      exact h.items
    · intro hd
      rw [hopen] at hd
      cases hd
    · rw [hcome]
      exact h.outlook

/-- Handing bytes to the transport does not change what the caller will see. -/
theorem Inv.outlook_push (h : Inv b s) {bs Z : Bytes}
    (hZ : remaining b.outcome s.toCome s.flow.task = bs ++ Z) :
    (s.flow.leg.push bs).outlook pumpInboundResponses Z = responses b := by
  rw [Leg.outlook_push, ← hZ]
  exact h.outlook

theorem Inv.outlook_done (h : Inv b s) (hp : s.flow.leg.pump = .done) (Z : Bytes) :
    s.flow.leg.outlook pumpInboundResponses Z = responses b := by
  rw [Leg.outlook_done hp, ← Leg.outlook_done hp]
  exact h.outlook

theorem Inv.recv_cases (hc : streamingErrorCodec.RoundTrips) (h : Inv b s) {f : ResponseFlow}
    (hf : s.flow.step window .recv = some f) : s.flow.task = .draining ∧
      ((∃ item queue, s.flow.queue = item :: queue ∧
        frame (itemFrame item) ≠ [] ∧ f = { s.flow with
          queue := queue, task := .writing (isTerminal item) (frame (itemFrame item)) }) ∨
      s.flow.queue = [] ∧ s.flow.sendersDropped = true ∧
        f = { s.flow with task := .joining false }) := by
  obtain ⟨ht, ⟨item, queue, buf, hq, hbuf, rfl⟩ | ⟨item, queue, e, hq, he, rfl⟩ | hnone⟩ :=
    step_recv_cases hf
  · have hitem : BodyFits (itemFrame item) := h.items item (by simp [toCome, hq])
    obtain ⟨hframe, hexact⟩ := frameBytes_eq_frame hc hitem (.inl ⟨item, rfl⟩)
    obtain rfl := Except.ok.inj (hframe.symm.trans hbuf)
    exact ⟨ht, .inl ⟨item, queue, hq, hexact.ne_nil, rfl⟩⟩
  · have hitem : BodyFits (itemFrame item) := h.items item (by simp [toCome, hq])
    obtain ⟨hframe, -⟩ := frameBytes_eq_frame hc hitem (.inl ⟨item, rfl⟩)
    rw [hframe] at he
    cases he
  · exact ⟨ht, .inr hnone⟩

theorem remaining_recv (o : Outcome) (item : RpcResult Bytes) (items : List (RpcResult Bytes)) :
    remaining o (item :: items) .draining =
      remaining o items (.writing (isTerminal item) (frame (itemFrame item))) :=
  framesOf_cons o item items

theorem remaining_closing (o : Outcome) (items : List (RpcResult Bytes)) :
    remaining o [] .draining = remaining o items (.joining false) := framesOf_nil o

theorem Inv.recv (hc : streamingErrorCodec.RoundTrips) (h : Inv b s) {f : ResponseFlow}
    (hf : s.flow.step window .recv = some f) : Inv b { s with flow := f } := by
  obtain ⟨ht, ⟨item, queue, hq, hne, rfl⟩ | ⟨hq, hd, rfl⟩⟩ := h.recv_cases hc hf
  · have hcome : s.toCome = item :: (queue ++ s.script) := by simp [toCome, hq]
    have hitems := h.items
    have houtlook := h.outlook
    rw [hcome] at hitems
    rw [hcome, ht, remaining_recv] at houtlook
    refine { h with closed := by simpa [ht] using h.closed, left := ?_,
                    items := (List.forall_mem_cons.mp hitems).2, outlook := houtlook }
    rintro _ ⟨⟩
    exact hne
  · refine { h with closed := by simpa [ht] using h.closed, left := nofun, outlook := ?_ }
    have := h.outlook
    rw [toCome, hq, h.senders hd, ht, List.append_nil, remaining_closing] at this
    exact this

theorem Inv.write (h : Inv b s) {n : ℕ} {f : ResponseFlow}
    (hf : s.flow.step window (.write n) = some f) : Inv b { s with flow := f } := by
  have hopen : s.flow.task ≠ .done → s.flow.leg.closed = false := fun hne => by
    cases hc : s.flow.leg.closed with
    | false => rfl
    | true => exact absurd (h.closed.mp hc) hne
  obtain ⟨left, -, -, ⟨t, ht, hne, rfl⟩ | ⟨t, ht, rfl⟩ | ⟨ht, hne, rfl⟩ | ⟨ht, rfl⟩⟩ :=
    step_write_cases hf
  · have hc := hopen (by simp [ht])
    refine { h with tidy := h.tidy.push hc _, closed := by simp [hc], left := ?_, outlook := ?_ }
    · rintro _ ⟨⟩
      exact hne
    · refine h.outlook_push ?_
      simp only [ht, remaining]
      rw [← List.append_assoc, List.take_append_drop]
      rfl
  · have hc := hopen (by simp [ht])
    cases t with
    | false =>
        refine { h with tidy := h.tidy.push hc _, closed := ?_, left := nofun, outlook := ?_ }
        · simp [wrote, hc]
        · refine h.outlook_push ?_
          rw [ht]
          rfl
    | true =>
        refine { h with tidy := h.tidy.push hc _, closed := ?_, items := ?_, left := nofun,
                        outlook := ?_ }
        · simp [wrote, drained, hc]
        · exact fun item hi => h.items item (List.mem_append_right _ hi)
        · refine h.outlook_push ?_
          rw [ht]
          rfl
  · have hc := hopen (by simp [ht])
    refine { h with tidy := h.tidy.push hc _, closed := by simp [hc], left := ?_, outlook := ?_ }
    · rintro _ ⟨⟩
      exact hne
    · refine h.outlook_push ?_
      simp [ht, remaining]
  · have hc := hopen (by simp [ht])
    refine { h with tidy := h.tidy.push hc _, closed := by simp [hc], left := nofun, outlook := ?_ }
    refine h.outlook_push ?_
    simp [ht, remaining]

theorem Inv.writeFails (h : Inv b s) {f : ResponseFlow}
    (hf : s.flow.step window .writeFails = some f) : Inv b { s with flow := f } := by
  obtain ⟨hp, ⟨t, left, ht, rfl⟩ | ⟨left, ht, rfl⟩⟩ := step_writeFails_cases hf
  · refine { h with closed := ?_, items := ?_, left := nofun, outlook := h.outlook_done hp _ }
    · simpa [ht, drained] using h.closed
    · exact fun item hi => h.items item (List.mem_append_right _ hi)
  · refine { h with closed := ?_, left := nofun, outlook := h.outlook_done hp _ }
    simpa [ht] using h.closed

theorem Inv.join_cases (hc : streamingErrorCodec.RoundTrips) (hb : Fits b) (h : Inv b s)
    {f : ResponseFlow} (hf : s.flow.step window .join = some f) :
    (s.flow.task = .joining true ∧ f = { s.flow with task := .finishing }) ∨
    (s.flow.task = .joining false ∧ frame (closingFrame b.outcome) ≠ [] ∧
      f = { s.flow with task := .closing (frame (closingFrame b.outcome)) }) := by
  obtain ⟨o, ho, hcase⟩ := step_join_cases hf
  obtain rfl := h.outcome o ho
  obtain ⟨hframe, hexact⟩ := frameBytes_eq_frame hc hb.outcome (.inr ⟨_, rfl⟩)
  obtain hjoined | ⟨buf, ht, hbuf, rfl⟩ | ⟨e, -, he, -⟩ := hcase
  · exact .inl hjoined
  · obtain rfl := Except.ok.inj (hframe.symm.trans hbuf)
    exact .inr ⟨ht, hexact.ne_nil, rfl⟩
  · rw [hframe] at he
    cases he

theorem Inv.join (hc : streamingErrorCodec.RoundTrips) (hb : Fits b) (h : Inv b s)
    {f : ResponseFlow} (hf : s.flow.step window .join = some f) : Inv b { s with flow := f } := by
  have houtlook := h.outlook
  obtain ⟨ht, rfl⟩ | ⟨ht, hne, rfl⟩ := h.join_cases hc hb hf
  · rw [ht] at houtlook
    exact { h with closed := by simpa [ht] using h.closed, left := nofun, outlook := houtlook }
  · rw [ht] at houtlook
    refine { h with closed := by simpa [ht] using h.closed, left := ?_, outlook := houtlook }
    rintro _ ⟨⟩
    exact hne

theorem Inv.finish (h : Inv b s) {f : ResponseFlow}
    (hf : s.flow.step window .finish = some f) : Inv b { s with flow := f } := by
  obtain ⟨ht, rfl⟩ := step_finish_iff.mp hf
  refine { h with tidy := h.tidy.close, closed := by simp, left := nofun, outlook := ?_ }
  have := h.outlook
  rw [ht] at this
  exact this

theorem Inv.leg (h : Inv b s) {a : LegAct} {f : ResponseFlow} (ha : ¬ Leg.Loses a)
    (hf : s.flow.step window (.leg a) = some f) : Inv b { s with flow := f } := by
  obtain ⟨l, hl, rfl⟩ := step_leg_iff.mp hf
  have hdrop : a ≠ .dropReceiver := fun hd => ha (hd ▸ trivial)
  refine { h with tidy := h.tidy.step hl, keeps := ?_, closed := ?_, outlook := ?_ }
  · rw [Leg.step_dropped hl hdrop]
    exact h.keeps
  · rw [Leg.step_closed hl]
    exact h.closed
  · refine (Leg.outlook_step h.tidy hl ha h.keeps fun hclosed => ?_).trans h.outlook
    rw [h.closed.mp hclosed]
    rfl

theorem Inv.step (hc : streamingErrorCodec.RoundTrips) (hb : Fits b) (h : Inv b s)
    {a : ScriptedAct} (hs : ScriptedFlow.step window b a s = some s') : Inv b s' := by
  rcases step_cases hs with ⟨item, script, -, hscript, f, hf, rfl⟩ | ⟨f, -, hscript, hf, rfl⟩ |
    ⟨f, -, hf, rfl⟩ | ⟨c, f, -, hinner, hf, rfl⟩
  · exact h.handlerSend hscript hf
  · obtain ⟨-, rfl⟩ := step_handlerDrop_iff.mp hf
    have hcome :
        (⟨[], { s.flow with sendersDropped := true }⟩ : ScriptedFlow).toCome = s.toCome := by
      simp [toCome, hscript]
    refine { h with items := ?_, senders := fun _ => rfl, outlook := ?_ }
    · rw [hcome]
      exact h.items
    · rw [hcome]
      exact h.outlook
  · obtain ⟨-, rfl⟩ := step_handlerEnd_iff.mp hf
    exact { h with outcome := fun o ho => (Option.some.inj ho).symm }
  · cases c with
    | handlerSend item => cases hinner
    | handlerDrop => cases hinner
    | handlerEnd o => cases hinner
    | recv => exact h.recv hc hf
    | write n => exact h.write hf
    | writeFails => exact h.writeFails hf
    | join => exact h.join hc hb hf
    | finish => exact h.finish hf
    | leg a =>
        refine h.leg ?_ hf
        cases a with
        | dropReceiver => cases hinner
        | abort => cases hinner
        | _ => exact id

/-! ### Termination -/

/-- What a state of the substream task costs. -/
def taskWeight : ServerTask → ℕ
  | .draining | .writing _ _ => 4
  | .joining _ => 3
  | .closing _ => 2
  | .finishing => 1
  | .done => 0

/-- Bytes cost more before they are written, items more before they are sent. -/
def weight (b : Behaviour) (s : ScriptedFlow) : ℕ :=
  6 * (remaining b.outcome s.toCome s.flow.task).length + s.flow.leg.weight +
    3 * s.script.length + 2 * s.flow.queue.length + taskWeight s.flow.task +
    (!s.flow.sendersDropped).toNat + s.flow.outcome.isNone.toNat

theorem weight_write {n : ℕ} {f : ResponseFlow}
    (hf : s.flow.step window (.write n) = some f) : weight b { s with flow := f } < weight b s := by
  obtain ⟨left, hpos, hn, ⟨t, ht, -, rfl⟩ | ⟨t, ht, rfl⟩ | ⟨ht, -, rfl⟩ | ⟨ht, rfl⟩⟩ :=
    step_write_cases hf
  · simp only [weight, ht, remaining, toCome, Leg.weight_push, taskWeight, List.length_append,
      List.length_drop, List.length_take]
    omega
  · cases t with
    | false =>
        simp only [weight, wrote, ht, remaining, toCome, Leg.weight_push, taskWeight,
          List.length_append, Bool.false_eq_true, if_false]
        omega
    | true =>
        simp only [weight, wrote, drained, ht, remaining, Leg.weight_push, taskWeight,
          List.length_append, if_true, List.length_nil]
        omega
  · simp only [weight, ht, remaining, Leg.weight_push, taskWeight, List.length_drop,
      List.length_take]
    omega
  · simp only [weight, ht, remaining, Leg.weight_push, taskWeight, List.length_nil]
    omega

/-- **Every step decreases the weight.** -/
theorem weight_step (hc : streamingErrorCodec.RoundTrips) (hb : Fits b) (h : Inv b s)
    {a : ScriptedAct} (hs : ScriptedFlow.step window b a s = some s') :
    weight b s' < weight b s := by
  rcases step_cases hs with ⟨item, script, -, hscript, f, hf, rfl⟩ | ⟨f, -, hscript, hf, rfl⟩ |
    ⟨f, -, hf, rfl⟩ | ⟨c, f, -, hinner, hf, rfl⟩
  · obtain ⟨-, ⟨hr, rfl⟩ | ⟨-, rfl⟩⟩ := step_handlerSend_cases hf
    · have hsame := remaining_of_not_receiving hr b.outcome s.toCome
        (⟨script, s.flow⟩ : ScriptedFlow).toCome
      simp only [weight, hsame, hscript, List.length_cons]
      omega
    · simp only [weight, toCome, hscript, List.append_assoc, List.singleton_append,
        List.length_append, List.length_cons, List.length_nil]
      omega
  · obtain ⟨hopen, rfl⟩ := step_handlerDrop_iff.mp hf
    simp only [weight, toCome, hscript, hopen, Bool.not_true, Bool.not_false, Bool.toNat_true,
      Bool.toNat_false]
    omega
  · obtain ⟨hnone, rfl⟩ := step_handlerEnd_iff.mp hf
    simp [weight, toCome, hnone]
  · cases c with
    | handlerSend item => cases hinner
    | handlerDrop => cases hinner
    | handlerEnd o => cases hinner
    | recv =>
        obtain ⟨ht, ⟨item, queue, hq, -, rfl⟩ | ⟨hq, hd, rfl⟩⟩ := h.recv_cases hc hf
        · simp only [weight, toCome, ht, hq, List.cons_append, remaining_recv, taskWeight,
            List.length_cons]
          omega
        · have hnil : s.toCome = [] := by rw [toCome, hq, h.senders hd]; rfl
          simp only [weight, ht, hnil, remaining, framesOf_nil, taskWeight, Bool.false_eq_true,
            if_false]
          omega
    | write n => exact weight_write hf
    | writeFails =>
        obtain ⟨-, ⟨t, left, ht, rfl⟩ | ⟨left, ht, rfl⟩⟩ := step_writeFails_cases hf
        · simp only [weight, drained, ht, remaining, taskWeight, List.length_append,
            List.length_nil, if_true]
          omega
        · simp only [weight, ht, remaining, taskWeight, List.length_nil]
          omega
    | join =>
        obtain ⟨ht, rfl⟩ | ⟨ht, -, rfl⟩ := h.join_cases hc hb hf
        · simp only [weight, ht, remaining, taskWeight, if_true]
          omega
        · simp only [weight, ht, remaining, taskWeight, Bool.false_eq_true, if_false]
          omega
    | finish =>
        obtain ⟨ht, rfl⟩ := step_finish_iff.mp hf
        simp only [weight, ht, remaining, taskWeight, Leg.weight_close]
        omega
    | leg a =>
        obtain ⟨l, hl, rfl⟩ := step_leg_iff.mp hf
        have hleg := Leg.weight_step hl (by rintro rfl; cases hinner)
        simp only [weight, toCome]
        omega

/-! ### Progress -/

theorem step_flow {c : ResponseAct} {f : ResponseFlow} (hc : Inner c = true)
    (hf : s.flow.step window c = some f) :
    step window b (.flow c) s = some { s with flow := f } := by
  simp [step, hc, hf]

theorem exists_step_of_leg {a : LegAct} {l : Leg (RpcResult Bytes)} (ha : ¬ Leg.Loses a)
    (hl : s.flow.leg.step pumpInboundResponses channelCapacity a = some l) :
    ∃ c s', step window b c s = some s' := by
  refine ⟨.flow (.leg a), _, step_flow ?_ (ResponseFlow.step_leg_iff.mpr ⟨l, hl, rfl⟩)⟩
  cases a <;> first | rfl | exact absurd trivial ha

theorem exists_write {f : ResponseFlow} {left : Bytes} (hleft : leftOf f.task = some left)
    (hne : left ≠ []) (hroom : f.leg.inflight.length + 1 ≤ window) :
    ∃ f', f.step window (.write 1) = some f' := by
  have hpos : 1 ≤ left.length := List.length_pos_iff.mpr hne
  cases ht : f.task with
  | writing t bs =>
      obtain rfl : bs = left := by simpa [ht, leftOf] using hleft
      simp [ResponseFlow.step, ResponseFlow.write, ht, hroom, hpos]
  | closing bs =>
      obtain rfl : bs = left := by simpa [ht, leftOf] using hleft
      simp [ResponseFlow.step, ResponseFlow.write, ht, hroom, hpos]
  | _ => simp [ht, leftOf] at hleft

/-- The actions of the substream task, as long as no write fails. -/
def TaskAct : ResponseAct → Prop
  | .recv | .write _ | .join | .finish => True
  | _ => False

omit [Deps] in
theorem inner_of_taskAct {c : ResponseAct} (h : TaskAct c) : Inner c = true := by
  cases c with
  | leg a => exact h.elim
  | _ => first | rfl | exact h.elim

/-- While there is room for a byte, the substream task can act, or it waits for the handler: for a
response, or for its end. -/
theorem task_progress {f : ResponseFlow} (hleft : ∀ left, leftOf f.task = some left → left ≠ [])
    (hroom : f.leg.inflight.length + 1 ≤ window) (hne : f.task ≠ .done) :
    (∃ c f', TaskAct c ∧ f.step window c = some f') ∨
      (f.task = .draining ∧ f.queue = [] ∧ f.sendersDropped = false) ∨
      (∃ w, f.task = .joining w) ∧ f.outcome = none := by
  have hwrite : ∀ left, leftOf f.task = some left →
      ∃ c f', TaskAct c ∧ f.step window c = some f' := by
    intro left hl
    obtain ⟨f', hf⟩ := exists_write hl (hleft left hl) hroom
    exact ⟨.write 1, f', trivial, hf⟩
  cases ht : f.task with
  | draining =>
      cases hq : f.queue with
      | nil =>
          cases hd : f.sendersDropped with
          | false => exact .inr (.inl ⟨rfl, rfl, rfl⟩)
          | true =>
              refine .inl ⟨.recv, { f with task := .joining false }, trivial, ?_⟩
              simp only [ResponseFlow.step, ht, hq, hd, if_true]
      | cons item queue =>
          have hstep : ∃ f', f.step window .recv = some f' := by
            cases hf : frameBytes (itemFrame item) <;> simp [ResponseFlow.step, ht, hq, hf]
          obtain ⟨f', hf⟩ := hstep
          exact .inl ⟨.recv, f', trivial, hf⟩
  | writing t left => exact .inl (hwrite left (by rw [ht]; rfl))
  | closing left => exact .inl (hwrite left (by rw [ht]; rfl))
  | joining w =>
      cases ho : f.outcome with
      | none => exact .inr (.inr ⟨⟨w, rfl⟩, rfl⟩)
      | some o =>
          have hstep : ∃ f', f.step window .join = some f' := by
            cases w with
            | true => simp [ResponseFlow.step, ht, ho]
            | false =>
                cases hf : frameBytes (closingFrame o) <;> simp [ResponseFlow.step, ht, ho, hf]
          obtain ⟨f', hf⟩ := hstep
          exact .inl ⟨.join, f', trivial, hf⟩
  | finishing => exact .inl ⟨.finish, _, trivial, step_finish_iff.mpr ⟨ht, rfl⟩⟩
  | done => exact absurd ht hne

/-- **Progress**: a state in which no step is possible is one in which the caller has seen the
end of the stream. -/
theorem progress (hw : 0 < window) (h : Inv b s) :
    s.flow.leg.ended = true ∨ ∃ a s', ScriptedFlow.step window b a s = some s' := by
  obtain hend | ⟨a, l, ha, hl⟩ | ⟨-, hopen, hnil⟩ :=
    Leg.progress (P := pumpInboundResponses) h.tidy h.keeps channelCapacity_pos
  · exact .inl hend
  · exact .inr (exists_step_of_leg ha hl)
  · refine .inr ?_
    have hroom : s.flow.leg.inflight.length + 1 ≤ window := by
      rw [hnil, List.length_nil]
      omega
    have hne : s.flow.task ≠ .done := by
      intro ht
      rw [h.closed.mpr ht] at hopen
      cases hopen
    obtain ⟨c, f, hc, hf⟩ | ⟨ht, hq, hd⟩ | ⟨-, ho⟩ := task_progress h.left hroom hne
    · exact ⟨_, _, step_flow (inner_of_taskAct hc) hf⟩
    · cases hscript : s.script with
      | nil =>
          exact ⟨.handlerDrop, _, by simp only [step, hscript, ResponseFlow.step, hd]; rfl⟩
      | cons item script =>
          refine ⟨.handlerSend, ⟨script, { s.flow with queue := [item] }⟩, ?_⟩
          simp [step, hscript, ResponseFlow.step, hd, ht, hq, Receiving, channelCapacity]
    · exact ⟨.handlerEnd, { s with flow := { s.flow with outcome := some b.outcome } },
        by simp [step, ResponseFlow.step, ho]⟩

/-! ### Every run -/

theorem inv_of_run (hc : streamingErrorCodec.RoundTrips) (hb : Fits b) {as : List ScriptedAct}
    (h : run (step window b) as (start b) = some s) : Inv b s :=
  (runs_any_iff.mpr h).invariant (fun _ _ _ _ hs h => hs.step hc hb h) (inv_start hc hb)

/-- **The caller sees exactly what the handler's behaviour says**: in every state a prefix of it,
and all of it when it has seen the end; every run is finite, and none gets stuck before that. -/
theorem responses_exact (hc : streamingErrorCodec.RoundTrips) (hb : Fits b) (hw : 0 < window)
    {as : List ScriptedAct} (h : run (step window b) as (start b) = some s) :
    s.flow.leg.got <+: responses b ∧
      (s.flow.leg.ended = true → s.flow.leg.got = responses b) ∧
      as.length ≤ weight b (start b) ∧
      ((∀ a, step window b a s = none) → s.flow.leg.ended = true) := by
  have hinv := inv_of_run hc hb h
  refine ⟨?_, fun hend => ?_, ?_, fun hstuck => ?_⟩
  · rw [← hinv.outlook]
    exact Leg.got_prefix_outlook _ _
  · obtain ⟨hp, hq⟩ := hinv.tidy.ended hend
    rw [← hinv.outlook, Leg.outlook_done hp, hq, List.append_nil]
  · have := (runs_any_iff.mpr h).length_add_le (fun _ _ _ _ hs h => Inv.step hc hb hs h)
      (fun _ _ _ _ hs h => weight_step hc hb hs h) (inv_start hc hb)
    omega
  · obtain hend | ⟨a, s', hs⟩ := progress hw hinv
    · exact hend
    · rw [hstuck a] at hs
      cases hs

end steps

section reference

attribute [local instance] reference

/-- A chunk, then an error in band, from a handler that returns cleanly. -/
def failsMidway : Behaviour := ⟨[.ok [1, 2], .error (.handler "x")], .returned (.ok ())⟩

/-- The substream task writes two frames, of four and of twenty bytes. -/
def failsMidwayRun : List ScriptedAct :=
  [.handlerSend, .flow .recv, .flow (.write 4), .flow (.leg (.deliver 3)),
    .flow (.leg (.deliver 1)), .flow (.leg .read), .flow (.leg .send), .handlerEnd, .handlerSend,
    .flow .recv, .handlerDrop, .flow (.write 13), .flow (.leg .take), .flow (.leg (.deliver 13)),
    .flow (.write 7), .flow .join, .flow .finish, .flow (.leg (.deliver 7)), .flow (.leg .read),
    .flow (.leg .send), .flow (.leg .take), .flow (.leg .takeNone)]

theorem responses_exact_failsMidway :
    ∃ s, run (step 16 failsMidway) failsMidwayRun (start failsMidway) = some s ∧
      s.flow.leg.got = [.ok [1, 2], .error (.handler "handler error: x")] := by
  have hfits : Fits failsMidway := by
    refine ⟨fun item hi => ?_, trivial⟩
    obtain rfl | rfl : item = .ok [1, 2] ∨ item = .error (.handler "x") := by
      simpa [failsMidway] using hi
    · exact show 2 ≤ maxStreamingPayloadLen by decide
    · exact ⟨_, rfl, by decide⟩
  obtain ⟨s, hs⟩ : ∃ s, run (step 16 failsMidway) failsMidwayRun (start failsMidway) = some s :=
    Option.isSome_iff_exists.mp (by decide +kernel)
  have hend : s.flow.leg.ended = true := by
    have : ((run (step 16 failsMidway) failsMidwayRun (start failsMidway)).map
        fun s => s.flow.leg.ended) = some true := by decide +kernel
    simpa [hs] using this
  refine ⟨s, hs, ?_⟩
  have hgot := (responses_exact (ofCodec_roundTrips StreamingError.postcard) hfits (by decide)
    hs).2.1 hend
  exact hgot.trans (by decide)

end reference

end ScriptedFlow

end NerwRpc
