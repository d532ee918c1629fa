import NerwRpc.CallWindsDown
import Mathlib.Data.Prod.Lex

/-! # A call that its caller gives up

At any time the caller may drop its sender, with chunks that it has not sent, and its response
stream.  Nothing of the call notices the latter but the inbound pump, and that only at its next
item; so a state behind it is compared with the state in which the caller has kept its stream
(`ServedCall.withConsumer`).

* `ServedCall.step_withConsumer`: only the pump's sends and the end of the items tell them apart.
* `Cancellable.step`: the invariant of the served call holds of the state in which the caller has
  kept its stream.
* `cancelled_windsDown`: so a call that is given up is taken down as well.
* `measure_moved`, `cancelled_ends`: no schedule goes on forever, whatever the frames are. -/

namespace FramePump.Leg

variable {ε φ ι : Type} {P : Pump ε φ ι} {cap : ℕ} {l l' : Leg ι}

/-- The same leg with another state of the consumer. -/
def withConsumer (dropped ended : Bool) (l : Leg ι) : Leg ι :=
  { l with dropped := dropped, ended := ended }

/-- The actions that do not depend on the consumer. -/
def Blind : LegAct → Prop
  | .deliver _ | .deliverFin | .read | .take | .abort => True
  | _ => False

theorem step_withConsumer {a : LegAct} (ha : Blind a) (dropped ended : Bool) (l : Leg ι) :
    step P cap a (l.withConsumer dropped ended) =
      (step P cap a l).map (withConsumer dropped ended) := by
  unfold withConsumer
  cases a with
  | deliver n => cases hp : l.pump <;> simp only [step, hp, Option.map_none]; split_ifs <;> rfl
  | deliverFin => cases hp : l.pump <;> simp only [step, hp, Option.map_none]; split_ifs <;> rfl
  | read =>
      cases hp : l.pump <;> simp only [step, hp, Option.map_none]
      cases hr : P.read l.recv with
      | pending => rfl
      | ready r => cases r <;> rfl
  | take => cases hq : l.queue <;> simp only [step, hq] <;> rfl
  | abort => rfl
  | send => exact ha.elim
  | takeNone => exact ha.elim
  | dropReceiver => exact ha.elim

end FramePump.Leg

namespace NerwRpc

open ByteStream FramePump Transition

namespace ResponseFlow

variable [Deps] {window : ℕ}

def withConsumer (dropped ended : Bool) (s : ResponseFlow) : ResponseFlow :=
  { s with leg := s.leg.withConsumer dropped ended }

theorem step_withConsumer (window : ℕ) {a : ResponseAct} (ha : ∀ b, a = .leg b → Leg.Blind b)
    (dropped ended : Bool) (s : ResponseFlow) :
    ResponseFlow.step window a (s.withConsumer dropped ended) =
      (ResponseFlow.step window a s).map (withConsumer dropped ended) := by
  unfold withConsumer
  cases a with
  | leg b =>
      simp only [ResponseFlow.step, Leg.step_withConsumer (ha b rfl), Option.map_map]
      rfl
  | handlerSend item => simp only [ResponseFlow.step]; split_ifs <;> rfl
  | handlerDrop => simp only [ResponseFlow.step]; split_ifs <;> rfl
  | handlerEnd o => simp only [ResponseFlow.step]; split_ifs <;> rfl
  | recv =>
      cases ht : s.task <;> simp only [ResponseFlow.step, ht, Option.map_none]
      cases hq : s.queue with
      | nil => simp only; split_ifs <;> rfl
      | cons item queue => simp only; cases frameBytes (itemFrame item) <;> rfl
  | write n =>
      have hroom : (s.leg.withConsumer dropped ended).inflight = s.leg.inflight := rfl
      cases ht : s.task <;>
        simp only [ResponseFlow.step, ResponseFlow.write, ht, Option.map_none, hroom]
      · rename_i t left
        split_ifs
        · cases t <;> rfl
        · rfl
        · rfl
      · split_ifs <;> rfl
  | writeFails =>
      have hpump : (s.leg.withConsumer dropped ended).pump = s.leg.pump := rfl
      cases ht : s.task <;> simp only [ResponseFlow.step, ht, Option.map_none, hpump]
      · split_ifs <;> rfl
      · split_ifs <;> rfl
  | join =>
      cases ht : s.task <;> simp only [ResponseFlow.step, ht, Option.map_none]
      rename_i w
      cases w <;> cases ho : s.outcome <;> simp only [Option.map_none]
      · rename_i o
        cases frameBytes (closingFrame o) <;> rfl
      · rfl
  | finish => cases ht : s.task <;> simp only [ResponseFlow.step, ht] <;> rfl

theorem step_channel {s s' : ResponseFlow} {a : ResponseAct}
    (hs : ResponseFlow.step window a s = some s') (hleg : ∀ b, a ≠ .leg b) :
    s'.leg.queue = s.leg.queue ∧ s'.leg.dropped = s.leg.dropped := by
  cases a with
  | leg b => exact absurd rfl (hleg b)
  | handlerSend item =>
      obtain ⟨-, ⟨-, rfl⟩ | ⟨-, rfl⟩⟩ := step_handlerSend_cases hs
      · exact ⟨rfl, rfl⟩
      · exact ⟨rfl, rfl⟩
  | handlerDrop =>
      obtain ⟨-, rfl⟩ := step_handlerDrop_iff.mp hs
      exact ⟨rfl, rfl⟩
  | handlerEnd o =>
      obtain ⟨-, rfl⟩ := step_handlerEnd_iff.mp hs
      exact ⟨rfl, rfl⟩
  | recv =>
      obtain ⟨-, ⟨_, _, _, -, -, rfl⟩ | ⟨_, _, _, -, -, rfl⟩ | ⟨-, -, rfl⟩⟩ := step_recv_cases hs
      all_goals exact ⟨rfl, rfl⟩
  | write n =>
      obtain ⟨bs, -, -, ⟨t, -, -, rfl⟩ | ⟨t, -, rfl⟩ | ⟨-, -, rfl⟩ | ⟨-, rfl⟩⟩ :=
        step_write_cases hs
      · exact ⟨rfl, rfl⟩
      · cases t <;> exact ⟨rfl, rfl⟩
      · exact ⟨rfl, rfl⟩
      · exact ⟨rfl, rfl⟩
  | writeFails =>
      obtain ⟨-, ⟨_, _, -, rfl⟩ | ⟨_, -, rfl⟩⟩ := step_writeFails_cases hs
      all_goals exact ⟨rfl, rfl⟩
  | join =>
      obtain ⟨o, -, ⟨-, rfl⟩ | ⟨_, -, -, rfl⟩ | ⟨_, -, -, rfl⟩⟩ := step_join_cases hs
      all_goals exact ⟨rfl, rfl⟩
  | finish =>
      obtain ⟨-, rfl⟩ := step_finish_iff.mp hs
      exact ⟨rfl, rfl⟩

/-! ### What is left of the response direction -/

/-- How far the substream task has still to go, and what it has still to take off its channel. -/
def stage (s : ResponseFlow) : ℕ :=
  2 * s.queue.length + match s.task with
    | .writing _ _ => 5
    | .draining => 4
    | .joining _ => 3
    | .closing _ => 2
    | .finishing => 1
    | .done => 0

/-- The bytes it has still to write, and those behind it. -/
def bytesLeft (s : ResponseFlow) : ℕ :=
  6 * (match s.task with
    | .writing _ left | .closing left => left.length
    | _ => 0) + s.leg.weight

/-- **Every step of the response direction that is not the handler's brings it on.** -/
theorem step_brings_on {s s' : ResponseFlow} {a : ResponseAct}
    (hs : ResponseFlow.step window a s = some s') (hinner : ScriptedFlow.Inner a = true) :
    s'.stage < s.stage ∨ s'.stage = s.stage ∧ s'.bytesLeft < s.bytesLeft := by
  cases a with
  | handlerSend item => cases hinner
  | handlerDrop => cases hinner
  | handlerEnd o => cases hinner
  | recv =>
      obtain ⟨ht, ⟨item, queue, buf, hq, -, rfl⟩ | ⟨item, queue, e, hq, -, rfl⟩ | ⟨hq, -, rfl⟩⟩ :=
        step_recv_cases hs
      · left
        simp only [stage, ht, hq, List.length_cons]
        omega
      · left
        simp only [stage, drained, ht, hq, List.length_cons, List.length_nil]
        omega
      · left
        simp only [stage, ht]
        omega
  | write n =>
      obtain ⟨left, hn, hle, ⟨t, ht, -, rfl⟩ | ⟨t, ht, rfl⟩ | ⟨ht, -, rfl⟩ | ⟨ht, rfl⟩⟩ :=
        step_write_cases hs
      · right
        simp only [stage, bytesLeft, ht, Leg.weight_push, List.length_drop, List.length_take,
          true_and]
        omega
      · left
        cases t with
        | true =>
            simp only [stage, wrote, drained, ht, List.length_nil, if_true]
            omega
        | false =>
            simp only [stage, wrote, ht, Bool.false_eq_true, if_false]
            omega
      · right
        simp only [stage, bytesLeft, ht, Leg.weight_push, List.length_drop, List.length_take,
          true_and]
        omega
      · left
        simp only [stage, ht]
        omega
  | writeFails =>
      left
      obtain ⟨-, ⟨t, left, ht, rfl⟩ | ⟨left, ht, rfl⟩⟩ := step_writeFails_cases hs
      · simp only [stage, drained, ht, List.length_nil]
        omega
      · simp only [stage, ht]
        omega
  | join =>
      left
      obtain ⟨o, -, ⟨ht, rfl⟩ | ⟨buf, ht, -, rfl⟩ | ⟨e, ht, -, rfl⟩⟩ := step_join_cases hs
      all_goals
        simp only [stage, ht]
        omega
  | finish =>
      left
      obtain ⟨ht, rfl⟩ := step_finish_iff.mp hs
      simp only [stage, ht]
      omega
  | leg b =>
      obtain ⟨l, hl, rfl⟩ := step_leg_iff.mp hs
      have hlt := Leg.weight_step hl (by rintro rfl; cases hinner)
      right
      unfold bytesLeft
      exact ⟨rfl, by dsimp only; omega⟩

end ResponseFlow

namespace ServedCall

section steps

variable [Deps] {up down : ℕ} {h : RequestHandler} {s s' : ServedCall}

def withConsumer (dropped ended : Bool) (s : ServedCall) : ServedCall :=
  { s with call := { s.call with resp := s.call.resp.withConsumer dropped ended } }

/-- **Nothing of the call notices that the caller has dropped its stream**, but the inbound pump at
its sends, and nothing but the caller knows that it has seen the end. -/
theorem step_withConsumer {a : ServedAct} (ha : ∀ b, a = .task (.resp (.leg b)) → Leg.Blind b)
    (dropped ended : Bool) (s : ServedCall) :
    ServedCall.step up down h a (s.withConsumer dropped ended) =
      (ServedCall.step up down h a s).map (withConsumer dropped ended) := by
  have hreq : ∀ b : RequestAct, (s.withConsumer dropped ended).call.act up down (.req b) =
      (s.call.act up down (.req b)).map fun call =>
        { call with resp := call.resp.withConsumer dropped ended } := by
    intro b
    have hmay : (s.withConsumer dropped ended).call.MayAbort b ↔ s.call.MayAbort b := by
      cases b <;> rfl
    simp only [StreamingCall.act, StreamingCall.step, hmay]
    split_ifs
    · cases hf : s.call.req.step up b with
      | none => simp [withConsumer, hf]
      | some f => simp [withConsumer, hf]
    · rfl
  have hresp : ∀ b : ResponseAct, (∀ c, b = .leg c → Leg.Blind c) →
      (s.withConsumer dropped ended).call.act up down (.resp b) =
        (s.call.act up down (.resp b)).map fun call =>
          { call with resp := call.resp.withConsumer dropped ended } := by
    intro b hb
    have hact : ∀ call : StreamingCall, b ≠ .leg .abort →
        call.act up down (.resp b) =
          (call.resp.step down b).map fun f => { call with resp := f } := by
      intro call hne
      apply Option.ext
      intro call'
      rw [StreamingCall.act_resp_iff]
      simp [hne, @eq_comm _ _ call']
    by_cases hne : b = .leg .abort
    · subst hne
      rfl
    · rw [hact _ hne, hact _ hne]
      have hstep := ResponseFlow.step_withConsumer down hb dropped ended s.call.resp
      simp only [withConsumer, hstep, Option.map_map]
      rfl
  have htodo : (s.withConsumer dropped ended).todo = s.todo := rfl
  have hhandler : (s.withConsumer dropped ended).handler = s.handler := rfl
  have hout : (s.withConsumer dropped ended).call.req = s.call.req := rfl
  have htask : (s.withConsumer dropped ended).call.resp.task = s.call.resp.task := rfl
  have hsenders : (s.withConsumer dropped ended).call.resp.sendersDropped =
      s.call.resp.sendersDropped := rfl
  cases a with
  | callerSend =>
      simp only [ServedCall.step, htodo, hout, hreq]
      cases s.todo with
      | nil => rfl
      | cons chunk todo =>
          dsimp only
          split_ifs
          · rfl
          · simp only [Option.map_map]
            rfl
  | callerDrop =>
      simp only [ServedCall.step, htodo, hreq]
      split_ifs
      · simp only [Option.map_map]
        rfl
      · rfl
  | handlerTake =>
      simp only [ServedCall.step, hhandler, hreq]
      cases s.handler with
      | reading =>
          simp only [Option.map_map]
          rfl
      | _ => rfl
  | handlerNone =>
      simp only [ServedCall.step, hhandler, hreq]
      cases s.handler with
      | reading =>
          simp only [Option.map_map]
          rfl
      | _ => rfl
  | handlerSend =>
      simp only [ServedCall.step, hhandler, htask]
      cases s.handler with
      | sending chunk left next =>
          dsimp only
          rw [hresp _ (by rintro c ⟨⟩)]
          split_ifs
          · rfl
          · simp only [Option.map_map]
            rfl
      | _ => rfl
  | handlerDropRequests =>
      simp only [ServedCall.step, hhandler, hreq]
      cases s.handler with
      | returning result =>
          simp only [Option.map_map]
          rfl
      | _ => rfl
  | handlerDropResponses =>
      simp only [ServedCall.step, hhandler]
      rw [hresp _ (by rintro c ⟨⟩)]
      cases s.handler with
      | returning result =>
          simp only [Option.map_map]
          rfl
      | _ => rfl
  | handlerEnd =>
      simp only [ServedCall.step, hhandler, hout, hsenders]
      cases s.handler with
      | returning result =>
          dsimp only
          rw [hresp _ (by rintro c ⟨⟩)]
          split_ifs
          · simp only [Option.map_map]
            rfl
          · rfl
      | _ => rfl
  | task b =>
      have hacts : (s.withConsumer dropped ended).call.Acts b = s.call.Acts b := by
        cases b with
        | req c => rfl
        | resp c => rfl
      have hact : (s.withConsumer dropped ended).call.act up down b =
          (s.call.act up down b).map fun call =>
            { call with resp := call.resp.withConsumer dropped ended } := by
        cases b with
        | req c => exact hreq c
        | resp c => exact hresp c fun d hd => ha d (congrArg _ (congrArg _ hd))
      simp only [ServedCall.step, hacts, hact]
      split_ifs
      · simp only [Option.map_map]
        rfl
      · rfl

theorem step_leg_iff {b : LegAct} : ServedCall.step up down h (.task (.resp (.leg b))) s = some s' ↔
    s.call.Acts (.resp (.leg b)) = true ∧ b ≠ .abort ∧
      ∃ l, s.call.resp.leg.step pumpInboundResponses channelCapacity b = some l ∧
        s' = { s with call := { s.call with resp := { s.call.resp with leg := l } } } := by
  constructor
  · intro hs
    simp only [ServedCall.step] at hs
    split at hs
    · rename_i hacts
      obtain ⟨call, hcall, rfl⟩ := Option.map_eq_some_iff.mp hs
      obtain ⟨hne, f, hf, rfl⟩ := StreamingCall.act_resp_iff.mp hcall
      obtain ⟨l, hl, rfl⟩ := ResponseFlow.step_leg_iff.mp hf
      exact ⟨hacts, fun hb => hne (congrArg _ hb), l, hl, rfl⟩
    · cases hs
  · rintro ⟨hacts, hne, l, hl, rfl⟩
    have hcall : s.call.act up down (.resp (.leg b)) =
        some { s.call with resp := { s.call.resp with leg := l } } :=
      StreamingCall.act_resp_iff.mpr
        ⟨by simpa using hne, _, ResponseFlow.step_leg_iff.mpr ⟨l, hl, rfl⟩, rfl⟩
    simp only [ServedCall.step, hacts, if_true, hcall, Option.map_some]

/-- The steps that depend on the caller's end: the sends of the pump, and the end of the items. -/
theorem acts_not_blind {b : LegAct} (hacts : s.call.Acts (.resp (.leg b)) = true)
    (hb : ¬ Leg.Blind b) : b = .send ∨ b = .takeNone := by
  cases b with
  | send => exact .inl rfl
  | takeNone => exact .inr rfl
  | dropReceiver => cases hacts
  | _ => exact absurd trivial hb

/-! ### What every step keeps -/

/-- The same call, as if the caller had kept its stream. -/
def kept (s : ServedCall) : ServedCall := s.withConsumer false s.call.resp.leg.ended

omit [Deps] in
theorem kept_of_open (hopen : s.call.resp.leg.dropped = false) : s.kept = s := by
  unfold kept withConsumer ResponseFlow.withConsumer Leg.withConsumer
  rw [← hopen]

/-- A step that does not depend on the consumer is one of the call in which it is kept, and leaves
the consumer as it is. -/
theorem step_kept {a : ServedAct} (ha : ∀ b, a = .task (.resp (.leg b)) → Leg.Blind b)
    (hs : ServedCall.step up down h a s = some s') :
    ServedCall.step up down h a s.kept = some s'.kept ∧
      s'.call.resp.leg.dropped = s.call.resp.leg.dropped := by
  have hself : ServedCall.step up down h a s = (ServedCall.step up down h a s).map
      (withConsumer s.call.resp.leg.dropped s.call.resp.leg.ended) :=
    step_withConsumer ha s.call.resp.leg.dropped s.call.resp.leg.ended s
  rw [hs, Option.map_some, Option.some.injEq] at hself
  have hdropped : s'.call.resp.leg.dropped = s.call.resp.leg.dropped := by
    rw [hself]
    rfl
  have hended : s'.call.resp.leg.ended = s.call.resp.leg.ended := by
    rw [hself]
    rfl
  refine ⟨?_, hdropped⟩
  unfold kept
  rw [step_withConsumer ha, hs, hended]
  rfl

/-- What holds in every state: the invariant of the served call, as if the caller had kept its
stream. -/
structure Cancellable (s : ServedCall) : Prop where
  kept : Inv s.kept
  planned : s.call.req.Planned s.todo
  emptied : s.call.resp.leg.dropped = true → s.call.resp.leg.queue = []
  dropsFirst : DropsFirst s

theorem cancellable_start {requests : List Bytes}
    (hsizes : ∀ chunk ∈ requests, chunk.length ≤ usizeMax) : Cancellable (start requests) where
  kept := inv_start hsizes
  planned := RequestFlow.planned_start requests
  emptied := nofun
  dropsFirst := nofun

theorem Inv.with_leg (hi : Inv s) {l : Leg (RpcResult Bytes)} (htidy : l.Tidy)
    (hkept : l.dropped = false) (hclosed : l.closed = s.call.resp.leg.closed) :
    Inv { s with call := { s.call with resp := { s.call.resp with leg := l } } } := by
  refine ⟨hi.req, ⟨htidy, hkept, ?_, hi.resp.left⟩, hi.sizes, hi.serving, hi.outcome, hi.ended⟩
  exact hclosed ▸ hi.resp.closed

theorem Cancellable.tidy (hi : Cancellable s) : s.call.resp.leg.Tidy :=
  ⟨hi.kept.resp.tidy.tail, hi.emptied, hi.kept.resp.tidy.ended⟩

theorem Cancellable.emptied_resp (hi : Cancellable s) {a : ResponseAct} {f : ResponseFlow}
    (hf : s.call.resp.step down a = some f) (hdropped : f.leg.dropped = true) :
    f.leg.queue = [] := by
  by_cases hleg : ∃ b, a = .leg b
  · obtain ⟨b, rfl⟩ := hleg
    obtain ⟨l, hl, rfl⟩ := ResponseFlow.step_leg_iff.mp hf
    exact (hi.tidy.step hl).queue hdropped
  · obtain ⟨hqueue, hsame⟩ := ResponseFlow.step_channel hf fun b hb => hleg ⟨b, hb⟩
    rw [hqueue]
    exact hi.emptied (hsame ▸ hdropped)

theorem Cancellable.emptied_moved (hi : Cancellable s) {a : ServedAct}
    (hs : Moved up down h s a s') :
    s'.call.resp.leg.dropped = true → s'.call.resp.leg.queue = [] := by
  cases hs with
  | send _ hf => exact hi.emptied_resp hf
  | dropResponses _ hf => exact hi.emptied_resp hf
  | ended _ _ hf => exact hi.emptied_resp hf
  | resp _ hf => exact hi.emptied_resp hf
  | _ => exact hi.emptied

theorem planned_moved (hp : s.call.req.Planned s.todo) {a : ServedAct}
    (hs : Moved up down h s a s') :
    s'.call.req.Planned s'.todo ∧
      (s'.requestWeight < s.requestWeight ∨ s'.requestWeight = s.requestWeight) := by
  cases hs with
  | sendFails htodo hout =>
      obtain ⟨hplanned, hlt⟩ := planned_sendFails hp htodo hout
      exact ⟨hplanned, .inl hlt⟩
  | callerSend htodo hf =>
      obtain ⟨hplanned, -, -, hlt⟩ := planned_callerSend hp htodo hf
      exact ⟨hplanned, .inl hlt⟩
  | callerDrop htodo hf =>
      obtain ⟨hplanned, -, -, hlt⟩ := planned_callerDrop hp htodo hf
      exact ⟨hplanned, .inl hlt⟩
  | take _ hf => exact ⟨hp.step hf nofun nofun, .inl (requestWeight_lt hp hf nofun nofun trivial _)⟩
  | takeNone _ hf =>
      exact ⟨hp.step hf nofun nofun, .inl (requestWeight_lt hp hf nofun nofun trivial _)⟩
  | dropRequests _ hf =>
      exact ⟨hp.step hf nofun nofun, .inl (requestWeight_lt hp hf nofun nofun trivial _)⟩
  | req hacts _ hf =>
      obtain ⟨hsend, hdrop, -, -, -, hfresh⟩ := acts_req hacts
      exact ⟨hp.step hf hsend hdrop, .inl (requestWeight_lt hp hf hsend hdrop hfresh _)⟩
  | _ => exact ⟨hp, .inr rfl⟩

theorem Cancellable.kept_leg (hi : Cancellable s) {b : LegAct}
    (hs : ServedCall.step up down h (.task (.resp (.leg b))) s = some s') (hb : ¬ Leg.Blind b) :
    Inv s'.kept := by
  cases hopen : s.call.resp.leg.dropped with
  | false =>
      have hi' : Inv s' := by
        have := hi.kept
        rw [kept_of_open hopen] at this
        exact this.step hs
      rwa [kept_of_open hi'.resp.kept]
  | true =>
      obtain ⟨hacts, -, l, hl, rfl⟩ := step_leg_iff.mp hs
      obtain rfl | rfl := acts_not_blind hacts hb
      · have htidy := hi.tidy.step hl
        have hclosed : l.closed = s.call.resp.leg.closed := Leg.step_closed hl
        exact hi.kept.with_leg (l := l.withConsumer false l.ended)
          ⟨htidy.tail, nofun, htidy.ended⟩ rfl hclosed
      · obtain ⟨-, -, hkept, -⟩ := Leg.step_takeNone_iff.mp hl
        rw [hopen] at hkept
        cases hkept

theorem Cancellable.served (hi : Cancellable s) {a : ServedAct}
    (hs : ServedCall.step up down h a s = some s') : Cancellable s' := by
  have hmoved := moved_of_step hs
  refine ⟨?_, (planned_moved hi.planned hmoved).1, hi.emptied_moved hmoved,
    hi.dropsFirst.step hi.planned.base hmoved⟩
  by_cases hblind : ∀ b, a = .task (.resp (.leg b)) → Leg.Blind b
  · exact hi.kept.step (step_kept hblind hs).1
  · simp only [not_forall] at hblind
    obtain ⟨b, rfl, hb⟩ := hblind
    exact hi.kept_leg hs hb

/-- What happens to a call whose caller may give it up. -/
inductive CancelAct where
  | served (a : ServedAct)
  | dropSender
  | dropResponses
deriving DecidableEq, Repr

/-- One action.  The caller drops its sender before it has sent all its chunks, or its response
stream. -/
def cancelStep (up down : ℕ) (h : RequestHandler) : CancelAct → ServedCall → Option ServedCall
  | .served a, s => ServedCall.step up down h a s
  | .dropSender, s => (s.call.act up down (.req .callerDrop)).map fun call =>
      { s with todo := [], call := call }
  | .dropResponses, s => (s.call.act up down (.resp (.leg .dropReceiver))).map fun call =>
      { s with call := call }

theorem cancelStep_cases {a : CancelAct} (hs : cancelStep up down h a s = some s') :
    (∃ b, a = .served b ∧ ServedCall.step up down h b s = some s') ∨
    (∃ f, s.call.req.step up .callerDrop = some f ∧
      s' = ⟨[], s.handler, ⟨f, s.call.resp⟩⟩) ∨
    ∃ l, s.call.resp.leg.step pumpInboundResponses channelCapacity .dropReceiver = some l ∧
      s' = { s with call := { s.call with resp := { s.call.resp with leg := l } } } := by
  cases a with
  | served b => exact .inl ⟨b, rfl, hs⟩
  | dropSender =>
      obtain ⟨call, hcall, rfl⟩ := Option.map_eq_some_iff.mp hs
      obtain ⟨-, f, hf, rfl⟩ := StreamingCall.act_req_iff.mp hcall
      exact .inr (.inl ⟨f, hf, rfl⟩)
  | dropResponses =>
      obtain ⟨call, hcall, rfl⟩ := Option.map_eq_some_iff.mp hs
      obtain ⟨-, f, hf, rfl⟩ := StreamingCall.act_resp_iff.mp hcall
      obtain ⟨l, hl, rfl⟩ := ResponseFlow.step_leg_iff.mp hf
      exact .inr (.inr ⟨l, hl, rfl⟩)

/-- A caller that drops its sender early has no more to send. -/
theorem planned_dropSender (hp : s.call.req.Planned s.todo) {f : RequestFlow}
    (hf : s.call.req.step up .callerDrop = some f) : f.Planned [] ∧
      requestWeight ⟨[], s.handler, ⟨f, s.call.resp⟩⟩ < s.requestWeight := by
  have hp' : s.call.req.Planned [] := ⟨hp.base, fun _ => rfl, hp.ending⟩
  obtain ⟨hplanned, -, -, hlt⟩ := hp'.drop hf
  refine ⟨hplanned, ?_⟩
  have hle := RequestFlow.weight_nil_le s.todo s.call.req
  unfold requestWeight
  simp only [List.length_nil]
  omega

/-- **The step lemma.** -/
theorem Cancellable.step (hi : Cancellable s) {a : CancelAct}
    (hs : cancelStep up down h a s = some s') : Cancellable s' := by
  obtain ⟨b, -, hb⟩ | ⟨f, hf, rfl⟩ | ⟨l, hl, rfl⟩ := cancelStep_cases hs
  · exact hi.served hb
  · have hcall : s.kept.call.act up down (.req .callerDrop) =
        some { s.kept.call with req := f } := StreamingCall.act_req_iff.mpr ⟨trivial, f, hf, rfl⟩
    have hkept := hi.kept.req_step hcall nofun nofun
    obtain ⟨hplanned, -⟩ := planned_dropSender hi.planned hf
    have hdrops : s.handler = .ended → f.leg.dropped = true := by
      obtain ⟨-, rfl⟩ := RequestFlow.step_callerDrop_iff.mp hf
      exact hi.dropsFirst
    exact ⟨{ hkept with sizes := nofun }, hplanned, hi.emptied, hdrops⟩
  · have htidy := hi.tidy.step hl
    have hclosed : l.closed = s.call.resp.leg.closed := Leg.step_closed hl
    refine ⟨?_, hi.planned, htidy.queue, hi.dropsFirst⟩
    exact hi.kept.with_leg (l := l.withConsumer false l.ended)
      ⟨htidy.tail, nofun, htidy.ended⟩ rfl hclosed

theorem cancellable_of_run {requests : List Bytes}
    (hsizes : ∀ chunk ∈ requests, chunk.length ≤ usizeMax) {as : List CancelAct}
    (hrun : run (cancelStep up down h) as (start requests) = some s) : Cancellable s :=
  (runs_any_iff.mpr hrun).invariant (fun _ _ _ _ hi hs => hi.step hs) (cancellable_start hsizes)

/-! ### A call that is given up winds down -/

/-- What does not depend on the consumer can happen to the call as if it had been kept. -/
theorem step_withConsumer_eq_none {a : ServedAct}
    (ha : ∀ b, a = .task (.resp (.leg b)) → Leg.Blind b) (dropped ended : Bool) :
    ServedCall.step up down h a (s.withConsumer dropped ended) = none ↔
      ServedCall.step up down h a s = none := by
  rw [step_withConsumer ha, Option.map_eq_none_iff]

theorem sends_dropped (hdropped : s.call.resp.leg.dropped = true) {item : RpcResult Bytes}
    {next : FramePump.Next} (hp : s.call.resp.leg.pump = .sending item next) :
    ServedCall.step up down h (.task (.resp (.leg .send))) s ≠ none := by
  obtain ⟨l, hl⟩ : ∃ l, s.call.resp.leg.step pumpInboundResponses channelCapacity .send = some l :=
    ⟨_, Leg.step_send_iff.mpr ⟨item, next, hp, .inl ⟨hdropped, rfl⟩⟩⟩
  have hs : ServedCall.step up down h (.task (.resp (.leg .send))) s =
      some { s with call := { s.call with resp := { s.call.resp with leg := l } } } :=
    step_leg_iff.mpr ⟨rfl, nofun, l, hl, rfl⟩
  rw [hs]
  exact Option.some_ne_none _

/-- Behind a dropped stream the pump returns. -/
theorem pump_returns (hup : 0 < up) (hdown : 0 < down) (hi : Cancellable s)
    (hdropped : s.call.resp.leg.dropped = true)
    (hstuck : ∀ a, ServedCall.step up down h a s = none) : s.call.resp.leg.pump = .done := by
  cases hpump : s.call.resp.leg.pump with
  | done => rfl
  | sending item next => exact absurd (hstuck _) (sends_dropped hdropped hpump)
  | reading =>
      have hopen : s.kept.call.resp.leg.ended = false := by
        cases he : s.call.resp.leg.ended with
        | false => exact he
        | true =>
            have := (hi.tidy.ended he).1
            rw [hpump] at this
            cases this
      obtain ⟨a, s', -, hs⟩ := hi.kept.progress (h := h) hup hdown hopen
      exfalso
      by_cases hblind : ∀ b, a = .task (.resp (.leg b)) → Leg.Blind b
      · rw [kept, (step_withConsumer_eq_none hblind _ _).mpr (hstuck a)] at hs
        cases hs
      · simp only [not_forall] at hblind
        obtain ⟨b, rfl, hb⟩ := hblind
        obtain ⟨hacts, -, l, hl, -⟩ := step_leg_iff.mp hs
        obtain rfl | rfl := acts_not_blind hacts hb
        · obtain ⟨_, _, hsending, -⟩ := Leg.step_send_iff.mp hl
          cases hpump.symm.trans hsending
        · obtain ⟨-, hdone, -⟩ := Leg.step_takeNone_iff.mp hl
          cases hpump.symm.trans hdone

/-- The same call, as if the caller had seen the end. -/
def seen (s : ServedCall) : ServedCall := s.withConsumer false true

omit [Deps] in
theorem unwound_seen : Unwound s.seen ↔ Unwound s :=
  ⟨fun ⟨h1, h2, h3, h4, h5, h6, h7, h8, h9⟩ => ⟨h1, h2, h3, h4, h5, h6, h7, h8, h9⟩,
    fun ⟨h1, h2, h3, h4, h5, h6, h7, h8, h9⟩ => ⟨h1, h2, h3, h4, h5, h6, h7, h8, h9⟩⟩

/-- Behind its pump, a caller that has dropped its stream is like one that has seen the end. -/
theorem Cancellable.seen (up down : ℕ) (h : RequestHandler) (hi : Cancellable s)
    (hdropped : s.call.resp.leg.dropped = true) (hp : s.call.resp.leg.pump = .done) : Inv s.seen ∧
      ∀ a, ServedCall.step up down h a s.seen = none ↔ ServedCall.step up down h a s = none := by
  have hq := hi.emptied hdropped
  refine ⟨?_, fun a => ?_⟩
  · exact hi.kept.with_leg (l := s.call.resp.leg.withConsumer false true)
      ⟨hi.tidy.tail, nofun, fun _ => ⟨hp, hq⟩⟩ rfl rfl
  · by_cases hblind : ∀ b, a = .task (.resp (.leg b)) → Leg.Blind b
    · exact step_withConsumer_eq_none hblind false true
    · simp only [not_forall] at hblind
      obtain ⟨b, rfl, hb⟩ := hblind
      have hnone : ∀ t : ServedCall, t.call.resp.leg.pump = .done →
          t.call.resp.leg.dropped = true ∨ t.call.resp.leg.ended = true →
          ServedCall.step up down h (.task (.resp (.leg b))) t = none := by
        intro t hpt hgone
        rw [Option.eq_none_iff_forall_not_mem]
        intro t' ht
        obtain ⟨hacts, -, l, hl, -⟩ := step_leg_iff.mp ht
        obtain rfl | rfl := acts_not_blind hacts hb
        · obtain ⟨_, _, hsending, -⟩ := Leg.step_send_iff.mp hl
          cases hpt.symm.trans hsending
        · obtain ⟨-, -, hkept, hopen, -⟩ := Leg.step_takeNone_iff.mp hl
          obtain hgone | hgone := hgone
          · cases hkept.symm.trans hgone
          · cases hopen.symm.trans hgone
      rw [hnone s.seen hp (.inr rfl), hnone s hp (.inl hdropped)]

theorem Cancellable.stuck_iff (hup : 0 < up) (hdown : 0 < down) (hi : Cancellable s) :
    (∀ a, ServedCall.step up down h a s = none) ↔
      Unwound s ∧ (s.call.resp.leg.ended = true ∨ s.call.resp.leg.dropped = true) := by
  cases hdropped : s.call.resp.leg.dropped with
  | false =>
      have hinv := hi.kept
      rw [kept_of_open hdropped] at hinv
      constructor
      · intro hstuck
        obtain ⟨hdown, hend⟩ := over_of_stuck hup hdown hinv hi.dropsFirst hstuck
        exact ⟨hdown, .inl hend⟩
      · rintro ⟨hunwound, hend | hgone⟩
        · exact Over.stuck hinv ⟨hunwound, hend⟩
        · cases hgone
  | true =>
      constructor
      · intro hstuck
        have hp := pump_returns hup hdown hi hdropped hstuck
        obtain ⟨hinv, hsame⟩ := hi.seen up down h hdropped hp
        obtain ⟨hunwound, -⟩ := over_of_stuck hup hdown hinv hi.dropsFirst
          fun a => (hsame a).mpr (hstuck a)
        exact ⟨unwound_seen.mp hunwound, .inr rfl⟩
      · rintro ⟨hunwound, -⟩ a
        obtain ⟨hinv, hsame⟩ := hi.seen up down h hdropped hunwound.caller
        exact (hsame a).mp (Over.stuck hinv ⟨unwound_seen.mpr hunwound, rfl⟩ a)

/-- **A call that is given up winds down**: whenever and in whatever order the caller drops its two
ends, the rest of the call cannot go on exactly when every task of it has returned and the caller
has seen the end or dropped its stream. -/
theorem cancelled_windsDown {requests : List Bytes} (hup : 0 < up) (hdown : 0 < down)
    (hsizes : ∀ chunk ∈ requests, chunk.length ≤ usizeMax) {as : List CancelAct}
    (hrun : run (cancelStep up down h) as (start requests) = some s) :
    (∀ a, ServedCall.step up down h a s = none) ↔
      Unwound s ∧ (s.call.resp.leg.ended = true ∨ s.call.resp.leg.dropped = true) :=
  (cancellable_of_run hsizes hrun).stuck_iff hup hdown

/-! ### No schedule goes on forever -/

/-- What a turn of the handler costs. -/
def turnWeight : HandlerTurn → ℕ
  | .sending _ left _ => 3 + left.length
  | .reading => 2
  | .returning _ => 1
  | .ended => 0

/-- What the handler has still to do behind what it has read. -/
def handlerWeight (s : ServedCall) : ℕ :=
  turnWeight s.handler + (!s.call.resp.sendersDropped).toNat

omit [Deps] in
theorem turnWeight_goOn_le (left : List Bytes) (next : Option (RpcResult Unit)) :
    turnWeight (.goOn left next) ≤ 2 + left.length := by
  unfold HandlerTurn.goOn
  cases left with
  | nil => cases next <;> simp [turnWeight]
  | cons chunk left =>
      simp only [turnWeight, List.length_cons]
      omega

/-- The request direction counts for most, then the handler, whose replies are not known before it
has read, and then what its replies have still to become. -/
def measure (s : ServedCall) : ℕ ×ₗ ℕ ×ₗ ℕ ×ₗ ℕ :=
  toLex (s.requestWeight, toLex (s.handlerWeight, toLex (s.call.resp.stage, s.call.resp.bytesLeft)))

omit [Deps] in
theorem measure_lt_of_request (h : s'.requestWeight < s.requestWeight) :
    s'.measure < s.measure :=
  Prod.Lex.toLex_lt_toLex.mpr (.inl h)

omit [Deps] in
theorem measure_lt_of_handler (hreq : s'.requestWeight = s.requestWeight)
    (h : s'.handlerWeight < s.handlerWeight) : s'.measure < s.measure :=
  Prod.Lex.toLex_lt_toLex.mpr (.inr ⟨hreq, Prod.Lex.toLex_lt_toLex.mpr (.inl h)⟩)

omit [Deps] in
theorem measure_lt_of_response (hreq : s'.requestWeight = s.requestWeight)
    (hhandler : s'.handlerWeight = s.handlerWeight)
    (h : s'.call.resp.stage < s.call.resp.stage ∨ s'.call.resp.stage = s.call.resp.stage ∧
      s'.call.resp.bytesLeft < s.call.resp.bytesLeft) : s'.measure < s.measure :=
  Prod.Lex.toLex_lt_toLex.mpr
    (.inr ⟨hreq, Prod.Lex.toLex_lt_toLex.mpr (.inr ⟨hhandler, Prod.Lex.toLex_lt_toLex.mpr h⟩)⟩)

theorem measure_moved (hp : s.call.req.Planned s.todo) {a : ServedAct}
    (hs : Moved up down h s a s') :
    s'.measure < s.measure := by
  cases hs with
  | sendFails htodo hout => exact measure_lt_of_request (planned_sendFails hp htodo hout).2
  | callerSend htodo hf => exact measure_lt_of_request (planned_callerSend hp htodo hf).2.2.2
  | callerDrop htodo hf => exact measure_lt_of_request (planned_callerDrop hp htodo hf).2.2.2
  | take _ hf => exact measure_lt_of_request (requestWeight_lt hp hf nofun nofun trivial _)
  | takeNone _ hf => exact measure_lt_of_request (requestWeight_lt hp hf nofun nofun trivial _)
  | dropRequests _ hf => exact measure_lt_of_request (requestWeight_lt hp hf nofun nofun trivial _)
  | req hacts _ hf =>
      obtain ⟨hsend, hdrop, -, -, -, hfresh⟩ := acts_req hacts
      exact measure_lt_of_request (requestWeight_lt hp hf hsend hdrop hfresh _)
  | breaks hh _ =>
      refine measure_lt_of_handler rfl ?_
      simp only [handlerWeight, hh, turnWeight]
      omega
  | send hh hf =>
      rename_i chunk left next f
      have hsenders : f.sendersDropped = s.call.resp.sendersDropped :=
        (ResponseFlow.step_handler_kept hf nofun nofun).1
      have hle := turnWeight_goOn_le left next
      have hturn : turnWeight (.sending chunk left next) = 3 + left.length := rfl
      refine measure_lt_of_handler rfl ?_
      simp only [handlerWeight, hh, hsenders, hturn]
      omega
  | dropResponses hh hf =>
      obtain ⟨hopen, rfl⟩ := ResponseFlow.step_handlerDrop_iff.mp hf
      refine measure_lt_of_handler rfl ?_
      simp [handlerWeight, hopen]
  | ended hh _ hf =>
      obtain ⟨-, rfl⟩ := ResponseFlow.step_handlerEnd_iff.mp hf
      refine measure_lt_of_handler rfl ?_
      simp [handlerWeight, hh, turnWeight]
  | resp hacts hf =>
      have hinner := acts_resp hacts
      have hsenders := (ResponseFlow.step_handler_kept hf (by rintro rfl; cases hinner)
        (by rintro o rfl; cases hinner)).1
      exact measure_lt_of_response rfl (by simp only [handlerWeight, hsenders])
        (ResponseFlow.step_brings_on hf hinner)

/-- **Every step decreases the measure**, the ones by which the caller gives up included. -/
theorem Cancellable.measure_lt (hi : Cancellable s) {a : CancelAct}
    (hs : cancelStep up down h a s = some s') : s'.measure < s.measure := by
  obtain ⟨b, -, hb⟩ | ⟨f, hf, rfl⟩ | ⟨l, hl, rfl⟩ := cancelStep_cases hs
  · exact measure_moved hi.planned (moved_of_step hb)
  · exact measure_lt_of_request (planned_dropSender hi.planned hf).2
  · refine measure_lt_of_response rfl rfl (.inr ⟨rfl, ?_⟩)
    have := Leg.weight_step hl nofun
    unfold ResponseFlow.bytesLeft
    dsimp only
    omega

/-- **Giving a call up takes it down**: no schedule goes on forever, whatever the handler replies
and whenever its caller gives up, and behind every point of one the call can still come to where
nothing of it is left. -/
theorem cancelled_ends {requests : List Bytes} (hup : 0 < up) (hdown : 0 < down)
    (hsizes : ∀ chunk ∈ requests, chunk.length ≤ usizeMax) {as : List CancelAct}
    (hrun : run (cancelStep up down h) as (start requests) = some s) :
    (¬ ∃ f : ℕ → ServedCall, f 0 = s ∧
      ∀ n, ∃ a, cancelStep up down h a (f n) = some (f (n + 1))) ∧
    ∃ bs s', run (ServedCall.step up down h) bs s = some s' ∧ Unwound s' ∧
      (s'.call.resp.leg.ended = true ∨ s'.call.resp.leg.dropped = true) := by
  have hi := cancellable_of_run hsizes hrun
  constructor
  · have hacc : Acc (Stepped (cancelStep up down h)) s :=
      acc_of_decreasing wellFounded_lt measure
        (fun _ _ _ hi hs => ⟨hi.step hs, hi.measure_lt hs⟩) hi
    exact fun hforever => not_acc_iff_exists_descending_chain.mpr hforever hacc
  · have hacc : Acc (Stepped (ServedCall.step up down h)) s :=
      acc_of_decreasing wellFounded_lt measure
        (fun _ _ _ hi hs => ⟨hi.served hs, measure_moved hi.planned (moved_of_step hs)⟩) hi
    obtain ⟨bs, s', hrun', hfinal⟩ := exists_final hacc
    have hi' : Cancellable s' :=
      (runs_any_iff.mpr hrun').invariant (fun _ _ _ _ hi hs => hi.served hs) hi
    exact ⟨bs, s', hrun', (hi'.stuck_iff hup hdown).mp hfinal⟩

end steps

section reference

attribute [local instance] reference

/-- The caller drops its response stream and its sender while the first of its two chunks is on the
wire. -/
def givenUp : List CancelAct :=
  [.served .callerSend, .served (.task (.req .recv)), .served (.task (.req (.write 3))),
    .dropResponses, .dropSender]

/-- What is left of it. -/
def givenUpRest : List ServedAct :=
  [.task (.req .recv), .task (.req (.leg (.deliver 3))), .task (.req (.leg .read)),
    .task (.req (.leg .send)), .task (.req (.write 1)), .handlerTake, .handlerSend,
    .task (.resp .recv), .task (.resp (.write 3)), .task (.resp (.leg (.deliver 3))),
    .task (.resp (.leg .read)), .task (.resp (.leg .send)), .task (.req (.leg (.deliver 1))),
    .task (.req (.leg .read)), .handlerNone, .handlerDropRequests, .handlerDropResponses,
    .handlerEnd, .task (.resp .recv), .task (.resp .join), .task (.resp .writeFails),
    .task (.resp .finish)]

def abandoned : ServedCall :=
  ⟨[], .ended,
    ⟨⟨[[1]], true, [], .done, ⟨[], true, ⟨[], .live⟩, .done, [], [.ok [1]], true, true⟩⟩,
      ⟨[], true, some (.returned (.ok ())), .done,
        ⟨[], true, ⟨[], .live⟩, .done, [], [], true, false⟩⟩⟩⟩

theorem run_abandoned : run (cancelStep 3 3 echoHandler)
    (givenUp ++ givenUpRest.map .served) (start [[1], [2]]) = some abandoned := by
  decide +kernel

theorem cancelled_windsDown_givenUp :
    Unwound abandoned ∧ ¬ ∃ a, ServedCall.step 3 3 echoHandler a abandoned ≠ none := by
  have hunwound : Unwound abandoned := ⟨rfl, rfl, rfl, rfl, rfl, rfl, rfl, rfl, rfl⟩
  have hstuck := (cancelled_windsDown (h := echoHandler) (by decide) (by decide) (by decide)
    run_abandoned).mpr ⟨hunwound, .inr rfl⟩
  exact ⟨hunwound, fun ⟨a, hstep⟩ => hstep (hstuck a)⟩

theorem cancelled_ends_givenUp : ∃ s, run (cancelStep 3 3 echoHandler) givenUp
    (start [[1], [2]]) = some s ∧ ∃ bs s', run (ServedCall.step 3 3 echoHandler) bs s = some s' ∧
      Unwound s' := by
  obtain ⟨s, hs⟩ : ∃ s, run (cancelStep 3 3 echoHandler) givenUp (start [[1], [2]]) = some s :=
    Option.isSome_iff_exists.mp (by decide +kernel)
  obtain ⟨-, bs, s', hrun, hunwound, -⟩ :=
    cancelled_ends (h := echoHandler) (by decide) (by decide) (by decide) hs
  exact ⟨s, hs, bs, s', hrun, hunwound⟩

end reference

end ServedCall

end NerwRpc
