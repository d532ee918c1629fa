import NerwRpc.Datagram
import NerwRpc.KeyedHistory
import NerwRpc.Reference
import NerwRpc.Transition

/-! # Datagram routing over any history

Registrations, removals and calls of `dispatch` on one dispatcher, interleaved in any order; each
access to the table is one step.  The trace records what happened, in order, and with it the
instant at which every call looked its handler up.

* `Inv.step`: the table holds under every id what the trace registered there last, and what each
  call has done since its lookup is what the table said then.
* `dispatch_exact`: so every frame goes, exactly once and with exactly its payload, to the handler
  that was registered under its id at that instant; or to nobody. -/

namespace NerwRpc

open Transition KeyedHistory

/-- What happens to a dispatcher. -/
inductive RouteEvent (H : Type) where
  | registered (streamId : UInt64) (handler : H)
  | refused (streamId : UInt64)
  | unregistered (streamId : UInt64)
  | lookedUp (call : ℕ)
  | invoked (call : ℕ) (handler : H) (ctx : RpcContext) (payload : Bytes)
  | returned (call : ℕ) (outcome : Outcome)
deriving DecidableEq, Repr

namespace RouteEvent

variable {H : Type}

/-- The call an event belongs to. -/
def call : RouteEvent H → Option ℕ
  | registered _ _ | refused _ | unregistered _ => none
  | lookedUp i | invoked i _ _ _ | returned i _ => some i

/-- A registration that succeeded puts its handler, a removal drops it. -/
def touch : RouteEvent H → UInt64 → Touch H
  | registered streamId handler, k => if k = streamId then .put handler else .leave
  | unregistered streamId, k => if k = streamId then .drop else .leave
  | _, _ => .leave

theorem touch_of_call {e : RouteEvent H} {i : ℕ} (h : e.call = some i) (k : UInt64) :
    e.touch k = .leave := by
  cases e with
  | registered _ _ => cases h
  | refused _ => cases h
  | unregistered _ => cases h
  | _ => rfl

end RouteEvent

/-- A dispatcher, the calls of `dispatch` on it, and what has happened. -/
structure Routing (H : Type) where
  dispatcher : DatagramDispatcher H
  calls : List (Dispatch H)
  trace : List (RouteEvent H)

inductive RouteAct (H : Type) where
  | register (streamId : UInt64) (handler : H)
  | unregister (streamId : UInt64)
  | dispatch (ctx : RpcContext) (frame : Bytes)
  | call (i : ℕ) (a : DispatchAct)

namespace Routing

variable {H : Type}

def start (d : DatagramDispatcher H) : Routing H := ⟨d, [], []⟩

/-- What a move of call `i` into `c` is in the trace. -/
def moved (i : ℕ) (c : Dispatch H) : DispatchAct → RouteEvent H
  | .lookup => .lookedUp i
  | .invoke => match c.phase with
    | .handling handler payload => .invoked i handler c.ctx payload
    | _ => .lookedUp i
  | .handlerEnds outcome => .returned i outcome

/-! ### What has been invoked -/

/-- The events of one call. -/
def eventsOf (i : ℕ) (trace : List (RouteEvent H)) : List (RouteEvent H) :=
  trace.filter fun e => e.call = some i

/-- The handlers one call has invoked, with what it handed to them. -/
def invocations (i : ℕ) (trace : List (RouteEvent H)) : List (H × RpcContext × Bytes) :=
  trace.filterMap fun
    | .invoked j handler ctx payload => if j = i then some (handler, ctx, payload) else none
    | _ => none

section events

variable {i : ℕ} {trace : List (RouteEvent H)} {e : RouteEvent H}

theorem eventsOf_append (xs ys : List (RouteEvent H)) :
    eventsOf i (xs ++ ys) = eventsOf i xs ++ eventsOf i ys := List.filter_append ..

theorem eventsOf_singleton_other (h : e.call ≠ some i) : eventsOf i [e] = [] := by
  unfold eventsOf
  simp [h]

theorem eventsOf_singleton_self (h : e.call = some i) : eventsOf i [e] = [e] := by
  unfold eventsOf
  simp [h]

theorem eventsOf_eq_nil (h : ∀ e ∈ trace, e.call ≠ some i) : eventsOf i trace = [] := by
  unfold eventsOf
  rw [List.filter_eq_nil_iff]
  intro e he
  simpa using h e he

theorem invocations_eventsOf (trace : List (RouteEvent H)) :
    invocations i trace = invocations i (eventsOf i trace) := by
  induction trace with
  | nil => rfl
  | cons e trace ih =>
      unfold eventsOf invocations at *
      by_cases h : e.call = some i
      · simp only [List.filter_cons, h, decide_true, if_true, List.filterMap_cons, ih]
      · rw [List.filter_cons, if_neg (by simpa using h), ← ih, List.filterMap_cons]
        cases e with
        | invoked j handler ctx payload =>
            have hj : j ≠ i := fun hj => h (by rw [hj]; rfl)
            simp [hj]
        | _ => rfl

theorem not_mem_of_eventsOf (h : eventsOf i trace = []) (he : e.call = some i) : e ∉ trace := by
  intro hmem
  have : e ∈ eventsOf i trace := List.mem_filter.mpr ⟨hmem, by simpa using he⟩
  rw [h] at this
  cases this

end events

/-! ### What a call does -/

/-- What has happened in a call since its lookup, when `route` on the table it read gave
`found`. -/
def Since (i : ℕ) (c : Dispatch H) (found : RpcResult (H × Bytes)) (events : List (RouteEvent H)) :
    Prop :=
  match found with
  | .error e => c.phase = .ended (.returned (.error e)) ∧ events = []
  | .ok (handler, payload) =>
      (c.phase = .found handler payload ∧ events = []) ∨
      (c.phase = .handling handler payload ∧ events = [.invoked i handler c.ctx payload]) ∨
      ∃ outcome, c.phase = .ended outcome ∧
        events = [.invoked i handler c.ctx payload, .returned i outcome]

/-- When call `i` looked up, the handler registered last under the id and not unregistered since
was `handler?`. -/
def FoundAt (i : ℕ) (streamId : UInt64) (trace : List (RouteEvent H)) (handler? : Option H) :
    Prop :=
  ∃ before after, trace = before ++ .lookedUp i :: after ∧
    .lookedUp i ∉ before ∧ .lookedUp i ∉ after ∧
    ∀ handler, handler? = some handler ↔ LastPut RouteEvent.touch streamId handler before

section since

variable {i : ℕ} {c : Dispatch H} {before after : List (RouteEvent H)}

theorem Since.phase_ne_started {found : RpcResult (H × Bytes)} {events : List (RouteEvent H)}
    (h : Since i c found events) : c.phase ≠ .started := by
  intro hp
  unfold Since at h
  split at h
  · rw [hp] at h
    cases h.1
  · rw [hp] at h
    obtain ⟨h, -⟩ | ⟨h, -⟩ | ⟨_, h, -⟩ := h <;> cases h

theorem Since.of_found {found : RpcResult (H × Bytes)} {events : List (RouteEvent H)} {handler : H}
    {payload : Bytes} (h : Since i c found events) (hp : c.phase = .found handler payload) :
    found = .ok (handler, payload) ∧ events = [] := by
  unfold Since at h
  split at h
  · rw [hp] at h
    cases h.1
  · rw [hp] at h
    obtain ⟨h, he⟩ | ⟨h, -⟩ | ⟨_, h, -⟩ := h
    · cases h
      exact ⟨rfl, he⟩
    · cases h
    · cases h

theorem Since.of_handling {found : RpcResult (H × Bytes)} {events : List (RouteEvent H)}
    {handler : H} {payload : Bytes} (h : Since i c found events)
    (hp : c.phase = .handling handler payload) :
    found = .ok (handler, payload) ∧ events = [.invoked i handler c.ctx payload] := by
  unfold Since at h
  split at h
  · rw [hp] at h
    cases h.1
  · rw [hp] at h
    obtain ⟨h, -⟩ | ⟨h, he⟩ | ⟨_, h, -⟩ := h
    · cases h
    · cases h
      exact ⟨rfl, he⟩
    · cases h

theorem moved_call (i : ℕ) (c : Dispatch H) (a : DispatchAct) : (moved i c a).call = some i := by
  cases a with
  | invoke => cases hp : c.phase <;> simp [moved, hp, RouteEvent.call]
  | _ => rfl

theorem invocations_lookedUp (hbefore : eventsOf i before = []) :
    invocations i (before ++ .lookedUp i :: after) = invocations i (eventsOf i after) := by
  have hcons : before ++ .lookedUp i :: after = (before ++ [.lookedUp i]) ++ after := by simp
  rw [invocations_eventsOf, hcons, eventsOf_append, eventsOf_append, hbefore,
    eventsOf_singleton_self (e := .lookedUp i) rfl]
  rfl

theorem Since.lookedUp_not_mem {found : RpcResult (H × Bytes)}
    (h : Since i c found (eventsOf i after)) : .lookedUp i ∉ after := by
  intro hmem
  have hev : .lookedUp i ∈ eventsOf i after := List.mem_filter.mpr ⟨hmem, by simp [RouteEvent.call]⟩
  unfold Since at h
  split at h
  · rw [h.2] at hev
    cases hev
  · obtain ⟨-, he⟩ | ⟨-, he⟩ | ⟨_, -, he⟩ := h <;> rw [he] at hev <;> simp at hev

/-- What the table held at the lookup is what the trace registered before it. -/
theorem foundAt_of_table {streamId : UInt64} {handlers : HandlerTable H}
    (htable : ∀ k, handlers.get k = last RouteEvent.touch k before)
    (hbefore : eventsOf i before = []) (hafter : .lookedUp i ∉ after) :
    FoundAt i streamId (before ++ .lookedUp i :: after) (handlers.get streamId) := by
  refine ⟨before, after, rfl, not_mem_of_eventsOf hbefore rfl, hafter, ?_⟩
  intro handler
  rw [← last_eq_some_iff, htable]

end since

section run

variable [Deps]

def step : RouteAct H → Routing H → Option (Routing H)
  | .register streamId handler, s => match s.dispatcher.register streamId handler with
    | (.ok (), d) => some { s with dispatcher := d
                                   trace := s.trace ++ [.registered streamId handler] }
    | (.error _, d) => some { s with dispatcher := d, trace := s.trace ++ [.refused streamId] }
  | .unregister streamId, s =>
      some { s with dispatcher := (s.dispatcher.unregister streamId).2
                    trace := s.trace ++ [.unregistered streamId] }
  | .dispatch ctx frame, s => some { s with calls := s.calls ++ [Dispatch.start ctx frame] }
  | .call i a, s => match s.calls[i]? with
    | none => none
    | some c => match c.step s.dispatcher.handlers a with
      | none => none
      | some c' => some { s with calls := s.calls.set i c', trace := s.trace ++ [moved i c' a] }

/-- The call of a frame `[streamId | payload]`: it has not looked up yet; it has found a handler,
invoked it once when it got that far, and ends as it does; or it has found none. -/
def Routed (i : ℕ) (c : Dispatch H) (streamId : UInt64) (payload : Bytes)
    (trace : List (RouteEvent H)) : Prop :=
  (c.phase = .started ∧ invocations i trace = []) ∨
  (∃ handler, FoundAt i streamId trace (some handler) ∧
    ((c.phase = .found handler payload ∧ invocations i trace = []) ∨
      (c.phase = .handling handler payload ∨ ∃ outcome, c.phase = .ended outcome) ∧
        invocations i trace = [(handler, c.ctx, payload)])) ∨
  FoundAt i streamId trace none ∧ invocations i trace = [] ∧
    c.phase = .ended (.returned (.error (.datagramStreamIdUnknown streamId)))

/-- A frame that cannot be routed: the call returns the error and invokes nobody. -/
def Rejected (i : ℕ) (c : Dispatch H) (e : RpcError) (trace : List (RouteEvent H)) : Prop :=
  (c.phase = .started ∨ c.phase = .ended (.returned (.error e))) ∧ invocations i trace = []

/-! ### The invariant -/

/-- A call has not looked up, or it looked up in a table that held what was registered. -/
def CallInv (i : ℕ) (c : Dispatch H) (trace : List (RouteEvent H)) : Prop :=
  (c.phase = .started ∧ eventsOf i trace = []) ∨
  ∃ before after, ∃ handlers : HandlerTable H, trace = before ++ .lookedUp i :: after ∧
    eventsOf i before = [] ∧
    (∀ streamId, handlers.get streamId = last RouteEvent.touch streamId before) ∧
    Since i c (route handlers c.frame) (eventsOf i after)

structure Inv (s : Routing H) : Prop where
  table : ∀ streamId, s.dispatcher.handlers.get streamId =
    last RouteEvent.touch streamId s.trace
  calls : ∀ i c, s.calls[i]? = some c → CallInv i c s.trace
  known : ∀ e ∈ s.trace, ∀ i, e.call = some i → i < s.calls.length

section calls

variable {i : ℕ} {trace : List (RouteEvent H)} {e : RouteEvent H} {c c' : Dispatch H}

/-- An event of another call, or of none, changes nothing for a call. -/
theorem CallInv.other (h : CallInv i c trace) (he : e.call ≠ some i) :
    CallInv i c (trace ++ [e]) := by
  obtain ⟨hp, hev⟩ | ⟨before, after, handlers, rfl, hbefore, htable, hsince⟩ := h
  · refine .inl ⟨hp, ?_⟩
    rw [eventsOf_append, hev, eventsOf_singleton_other he]
    rfl
  · refine .inr ⟨before, after ++ [e], handlers, by simp, hbefore, htable, ?_⟩
    rw [eventsOf_append, eventsOf_singleton_other he, List.append_nil]
    exact hsince

theorem CallInv.advance (h : CallInv i c trace) (hphase : c.phase ≠ .started)
    (hframe : c'.frame = c.frame) (he : e.call = some i)
    (hsince : ∀ found events, Since i c found events → Since i c' found (events ++ [e])) :
    CallInv i c' (trace ++ [e]) := by
  obtain ⟨hp, -⟩ | ⟨before, after, handlers, rfl, hbefore, htable, hs⟩ := h
  · exact absurd hp hphase
  · refine .inr ⟨before, after ++ [e], handlers, by simp, hbefore, htable, ?_⟩
    rw [eventsOf_append, eventsOf_singleton_self he, hframe]
    exact hsince _ _ hs

/-- **A move of the call itself** keeps its invariant. -/
theorem CallInv.move {handlers : HandlerTable H} {a : DispatchAct} (h : CallInv i c trace)
    (htable : ∀ streamId, handlers.get streamId = last RouteEvent.touch streamId trace)
    (hstep : c.step handlers a = some c') : CallInv i c' (trace ++ [moved i c' a]) := by
  obtain ⟨rfl, hp, rfl⟩ | ⟨handler, payload, rfl, hp, rfl⟩ |
    ⟨handler, payload, outcome, rfl, hp, rfl⟩ := Dispatch.step_cases hstep
  · -- the lookup: this is the instant at which the table is read
    obtain ⟨-, hev⟩ | ⟨_, _, _, _, _, _, hs⟩ := h
    · refine .inr ⟨trace, [], handlers, rfl, hev, htable, ?_⟩
      dsimp only [moved, eventsOf, List.filter_nil]
      cases route handlers c.frame with
      | error e => exact ⟨rfl, rfl⟩
      | ok found => exact .inl ⟨rfl, rfl⟩
    · exact absurd hp hs.phase_ne_started
  · refine h.advance (by rw [hp]; intro hc; cases hc) rfl rfl ?_
    intro found events hs
    obtain ⟨rfl, rfl⟩ := hs.of_found hp
    exact .inr (.inl ⟨rfl, rfl⟩)
  · refine h.advance (by rw [hp]; intro hc; cases hc) rfl rfl ?_
    intro found events hs
    obtain ⟨rfl, rfl⟩ := hs.of_handling hp
    exact .inr (.inr ⟨outcome, rfl, rfl⟩)

end calls

/-! ### One step -/

section steps

variable {s s' : Routing H} {a : RouteAct H}

theorem step_cases (h : step a s = some s') :
    (∃ streamId handler, a = .register streamId handler ∧
      s.dispatcher.handlers.get streamId = none ∧
      s' = { s with dispatcher :=
                      { s.dispatcher with handlers :=
                          s.dispatcher.handlers.insert streamId handler }
                    trace := s.trace ++ [.registered streamId handler] }) ∨
    (∃ streamId, s' = { s with trace := s.trace ++ [.refused streamId] }) ∨
    (∃ streamId, a = .unregister streamId ∧
      s' = { s with dispatcher :=
                      { s.dispatcher with handlers := s.dispatcher.handlers.erase streamId }
                    trace := s.trace ++ [.unregistered streamId] }) ∨
    (∃ ctx frame, a = .dispatch ctx frame ∧
      s' = { s with calls := s.calls ++ [Dispatch.start ctx frame] }) ∨
    ∃ i b c c', a = .call i b ∧ s.calls[i]? = some c ∧
      c.step s.dispatcher.handlers b = some c' ∧
      s' = { s with calls := s.calls.set i c', trace := s.trace ++ [moved i c' b] } := by
  cases a with
  | register streamId handler =>
      cases hid : s.dispatcher.handlers.get streamId with
      | none =>
          simp only [step, DatagramDispatcher.register_vacant hid] at h
          cases h
          exact .inl ⟨streamId, handler, rfl, hid, rfl⟩
      | some old =>
          simp only [step, DatagramDispatcher.register_occupied hid] at h
          cases h
          exact .inr (.inl ⟨streamId, rfl⟩)
  | unregister streamId =>
      cases h
      exact .inr (.inr (.inl ⟨streamId, rfl, rfl⟩))
  | dispatch ctx frame =>
      cases h
      exact .inr (.inr (.inr (.inl ⟨ctx, frame, rfl, rfl⟩)))
  | call i b =>
      cases hc : s.calls[i]? with
      | none => simp only [step, hc] at h; cases h
      | some c =>
          cases hs : c.step s.dispatcher.handlers b with
          | none => simp only [step, hc, hs] at h; cases h
          | some c' =>
              simp only [step, hc, hs] at h
              cases h
              exact .inr (.inr (.inr (.inr ⟨i, b, c, c', rfl, hc, hs, rfl⟩)))

theorem Inv.event (hi : Inv s) {d : DatagramDispatcher H} {e : RouteEvent H} (he : e.call = none)
    (htable : ∀ k, d.handlers.get k = (e.touch k).apply (s.dispatcher.handlers.get k)) :
    Inv { s with dispatcher := d, trace := s.trace ++ [e] } where
  table := by
    intro k
    rw [last_append_singleton, htable, hi.table]
  calls := by
    intro i c hc
    exact (hi.calls i c hc).other (by rw [he]; exact nofun)
  known := by
    intro e' he' i hcall
    obtain he' | he' := List.mem_append.mp he'
    · exact hi.known e' he' i hcall
    · rw [List.mem_singleton.mp he', he] at hcall
      cases hcall

theorem Inv.dispatch (hi : Inv s) (ctx : RpcContext) (frame : Bytes) :
    Inv { s with calls := s.calls ++ [Dispatch.start ctx frame] } where
  table := hi.table
  calls := by
    intro i c hc
    obtain hlt | hge := Nat.lt_or_ge i s.calls.length
    · rw [List.getElem?_append_left hlt] at hc
      exact hi.calls i c hc
    · rw [List.getElem?_append_right hge] at hc
      obtain rfl : Dispatch.start ctx frame = c := by
        cases hn : i - s.calls.length with
        | zero => simpa [hn] using hc
        | succ n => simp [hn] at hc
      refine .inl ⟨rfl, eventsOf_eq_nil ?_⟩
      intro e he hcall
      have := hi.known e he i hcall
      omega
  known := by
    intro e he i hcall
    have := hi.known e he i hcall
    rw [List.length_append]
    omega

theorem Inv.call (hi : Inv s) {i : ℕ} {b : DispatchAct} {c c' : Dispatch H}
    (hc : s.calls[i]? = some c) (hs : c.step s.dispatcher.handlers b = some c') :
    Inv { s with calls := s.calls.set i c', trace := s.trace ++ [moved i c' b] } where
  table := by
    intro k
    rw [last_append_leave (RouteEvent.touch_of_call (moved_call i c' b) k)]
    exact hi.table k
  calls := by
    intro j cj hj
    by_cases hij : i = j
    · subst hij
      obtain rfl : c' = cj := by
        simpa [List.getElem?_set_self (List.getElem?_eq_some_iff.mp hc).1] using hj
      exact (hi.calls i c hc).move hi.table hs
    · rw [List.getElem?_set_ne hij] at hj
      refine (hi.calls j cj hj).other ?_
      rw [moved_call]
      intro heq
      exact hij (Option.some.inj heq)
  known := by
    intro e he j hej
    rw [List.length_set]
    obtain he | he := List.mem_append.mp he
    · exact hi.known e he j hej
    · rw [List.mem_singleton.mp he, moved_call] at hej
      cases hej
      exact (List.getElem?_eq_some_iff.mp hc).1

theorem Inv.start {max : ℕ} {d : DatagramDispatcher H}
    (hd : DatagramDispatcher.withMaxInFlight max = some d) : Inv (start d) := by
  unfold DatagramDispatcher.withMaxInFlight at hd
  split_ifs at hd
  cases hd
  exact ⟨fun _ => rfl, fun _ _ h => (nomatch h), by intro e he; cases he⟩

/-- **The step lemma.** -/
theorem Inv.step (hi : Inv s) (h : step a s = some s') : Inv s' := by
  obtain ⟨streamId, handler, -, hid, rfl⟩ | ⟨streamId, rfl⟩ | ⟨streamId, -, rfl⟩ |
    ⟨ctx, frame, -, rfl⟩ | ⟨i, b, c, c', -, hc, hs, rfl⟩ := step_cases h
  · apply hi.event rfl
    intro k
    rw [HandlerTable.get_insert]
    by_cases hk : k = streamId <;> simp [RouteEvent.touch, hk, Touch.apply]
  · exact hi.event rfl fun _ => rfl
  · apply hi.event rfl
    intro k
    rw [HandlerTable.get_erase]
    by_cases hk : k = streamId <;> simp [RouteEvent.touch, hk, Touch.apply]
  · exact hi.dispatch ctx frame
  · exact hi.call hc hs

theorem Inv.run (hi : Inv s) {as : List (RouteAct H)}
    (h : Transition.run Routing.step as s = some s') :
    Inv s' :=
  (runs_any_iff.mpr h).invariant (fun _ _ _ _ hi hs => Inv.step hi hs) hi

end steps

/-! ### Where a frame goes -/

section routed

variable {i : ℕ} {c : Dispatch H} {trace : List (RouteEvent H)}

theorem CallInv.decoded {streamId : ℕ} {payload : Bytes} (h : CallInv i c trace)
    (hframe : decodeStreamId c.frame = .ok (streamId, payload)) :
    Routed i c (UInt64.ofNat streamId) payload trace := by
  generalize hsid : UInt64.ofNat streamId = sid
  obtain ⟨hp, hev⟩ | ⟨before, after, handlers, rfl, hbefore, htable, hs⟩ := h
  · refine .inl ⟨hp, ?_⟩
    rw [invocations_eventsOf, hev]
    rfl
  · have hfound : FoundAt i sid (before ++ .lookedUp i :: after) (handlers.get sid) :=
      foundAt_of_table htable hbefore hs.lookedUp_not_mem
    have hinv : invocations i (before ++ .lookedUp i :: after) = invocations i (eventsOf i after) :=
      invocations_lookedUp hbefore
    rw [route_decoded hframe, hsid] at hs
    cases hid : handlers.get sid with
    | none =>
        rw [hid] at hs hfound
        obtain ⟨hp, he⟩ := hs
        refine .inr (.inr ⟨hfound, ?_, hp⟩)
        rw [hinv, he]
        rfl
    | some handler =>
        rw [hid] at hs hfound
        refine .inr (.inl ⟨handler, hfound, ?_⟩)
        rw [hinv]
        obtain ⟨hp, he⟩ | ⟨hp, he⟩ | ⟨outcome, hp, he⟩ := hs
        · refine .inl ⟨hp, ?_⟩
          rw [he]
          rfl
        · refine .inr ⟨.inl hp, ?_⟩
          rw [he]
          simp [invocations]
        · refine .inr ⟨.inr ⟨outcome, hp⟩, ?_⟩
          rw [he]
          simp [invocations]

theorem CallInv.routed {streamId : UInt64} {payload : Bytes} (h : CallInv i c trace)
    (hframe : c.frame = encodeStreamId streamId [] ++ payload) :
    Routed i c streamId payload trace := by
  have hdecoded : decodeStreamId c.frame = .ok (streamId.toNat, payload) := by
    rw [hframe, decodeStreamId_encode]
  have hrouted := h.decoded hdecoded
  rwa [UInt64.ofNat_toNat] at hrouted

theorem CallInv.rejected {e : RpcError} (h : CallInv i c trace)
    (he : ∀ handlers : HandlerTable H, route handlers c.frame = .error e) :
    Rejected i c e trace := by
  obtain ⟨hp, hev⟩ | ⟨before, after, handlers, rfl, hbefore, -, hs⟩ := h
  · refine ⟨.inl hp, ?_⟩
    rw [invocations_eventsOf, hev]
    rfl
  · rw [he handlers] at hs
    refine ⟨.inr hs.1, ?_⟩
    rw [invocations_lookedUp hbefore, hs.2]
    rfl

end routed

theorem call_keeps_dispatcher {s s' : Routing H} {i : ℕ} {b : DispatchAct}
    (h : step (.call i b) s = some s') : s'.dispatcher = s.dispatcher := by
  obtain ⟨_, _, ha, -⟩ | ⟨_, rfl⟩ | ⟨_, ha, -⟩ | ⟨_, _, ha, -⟩ | ⟨_, _, _, _, -, -, -, rfl⟩ :=
    step_cases h
  · cases ha
  · rfl
  · cases ha
  · cases ha
  · rfl

/-- **Datagram routing over any history**: a frame goes, exactly once and with exactly its
payload, to the handler that was registered under its id last and not unregistered since when the
call looked it up, or to nobody; a frame without an id goes to nobody; and a call that has not
returned can go on.  An occupied id is refused, and no call of `dispatch` changes the table. -/
theorem dispatch_exact {max : ℕ} {d : DatagramDispatcher H}
    (hd : DatagramDispatcher.withMaxInFlight max = some d) {as : List (RouteAct H)}
    {s : Routing H} (hrun : run step as (start d) = some s) :
    (∀ i c, s.calls[i]? = some c →
      (∀ streamId payload, c.frame = encodeStreamId streamId [] ++ payload →
        Routed i c streamId payload s.trace) ∧
      (c.frame = [] → Rejected i c (.datagramTooShort 0) s.trace) ∧
      (c.frame ≠ [] → (∀ v rest, Leb128.decode c.frame = some (v, rest) → 2 ^ 64 ≤ v) →
        ∃ reason, Rejected i c (.malformedFrame reason) s.trace) ∧
      ((∀ outcome, c.phase ≠ .ended outcome) → ∃ b, (step (.call i b) s).isSome)) ∧
    (∀ streamId handler h, s.dispatcher.handlers.get streamId = some h →
      s.dispatcher.register streamId handler =
        (.error (.datagramStreamIdCollision streamId), s.dispatcher)) ∧
    ∀ i b s', step (.call i b) s = some s' → s'.dispatcher = s.dispatcher := by
  have hi : Inv s := (Inv.start hd).run hrun
  refine ⟨?_, fun _ _ _ h => DatagramDispatcher.register_occupied h,
    fun _ _ _ h => call_keeps_dispatcher h⟩
  intro i c hc
  have hcall := hi.calls i c hc
  refine ⟨fun streamId payload hframe => hcall.routed hframe, ?_, ?_, ?_⟩
  · intro hframe
    apply hcall.rejected
    intro handlers
    rw [hframe]
    rfl
  · intro hne hvarint
    obtain ⟨reason, hreason⟩ := route_malformed (H := H) hne hvarint
    exact ⟨reason, hcall.rejected hreason⟩
  · intro hnot
    have hgo : ∀ b, (c.step s.dispatcher.handlers b).isSome → (step (.call i b) s).isSome := by
      intro b hb
      obtain ⟨c', hc'⟩ := Option.isSome_iff_exists.mp hb
      simp only [step, hc, hc', Option.isSome_some]
    obtain h | h | h := Dispatch.progress s.dispatcher.handlers c hnot (.returned (.ok ()))
    · exact ⟨_, hgo _ h⟩
    · exact ⟨_, hgo _ h⟩
    · exact ⟨_, hgo _ h⟩

end run

/-- A frame under id 300 whose handler is removed while the call has it in hand, and one that
arrives behind the removal. -/
def removedInFlight (ctx : RpcContext) : List (RouteAct String) :=
  [.register 300 "voice", .dispatch ctx [0xAC, 0x02, 7, 8], .call 0 .lookup, .unregister 300,
    .call 0 .invoke, .dispatch ctx [0xAC, 0x02, 9], .call 1 .lookup,
    .call 0 (.handlerEnds (.returned (.ok ())))]

/-- What has happened then. -/
def removedInFlightTrace (ctx : RpcContext) : List (RouteEvent String) :=
  [.registered 300 "voice", .lookedUp 0, .unregistered 300, .invoked 0 "voice" ctx [7, 8],
    .lookedUp 1, .returned 0 (.returned (.ok ()))]

theorem dispatch_exact_removedInFlight :
    letI := reference
    letI ctx := buildInboundContext anyInbound
    Routed 0 ⟨ctx, [0xAC, 0x02, 7, 8], .ended (.returned (.ok ()))⟩ 300 [7, 8]
        (removedInFlightTrace ctx) ∧
      Routed 1 ⟨ctx, [0xAC, 0x02, 9], .ended (.returned (.error (.datagramStreamIdUnknown 300)))⟩
        300 [9] (removedInFlightTrace ctx) := by
  let _ := reference
  let ctx := buildInboundContext anyInbound
  have hrun : run step (removedInFlight ctx) (start ⟨∅, .new 1⟩) =
      some ⟨⟨∅, .new 1⟩,
        [⟨ctx, [0xAC, 0x02, 7, 8], .ended (.returned (.ok ()))⟩,
          ⟨ctx, [0xAC, 0x02, 9], .ended (.returned (.error (.datagramStreamIdUnknown 300)))⟩],
        removedInFlightTrace ctx⟩ := rfl
  have hd : DatagramDispatcher.withMaxInFlight 1 = some (⟨∅, .new 1⟩ : DatagramDispatcher String) :=
    rfl
  have h := (dispatch_exact hd hrun).1
  exact ⟨(h 0 _ rfl).1 300 [7, 8] rfl, (h 1 _ rfl).1 300 [9] rfl⟩

end Routing

end NerwRpc
