import NerwRpc.DatagramRouting
import NerwRpc.ServerDrains

/-! # What becomes of a datagram

The read loops of `subscribe_connection` and their per-frame tasks refine the routing of
`DatagramRouting`: the arrival of a datagram is a call of `dispatch`, the task's dispatch moves that
call, and waiting for a permit, giving it back, subscribing a connection and losing one are no steps
of the routing at all (`Refines.step`, `Refines.run`).

So what `Routing.Inv` says of a call holds of every datagram that arrives, whatever the tasks of the
others do meanwhile (`datagrams_delivered`). -/

namespace NerwRpc

open Permits Transition

namespace DatagramTasks

variable {H : Type}

/-! ### The arrivals of a run -/

/-- The peers at the far ends of the read loops. -/
def peers (s : DatagramTasks H) : List NodeId := s.loops.map ReadLoop.fromPeer

/-- The peers behind an action. -/
def peersAfter (peers : List NodeId) : DatagramAct H → List NodeId
  | .subscribe fromPeer => peers ++ [fromPeer]
  | _ => peers

/-- The datagram that arrives with an action, and the context of its delivery: it names the peer
whose connection it came on. -/
def arrival (peers : List NodeId) : DatagramAct H → Option (RpcContext × Bytes)
  | .datagram k bytes traceId spanId => peers[k]?.map fun fromPeer =>
      (DatagramDispatcher.buildContext fromPeer traceId spanId, bytes)
  | _ => none

def arrivals : List NodeId → List (DatagramAct H) → List (RpcContext × Bytes)
  | _, [] => []
  | peers, a :: as => (arrival peers a).toList ++ arrivals (peersAfter peers a) as

/-- What an action is to the routing, if it is anything to it. -/
def routeAct (peers : List NodeId) : DatagramAct H → Option (RouteAct H)
  | .register streamId handler => some (.register streamId handler)
  | .unregister streamId => some (.unregister streamId)
  | .datagram k bytes traceId spanId => peers[k]?.map fun fromPeer =>
      .dispatch (DatagramDispatcher.buildContext fromPeer traceId spanId) bytes
  | .frame i (.dispatch a) => some (.call i a)
  | _ => none

def routeActs : List NodeId → List (DatagramAct H) → List (RouteAct H)
  | _, [] => []
  | peers, a :: as => (routeAct peers a).toList ++ routeActs (peersAfter peers a) as

/-! ### The refinement -/

/-- What an update of one element keeps of it, it keeps of the list. -/
theorem map_set_of_eq {α β : Type} {f : α → β} {l : List α} {i : ℕ} {x y : α}
    (hx : l[i]? = some x) (h : f y = f x) : (l.set i y).map f = l.map f := by
  obtain ⟨hi, rfl⟩ := List.getElem?_eq_some_iff.mp hx
  have hi' : i < (l.map f).length := by simpa using hi
  have hget : f l[i] = (l.map f)[i] := by simp
  rw [List.map_set, h, hget, List.set_getElem_self]

/-- A task is where its call is. -/
def Tracks : FrameTask H → Dispatch H → Prop
  | .queued ctx frame, c => c = ⟨ctx, frame, .started⟩
  | .dispatching d, c => c = d
  | .done, c => ∃ outcome, c.phase = .ended outcome

/-- The table is the routing's, and the tasks are its calls in the same order. -/
structure Refines (s : DatagramTasks H) (r : Routing H) : Prop where
  handlers : r.dispatcher.handlers = s.handlers
  length : r.calls.length = s.frames.tasks.length
  tracks : ∀ (i : ℕ) t c, s.frames.tasks[i]? = some t → r.calls[i]? = some c → Tracks t c

/-- What a call was made with. -/
def calledWith (c : Dispatch H) : RpcContext × Bytes := (c.ctx, c.frame)

section refines

variable {s : DatagramTasks H} {r : Routing H}

theorem Refines.start (d : DatagramDispatcher H) :
    Refines (DatagramTasks.start d) (Routing.start d) where
  handlers := rfl
  length := rfl
  tracks := by
    intro i t c ht
    cases ht

theorem Refines.call (hr : Refines s r) {i : ℕ} {t : FrameTask H}
    (ht : s.frames.tasks[i]? = some t) : ∃ c, r.calls[i]? = some c ∧ Tracks t c := by
  have hi : i < r.calls.length := by
    rw [hr.length]
    exact (List.getElem?_eq_some_iff.mp ht).1
  have hc : r.calls[i]? = some r.calls[i] := List.getElem?_eq_getElem hi
  exact ⟨r.calls[i], hc, hr.tracks i t _ ht hc⟩

theorem Refines.set (hr : Refines s r) {i : ℕ} {t' : FrameTask H} {c' : Dispatch H}
    (ht' : Tracks t' c') {sem : Semaphore} {trace : List (RouteEvent H)} :
    Refines { s with frames := ⟨sem, s.frames.tasks.set i t'⟩ }
      { r with calls := r.calls.set i c', trace := trace } where
  handlers := hr.handlers
  length := by
    simp only [List.length_set]
    exact hr.length
  tracks := by
    intro j t c ht hc
    by_cases hij : i = j
    · subst hij
      rw [List.getElem?_set_self'] at ht hc
      obtain ⟨_, -, rfl⟩ := Option.map_eq_some_iff.mp ht
      obtain ⟨_, -, rfl⟩ := Option.map_eq_some_iff.mp hc
      exact ht'
    · rw [List.getElem?_set_ne hij] at ht hc
      exact hr.tracks j t c ht hc

theorem Refines.stutter (hr : Refines s r) {i : ℕ} {t' : FrameTask H} {c : Dispatch H}
    (hc : r.calls[i]? = some c) (ht' : Tracks t' c) {sem : Semaphore} :
    Refines { s with frames := ⟨sem, s.frames.tasks.set i t'⟩ } r := by
  obtain ⟨hi, rfl⟩ := List.getElem?_eq_some_iff.mp hc
  have hset : Refines { s with frames := ⟨sem, s.frames.tasks.set i t'⟩ }
      { r with calls := r.calls.set i r.calls[i] } := hr.set ht'
  rw [List.set_getElem_self hi] at hset
  exact hset

theorem Refines.arrive (hr : Refines s r) (ctx : RpcContext) (frame : Bytes) :
    Refines { s with frames := s.frames.spawn (.queued ctx frame) }
      { r with calls := r.calls ++ [Dispatch.start ctx frame] } where
  handlers := hr.handlers
  length := by
    unfold Pool.spawn
    simp only [List.length_append, hr.length, List.length_singleton]
  tracks := by
    intro i t c ht hc
    unfold Pool.spawn at ht
    obtain hlt | hge := Nat.lt_or_ge i s.frames.tasks.length
    · rw [List.getElem?_append_left hlt] at ht
      rw [List.getElem?_append_left (by rw [hr.length]; exact hlt)] at hc
      exact hr.tracks i t c ht hc
    · rw [List.getElem?_append_right hge, List.getElem?_singleton] at ht
      rw [List.getElem?_append_right (by rw [hr.length]; exact hge), List.getElem?_singleton,
        hr.length] at hc
      split_ifs at ht hc
      cases ht
      cases hc
      rfl

end refines

section run

variable [Deps]

theorem calledWith_step {handlers : HandlerTable H} {b : DispatchAct} {c c' : Dispatch H}
    (h : c.step handlers b = some c') : calledWith c' = calledWith c := by
  obtain ⟨-, -, rfl⟩ | ⟨_, _, -, -, rfl⟩ | ⟨_, _, _, -, -, rfl⟩ := Dispatch.step_cases h <;> rfl

variable {s s' : DatagramTasks H} {a : DatagramAct H} {r : Routing H}

/-- **One step**: the routing takes it, or does not notice it. -/
theorem Refines.step (hr : Refines s r) (h : DatagramTasks.step a s = some s') :
    ∃ r', Transition.run Routing.step (routeAct s.peers a).toList r = some r' ∧ Refines s' r' ∧
      s'.peers = peersAfter s.peers a ∧
      r'.calls.map calledWith = r.calls.map calledWith ++ (arrival s.peers a).toList := by
  cases a with
  | register streamId handler =>
      cases h
      cases hid : s.handlers.get streamId with
      | some old =>
          have hd : s.dispatcher.register streamId handler = _ :=
            DatagramDispatcher.register_occupied hid
          rw [← hr.handlers] at hid
          refine ⟨{ r with trace := r.trace ++ [.refused streamId] }, ?_,
            ⟨?_, hr.length, hr.tracks⟩, rfl, (List.append_nil _).symm⟩
          · simp only [routeAct, Option.toList_some, Transition.run, Routing.step,
              DatagramDispatcher.register_occupied hid, Option.bind_some]
          · rw [hd]
            exact hr.handlers
      | none =>
          have hd : s.dispatcher.register streamId handler = _ :=
            DatagramDispatcher.register_vacant hid
          rw [← hr.handlers] at hid
          refine ⟨⟨⟨r.dispatcher.handlers.insert streamId handler, r.dispatcher.inFlightPermits⟩,
              r.calls, r.trace ++ [.registered streamId handler]⟩, ?_,
            ⟨?_, hr.length, hr.tracks⟩, rfl, (List.append_nil _).symm⟩
          · simp only [routeAct, Option.toList_some, Transition.run, Routing.step,
              DatagramDispatcher.register_vacant hid, Option.bind_some]
          · rw [hd]
            dsimp only
            rw [hr.handlers]
            rfl
  | unregister streamId =>
      cases h
      refine ⟨_, rfl, ⟨?_, hr.length, hr.tracks⟩, rfl, (List.append_nil _).symm⟩
      unfold DatagramDispatcher.unregister
      dsimp only
      rw [hr.handlers]
      rfl
  | subscribe fromPeer =>
      cases h
      exact ⟨r, rfl, ⟨hr.handlers, hr.length, hr.tracks⟩, by simp [peers, peersAfter],
        (List.append_nil _).symm⟩
  | datagram k bytes traceId spanId =>
      unfold DatagramTasks.step at h
      dsimp only at h
      split at h
      · rename_i fromPeer hloop
        cases h
        have hpeer : s.peers[k]? = some fromPeer := by
          unfold peers
          rw [List.getElem?_map, hloop]
          rfl
        refine ⟨_, ?_, hr.arrive _ bytes, rfl, ?_⟩
        · simp only [routeAct, hpeer, Option.map_some, Option.toList_some, Transition.run,
            Routing.step, Option.bind_some]
        · simp only [arrival, hpeer, Option.map_some, Option.toList_some, List.map_append,
            List.map_singleton, calledWith, Dispatch.start]
      · cases h
  | closed k =>
      unfold DatagramTasks.step at h
      dsimp only at h
      split at h
      · rename_i fromPeer hloop
        cases h
        refine ⟨r, rfl, ⟨hr.handlers, hr.length, hr.tracks⟩, ?_, (List.append_nil _).symm⟩
        exact map_set_of_eq hloop rfl
      · cases h
  | frame i b =>
      obtain ⟨p, hp, rfl⟩ := Option.map_eq_some_iff.mp h
      obtain ⟨t, t', e, sem, ht, hm, -, rfl⟩ := Pool.move_eq_some_iff.mp hp
      obtain ⟨c, hc, htrack⟩ := hr.call ht
      obtain ⟨ctx, frame, rfl, rfl, rfl, -⟩ | ⟨b, d, d', rfl, rfl, hd, rfl, -⟩ |
        ⟨d, outcome, rfl, rfl, hphase, rfl, -⟩ := FrameTask.move_cases hm
      · have htrack : Tracks (.dispatching (Dispatch.start ctx frame)) c := htrack
        exact ⟨r, rfl, hr.stutter hc htrack, rfl, (List.append_nil _).symm⟩
      · obtain rfl : c = d := htrack
        have htrack : Tracks (.dispatching d') d' := rfl
        rw [← hr.handlers] at hd
        refine ⟨{ r with calls := r.calls.set i d', trace := r.trace ++ [Routing.moved i d' b] },
          ?_, hr.set htrack, rfl, ?_⟩
        · simp only [routeAct, Option.toList_some, Transition.run, Routing.step, hc, hd,
            Option.bind_some]
        · have hset : (r.calls.set i d').map calledWith = r.calls.map calledWith :=
            map_set_of_eq hc (calledWith_step hd)
          exact hset.trans (List.append_nil _).symm
      · obtain rfl : c = d := htrack
        have htrack : Tracks .done c := ⟨outcome, hphase⟩
        exact ⟨r, rfl, hr.stutter hc htrack, rfl, (List.append_nil _).symm⟩

/-- **Whole runs**: the calls of the routing are the arrivals. -/
theorem Refines.run {as : List (DatagramAct H)} (hr : Refines s r)
    (h : Transition.run DatagramTasks.step as s = some s') :
    ∃ r', Transition.run Routing.step (routeActs s.peers as) r = some r' ∧ Refines s' r' ∧
      r'.calls.map calledWith = r.calls.map calledWith ++ arrivals s.peers as := by
  induction as generalizing s r with
  | nil =>
      cases h
      exact ⟨r, rfl, hr, (List.append_nil _).symm⟩
  | cons a as ih =>
      obtain ⟨s₁, hs, hrest⟩ := Option.bind_eq_some_iff.mp h
      obtain ⟨r₁, hrun₁, hr₁, hpeers, hcalls₁⟩ := hr.step hs
      obtain ⟨r', hrun', hr', hcalls'⟩ := ih hr₁ hrest
      rw [hpeers] at hrun' hcalls'
      refine ⟨r', ?_, hr', ?_⟩
      · rw [routeActs, run_append, hrun₁, Option.bind_some, hrun']
      · rw [hcalls', hcalls₁, arrivals, List.append_assoc]

/-- A state in which no frame's task can move. -/
def Idle (s : DatagramTasks H) : Prop := ∀ i b, DatagramTasks.step (.frame i b) s = none

/-- Where nothing moves, nothing waits: every task has ended and every permit is back. -/
theorem Inv.idle {max : ℕ} (hi : Inv max s) (hcap : 0 < max) (hidle : Idle s) :
    (∀ t ∈ s.frames.tasks, t = .done) ∧ s.frames.sem.available = max := by
  obtain hended | ⟨i, b, p, hp⟩ := hi.progress hcap
  · have hdone : ∀ t ∈ s.frames.tasks, t = .done := by
      intro t ht
      have hlive := hended t ht
      cases t with
      | done => rfl
      | _ => cases hlive
    refine ⟨hdone, ?_⟩
    rw [← hi.2]
    apply hi.1.available_of_idle
    intro t ht
    rw [hdone t ht]
    rfl
  · have hnone := hidle i b
    simp only [DatagramTasks.step, hp, Option.map_some] at hnone
    cases hnone

/-- **Every datagram is delivered once, or to nobody.**  In every run of the read loops and the
per-frame tasks the datagrams that have arrived are the calls of `dispatch`, in order, each with
its own bytes and the peer of its own connection.  One that an id can be read off goes at most once
to a handler, the one registered under that id when its task looked it up, with exactly the bytes
behind the id; any other goes to nobody.  Once no task can move, every call has ended and every
permit is back. -/
theorem datagrams_delivered {max : ℕ} {d : DatagramDispatcher H}
    (hd : DatagramDispatcher.withMaxInFlight max = some d) {as : List (DatagramAct H)}
    {s : DatagramTasks H} (hrun : Transition.run DatagramTasks.step as (start d) = some s) :
    ∃ r, Transition.run Routing.step (routeActs [] as) (Routing.start d) = some r ∧
      Refines s r ∧ r.calls.map calledWith = arrivals [] as ∧
      (∀ i c, r.calls[i]? = some c →
        (∀ streamId payload, decodeStreamId c.frame = .ok (streamId, payload) →
          Routing.Routed i c (UInt64.ofNat streamId) payload r.trace) ∧
        ∀ e, decodeStreamId c.frame = .error e →
          ∃ e, (∀ handlers : HandlerTable H, route handlers c.frame = .error e) ∧
            Routing.Rejected i c e r.trace) ∧
      (Idle s → s.frames.sem.available = max ∧
        ∀ c ∈ r.calls, ∃ outcome, c.phase = .ended outcome) := by
  obtain ⟨r, hroute, hr, hcalls⟩ := (Refines.start d).run hrun
  have hinv : Routing.Inv r := (Routing.Inv.start hd).run hroute
  have hpermits : Inv max s :=
    (runs_any_iff.mpr hrun).invariant (fun _ _ _ _ hi hs => Inv.step hi hs) (Inv.start hd)
  refine ⟨r, hroute, hr, hcalls, ?_, ?_⟩
  · intro i c hc
    have hcall := hinv.calls i c hc
    refine ⟨fun streamId payload hid => hcall.decoded hid, fun e hid => ?_⟩
    obtain ⟨e', he'⟩ := route_undecoded (H := H) hid
    exact ⟨e', he', hcall.rejected he'⟩
  · intro hidle
    obtain ⟨hdone, havailable⟩ := hpermits.idle (ServerTasks.pos_of_withMaxInFlight hd) hidle
    refine ⟨havailable, ?_⟩
    intro c hc
    obtain ⟨i, hci⟩ := List.getElem?_of_mem hc
    have hi : i < s.frames.tasks.length := by
      rw [← hr.length]
      exact (List.getElem?_eq_some_iff.mp hci).1
    have htrack := hr.tracks i _ c (List.getElem?_eq_getElem hi) hci
    rw [hdone _ (List.getElem_mem hi)] at htrack
    exact htrack

end run

/-- Two peers send a frame under id 44, the second one with an id of two bytes; the permit goes to
the second, and the handler is removed while that frame is in hand. -/
def crossing : List (DatagramAct String) :=
  [.register 44 "voice", .subscribe "alice", .subscribe "bob",
    .datagram 0 [0x2C, 7] 1 1, .datagram 1 [0xAC, 0x00, 9] 2 2,
    .frame 1 .acquire, .frame 1 (.dispatch .lookup), .unregister 44, .closed 0,
    .frame 1 (.dispatch .invoke), .frame 1 (.dispatch (.handlerEnds (.panicked ""))),
    .frame 1 .exit, .frame 0 .acquire, .frame 0 (.dispatch .lookup), .frame 0 .exit]

/-- Then the second frame has gone to the handler, as the second peer's, and the first to nobody. -/
theorem datagrams_delivered_crossing :
    letI := reference
    letI trace : List (RouteEvent String) :=
      [.registered 44 "voice", .lookedUp 1, .unregistered 44,
        .invoked 1 "voice" (DatagramDispatcher.buildContext "bob" 2 2) [9],
        .returned 1 (.panicked ""), .lookedUp 0]
    Routing.Routed 1 ⟨DatagramDispatcher.buildContext "bob" 2 2, [0xAC, 0x00, 9],
        .ended (.panicked "")⟩ 44 [9] trace ∧
      Routing.Routed 0 ⟨DatagramDispatcher.buildContext "alice" 1 1, [0x2C, 7],
        .ended (.returned (.error (.datagramStreamIdUnknown 44)))⟩ 44 [7] trace := by
  let _ := reference
  have hd : DatagramDispatcher.withMaxInFlight 1 = some (⟨∅, .new 1⟩ : DatagramDispatcher String) :=
    rfl
  have hrun : (run step crossing (start ⟨∅, .new 1⟩)).isSome := rfl
  obtain ⟨s, hs⟩ := Option.isSome_iff_exists.mp hrun
  obtain ⟨r, hroute, -, -, hcalls, -⟩ := datagrams_delivered hd hs
  cases hroute
  have hbob : decodeStreamId [0xAC, 0x00, 9] = .ok (44, [9]) := by decide +kernel
  have halice : decodeStreamId [0x2C, 7] = .ok (44, [7]) := by decide +kernel
  exact ⟨(hcalls 1 _ rfl).1 44 [9] hbob, (hcalls 0 _ rfl).1 44 [7] halice⟩

end DatagramTasks

end NerwRpc
