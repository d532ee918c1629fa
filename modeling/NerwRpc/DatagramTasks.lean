import NerwRpc.Datagram
import NerwRpc.Reference
import NerwRpc.Transition

/-! # The tasks behind a datagram dispatcher

The read loops of `subscribe_connection` and the per-frame tasks they spawn.  A loop spawns the
task of every datagram at once; the task itself waits for a permit, dispatches its frame and gives
the permit back when it ends, also by a panic of the handler.

* `Inv.step`: permits are conserved, so no more handlers run than there are permits
  (`running_le_cap`).
* `liveTasks_bounded`: nothing bounds the tasks themselves.  There are at most `max + c` of them,
  for `c` connections, as long as every datagram finds fewer than `c` tasks waiting; once the
  permits are out, the first datagram that does not is one too many. -/

namespace NerwRpc

open Permits Transition

/-- The read loop of one connection. -/
structure ReadLoop where
  fromPeer : NodeId
  reading : Bool
deriving DecidableEq, Repr

/-- A per-frame task: it waits for a permit, it holds one and dispatches, or it has ended. -/
inductive FrameTask (H : Type) where
  | queued (ctx : RpcContext) (frame : Bytes)
  | dispatching (d : Dispatch H)
  | done
deriving DecidableEq, Repr

inductive FrameAct where
  | acquire
  | dispatch (a : DispatchAct)
  | exit
deriving DecidableEq, Repr

namespace FrameTask

variable {H : Type}

/-- The task is in possession of a permit. -/
def holds : FrameTask H → Bool
  | .dispatching _ => true
  | _ => false

/-- The task waits for a permit. -/
def waiting : FrameTask H → Bool
  | .queued _ _ => true
  | _ => false

/-- The task has not ended. -/
def live : FrameTask H → Bool
  | .done => false
  | _ => true

/-- A handler runs in the task. -/
def running : FrameTask H → Bool
  | .dispatching ⟨_, _, .handling _ _⟩ => true
  | _ => false

theorem holds_of_running {t : FrameTask H} (h : t.running = true) : t.holds = true := by
  cases t with
  | dispatching d => rfl
  | _ => cases h

variable [Deps]

/-- The task ends once its dispatch has ended, by returning or by unwinding. -/
def move (handlers : HandlerTable H) : FrameAct → FrameTask H → Option (FrameTask H × Effect)
  | .acquire, .queued ctx frame => some (.dispatching (Dispatch.start ctx frame), .acquire)
  | .dispatch a, .dispatching d => (d.step handlers a).map fun d => (.dispatching d, .keep)
  | .exit, .dispatching ⟨_, _, .ended _⟩ => some (.done, .release)
  | _, _ => none

theorem move_cases {handlers : HandlerTable H} {a : FrameAct} {t t' : FrameTask H} {e : Effect}
    (h : t.move handlers a = some (t', e)) :
    (∃ ctx frame, a = .acquire ∧ t = .queued ctx frame ∧
      t' = .dispatching (Dispatch.start ctx frame) ∧ e = .acquire) ∨
    (∃ b d d', a = .dispatch b ∧ t = .dispatching d ∧ d.step handlers b = some d' ∧
      t' = .dispatching d' ∧ e = .keep) ∨
    ∃ d outcome, a = .exit ∧ t = .dispatching d ∧ d.phase = .ended outcome ∧ t' = .done ∧
      e = .release := by
  cases t with
  | queued ctx frame =>
      cases a with
      | acquire =>
          cases h
          exact .inl ⟨ctx, frame, rfl, rfl, rfl, rfl⟩
      | _ => cases h
  | dispatching d =>
      cases a with
      | acquire => cases h
      | dispatch b =>
          obtain ⟨d', hd, hpair⟩ := Option.map_eq_some_iff.mp h
          cases hpair
          exact .inr (.inl ⟨b, d, d', rfl, rfl, hd, rfl, rfl⟩)
      | exit =>
          obtain ⟨ctx, frame, phase⟩ := d
          cases phase with
          | ended outcome =>
              cases h
              exact .inr (.inr ⟨_, outcome, rfl, rfl, rfl, rfl, rfl⟩)
          | _ => cases h
  | done => cases a <;> cases h

theorem move_balanced (handlers : HandlerTable H) (a : FrameAct) (t t' : FrameTask H) (e : Effect)
    (h : t.move handlers a = some (t', e)) : Balanced holds t t' e := by
  obtain ⟨_, _, -, rfl, rfl, rfl⟩ | ⟨_, _, _, -, rfl, -, rfl, rfl⟩ | ⟨_, _, -, rfl, -, rfl, rfl⟩ :=
    move_cases h
  · exact ⟨rfl, rfl⟩
  · exact rfl
  · exact ⟨rfl, rfl⟩

end FrameTask

/-- A dispatcher with the read loops of its connections and their per-frame tasks. -/
structure DatagramTasks (H : Type) where
  handlers : HandlerTable H
  loops : List ReadLoop
  frames : Pool (FrameTask H)

inductive DatagramAct (H : Type) where
  | register (streamId : UInt64) (handler : H)
  | unregister (streamId : UInt64)
  | subscribe (fromPeer : NodeId)
  | datagram (loop : ℕ) (bytes : Bytes) (traceId spanId : Uuid)
  | closed (loop : ℕ)
  | frame (i : ℕ) (a : FrameAct)
deriving DecidableEq, Repr

namespace DatagramTasks

variable {H : Type}

def start (d : DatagramDispatcher H) : DatagramTasks H :=
  ⟨d.handlers, [], ⟨d.inFlightPermits, []⟩⟩

def dispatcher (s : DatagramTasks H) : DatagramDispatcher H := ⟨s.handlers, s.frames.sem⟩

/-- The per-frame tasks that have not ended. -/
def liveTasks (s : DatagramTasks H) : ℕ := s.frames.tasks.countP FrameTask.live

/-- The per-frame tasks that wait for a permit. -/
def waitingTasks (s : DatagramTasks H) : ℕ := s.frames.tasks.countP FrameTask.waiting

/-- The handlers that run. -/
def runningHandlers (s : DatagramTasks H) : ℕ := s.frames.tasks.countP FrameTask.running

section run

variable [Deps]

def step : DatagramAct H → DatagramTasks H → Option (DatagramTasks H)
  | .register streamId handler, s =>
      some { s with handlers := (s.dispatcher.register streamId handler).2.handlers }
  | .unregister streamId, s =>
      some { s with handlers := (s.dispatcher.unregister streamId).2.handlers }
  | .subscribe fromPeer, s => some { s with loops := s.loops ++ [⟨fromPeer, true⟩] }
  | .datagram k bytes traceId spanId, s => match s.loops[k]? with
    | some ⟨fromPeer, true⟩ =>
        let ctx := DatagramDispatcher.buildContext fromPeer traceId spanId
        some { s with frames := s.frames.spawn (.queued ctx bytes) }
    | _ => none
  | .closed k, s => match s.loops[k]? with
    | some ⟨fromPeer, true⟩ => some { s with loops := s.loops.set k ⟨fromPeer, false⟩ }
    | _ => none
  | .frame i a, s =>
      (s.frames.move (FrameTask.move s.handlers a) i).map fun p => { s with frames := p }

end run

/-- A datagram arrives. -/
def arrives : DatagramAct H → Bool
  | .datagram _ _ _ _ => true
  | _ => false

/-! ### Permits -/

/-- Permits are conserved, and the cap is the dispatcher's. -/
def Inv (max : ℕ) (s : DatagramTasks H) : Prop :=
  s.frames.Conserved FrameTask.holds ∧ s.frames.sem.cap = max

theorem Inv.start {max : ℕ} {d : DatagramDispatcher H}
    (hd : DatagramDispatcher.withMaxInFlight max = some d) : Inv max (start d) := by
  unfold DatagramDispatcher.withMaxInFlight at hd
  split_ifs at hd
  cases hd
  exact ⟨Pool.conserved_start max, rfl⟩

theorem Inv.running_le_cap {max : ℕ} {s : DatagramTasks H} (hi : Inv max s) :
    s.runningHandlers ≤ max := by
  rw [← hi.2]
  exact hi.1.countP_le_cap fun t _ ht => FrameTask.holds_of_running ht

/-- A live task waits for a permit or holds one. -/
theorem Inv.liveTasks_add {max : ℕ} {s : DatagramTasks H} (hi : Inv max s) :
    s.liveTasks + s.frames.sem.available = s.waitingTasks + max := by
  have hcount : ∀ l : List (FrameTask H),
      l.countP FrameTask.live = l.countP FrameTask.waiting + l.countP FrameTask.holds := by
    intro l
    induction l with
    | nil => rfl
    | cons t l ih =>
        rw [List.countP_cons, List.countP_cons, List.countP_cons, ih]
        cases t <;> simp [FrameTask.live, FrameTask.waiting, FrameTask.holds] <;> omega
  have hcons : s.frames.sem.available + s.frames.tasks.countP FrameTask.holds = max :=
    hi.1.trans hi.2
  unfold liveTasks waitingTasks
  rw [hcount]
  omega

section steps

variable [Deps] {s s' : DatagramTasks H} {a : DatagramAct H}

theorem step_cases (h : step a s = some s') :
    (∃ handlers loops, s' = { s with handlers := handlers, loops := loops } ∧
      arrives a = false ∧ s.loops.length ≤ loops.length) ∨
    (∃ ctx bytes, arrives a = true ∧
      s' = { s with frames := s.frames.spawn (.queued ctx bytes) }) ∨
    ∃ i b p, a = .frame i b ∧ s.frames.move (FrameTask.move s.handlers b) i = some p ∧
      s' = { s with frames := p } := by
  cases a with
  | register streamId handler =>
      cases h
      exact .inl ⟨_, _, rfl, rfl, le_refl _⟩
  | unregister streamId =>
      cases h
      exact .inl ⟨_, _, rfl, rfl, le_refl _⟩
  | subscribe fromPeer =>
      cases h
      exact .inl ⟨_, _, rfl, rfl, by simp⟩
  | datagram k bytes traceId spanId =>
      simp only [step] at h
      split at h
      · cases h
        exact .inr (.inl ⟨_, bytes, rfl, rfl⟩)
      · cases h
  | closed k =>
      simp only [step] at h
      split at h
      · cases h
        exact .inl ⟨_, _, rfl, rfl, by simp⟩
      · cases h
  | frame i b =>
      obtain ⟨p, hp, rfl⟩ := Option.map_eq_some_iff.mp h
      exact .inr (.inr ⟨i, b, p, rfl, hp, rfl⟩)

/-- **Permits are conserved.** -/
theorem Inv.step {max : ℕ} (hi : Inv max s) (h : step a s = some s') : Inv max s' := by
  obtain ⟨handlers, loops, rfl, -⟩ | ⟨ctx, bytes, -, rfl⟩ | ⟨i, b, p, -, hp, rfl⟩ :=
    step_cases h
  · exact hi
  · exact ⟨hi.1.spawn rfl, hi.2⟩
  · obtain ⟨hcons, hcap⟩ :=
      hi.1.move (FrameTask.move_balanced s.handlers b) hp
    exact ⟨hcons, hcap.trans hi.2⟩

/-! ### A flood of datagrams -/

omit [Deps] in
theorem liveTasks_spawn (ctx : RpcContext) (bytes : Bytes) :
    ({ s with frames := s.frames.spawn (.queued ctx bytes) } : DatagramTasks H).liveTasks =
      s.liveTasks + 1 := by
  unfold liveTasks Pool.spawn
  simp [FrameTask.live]

omit [Deps] in
theorem waitingTasks_spawn (ctx : RpcContext) (bytes : Bytes) :
    ({ s with frames := s.frames.spawn (.queued ctx bytes) } : DatagramTasks H).waitingTasks =
      s.waitingTasks + 1 := by
  unfold waitingTasks Pool.spawn
  simp [FrameTask.waiting]

theorem waitingTasks_move {p : Pool (FrameTask H)} {i : ℕ} {b : FrameAct}
    (h : s.frames.move (FrameTask.move s.handlers b) i = some p) :
    p.tasks.countP FrameTask.waiting ≤ s.waitingTasks := by
  obtain ⟨t, t', e, sem, ht, hm, -, rfl⟩ := Pool.move_eq_some_iff.mp h
  have hcount := countP_set_add FrameTask.waiting ht t'
  unfold waitingTasks
  obtain ⟨_, _, -, rfl, rfl, -⟩ | ⟨_, _, _, -, rfl, -, rfl, -⟩ | ⟨_, _, -, rfl, -, rfl, -⟩ :=
    FrameTask.move_cases hm <;>
    simp only [FrameTask.waiting, Bool.toNat_true, Bool.toNat_false] at hcount ⊢ <;> omega

/-- A datagram finds fewer tasks waiting for a permit than connections are subscribed. -/
def Unhurried (a : DatagramAct H) (s : DatagramTasks H) : Prop :=
  arrives a = true → s.waitingTasks < s.loops.length

omit [Deps] in
instance decidableUnhurried (a : DatagramAct H) (s : DatagramTasks H) : Decidable (Unhurried a s) :=
  inferInstanceAs (Decidable (arrives a = true → s.waitingTasks < s.loops.length))

theorem waitingTasks_step (hok : Unhurried a s) (hw : s.waitingTasks ≤ s.loops.length)
    (h : step a s = some s') : s'.waitingTasks ≤ s'.loops.length := by
  obtain ⟨handlers, loops, rfl, -, hle⟩ | ⟨ctx, bytes, ha, rfl⟩ | ⟨i, b, p, -, hp, rfl⟩ :=
    step_cases h
  · exact hw.trans hle
  · rw [waitingTasks_spawn]
    exact hok ha
  · exact (waitingTasks_move hp).trans hw

/-- Once the permits are out, one more datagram keeps the bound only if it finds a connection
without a waiting task. -/
theorem Inv.arrival {max : ℕ} (hi : Inv max s) (hout : s.frames.sem.available = 0)
    (ha : arrives a = true) (h : DatagramTasks.step a s = some s') :
    s'.liveTasks ≤ max + s'.loops.length ↔ s.waitingTasks < s.loops.length := by
  have hlive := hi.liveTasks_add
  obtain ⟨_, _, -, hnot, -⟩ | ⟨ctx, bytes, -, rfl⟩ | ⟨i, b, p, rfl, -⟩ := step_cases h
  · rw [ha] at hnot
    cases hnot
  · rw [liveTasks_spawn]
    dsimp only
    omega
  · cases ha

/-- **How many per-frame tasks there are**: at most `max + c` of them in every state of a run each
of whose datagrams finds fewer than `c` tasks waiting.  Once the permits are out, a datagram that
does not breaks the bound. -/
theorem liveTasks_bounded {max : ℕ} {d : DatagramDispatcher H}
    (hd : DatagramDispatcher.withMaxInFlight max = some d) {as : List (DatagramAct H)} :
    (Runs step Unhurried as (start d) s → s.liveTasks ≤ max + s.loops.length) ∧
    (run step as (start d) = some s → s.frames.sem.available = 0 →
      ∀ a s', arrives a = true → step a s = some s' →
        (s'.liveTasks ≤ max + s'.loops.length ↔ s.waitingTasks < s.loops.length)) := by
  refine ⟨fun hruns => ?_, fun hrun hout a s' ha h => ?_⟩
  · have hboth : (fun s => Inv max s ∧ s.waitingTasks ≤ s.loops.length) s := by
      apply hruns.invariant
      · intro a s s' hok hi h
        exact ⟨hi.1.step h, waitingTasks_step hok hi.2 h⟩
      · exact ⟨Inv.start hd, Nat.zero_le _⟩
    have hlive := hboth.1.liveTasks_add
    have hwaiting := hboth.2
    omega
  · have hi : Inv max s :=
      (runs_any_iff.mpr hrun).invariant (fun _ _ _ _ hi h => hi.step h) (Inv.start hd)
    exact hi.arrival hout ha h

end steps

/-- One connection and `n` datagrams, with the per-frame tasks left waiting. -/
def flood (n : ℕ) : List (DatagramAct Unit) :=
  .subscribe "peer" :: List.replicate n (.datagram 0 [0] 0 0)

/-- One permit and one connection: the second datagram finds nobody waiting. -/
def paced : List (DatagramAct Unit) :=
  [.subscribe "peer", .datagram 0 [0] 0 0, .frame 0 .acquire, .datagram 0 [0] 0 0]

theorem liveTasks_bounded_paced :
    letI := reference
    ∃ s, run step paced (start ⟨∅, .new 1⟩) = some s ∧ s.liveTasks ≤ 1 + s.loops.length ∧
      ∀ s', step (.datagram 0 [0] 0 0) s = some s' → ¬ s'.liveTasks ≤ 1 + s'.loops.length := by
  let _ := reference
  have hd : DatagramDispatcher.withMaxInFlight 1 = some (⟨∅, .new 1⟩ : DatagramDispatcher Unit) :=
    rfl
  have hrun : ∃ s, runAllowed step Unhurried paced (start ⟨∅, .new 1⟩) = some s ∧
      s.frames.sem.available = 0 ∧ s.waitingTasks = 1 ∧ s.loops.length = 1 :=
    ⟨_, rfl, rfl, rfl, rfl⟩
  obtain ⟨s, hs, hout, hwaiting, hloops⟩ := hrun
  have hruns := runs_of_runAllowed hs
  refine ⟨s, hruns.run_eq, (liveTasks_bounded hd).1 hruns, fun s' h => ?_⟩
  rw [(liveTasks_bounded hd).2 hruns.run_eq hout _ s' rfl h, hwaiting, hloops]
  exact Nat.lt_irrefl 1

/-- Two permits, one connection, and four tasks. -/
theorem liveTasks_unbounded :
    letI := reference
    ¬ ∀ (max : ℕ) (d : DatagramDispatcher Unit) (as : List (DatagramAct Unit))
        (s : DatagramTasks Unit), DatagramDispatcher.withMaxInFlight max = some d →
      run step as (start d) = some s → s.liveTasks ≤ max + s.loops.length := by
  let _ := reference
  intro h
  have hd : DatagramDispatcher.withMaxInFlight 2 = some (⟨∅, .new 2⟩ : DatagramDispatcher Unit) :=
    rfl
  have hrun : ∃ s, run step (flood 4) (start ⟨∅, .new 2⟩) = some s ∧ s.liveTasks = 4 ∧
      s.loops.length = 1 := ⟨_, rfl, rfl, rfl⟩
  obtain ⟨s, hs, hlive, hloops⟩ := hrun
  have hle := h 2 _ (flood 4) s hd hs
  omega

end DatagramTasks

end NerwRpc
