import NerwRpc.DatagramTasks

/-! # The tasks of a server and the permits they hold

The connection loops, the substream tasks and the datagram tasks of one server, interleaved in any
order.  What is read and whether a write succeeds is up to the actions; so are the items a
streaming handler sends and the way every handler ends.

A streaming handler runs in a task of its own, while the permit lives in the substream task that
spawned it (`StreamTask.spawned` next to `StreamTask.phase`).  `Covered` says that it is covered
all the same: as long as it runs, the substream task has not got past the join.  Of the code that
a substream task runs itself only a unary handler may panic; the rendering of an error returns.

* `StreamTask.Covered.move`: every way out of the substream task joins the handler first.
* `permits_cover_handlers`: so no more handlers of any kind run than there are permits, no permit
  is leaked, and all of them are back when all tasks have ended. -/

namespace NerwRpc

open Permits Transition ByteStream

/-! ### Connections -/

/-- The task of a connection: it waits for a permit, drains `accept_bi`, has left the loop with
the permit still in hand, or has ended. -/
inductive ConnectionTask where
  | queued
  | looping
  | leaving
  | done
deriving DecidableEq, Repr

inductive ConnectionAct where
  | acquire
  | acceptFails
  | exit
deriving DecidableEq, Repr

namespace ConnectionTask

def holds : ConnectionTask → Bool
  | .looping | .leaving => true
  | _ => false

def move : ConnectionAct → ConnectionTask → Option (ConnectionTask × Effect)
  | .acquire, .queued => some (.looping, .acquire)
  | .acceptFails, .looping => some (.leaving, .keep)
  | .exit, .leaving => some (.done, .release)
  | _, _ => none

theorem move_balanced (a : ConnectionAct) (t t' : ConnectionTask) (e : Effect)
    (h : t.move a = some (t', e)) : Balanced holds t t' e := by
  cases t <;> cases a <;> cases h
  · exact ⟨rfl, rfl⟩
  · exact rfl
  · exact ⟨rfl, rfl⟩

end ConnectionTask

/-! ### Substreams -/

/-- Where the task of a substream is.  In `leaving` it has returned or is unwinding, with the
permit still in hand. -/
inductive StreamPhase where
  | queued
  | opening
  | reading
  | handling
  | answering
  | negotiating
  | acking
  | draining
  | writing (terminal : Bool)
  | joining (wroteTerminal : Bool)
  | finalising
  | leaving
  | done
deriving DecidableEq, Repr

/-- The task of a streaming handler. -/
inductive HandlerTask where
  | running
  | finished (outcome : Outcome)
deriving DecidableEq, Repr

structure StreamTask where
  phase : StreamPhase
  spawned : Option HandlerTask
deriving DecidableEq, Repr

/-- What happens to a substream task: what it reads, whether its write succeeds, the next item of
the handler's channel (`none` when its senders are gone), and how a handler ends. -/
inductive StreamAct where
  | acquire
  | readOpcode (r : Except ReadExactError UInt8)
  | readTail (r : Except ReadToEndError Bytes)
  | unaryEnds (outcome : Outcome)
  | readOpen (r : RpcResult StreamingFrame)
  | write (ok : Bool)
  | recv (item : Option (RpcResult Bytes))
  | handlerEnds (outcome : Outcome)
  | join
  | exit
deriving DecidableEq, Repr

/-- The handler a unary request is for, and its payload. -/
def unaryTarget [Deps] {U S : Type} (registry : MethodRegistry U S) (buf : Bytes) :
    RpcResult (U × Bytes) :=
  match buf with
  | [] => .error (.malformedFrame "empty request frame")
  | opcode :: behind =>
      if opcode ≠ opcodeUnaryRequest then
        .error (.malformedFrame ("expected unary-request opcode 0x" ++ hex02 opcodeUnaryRequest ++
          ", got 0x" ++ hex02 opcode))
      else do
        let (methodName, payloadSlice) ← decodeMethodName behind
        match registry.lookup methodName with
        | none => .error (.unknownMethod methodName)
        | some handler => return (handler, buf.drop (buf.length - payloadSlice.length))

theorem dispatchUnary_eq [Deps] (c : Inbound) (registry : Registry) (buf : Bytes) :
    dispatchUnary c registry buf =
      (unaryTarget registry buf).bind fun p => p.1 (buildInboundContext c) p.2 := by
  unfold dispatchUnary unaryTarget
  cases buf with
  | nil => rfl
  | cons opcode behind =>
      dsimp only
      split_ifs with hop
      · rfl
      · cases decodeMethodName behind with
        | error e => rfl
        | ok p =>
            obtain ⟨methodName, payloadSlice⟩ := p
            cases hl : registry.lookup methodName <;>
              simp [bind, Except.bind, pure, Except.pure, hl]

namespace StreamPhase

/-- In this phase the task is in possession of a permit. -/
def holds : StreamPhase → Bool
  | .queued | .done => false
  | _ => true

/-- The handler was spawned and has not been joined. -/
def unjoined : StreamPhase → Bool
  | .draining | .writing _ | .joining _ => true
  | _ => false

end StreamPhase

namespace StreamTask

/-- The task is in possession of a permit. -/
def holds (t : StreamTask) : Bool := t.phase.holds

/-- A unary or a streaming handler of this substream runs. -/
def running (t : StreamTask) : Bool := t.phase = .handling ∨ t.spawned = some .running

/-- Neither the task nor the handler it spawned goes on. -/
def ended (t : StreamTask) : Bool := t.phase = .done ∧ t.spawned ≠ some .running

def start : StreamTask := ⟨.queued, none⟩

theorem holds_eq {t : StreamTask} {p : StreamPhase} (h : t.phase = p) : t.holds = p.holds := by
  rw [holds, h]

section move

variable [Deps] {U S : Type} (registry : MethodRegistry U S)

/-- The next phase of a task that keeps its permit. -/
def next (a : StreamAct) (t : StreamTask) : Option StreamPhase :=
  match t.phase with
  -- `handle_inbound_substream`
  | .opening => match a with
    | .readOpcode (.error _) => some .leaving
    | .readOpcode (.ok opcode) =>
        if opcode = opcodeStreamingOpenRequest then some .negotiating
        else if opcode ≠ opcodeUnaryRequest then some .answering
        else some .reading
    | _ => none
  -- the unary path; a panic unwinds through the substream task
  | .reading => match a with
    | .readTail (.error _) => some .leaving
    | .readTail (.ok tail) => match unaryTarget registry (opcodeUnaryRequest :: tail) with
      | .error _ => some .answering
      | .ok _ => some .handling
    | _ => none
  | .handling => match a with
    | .unaryEnds (.returned _) => some .answering
    | .unaryEnds (.panicked _) => some .leaving
    | _ => none
  -- `streaming_negotiate_open`
  | .negotiating => match a with
    | .readOpen (.ok (.openRequest openReq)) =>
        match registry.lookupStreaming openReq.methodName with
        | none => some .answering
        | some _ => some .acking
    | .readOpen _ => some .leaving
    | _ => none
  | .acking => match a with
    | .write false => some .leaving
    | _ => none
  -- `drain_handler_responses`, the join and `finalise_streaming`
  | .draining => match a with
    | .recv (some item) => some (.writing (isTerminal item))
    | .recv none => some (.joining false)
    | _ => none
  | .writing terminal => match a with
    | .write ok => some (if terminal ∨ ¬ ok then .joining true else .draining)
    | _ => none
  | .joining wroteTerminal => match a, t.spawned with
    | .join, some (.finished _) => some (if wroteTerminal then .leaving else .finalising)
    | _, _ => none
  -- the frame that closes either path
  | .answering | .finalising => match a with
    | .write _ => some .leaving
    | _ => none
  | .queued | .leaving | .done => none

/-- One step of the substream task, or the end of the handler it spawned.  The ack of a streaming
open is followed by the spawn. -/
def move (a : StreamAct) (t : StreamTask) : Option (StreamTask × Effect) :=
  match a, t.phase with
  | .handlerEnds outcome, _ =>
      if t.spawned = some .running then some ({ t with spawned := some (.finished outcome) }, .keep)
      else none
  | .acquire, .queued => some ({ t with phase := .opening }, .acquire)
  | .write true, .acking => some (⟨.draining, some .running⟩, .keep)
  | .exit, .leaving => some ({ t with phase := .done }, .release)
  | a, _ => (t.next registry a).map fun p => ({ t with phase := p }, .keep)

variable {registry} {a : StreamAct} {t t' : StreamTask} {p : StreamPhase} {e : Effect}

/-- **The way out leads through the join**: a task that keeps its permit held it before, and it
leaves the phases behind the spawn only when the handler has finished. -/
theorem next_cases (h : t.next registry a = some p) : t.phase.holds = true ∧ p.holds = true ∧
    (t.phase.unjoined = true → p.unjoined = true ∨ t.spawned ≠ some .running) := by
  unfold next at h
  cases hp : t.phase
  case joining wroteTerminal =>
    rw [hp] at h
    dsimp only at h
    split at h
    · rename_i hs
      cases h
      rw [hs]
      exact ⟨rfl, by split <;> rfl, fun _ => .inr nofun⟩
    · cases h
  all_goals
    rw [hp] at h
    dsimp only at h
    repeat' split at h
    all_goals cases h
    all_goals simp [StreamPhase.holds, StreamPhase.unjoined]

theorem move_cases (h : t.move registry a = some (t', e)) :
    (∃ outcome, t.spawned = some .running ∧
      t' = { t with spawned := some (.finished outcome) } ∧ e = .keep) ∨
    (t.phase = .queued ∧ t' = { t with phase := .opening } ∧ e = .acquire) ∨
    (t.phase = .acking ∧ t' = ⟨.draining, some .running⟩ ∧ e = .keep) ∨
    (t.phase = .leaving ∧ t' = { t with phase := .done } ∧ e = .release) ∨
    ∃ p, t.next registry a = some p ∧ t' = { t with phase := p } ∧ e = .keep := by
  unfold move at h
  split at h
  · split_ifs at h with hs
    cases h
    exact .inl ⟨_, hs, rfl, rfl⟩
  · rename_i hp
    cases h
    exact .inr (.inl ⟨hp, rfl, rfl⟩)
  · rename_i hp
    cases h
    exact .inr (.inr (.inl ⟨hp, rfl, rfl⟩))
  · rename_i hp
    cases h
    exact .inr (.inr (.inr (.inl ⟨hp, rfl, rfl⟩)))
  · obtain ⟨p, hp, hpair⟩ := Option.map_eq_some_iff.mp h
    cases hpair
    exact .inr (.inr (.inr (.inr ⟨p, hp, rfl, rfl⟩)))

theorem move_balanced (registry : MethodRegistry U S) (a : StreamAct) (t t' : StreamTask)
    (e : Effect) (h : t.move registry a = some (t', e)) : Balanced holds t t' e := by
  obtain ⟨_, -, rfl, rfl⟩ | ⟨hp, rfl, rfl⟩ | ⟨hp, rfl, rfl⟩ | ⟨hp, rfl, rfl⟩ |
    ⟨p, hn, rfl, rfl⟩ := move_cases h
  · exact rfl
  · exact ⟨holds_eq hp, rfl⟩
  · exact (holds_eq hp).symm
  · exact ⟨holds_eq hp, rfl⟩
  · obtain ⟨h1, h2, -⟩ := next_cases hn
    exact h2.trans h1.symm

end move

/-- As long as the handler it spawned runs, the task has not got past the join. -/
def Covered (t : StreamTask) : Prop := t.spawned = some .running → t.phase.unjoined = true

/-- **A running handler stays covered.** -/
theorem Covered.move [Deps] {U S : Type} {registry : MethodRegistry U S} {a : StreamAct}
    {t t' : StreamTask} {e : Effect} (hc : t.Covered) (h : t.move registry a = some (t', e)) :
    t'.Covered := by
  unfold Covered at *
  obtain ⟨_, -, rfl, -⟩ | ⟨hp, rfl, -⟩ | ⟨hp, rfl, -⟩ | ⟨hp, rfl, -⟩ | ⟨p, hn, rfl, -⟩ :=
    move_cases h
  · intro hs
    cases hs
  · intro hs
    have := hc hs
    rw [hp] at this
    cases this
  · exact fun _ => rfl
  · intro hs
    have := hc hs
    rw [hp] at this
    cases this
  · intro hs
    obtain ⟨-, -, hu⟩ := next_cases hn
    exact (hu (hc hs)).resolve_right fun hne => hne hs

/-- A handler of a covered task runs under its permit. -/
theorem Covered.holds_of_running {t : StreamTask} (hc : t.Covered) (h : t.running = true) :
    t.holds = true := by
  unfold running at h
  obtain hp | hs := of_decide_eq_true h
  · exact holds_eq hp
  · have hu := hc hs
    unfold holds
    cases hp : t.phase <;> rw [hp] at hu <;> first | rfl | cases hu

theorem holds_of_ended {t : StreamTask} (h : t.ended = true) : t.holds = false := by
  unfold ended at h
  exact holds_eq (of_decide_eq_true h).1

end StreamTask

/-! ### The server -/

def defaultMaxConcurrentStreams : ℕ := 256
def defaultMaxConcurrentConnections : ℕ := 1024

structure RpcServerConfig where
  maxConcurrentStreams : ℕ := defaultMaxConcurrentStreams
  maxConcurrentConnections : ℕ := defaultMaxConcurrentConnections
deriving DecidableEq, Repr

structure ServerTasks (H : Type) where
  connections : Pool ConnectionTask
  streams : Pool StreamTask
  datagrams : DatagramTasks H

inductive ServerAct (H : Type) where
  | connection
  | connectionTask (i : ℕ) (a : ConnectionAct)
  | substream (connection : ℕ)
  | streamTask (i : ℕ) (a : StreamAct)
  | datagrams (a : DatagramAct H)
deriving DecidableEq, Repr

namespace ServerTasks

variable {H : Type}

/-- A server that has begun to serve, and a dispatcher. -/
def start (config : RpcServerConfig) (d : DatagramDispatcher H) : ServerTasks H :=
  ⟨.start config.maxConcurrentConnections, .start config.maxConcurrentStreams,
    DatagramTasks.start d⟩

/-- The connection loops that run. -/
def runningLoops (s : ServerTasks H) : ℕ := s.connections.tasks.countP fun t => t = .looping

/-- The unary and streaming handlers that run. -/
def runningHandlers (s : ServerTasks H) : ℕ := s.streams.tasks.countP StreamTask.running

/-- Every task has ended, and so has every handler. -/
def AllEnded (s : ServerTasks H) : Prop :=
  (∀ t ∈ s.connections.tasks, t = .done) ∧ (∀ t ∈ s.streams.tasks, t.ended = true) ∧
    ∀ t ∈ s.datagrams.frames.tasks, t.live = false

section run

variable [Deps] {U S : Type} (registry : MethodRegistry U S)

def step : ServerAct H → ServerTasks H → Option (ServerTasks H)
  | .connection, s => some { s with connections := s.connections.spawn .queued }
  | .connectionTask i a, s =>
      (s.connections.move (ConnectionTask.move a) i).map fun p => { s with connections := p }
  | .substream i, s =>
      if s.connections.tasks[i]? = some .looping then
        some { s with streams := s.streams.spawn .start }
      else none
  | .streamTask i a, s =>
      (s.streams.move (StreamTask.move registry a) i).map fun p => { s with streams := p }
  | .datagrams a, s => (s.datagrams.step a).map fun d => { s with datagrams := d }

end run

/-- Permits are conserved, and every running streaming handler is covered. -/
structure Inv (config : RpcServerConfig) (max : ℕ) (s : ServerTasks H) : Prop where
  connections : s.connections.Conserved ConnectionTask.holds
  connectionCap : s.connections.sem.cap = config.maxConcurrentConnections
  streams : s.streams.Conserved StreamTask.holds
  streamCap : s.streams.sem.cap = config.maxConcurrentStreams
  covered : ∀ t ∈ s.streams.tasks, t.Covered
  datagrams : DatagramTasks.Inv max s.datagrams

section inv

variable {config : RpcServerConfig} {max : ℕ} {s s' : ServerTasks H}

theorem Inv.start {d : DatagramDispatcher H}
    (hd : DatagramDispatcher.withMaxInFlight max = some d) : Inv config max (start config d) where
  connections := Pool.conserved_start _
  connectionCap := rfl
  streams := Pool.conserved_start _
  streamCap := rfl
  covered := by intro t ht; cases ht
  datagrams := .start hd

/-- **The step lemma.** -/
theorem Inv.step [Deps] {U S : Type} {registry : MethodRegistry U S} {a : ServerAct H}
    (hi : Inv config max s) (h : step registry a s = some s') : Inv config max s' := by
  cases a with
  | connection =>
      cases h
      exact { hi with connections := hi.connections.spawn rfl }
  | connectionTask i a =>
      obtain ⟨p, hp, rfl⟩ := Option.map_eq_some_iff.mp h
      obtain ⟨hcons, hcap⟩ := hi.connections.move (ConnectionTask.move_balanced a) hp
      exact { hi with connections := hcons, connectionCap := hcap.trans hi.connectionCap }
  | substream i =>
      unfold ServerTasks.step at h
      dsimp only at h
      split_ifs at h
      cases h
      exact { hi with
        streams := hi.streams.spawn rfl
        covered := Pool.forall_tasks_spawn (fun hs => by cases hs) hi.covered }
  | streamTask i a =>
      obtain ⟨p, hp, rfl⟩ := Option.map_eq_some_iff.mp h
      obtain ⟨hcons, hcap⟩ := hi.streams.move (StreamTask.move_balanced registry a) hp
      exact { hi with
        streams := hcons
        streamCap := hcap.trans hi.streamCap
        covered := Pool.forall_tasks_move hp (fun _ _ _ hc hm => hc.move hm) hi.covered }
  | datagrams a =>
      obtain ⟨d, hd, rfl⟩ := Option.map_eq_some_iff.mp h
      exact { hi with datagrams := hi.datagrams.step hd }

theorem Inv.runningLoops_le (hi : Inv config max s) :
    s.runningLoops ≤ config.maxConcurrentConnections := by
  rw [← hi.connectionCap]
  apply hi.connections.countP_le_cap
  intro t _ ht
  rw [of_decide_eq_true ht]
  rfl

theorem Inv.runningHandlers_le (hi : Inv config max s) :
    s.runningHandlers ≤ config.maxConcurrentStreams := by
  rw [← hi.streamCap]
  exact hi.streams.countP_le_cap fun t ht hr => (hi.covered t ht).holds_of_running hr

theorem Inv.available_of_allEnded (hi : Inv config max s) (hend : s.AllEnded) :
    s.connections.sem.available = config.maxConcurrentConnections ∧
      s.streams.sem.available = config.maxConcurrentStreams ∧
      s.datagrams.frames.sem.available = max := by
  obtain ⟨hconn, hstream, hframe⟩ := hend
  refine ⟨?_, ?_, ?_⟩
  · rw [← hi.connectionCap]
    apply hi.connections.available_of_idle
    intro t ht
    rw [hconn t ht]
    rfl
  · rw [← hi.streamCap]
    exact hi.streams.available_of_idle fun t ht => StreamTask.holds_of_ended (hstream t ht)
  · rw [← hi.datagrams.2]
    apply hi.datagrams.1.available_of_idle
    intro t ht
    have hlive := hframe t ht
    cases t with
    | done => rfl
    | _ => cases hlive

end inv

/-- **Every running handler is covered by a held permit, and no permit is leaked.** -/
theorem permits_cover_handlers [Deps] {U S : Type} (registry : MethodRegistry U S)
    (config : RpcServerConfig) {max : ℕ} {d : DatagramDispatcher H}
    (hd : DatagramDispatcher.withMaxInFlight max = some d) {as : List (ServerAct H)}
    {s : ServerTasks H} (hrun : run (step registry) as (start config d) = some s) :
    ((∀ t ∈ s.streams.tasks, t.running = true → t.holds = true) ∧
      ∀ t ∈ s.datagrams.frames.tasks, t.running = true → t.holds = true) ∧
    (s.runningHandlers ≤ config.maxConcurrentStreams ∧
      s.runningLoops ≤ config.maxConcurrentConnections ∧
      s.datagrams.runningHandlers ≤ max) ∧
    (s.streams.sem.available + s.streams.held StreamTask.holds = config.maxConcurrentStreams ∧
      s.connections.sem.available + s.connections.held ConnectionTask.holds =
        config.maxConcurrentConnections ∧
      s.datagrams.frames.sem.available + s.datagrams.frames.held FrameTask.holds = max) ∧
    (s.AllEnded →
      s.connections.sem.available = config.maxConcurrentConnections ∧
        s.streams.sem.available = config.maxConcurrentStreams ∧
        s.datagrams.frames.sem.available = max) := by
  have hi : Inv config max s :=
    (runs_any_iff.mpr hrun).invariant (fun _ _ _ _ hi hs => hi.step hs) (Inv.start hd)
  refine ⟨⟨fun t ht => (hi.covered t ht).holds_of_running, fun _ _ => FrameTask.holds_of_running⟩,
    ⟨hi.runningHandlers_le, hi.runningLoops_le, hi.datagrams.running_le_cap⟩,
    ⟨hi.streams.trans hi.streamCap, hi.connections.trans hi.connectionCap,
      hi.datagrams.1.trans hi.datagrams.2⟩, hi.available_of_allEnded⟩

/-- A streaming handler that goes on after it has sent an error and the write of that has failed,
and a second substream that waits for the permit. -/
def lingering : List (ServerAct Unit) :=
  [.connection, .connectionTask 0 .acquire, .substream 0, .streamTask 0 .acquire,
    .streamTask 0 (.readOpcode (.ok opcodeStreamingOpenRequest)),
    .streamTask 0 (.readOpen (.ok (.openRequest ⟨"a@1/b/c", 1⟩))), .streamTask 0 (.write true),
    .streamTask 0 (.recv (some (.error (.handler "x")))), .streamTask 0 (.write false),
    .substream 0]

theorem permits_cover_handlers_lingering :
    letI := reference
    ∃ s : ServerTasks Unit, s.runningHandlers = 1 ∧
      s.streams.sem.available + s.streams.held StreamTask.holds = 1 ∧
      ∀ t ∈ s.streams.tasks, t.running = true → t.holds = true := by
  let _ := reference
  let registry : MethodRegistry Unit Unit :=
    MethodRegistry.empty.insert "a@1/b/c" (.streaming ()) validateCanonical_pinned
  have hd : DatagramDispatcher.withMaxInFlight 1 = some (⟨∅, .new 1⟩ : DatagramDispatcher Unit) :=
    rfl
  have hrun : (run (step registry) lingering (start ⟨1, 1⟩ ⟨∅, .new 1⟩)).map
      ServerTasks.runningHandlers = some 1 := by decide
  obtain ⟨s, hs, hone⟩ := Option.map_eq_some_iff.mp hrun
  obtain ⟨hcover, -, hsum, -⟩ := permits_cover_handlers registry ⟨1, 1⟩ hd hs
  exact ⟨s, hone, hsum.1, hcover.1⟩

end ServerTasks

end NerwRpc
