import NerwRpc.Client
import NerwRpc.KeyedHistory
import NerwRpc.Reference
import NerwRpc.Transition
import Mathlib.Logic.Function.Basic

/-! # Runs of a client

Operations of `RpcClient`, any number of them at once, over the connection cache below them.  The
cache keeps at most one connection under a peer and an ALPN: `open_substream` reuses it or dials
one and caches it, a failed `open_bi` drops it, and `evict_cached_connection` removes whatever is
there.  Connections are numbered in the order in which they were dialed.

What the transport does with a substream is up to the actions: `write` hands the operation the
send half and `read` the receive half, each with what becomes of it.

* `TraceInv.step`: the trace accounts for the cache, and a connection is dialed once.
* `Traced.opensFresh`: behind an eviction nothing is opened on the connection evicted for, and
  what is opened first has been dialed. -/

namespace NerwRpc

open ByteStream Transition KeyedHistory

abbrev ConnectionKey := NodeId × Bytes

/-- What happens to the connections of a client. -/
inductive ClientEvent where
  | dialed (call : ℕ) (key : ConnectionKey) (conn : ℕ)
  | reused (call : ℕ) (key : ConnectionKey) (conn : ℕ)
  | openFailed (call : ℕ) (key : ConnectionKey)
  | evicted (call : ℕ) (key : ConnectionKey) (own : ℕ) (removed : Option ℕ)
  | returned (call : ℕ)
  | died (conn : ℕ)
deriving DecidableEq, Repr

namespace ClientEvent

def touch : ClientEvent → ConnectionKey → Touch ℕ
  | dialed _ key conn, k => if k = key then .put conn else .leave
  | openFailed _ key, k => if k = key then .drop else .leave
  | evicted _ key _ _, k => if k = key then .drop else .leave
  | _, _ => .leave

/-- A substream is opened on this connection. -/
def opens : ClientEvent → Option (ConnectionKey × ℕ)
  | dialed _ key conn | reused _ key conn => some (key, conn)
  | _ => none

/-- The connections an event speaks of. -/
def mentions : ClientEvent → List ℕ
  | dialed _ _ conn | reused _ _ conn | died conn => [conn]
  | evicted _ _ own removed => own :: removed.toList
  | _ => []

end ClientEvent

inductive Operation where
  | call (methodName : String) (request : Bytes)
  | callStreaming (methodName : String)
deriving DecidableEq, Repr

/-- What an operation returns on success: the response, or the two channels of a stream. -/
inductive Reply where
  | response (bytes : Bytes)
  | channels
deriving DecidableEq, Repr

/-- How far an operation has come, and on which connection. -/
inductive Stage where
  | started
  | writing (conn : ℕ)
  | reading (conn : ℕ)
  | evicting (conn : ℕ) (err : RpcError)
  | returned (conn : Option ℕ) (result : RpcResult Reply)
deriving DecidableEq, Repr

structure ClientCall where
  peer : NodeId
  op : Operation
  stage : Stage
deriving DecidableEq, Repr

structure ClientRun where
  cached : ConnectionKey → Option ℕ
  connections : ℕ
  dead : List ℕ
  streamingRequestId : UInt64
  calls : List ClientCall
  trace : List ClientEvent

/-- What the transport does for one operation. -/
inductive ClientCallAct where
  | openSubstream (r : Except String Unit)
  | write (send : SendStream)
  | read (recv : RecvStream)
  | evict
deriving DecidableEq, Repr

inductive ClientAct where
  | begin (peer : NodeId) (op : Operation)
  | call (i : ℕ) (a : ClientCallAct)
  | dies (conn : ℕ)
deriving DecidableEq, Repr

/-- The errors that evict the cached connection. -/
def isTransportIoError : RpcError → Bool
  | .transportRead _ | .transportWrite _ => true
  | _ => false

def ClientCall.key (c : ClientCall) : ConnectionKey := (c.peer, alpnNerwRpc)

namespace ClientRun

def start : ClientRun := ⟨fun _ => none, 0, [], 1, [], []⟩

/-- Operation `i` goes on to another stage. -/
def advance (i : ℕ) (c : ClientCall) (stage : Stage) (events : List ClientEvent)
    (s : ClientRun) : ClientRun :=
  { s with calls := s.calls.set i { c with stage := stage }, trace := s.trace ++ events }

/-- An operation has failed on its substream: `call` has an eviction to do first, if the error
asks for one, and `call_streaming` returns at once. -/
def failed (i : ℕ) (c : ClientCall) (conn : ℕ) (e : RpcError) (s : ClientRun) : ClientRun :=
  match c.op with
  | .call _ _ =>
      if isTransportIoError e then s.advance i c (.evicting conn e) []
      else s.advance i c (.returned (some conn) (.error e)) [.returned i]
  | .callStreaming _ => s.advance i c (.returned (some conn) (.error e)) [.returned i]

/-- Open a substream for operation `i`. -/
def openSubstream (i : ℕ) (c : ClientCall) (r : Except String Unit) (s : ClientRun) : ClientRun :=
  match r with
  | .error reason =>
      { s.advance i c (.returned none (.error (.transportOpenSubstream c.peer reason)))
          [.openFailed i c.key, .returned i] with
        cached := Function.update s.cached c.key none }
  | .ok () => match s.cached c.key with
    | some conn => s.advance i c (.writing conn) [.reused i c.key conn]
    | none =>
        { s.advance i c (.writing s.connections) [.dialed i c.key s.connections] with
          cached := Function.update s.cached c.key (some s.connections)
          connections := s.connections + 1 }

theorem openSubstream_cases (s : ClientRun) (i : ℕ) (c : ClientCall) (r : Except String Unit) :
    (∃ reason, s.openSubstream i c r =
      { s.advance i c (.returned none (.error (.transportOpenSubstream c.peer reason)))
          [.openFailed i c.key, .returned i] with
        cached := Function.update s.cached c.key none }) ∨
    (∃ conn, s.cached c.key = some conn ∧
      s.openSubstream i c r = s.advance i c (.writing conn) [.reused i c.key conn]) ∨
    (r = .ok () ∧ s.cached c.key = none ∧ s.openSubstream i c r =
      { s.advance i c (.writing s.connections) [.dialed i c.key s.connections] with
        cached := Function.update s.cached c.key (some s.connections)
        connections := s.connections + 1 }) := by
  unfold openSubstream
  cases r with
  | error reason => exact .inl ⟨reason, rfl⟩
  | ok u =>
      cases hcached : s.cached c.key with
      | some conn => exact .inr (.inl ⟨conn, rfl, rfl⟩)
      | none => exact .inr (.inr ⟨rfl, rfl, rfl⟩)

theorem failed_cases (s : ClientRun) (i : ℕ) (c : ClientCall) (conn : ℕ) (e : RpcError) :
    (∃ methodName request, c.op = .call methodName request ∧ isTransportIoError e = true ∧
      s.failed i c conn e = s.advance i c (.evicting conn e) []) ∨
    ((isTransportIoError e = true → ∃ methodName, c.op = .callStreaming methodName) ∧
      s.failed i c conn e = s.advance i c (.returned (some conn) (.error e)) [.returned i]) := by
  unfold failed
  cases hop : c.op with
  | call methodName request =>
      dsimp only
      by_cases hio : isTransportIoError e = true
      · rw [if_pos hio]
        exact .inl ⟨methodName, request, rfl, hio, rfl⟩
      · rw [if_neg hio]
        exact .inr ⟨fun h => absurd h hio, rfl⟩
  | callStreaming methodName => exact .inr ⟨fun _ => ⟨methodName, rfl⟩, rfl⟩

/-- Evict for operation `i`, and return. -/
def evict (i : ℕ) (c : ClientCall) (conn : ℕ) (e : RpcError) (s : ClientRun) : ClientRun :=
  { s.advance i c (.returned (some conn) (.error e))
      [.evicted i c.key conn (s.cached c.key), .returned i] with
    cached := Function.update s.cached c.key none }

/-- `call_streaming` takes a request id once its substream is open. -/
def takeRequestId (op : Operation) (s : ClientRun) : ClientRun :=
  match op with
  | .call _ _ => s
  | .callStreaming _ => { s with streamingRequestId := s.streamingRequestId + 1 }

theorem takeRequestId_eq (op : Operation) (s : ClientRun) :
    ∃ r, s.takeRequestId op = { s with streamingRequestId := r } := by
  cases op with
  | call methodName request => exact ⟨s.streamingRequestId, rfl⟩
  | callStreaming methodName => exact ⟨s.streamingRequestId + 1, rfl⟩

variable [Deps]

/-- What is done before a substream is opened. -/
def prepare : Operation → RpcResult Unit
  | .call methodName request => (buildUnaryRequestFrame methodName request).map fun _ => ()
  | .callStreaming _ => .ok ()

/-- The first half of an operation. -/
def sent (op : Operation) (requestId : UInt64) (send : SendStream) : RpcResult Unit :=
  match op with
  | .call methodName request => (sendRequest send methodName request).1
  | .callStreaming methodName => (writeOpenRequest send ⟨methodName, requestId⟩).1

/-- What `call_streaming` makes of the frame that should be the ack. -/
def openAck (ackFrame : Option StreamingFrame) : RpcResult Unit :=
  match ackFrame with
  | some (.openResponse ⟨.ok, _⟩) => .ok ()
  | some (.openResponse ⟨.err reason, _⟩) =>
      match stripPrefix "unknown streaming method: " reason with
      | some suffix => .error (.unknownMethod suffix)
      | none => .error (.handler reason)
  | _ => .error (.malformedFrame ("expected streaming open-ack, got " ++ debugAck ackFrame))

/-- The second half of an operation. -/
def received : Operation → ReadM RpcError Reply
  | .call _ _ => do return .response (← receiveResponse)
  | .callStreaming _ => do
      ReadM.lift (openAck (← readStreamingFrame))
      return .channels

/-- One step of operation `i`. -/
def callStep (i : ℕ) (c : ClientCall) (s : ClientRun) : ClientCallAct → Option ClientRun
  | .openSubstream r => match c.stage, prepare c.op with
    | .started, .error e => some (s.advance i c (.returned none (.error e)) [.returned i])
    | .started, .ok () => some (s.openSubstream i c r)
    | _, _ => none
  | .write send => match c.stage with
    | .writing conn => match sent c.op s.streamingRequestId send with
      | .ok () => some ((s.takeRequestId c.op).advance i c (.reading conn) [])
      | .error e => some ((s.takeRequestId c.op).failed i c conn e)
    | _ => none
  | .read recv => match c.stage with
    | .reading conn => match received c.op recv with
      | .pending => none
      | .ready (.ok (reply, _)) =>
          some (s.advance i c (.returned (some conn) (.ok reply)) [.returned i])
      | .ready (.error e) => some (s.failed i c conn e)
    | _ => none
  | .evict => match c.stage with
    | .evicting conn e => some (s.evict i c conn e)
    | _ => none

def step : ClientAct → ClientRun → Option ClientRun
  | .begin peer op, s => some { s with calls := s.calls ++ [⟨peer, op, .started⟩] }
  | .call i a, s => match s.calls[i]? with
    | none => none
    | some c => s.callStep i c a
  | .dies conn, s =>
      if conn < s.connections then
        some { s with dead := conn :: s.dead, trace := s.trace ++ [.died conn] }
      else none

/-! ### What a step can do -/

/-- The action makes an operation fail with `e` on its connection. -/
def FailsOn (c : ClientCall) (conn : ℕ) (e : RpcError) (s : ClientRun) : ClientCallAct → Prop
  | .write send => c.stage = .writing conn ∧ sent c.op s.streamingRequestId send = .error e
  | .read recv => c.stage = .reading conn ∧ received c.op recv = .ready (.error e)
  | _ => False

variable {s s' : ClientRun} {i : ℕ} {c : ClientCall}

theorem callStep_cases {a : ClientCallAct} (h : s.callStep i c a = some s') :
    (∃ e, c.stage = .started ∧
      s' = s.advance i c (.returned none (.error e)) [.returned i]) ∨
    (∃ r, a = .openSubstream r ∧ c.stage = .started ∧ prepare c.op = .ok () ∧
      s' = s.openSubstream i c r) ∨
    (∃ conn r, c.stage = .writing conn ∧
      s' = ({ s with streamingRequestId := r } : ClientRun).advance i c (.reading conn) []) ∨
    (∃ conn reply, c.stage = .reading conn ∧
      s' = s.advance i c (.returned (some conn) (.ok reply)) [.returned i]) ∨
    (∃ conn e r, FailsOn c conn e s a ∧
      s' = ({ s with streamingRequestId := r } : ClientRun).failed i c conn e) ∨
    ∃ conn e, a = .evict ∧ c.stage = .evicting conn e ∧ s' = s.evict i c conn e := by
  cases a with
  | openSubstream r =>
      simp only [callStep] at h
      split at h
      · rename_i hstage _
        cases h
        exact .inl ⟨_, hstage, rfl⟩
      · rename_i hstage hprepared
        cases h
        exact .inr (.inl ⟨r, rfl, hstage, hprepared, rfl⟩)
      · cases h
  | write send =>
      simp only [callStep] at h
      obtain ⟨r, hr⟩ := takeRequestId_eq c.op s
      rw [hr] at h
      split at h
      · rename_i conn hstage
        split at h
        · cases h
          exact .inr (.inr (.inl ⟨conn, r, hstage, rfl⟩))
        · rename_i e hsent
          cases h
          exact .inr (.inr (.inr (.inr (.inl ⟨conn, e, r, ⟨hstage, hsent⟩, rfl⟩))))
      · cases h
  | read recv =>
      simp only [callStep] at h
      split at h
      · rename_i conn hstage
        split at h
        · cases h
        · cases h
          exact .inr (.inr (.inr (.inl ⟨conn, _, hstage, rfl⟩)))
        · rename_i e hread
          cases h
          exact .inr (.inr (.inr (.inr (.inl
            ⟨conn, e, s.streamingRequestId, ⟨hstage, hread⟩, rfl⟩))))
      · cases h
  | evict =>
      simp only [callStep] at h
      split at h
      · rename_i conn e hstage
        cases h
        exact .inr (.inr (.inr (.inr (.inr ⟨conn, e, rfl, hstage, rfl⟩))))
      · cases h

theorem step_cases {a : ClientAct} (h : step a s = some s') :
    (∃ peer op, s' = { s with calls := s.calls ++ [⟨peer, op, .started⟩] }) ∨
    (∃ i b c, a = .call i b ∧ s.calls[i]? = some c ∧ s.callStep i c b = some s') ∨
    ∃ conn, conn < s.connections ∧
      s' = { s with dead := conn :: s.dead, trace := s.trace ++ [.died conn] } := by
  cases a with
  | begin peer op =>
      cases h
      exact .inl ⟨peer, op, rfl⟩
  | call i b =>
      simp only [step] at h
      split at h
      · cases h
      · rename_i c hc
        exact .inr (.inl ⟨i, b, c, rfl, hc, h⟩)
  | dies conn =>
      simp only [step] at h
      split at h
      · rename_i hlt
        cases h
        exact .inr (.inr ⟨conn, hlt, rfl⟩)
      · cases h

end ClientRun

/-! ### The trace accounts for the cache -/

/-- What an event finds in the cache: a connection is dialed where there is none and is younger
than every connection before it, the one reused is there, and the one removed was. -/
def ClientEvent.Justified (before : List ClientEvent) : ClientEvent → Prop
  | .dialed _ key conn =>
      last touch key before = none ∧ ∀ e ∈ before, ∀ c ∈ e.mentions, c < conn
  | .reused _ key conn => last touch key before = some conn
  | .evicted _ key _ removed => removed = last touch key before
  | _ => True

/-- A cache, the number of connections dialed so far, and the trace that accounts for them. -/
structure Traced (cached : ConnectionKey → Option ℕ) (connections : ℕ)
    (trace : List ClientEvent) : Prop where
  cached_eq : ∀ key, cached key = last ClientEvent.touch key trace
  justified : Each ClientEvent.Justified trace
  mentioned : ∀ e ∈ trace, ∀ conn ∈ e.mentions, conn < connections

/-- Only dialing puts a connection into the cache. -/
theorem eq_dialed_of_touch {e : ClientEvent} {key : ConnectionKey} {conn : ℕ}
    (h : e.touch key = .put conn) : ∃ j, e = .dialed j key conn := by
  cases e with
  | dialed j key' d =>
      simp only [ClientEvent.touch] at h
      split at h
      · rename_i hkey
        cases h
        exact ⟨j, by rw [hkey]⟩
      · cases h
  | openFailed j key' =>
      simp only [ClientEvent.touch] at h
      split at h <;> cases h
  | evicted j key' own removed =>
      simp only [ClientEvent.touch] at h
      split at h <;> cases h
  | _ => cases h

/-- The connection an operation is on. -/
def Stage.conn? : Stage → Option ℕ
  | .started => none
  | .writing conn | .reading conn | .evicting conn _ => some conn
  | .returned conn _ => conn

section trace

variable {cached cached' : ConnectionKey → Option ℕ} {n n' : ℕ} {trace : List ClientEvent}

theorem Traced.append_event (h : Traced cached n trace) {e : ClientEvent}
    (he : e.Justified trace) (hn : n ≤ n') (hm : ∀ conn ∈ e.mentions, conn < n')
    (hcached : ∀ key, cached' key = (e.touch key).apply (cached key)) :
    Traced cached' n' (trace ++ [e]) := by
  refine ⟨?_, h.justified.append_singleton he, ?_⟩
  · intro key
    rw [last_append_singleton, ← h.cached_eq key]
    exact hcached key
  · intro e' he' conn hconn
    obtain he' | he' := List.mem_append.mp he'
    · exact lt_of_lt_of_le (h.mentioned e' he' conn hconn) hn
    · rw [List.mem_singleton.mp he'] at hconn
      exact hm conn hconn

theorem Traced.returned (h : Traced cached n trace) (i : ℕ) :
    Traced cached n (trace ++ [.returned i]) :=
  h.append_event trivial le_rfl (by simp [ClientEvent.mentions]) fun _ => rfl

theorem Traced.cached_update (key : ConnectionKey) (v : Option ℕ) (t : Touch ℕ)
    (ht : ∀ was, t.apply was = v) (k : ConnectionKey) :
    Function.update cached key v k = (if k = key then t else .leave).apply (cached k) := by
  by_cases hk : k = key
  · rw [hk, Function.update_self, if_pos rfl, ht]
  · rw [Function.update_of_ne hk, if_neg hk]
    rfl

/-- Behind an eviction for the connection `own`, nothing is opened on `own` any more, and what is
opened first has been dialed. -/
def OpensFresh (key : ConnectionKey) (own : ℕ) (after : List ClientEvent) : Prop :=
  ∀ mid e rest conn, after = mid ++ e :: rest → e.opens = some (key, conn) →
    conn ≠ own ∧ ((∀ e' ∈ mid, ∀ c, e'.opens ≠ some (key, c)) → ∃ j, e = .dialed j key conn)

/-- What is dialed behind an event that mentions `own` is another connection. -/
theorem Traced.dialed_ne {before after : List ClientEvent} {e : ClientEvent} {j conn own : ℕ}
    {key : ConnectionKey} (h : Traced cached n (before ++ .dialed j key conn :: after))
    (he : e ∈ before) (hown : own ∈ e.mentions) : conn ≠ own := by
  have hlt := (h.justified before _ after rfl).2 e he own hown
  omega

theorem Traced.opensFresh {before after : List ClientEvent} {i own : ℕ} {key : ConnectionKey}
    {removed : Option ℕ} (h : Traced cached n (before ++ .evicted i key own removed :: after)) :
    OpensFresh key own after := by
  rintro mid e rest conn rfl hopens
  have hmem : ∀ mid', ClientEvent.evicted i key own removed ∈
      before ++ .evicted i key own removed :: mid' := by simp
  have hown : own ∈ (ClientEvent.evicted i key own removed).mentions := List.mem_cons_self
  have hsplit : before ++ .evicted i key own removed :: (mid ++ e :: rest) =
      (before ++ .evicted i key own removed :: mid) ++ e :: rest := by simp
  rw [hsplit] at h
  cases e with
  | dialed j key' d =>
      cases hopens
      exact ⟨h.dialed_ne (hmem mid) hown, fun _ => ⟨j, rfl⟩⟩
  | reused j key' d =>
      cases hopens
      have hlast := h.justified _ _ rest rfl
      have hcons : before ++ .evicted i key own removed :: mid =
          (before ++ [.evicted i key own removed]) ++ mid := by simp
      rw [ClientEvent.Justified, hcons] at hlast
      obtain hlast | ⟨e', he', hput⟩ := exists_put_of_last_append hlast
      · rw [last_append_singleton, ClientEvent.touch, if_pos rfl] at hlast
        cases hlast
      · obtain ⟨j', rfl⟩ := eq_dialed_of_touch hput
        constructor
        · obtain ⟨m₁, m₂, rfl⟩ := List.append_of_mem he'
          have hsplit' : (before ++ .evicted i key own removed ::
              (m₁ ++ .dialed j' key conn :: m₂)) ++ .reused j key conn :: rest =
              (before ++ .evicted i key own removed :: m₁) ++
                .dialed j' key conn :: (m₂ ++ .reused j key conn :: rest) := by simp
          rw [hsplit'] at h
          exact h.dialed_ne (hmem m₁) hown
        · intro hfirst
          exact absurd rfl (hfirst _ he' conn)
  | _ => cases hopens

end trace

namespace ClientRun

/-- The trace accounts for the cache, and the operations are on connections that exist. -/
structure TraceInv (s : ClientRun) : Prop where
  traced : Traced s.cached s.connections s.trace
  stages : ∀ c ∈ s.calls, ∀ conn, c.stage.conn? = some conn → conn < s.connections

variable {s s' : ClientRun} {i : ℕ} {c : ClientCall}

theorem traceInv_start : TraceInv start :=
  ⟨⟨fun _ => rfl, each_nil, by simp [start]⟩, by simp [start]⟩

theorem TraceInv.advance (hi : TraceInv s) {stage : Stage} {events : List ClientEvent}
    {cached' : ConnectionKey → Option ℕ} {n' : ℕ} (r : UInt64)
    (ht : Traced cached' n' (s.trace ++ events)) (hn : s.connections ≤ n')
    (hstage : ∀ conn, stage.conn? = some conn → conn < n') :
    TraceInv { s.advance i c stage events with
      cached := cached', connections := n', streamingRequestId := r } := by
  refine ⟨ht, ?_⟩
  intro c' hc' conn hconn
  obtain hc' | rfl := List.mem_or_eq_of_mem_set hc'
  · exact lt_of_lt_of_le (hi.stages c' hc' conn hconn) hn
  · exact hstage conn hconn

theorem TraceInv.advance_same (hi : TraceInv s) {stage : Stage} {events : List ClientEvent}
    (r : UInt64) (ht : Traced s.cached s.connections (s.trace ++ events))
    (hstage : ∀ conn, stage.conn? = some conn → conn < s.connections) :
    TraceInv (({ s with streamingRequestId := r } : ClientRun).advance i c stage events) :=
  hi.advance r ht le_rfl hstage

theorem TraceInv.cached_lt (hi : TraceInv s) {key : ConnectionKey} {conn : ℕ}
    (h : s.cached key = some conn) : conn < s.connections := by
  rw [hi.traced.cached_eq key] at h
  obtain ⟨before, e, after, heq, hput, -⟩ := last_eq_some_iff.mp h
  obtain ⟨j, rfl⟩ := eq_dialed_of_touch hput
  exact hi.traced.mentioned (.dialed j key conn) (by rw [heq]; simp) conn
    (by simp [ClientEvent.mentions])

theorem TraceInv.openSubstream (hi : TraceInv s) (r : Except String Unit) :
    TraceInv (s.openSubstream i c r) := by
  have hlast := hi.traced.cached_eq c.key
  obtain ⟨reason, heq⟩ | ⟨conn, hcached, heq⟩ | ⟨-, hcached, heq⟩ :=
    openSubstream_cases s i c r <;> rw [heq]
  · have ht : Traced (Function.update s.cached c.key none) s.connections
        (s.trace ++ [.openFailed i c.key, .returned i]) := by
      have h := hi.traced.append_event (e := .openFailed i c.key) trivial le_rfl
        (by simp [ClientEvent.mentions]) (Traced.cached_update c.key none .drop fun _ => rfl)
      simpa using h.returned i
    exact hi.advance s.streamingRequestId ht le_rfl (by simp [Stage.conn?])
  · rw [hcached] at hlast
    have hlt := hi.cached_lt hcached
    have hjust : (ClientEvent.reused i c.key conn).Justified s.trace := hlast.symm
    have ht := hi.traced.append_event hjust le_rfl
      (by simpa [ClientEvent.mentions] using hlt) (fun _ => rfl)
    exact hi.advance_same s.streamingRequestId ht (by simpa [Stage.conn?] using hlt)
  · rw [hcached] at hlast
    have hjust : (ClientEvent.dialed i c.key s.connections).Justified s.trace :=
      ⟨hlast.symm, hi.traced.mentioned⟩
    have ht := hi.traced.append_event hjust (Nat.le_succ _)
      (by simp [ClientEvent.mentions])
      (Traced.cached_update c.key (some s.connections) (.put s.connections) fun _ => rfl)
    exact hi.advance s.streamingRequestId ht (Nat.le_succ _) (by simp [Stage.conn?])

theorem TraceInv.failed (hi : TraceInv s) {conn : ℕ} (hconn : conn < s.connections)
    (e : RpcError) (r : UInt64) :
    TraceInv (({ s with streamingRequestId := r } : ClientRun).failed i c conn e) := by
  obtain ⟨_, _, -, -, heq⟩ | ⟨-, heq⟩ :=
    failed_cases { s with streamingRequestId := r } i c conn e <;> rw [heq]
  · exact hi.advance_same r (by simpa using hi.traced) (by simpa [Stage.conn?] using hconn)
  · exact hi.advance_same r (hi.traced.returned i) (by simpa [Stage.conn?] using hconn)

theorem TraceInv.evict (hi : TraceInv s) {conn : ℕ} (hconn : conn < s.connections)
    (e : RpcError) : TraceInv (s.evict i c conn e) := by
  have hremoved : ∀ removed, s.cached c.key = some removed → removed < s.connections := by
    intro removed h
    exact hi.cached_lt h
  have ht : Traced (Function.update s.cached c.key none) s.connections
      (s.trace ++ [.evicted i c.key conn (s.cached c.key), .returned i]) := by
    have h := hi.traced.append_event (e := .evicted i c.key conn (s.cached c.key))
      (hi.traced.cached_eq c.key) le_rfl (by simpa [ClientEvent.mentions] using ⟨hconn, hremoved⟩)
      (Traced.cached_update c.key none .drop fun _ => rfl)
    simpa using h.returned i
  refine hi.advance s.streamingRequestId ht le_rfl ?_
  intro conn' h
  cases h
  exact hconn

variable [Deps]

theorem FailsOn.conn?_eq {conn : ℕ} {e : RpcError} {a : ClientCallAct} (h : FailsOn c conn e s a) :
    c.stage.conn? = some conn := by
  cases a with
  | write send => rw [h.1]; rfl
  | read recv => rw [h.1]; rfl
  | openSubstream r => exact h.elim
  | evict => exact h.elim

theorem FailsOn.ne_returned {conn : ℕ} {e : RpcError} {a : ClientCallAct}
    (h : FailsOn c conn e s a) {conn' : Option ℕ} {r : RpcResult Reply} :
    c.stage ≠ .returned conn' r := by
  cases a with
  | write send => rw [h.1]; simp
  | read recv => rw [h.1]; simp
  | openSubstream r => exact h.elim
  | evict => exact h.elim

theorem TraceInv.callStep (hi : TraceInv s) (hc : s.calls[i]? = some c) {a : ClientCallAct}
    (h : s.callStep i c a = some s') : TraceInv s' := by
  have hstages := hi.stages c (List.mem_of_getElem? hc)
  obtain ⟨e, -, rfl⟩ | ⟨r, -, -, -, rfl⟩ | ⟨conn, r, hst, rfl⟩ | ⟨conn, reply, hst, rfl⟩ |
    ⟨conn, e, r, hfails, rfl⟩ | ⟨conn, e, -, hst, rfl⟩ := callStep_cases h
  · exact hi.advance_same s.streamingRequestId (hi.traced.returned i) (by simp [Stage.conn?])
  · exact hi.openSubstream r
  · have hconn := hstages conn (by rw [hst]; rfl)
    exact hi.advance_same r (by simpa using hi.traced) (by simpa [Stage.conn?] using hconn)
  · have hconn := hstages conn (by rw [hst]; rfl)
    exact hi.advance_same s.streamingRequestId (hi.traced.returned i)
      (by simpa [Stage.conn?] using hconn)
  · exact hi.failed (hstages conn hfails.conn?_eq) e r
  · exact hi.evict (hstages conn (by rw [hst]; rfl)) e

/-- **The step lemma.** -/
theorem TraceInv.step (hi : TraceInv s) {a : ClientAct} (h : step a s = some s') :
    TraceInv s' := by
  obtain ⟨peer, op, rfl⟩ | ⟨i, b, c, -, hc, hs⟩ | ⟨conn, hlt, rfl⟩ := step_cases h
  · refine ⟨hi.traced, ?_⟩
    intro c hc conn hconn
    obtain hc | hc := List.mem_append.mp hc
    · exact hi.stages c hc conn hconn
    · rw [List.mem_singleton.mp hc] at hconn
      cases hconn
  · exact hi.callStep hc hs
  · exact ⟨hi.traced.append_event trivial le_rfl (by simpa [ClientEvent.mentions] using hlt)
      fun _ => rfl, hi.stages⟩

end ClientRun

end NerwRpc
