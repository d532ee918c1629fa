import Mathlib.Data.List.AList
import NerwRpc.Permits
import NerwRpc.Server

/-! # The datagram dispatcher

`DatagramDispatcher` is the table of handlers by stream id and the semaphore that bounds the
per-frame tasks.  A frame is `[varint(stream-id) | payload]`; `route` is what `dispatch` makes of
it up to the handler's call.

A call of `dispatch` is a `Dispatch` that moves by `Dispatch.step`: it looks its handler up at
one instant, invokes it, and returns with the handler.  Handlers are identified by a type `H` of
their own: what one does is not part of the dispatcher. -/

namespace NerwRpc

open Permits

def alpnNerwDatagram : Bytes := "nerw/datagram/1.0.0".toList.map fun c => UInt8.ofNat c.toNat

/-- Stream-id keyed table of handlers. -/
abbrev HandlerTable (H : Type) := AList fun _ : UInt64 => H

def HandlerTable.get {H : Type} (handlers : HandlerTable H) (streamId : UInt64) : Option H :=
  handlers.lookup streamId

section table

variable {H : Type} (handlers : HandlerTable H) (streamId : UInt64)

@[simp] theorem HandlerTable.get_empty : HandlerTable.get (∅ : HandlerTable H) streamId = none :=
  rfl

theorem HandlerTable.get_insert (handler : H) (i : UInt64) :
    HandlerTable.get (handlers.insert streamId handler) i =
      if i = streamId then some handler else handlers.get i := by
  unfold HandlerTable.get
  by_cases h : i = streamId
  · subst h
    rw [if_pos rfl, AList.lookup_insert]
  · rw [if_neg h, AList.lookup_insert_ne h]

theorem HandlerTable.get_erase (i : UInt64) :
    HandlerTable.get (handlers.erase streamId) i =
      if i = streamId then none else handlers.get i := by
  unfold HandlerTable.get
  by_cases h : i = streamId
  · subst h
    rw [if_pos rfl, AList.lookup_erase]
  · rw [if_neg h, AList.lookup_erase_ne h]

end table

structure DatagramDispatcher (H : Type) where
  handlers : HandlerTable H
  inFlightPermits : Semaphore

namespace DatagramDispatcher

variable {H : Type}

def defaultMaxConcurrentDatagrams : ℕ := 1024

/-- `none` where the source panics. -/
def withMaxInFlight (max : ℕ) : Option (DatagramDispatcher H) :=
  if 0 < max then some ⟨∅, .new max⟩ else none

def new : Option (DatagramDispatcher H) := withMaxInFlight defaultMaxConcurrentDatagrams

theorem new_isSome : (new : Option (DatagramDispatcher H)).isSome = true := rfl

/-- The check and the insertion are one access to the entry. -/
def register (streamId : UInt64) (handler : H) (d : DatagramDispatcher H) :
    RpcResult Unit × DatagramDispatcher H :=
  match d.handlers.get streamId with
  | some _ => (.error (.datagramStreamIdCollision streamId), d)
  | none => (.ok (), { d with handlers := d.handlers.insert streamId handler })

/-- The handler that was registered, and the dispatcher without it. -/
def unregister (streamId : UInt64) (d : DatagramDispatcher H) :
    Option H × DatagramDispatcher H :=
  (d.handlers.get streamId, { d with handlers := d.handlers.erase streamId })

/-- The context of a datagram delivery; the trace ids are fresh. -/
def buildContext (fromPeer : NodeId) (traceId spanId : Uuid) : RpcContext where
  peer :=
    { nodeId := fromPeer
      connectionId := 0
      streamId := 0
      alpn := alpnNerwDatagram
      handshakeAtMs := 0
      tlsCipherSuite := none }
  timing := ⟨0, 0, 0⟩
  auth := none
  session := none
  tracing := ⟨traceId, spanId, none, none, false⟩

section register

variable {d : DatagramDispatcher H} {streamId : UInt64} {handler : H}

/-- **An occupied id is refused** and nothing changes. -/
theorem register_occupied {h : H} (hid : d.handlers.get streamId = some h) :
    d.register streamId handler = (.error (.datagramStreamIdCollision streamId), d) := by
  unfold register
  rw [hid]

theorem register_vacant (hid : d.handlers.get streamId = none) :
    d.register streamId handler =
      (.ok (), { d with handlers := d.handlers.insert streamId handler }) := by
  unfold register
  rw [hid]

end register

end DatagramDispatcher

/-! ### Routing one frame -/

section route

variable [Deps] {H : Type} (handlers : HandlerTable H)

/-- The handler of a frame and its payload, or the error `dispatch` returns. -/
def route (frame : Bytes) : RpcResult (H × Bytes) :=
  if frame = [] then .error (.datagramTooShort 0)
  else match decodeStreamId frame with
    | .error e => .error e
    | .ok (streamId, payloadSlice) =>
        let prefixLen := frame.length - payloadSlice.length
        let payload := frame.drop prefixLen
        match handlers.get (UInt64.ofNat streamId) with
        | some h => .ok (h, payload)
        | none => .error (.datagramStreamIdUnknown (UInt64.ofNat streamId))

variable {handlers}

theorem encodeStreamId_eq (streamId : UInt64) (buf : Bytes) :
    encodeStreamId streamId buf = buf ++ Leb128.encode streamId.toNat := by
  unfold encodeStreamId
  rw [leb128.write_eq _ streamId.toNat_lt]

theorem decodeStreamId_encode (streamId : UInt64) (payload : Bytes) :
    decodeStreamId (encodeStreamId streamId [] ++ payload) = .ok (streamId.toNat, payload) := by
  rw [encodeStreamId_eq, List.nil_append, decodeStreamId,
    leb128_read_encode streamId.toNat_lt]
  simp

/-- The payload is what the reader of the id leaves of the frame. -/
theorem decodeStreamId_suffix {frame payload : Bytes} {streamId : ℕ}
    (h : decodeStreamId frame = .ok (streamId, payload)) :
    ∃ used, used ≠ [] ∧ frame = used ++ payload := by
  unfold decodeStreamId at h
  split at h
  · cases h
  · rename_i behind hread
    cases h
    obtain ⟨used, rfl, -, hused⟩ := leb128_read_split.mp hread
    have hlen : (used ++ behind).length - behind.length = used.length := by
      rw [List.length_append]
      omega
    refine ⟨used, ?_, by rw [hlen, List.drop_left]⟩
    rintro rfl
    rw [leb128_read_ok_iff] at hused
    cases hused

/-- **A frame is routed to the handler under its id**, with exactly its payload. -/
theorem route_decoded {frame payload : Bytes} {streamId : ℕ}
    (h : decodeStreamId frame = .ok (streamId, payload)) :
    route handlers frame =
      match handlers.get (UInt64.ofNat streamId) with
      | some h => .ok (h, payload)
      | none => .error (.datagramStreamIdUnknown (UInt64.ofNat streamId)) := by
  obtain ⟨used, hne, hframe⟩ := decodeStreamId_suffix h
  have hlen : frame.length - payload.length = used.length := by
    rw [hframe, List.length_append]
    omega
  have hdrop : frame.drop used.length = payload := by
    rw [hframe, List.drop_left]
  have hnil : frame ≠ [] := by
    rw [hframe]
    exact List.append_ne_nil_of_left_ne_nil hne payload
  unfold route
  rw [if_neg hnil, h]
  simp only [hlen, hdrop]

theorem route_undecoded {frame : Bytes} {e : RpcError} (h : decodeStreamId frame = .error e) :
    ∃ e, ∀ handlers : HandlerTable H, route handlers frame = .error e := by
  by_cases hnil : frame = []
  · refine ⟨.datagramTooShort 0, fun handlers => ?_⟩
    unfold route
    rw [if_pos hnil]
  · refine ⟨e, fun handlers => ?_⟩
    unfold route
    rw [if_neg hnil, h]

/-- A frame without a 64-bit varint at its front is malformed. -/
theorem route_malformed {frame : Bytes} (hne : frame ≠ [])
    (h : ∀ v rest, Leb128.decode frame = some (v, rest) → 2 ^ 64 ≤ v) :
    ∃ reason, ∀ handlers : HandlerTable H,
      route handlers frame = .error (.malformedFrame reason) := by
  have hnone : Leb128.readUnsigned frame = none := by
    cases hr : Leb128.readUnsigned frame with
    | none => rfl
    | some p =>
        obtain ⟨v, rest⟩ := p
        obtain ⟨hd, hv⟩ := Leb128.readUnsigned_eq_some hr
        have := h v rest hd
        omega
  cases hr : leb128.read frame with
  | ok p =>
      have := leb128.read_ok frame
      rw [hr, hnone] at this
      cases this
  | error e =>
      refine ⟨"leb128 read stream-id: " ++ e, ?_⟩
      intro handlers
      unfold route decodeStreamId
      rw [if_neg hne, hr]

end route

/-! ### One call of `dispatch` -/

/-- How far a call of `dispatch` has come. -/
inductive DispatchPhase (H : Type) where
  | started
  | found (handler : H) (payload : Bytes)
  | handling (handler : H) (payload : Bytes)
  | ended (outcome : Outcome)
deriving DecidableEq, Repr

structure Dispatch (H : Type) where
  ctx : RpcContext
  frame : Bytes
  phase : DispatchPhase H
deriving DecidableEq, Repr

inductive DispatchAct where
  | lookup
  | invoke
  | handlerEnds (outcome : Outcome)
deriving DecidableEq, Repr

section dispatch

variable [Deps] {H : Type}

def Dispatch.start (ctx : RpcContext) (frame : Bytes) : Dispatch H := ⟨ctx, frame, .started⟩

/-- The phase behind the lookup. -/
def routed : RpcResult (H × Bytes) → DispatchPhase H
  | .ok (h, payload) => .found h payload
  | .error e => .ended (.returned (.error e))

/-- The table is read at the lookup and at no other time. -/
def Dispatch.step (handlers : HandlerTable H) : DispatchAct → Dispatch H → Option (Dispatch H)
  | .lookup, d => match d.phase with
    | .started => some { d with phase := routed (route handlers d.frame) }
    | _ => none
  | .invoke, d => match d.phase with
    | .found h payload => some { d with phase := .handling h payload }
    | _ => none
  | .handlerEnds outcome, d => match d.phase with
    | .handling _ _ => some { d with phase := .ended outcome }
    | _ => none

variable {handlers : HandlerTable H} {d d' : Dispatch H}

theorem Dispatch.step_cases {a : DispatchAct} (h : d.step handlers a = some d') :
    (a = .lookup ∧ d.phase = .started ∧
      d' = { d with phase := routed (route handlers d.frame) }) ∨
    (∃ handler payload, a = .invoke ∧ d.phase = .found handler payload ∧
      d' = { d with phase := .handling handler payload }) ∨
    ∃ handler payload outcome, a = .handlerEnds outcome ∧ d.phase = .handling handler payload ∧
      d' = { d with phase := .ended outcome } := by
  obtain ⟨ctx, frame, phase⟩ := d
  cases a with
  | lookup =>
      cases phase with
      | started =>
          cases h
          exact .inl ⟨rfl, rfl, rfl⟩
      | _ => cases h
  | invoke =>
      cases phase with
      | found handler payload =>
          cases h
          exact .inr (.inl ⟨handler, payload, rfl, rfl, rfl⟩)
      | _ => cases h
  | handlerEnds outcome =>
      cases phase with
      | handling handler payload =>
          cases h
          exact .inr (.inr ⟨handler, payload, outcome, rfl, rfl, rfl⟩)
      | _ => cases h

theorem Dispatch.progress (handlers : HandlerTable H) (d : Dispatch H)
    (h : ∀ outcome, d.phase ≠ .ended outcome) (outcome : Outcome) :
    (d.step handlers .lookup).isSome ∨ (d.step handlers .invoke).isSome ∨
      (d.step handlers (.handlerEnds outcome)).isSome := by
  obtain ⟨ctx, frame, phase⟩ := d
  cases phase with
  | started => exact .inl rfl
  | found handler payload => exact .inr (.inl rfl)
  | handling handler payload => exact .inr (.inr rfl)
  | ended o => exact absurd rfl (h o)

end dispatch

end NerwRpc
