import NerwRpc.BytePipe
import NerwRpc.MethodEntry
import NerwRpc.Transition
import NerwRpc.UnaryCall

/-! # Runs of a unary call

One call of `RpcClient::call` and the substream task that answers it, over a connection that
delivers the bytes of both directions in pieces and may be lost at any time.  The caller may give
the call up at any time; its half of the substream is dropped with it, and ends where it is.

* `entry_request`: what the server makes of the front of a request.
* `Inv`: how far the two sides are.
* `unaryCall_atMostOnce`: the handler runs at most once, and a result is that of the local call, or
  an error of the transport. -/

namespace NerwRpc

open ByteStream Transition

inductive UnaryCaller where
  | opening
  | writing (left : Bytes)
  | reading
  | returned (result : RpcResult Bytes)
  | cancelled
deriving DecidableEq, Repr

/-- There is a task of the server once the substream is open. -/
inductive UnaryServer where
  | absent
  | reading
  | writing (left : Bytes)
  | closed
deriving DecidableEq, Repr

/-- The two sides, the two directions, whether the connection is lost, and the methods that the
server has invoked, with their payloads. -/
structure UnaryRun where
  caller : UnaryCaller
  server : UnaryServer
  up : Pipe
  down : Pipe
  lost : Bool
  invoked : List (String × Bytes)
deriving DecidableEq, Repr

inductive UnaryAct where
  | openSubstream (r : Except String Unit)
  | write (n : ℕ)
  | writeFails (reason : String)
  | finish
  | read
  | cancel
  | deliverUp (n : ℕ)
  | finUp
  | deliverDown (n : ℕ)
  | finDown
  | lose (e : ReadError)
  | enter
  | respond (n : ℕ)
  | respondFails
  | close
deriving DecidableEq, Repr

/-- The caller holds no half of the substream any more. -/
def UnaryCaller.Gone : UnaryCaller → Bool
  | .returned _ | .cancelled => true
  | _ => false

/-- The server has read its request. -/
def UnaryServer.Answers : UnaryServer → Bool
  | .writing _ | .closed => true
  | _ => false

namespace UnaryRun

def start : UnaryRun := ⟨.opening, .absent, .start, .start, false, []⟩

section steps

variable [Deps] (c : Inbound) (registry : Registry) (peer : NodeId) (methodName : String)
  (payload : Bytes)

/-- The handlers that an entry invokes. -/
def invocations : Entry → List (String × Bytes)
  | .unary methodName payload =>
      if (registry.lookup methodName).isSome = true then [(methodName, payload)] else []
  | .streaming _ | .refused _ => []

/-- The bytes that the server writes for an entry. -/
def answer (e : Entry) : Bytes := (serve c registry (.fresh none) e).wire

/-- One action; `none` when it is not possible.  A write fails when the connection is lost or the
other side is gone; a side that drops its half of the substream ends it. -/
def step : UnaryAct → UnaryRun → Option UnaryRun
  | .openSubstream r, s => match s.caller, buildUnaryRequestFrame methodName payload, r with
    | .opening, .error e, _ => some { s with caller := .returned (.error e) }
    | .opening, .ok _, .error reason =>
        some { s with caller := .returned (.error (.transportOpenSubstream peer reason)) }
    | .opening, .ok frame, .ok () =>
        some { s with caller := .writing frame, server := .reading }
    | _, _, _ => none
  | .write n, s => match s.caller with
    | .writing left =>
        if s.lost = false ∧ 0 < n ∧ n ≤ left.length then
          some { s with caller := .writing (left.drop n), up := s.up.push (left.take n) }
        else none
    | _ => none
  | .writeFails reason, s => match s.caller with
    | .writing _ =>
        if s.lost = true ∨ s.server = .closed then
          some { s with
            caller := .returned (.error (.transportWrite ("write_all: " ++ reason)))
            up := s.up.close }
        else none
    | _ => none
  | .finish, s => match s.caller with
    | .writing [] => some { s with caller := .reading, up := s.up.close }
    | _ => none
  | .read, s => match s.caller with
    | .reading => match receiveResponse s.down.recv with
      | .pending => none
      | .ready r => some { s with caller := .returned (r.map Prod.fst) }
    | _ => none
  | .cancel, s =>
      if s.caller.Gone = true then none
      else some { s with caller := .cancelled, up := s.up.close }
  | .deliverUp n, s => (s.up.deliver n).map fun up => { s with up := up }
  | .finUp, s => s.up.deliverFin.map fun up => { s with up := up }
  | .deliverDown n, s => (s.down.deliver n).map fun down => { s with down := down }
  | .finDown, s => s.down.deliverFin.map fun down => { s with down := down }
  | .lose e, s =>
      if s.lost = true then none
      else some { s with lost := true, up := s.up.cut e, down := s.down.cut e }
  | .enter, s => match s.server, entry s.up.recv with
    | .reading, .ready (.ok (e, _)) =>
        some { s with server := .writing (answer c registry e)
                      invoked := s.invoked ++ invocations registry e }
    | _, _ => none
  | .respond n, s => match s.server with
    | .writing left =>
        if s.lost = false ∧ 0 < n ∧ n ≤ left.length then
          some { s with server := .writing (left.drop n), down := s.down.push (left.take n) }
        else none
    | _ => none
  | .respondFails, s => match s.server with
    | .writing _ =>
        if s.lost = true ∨ s.caller.Gone = true then
          some { s with server := .closed, down := s.down.close }
        else none
    | _ => none
  | .close, s => match s.server with
    | .writing [] => some { s with server := .closed, down := s.down.close }
    | _ => none

/-! ### What a step can do -/

variable {c registry peer methodName payload} {s s' : UnaryRun}

/-- The steps, each with what it requires. -/
inductive Moved (c : Inbound) (registry : Registry) (peer : NodeId) (methodName : String)
    (payload : Bytes) (s : UnaryRun) : UnaryRun → Prop
  | refused {e : RpcError} : s.caller = .opening →
      buildUnaryRequestFrame methodName payload = .error e →
      Moved c registry peer methodName payload s { s with caller := .returned (.error e) }
  | openFails (reason : String) : s.caller = .opening →
      Moved c registry peer methodName payload s
        { s with caller := .returned (.error (.transportOpenSubstream peer reason)) }
  | opens {frame : Bytes} : s.caller = .opening →
      buildUnaryRequestFrame methodName payload = .ok frame →
      Moved c registry peer methodName payload s
        { s with caller := .writing frame, server := .reading }
  | write {n : ℕ} {left : Bytes} : s.caller = .writing left → s.lost = false → 0 < n →
      n ≤ left.length → Moved c registry peer methodName payload s
        { s with caller := .writing (left.drop n), up := s.up.push (left.take n) }
  | writeFails (reason : String) {left : Bytes} : s.caller = .writing left →
      s.lost = true ∨ s.server = .closed → Moved c registry peer methodName payload s
        { s with caller := .returned (.error (.transportWrite ("write_all: " ++ reason)))
                 up := s.up.close }
  | finish : s.caller = .writing [] → Moved c registry peer methodName payload s
      { s with caller := .reading, up := s.up.close }
  | read {r : Except RpcError (Bytes × RecvStream)} : s.caller = .reading →
      receiveResponse s.down.recv = .ready r → Moved c registry peer methodName payload s
        { s with caller := .returned (r.map Prod.fst) }
  | cancel : s.caller.Gone = false → Moved c registry peer methodName payload s
      { s with caller := .cancelled, up := s.up.close }
  | up {up : Pipe} : s.up.Arrives up →
      Moved c registry peer methodName payload s { s with up := up }
  | down {down : Pipe} : s.down.Arrives down →
      Moved c registry peer methodName payload s { s with down := down }
  | lose (err : ReadError) : s.lost = false → Moved c registry peer methodName payload s
      { s with lost := true, up := s.up.cut err, down := s.down.cut err }
  | enter {e : Entry} {recv' : RecvStream} : s.server = .reading →
      entry s.up.recv = .ready (.ok (e, recv')) → Moved c registry peer methodName payload s
        { s with server := .writing (answer c registry e)
                 invoked := s.invoked ++ invocations registry e }
  | respond {n : ℕ} {left : Bytes} : s.server = .writing left → s.lost = false → 0 < n →
      n ≤ left.length → Moved c registry peer methodName payload s
        { s with server := .writing (left.drop n), down := s.down.push (left.take n) }
  | closes {left : Bytes} : s.server = .writing left →
      left = [] ∨ s.lost = true ∨ s.caller.Gone = true →
      Moved c registry peer methodName payload s { s with server := .closed, down := s.down.close }

theorem moved_of_step {a : UnaryAct}
    (hs : step c registry peer methodName payload a s = some s') :
    Moved c registry peer methodName payload s s' := by
  cases a with
  | openSubstream r =>
      simp only [step] at hs
      split at hs
      · rename_i hcaller hframe
        cases hs
        exact .refused hcaller hframe
      · rename_i hcaller _
        cases hs
        exact .openFails _ hcaller
      · rename_i hcaller hframe
        cases hs
        exact .opens hcaller hframe
      · cases hs
  | write n =>
      simp only [step] at hs
      split at hs
      · rename_i left hcaller
        split_ifs at hs with hcan
        cases hs
        exact .write hcaller hcan.1 hcan.2.1 hcan.2.2
      · cases hs
  | writeFails reason =>
      simp only [step] at hs
      split at hs
      · rename_i left hcaller
        split_ifs at hs with hcan
        cases hs
        exact .writeFails reason hcaller hcan
      · cases hs
  | finish =>
      simp only [step] at hs
      split at hs
      · rename_i hcaller
        cases hs
        exact .finish hcaller
      · cases hs
  | read =>
      simp only [step] at hs
      split at hs
      · rename_i hcaller
        split at hs
        · cases hs
        · rename_i hread
          cases hs
          exact .read hcaller hread
      · cases hs
  | cancel =>
      simp only [step] at hs
      split_ifs at hs with hgone
      cases hs
      exact .cancel (Bool.eq_false_iff.mpr hgone)
  | deliverUp n =>
      obtain ⟨up, hup, rfl⟩ := Option.map_eq_some_iff.mp hs
      exact .up (Pipe.arrives_deliver hup)
  | finUp =>
      obtain ⟨up, hup, rfl⟩ := Option.map_eq_some_iff.mp hs
      exact .up (Pipe.arrives_deliverFin hup)
  | deliverDown n =>
      obtain ⟨down, hdown, rfl⟩ := Option.map_eq_some_iff.mp hs
      exact .down (Pipe.arrives_deliver hdown)
  | finDown =>
      obtain ⟨down, hdown, rfl⟩ := Option.map_eq_some_iff.mp hs
      exact .down (Pipe.arrives_deliverFin hdown)
  | lose err =>
      simp only [step] at hs
      split_ifs at hs with hlost
      cases hs
      exact .lose err (Bool.eq_false_iff.mpr hlost)
  | enter =>
      simp only [step] at hs
      split at hs
      · rename_i hserver hentry
        cases hs
        exact .enter hserver hentry
      · cases hs
  | respond n =>
      simp only [step] at hs
      split at hs
      · rename_i left hserver
        split_ifs at hs with hcan
        cases hs
        exact .respond hserver hcan.1 hcan.2.1 hcan.2.2
      · cases hs
  | respondFails =>
      simp only [step] at hs
      split at hs
      · rename_i left hserver
        split_ifs at hs with hcan
        cases hs
        exact .closes hserver (.inr hcan)
      · cases hs
  | close =>
      simp only [step] at hs
      split at hs
      · rename_i hserver
        cases hs
        exact .closes hserver (.inl rfl)
      · cases hs

/-! ### What the server makes of the front of a request -/

/-- The frame of the request. -/
def requestFrame (methodName : String) (payload : Bytes) : Bytes :=
  opcodeUnaryRequest :: (Leb128.encode (Utf8.bytes methodName).length ++
    (Utf8.bytes methodName ++ payload))

/-- A cut frame is refused, or it is the frame of a shorter payload. -/
theorem decodeMethodName_front {tail : Bytes} {name : String} {rest : Bytes}
    (hname : (Utf8.bytes methodName).length ≤ maxMethodNameLen)
    (htail : tail <+: Leb128.encode (Utf8.bytes methodName).length ++
      (Utf8.bytes methodName ++ payload))
    (h : decodeMethodName tail = .ok (name, rest)) : name = methodName ∧ rest <+: payload := by
  obtain ⟨used, rfl, hused, hmax⟩ := decodeMethodName_sound h
  obtain ⟨more, hmore⟩ := htail
  have hwhole : decodeMethodName (used ++ (Utf8.bytes name ++ (rest ++ more))) =
      .ok (name, rest ++ more) := decodeMethodName_complete hused hmax
  have hsame : used ++ (Utf8.bytes name ++ (rest ++ more)) =
      Leb128.encode (Utf8.bytes methodName).length ++ (Utf8.bytes methodName ++ payload) := by
    rw [← hmore]
    simp only [List.append_assoc]
  rw [hsame, decodeMethodName_encode hname] at hwhole
  obtain ⟨rfl, rfl⟩ : methodName = name ∧ payload = rest ++ more := by simpa using hwhole
  exact ⟨rfl, List.prefix_append rest more⟩

/-- What the server may come to when the request is cut short. -/
def Shortened (methodName : String) (payload : Bytes) (e : Entry) : Prop :=
  (∃ err, e = .refused err) ∨ ∃ front, front <+: payload ∧ e = .unary methodName front

/-- The server reads up to the end of the request, and is at its method then. -/
theorem entry_request (hname : (Utf8.bytes methodName).length ≤ maxMethodNameLen)
    (hlen : (requestFrame methodName payload).length ≤ rpcStreamReadLimit + 1) {bs : Bytes}
    (hbs : bs <+: requestFrame methodName payload) (t : StreamEnd) :
    t = .live ∧ entry ⟨bs, t⟩ = .pending ∨
    ∃ e recv', entry ⟨bs, t⟩ = .ready (.ok (e, recv')) ∧
      (t = .finished ∧ Shortened methodName payload e ∧
          (bs = requestFrame methodName payload → e = .unary methodName payload) ∨
        (∃ err, t = .broken err) ∧ e = .refused none) := by
  cases bs with
  | nil =>
      cases t with
      | live => exact .inl ⟨rfl, rfl⟩
      | finished =>
          refine .inr ⟨.refused none, _, rfl, .inl ⟨rfl, .inl ⟨none, rfl⟩, fun h => ?_⟩⟩
          cases h
      | broken err => exact .inr ⟨.refused none, _, rfl, .inr ⟨⟨err, rfl⟩, rfl⟩⟩
  | cons opcode tail =>
      obtain ⟨rfl, htail⟩ := List.cons_prefix_cons.mp hbs
      have hshort : ¬ rpcStreamReadLimit < tail.length := by
        have := htail.length_le
        simp only [requestFrame, List.length_cons] at hlen
        omega
      cases t with
      | live =>
          have hread : readToEnd rpcStreamReadLimit ⟨tail, .live⟩ = .pending := by
            simp [readToEnd, hshort]
          refine .inl ⟨rfl, ?_⟩
          rw [entry, ReadM.bind_ok _ (ReadM.attempt_ok (readExact_one _ tail _))]
          exact ReadM.bind_pending _ (ReadM.attempt_pending hread)
      | finished =>
          have hread : readToEnd rpcStreamReadLimit ⟨tail, .finished⟩ =
              .ready (.ok (tail, ⟨[], .finished⟩)) := by
            simp [readToEnd, hshort]
          refine .inr ⟨unaryEntry tail, ⟨[], .finished⟩, ?_, .inl ⟨rfl, ?_, fun h => ?_⟩⟩
          · rw [entry, ReadM.bind_ok _ (ReadM.attempt_ok (readExact_one _ tail _))]
            exact ReadM.bind_ok _ (ReadM.attempt_ok hread)
          · unfold unaryEntry
            cases hdec : decodeMethodName tail with
            | error err => exact .inl ⟨some err, rfl⟩
            | ok p =>
                obtain ⟨rfl, hfront⟩ := decodeMethodName_front hname htail hdec
                exact .inr ⟨p.2, hfront, rfl⟩
          · obtain ⟨-, rfl⟩ := List.cons.inj h
            rw [unaryEntry, decodeMethodName_encode hname]
      | broken err =>
          have hread : readToEnd rpcStreamReadLimit ⟨tail, .broken err⟩ =
              .ready (.error (.readError err)) := by
            simp [readToEnd, hshort]
          refine .inr ⟨.refused none, ⟨tail, .broken err⟩, ?_, .inr ⟨⟨err, rfl⟩, rfl⟩⟩
          rw [entry, ReadM.bind_ok _ (ReadM.attempt_ok (readExact_one _ tail _))]
          exact ReadM.bind_ok _ (ReadM.attempt_error hread)

/-! ### The invariant -/

/-- The request: a front of its frame is on its way, and the whole frame when its end is, unless
the call has been given up. -/
structure Asking (methodName : String) (payload : Bytes) (s : UnaryRun) : Prop where
  sound : s.up.Sound
  sent : s.up.content <+: requestFrame methodName payload
  opening : s.caller = .opening →
    s.server = .absent ∧ s.up.closed = false ∧ s.up.content = []
  writing : ∀ left, s.caller = .writing left → s.up.closed = false ∧
    (s.lost = false → s.up.content ++ left = requestFrame methodName payload)
  whole : s.up.closed = true → s.caller ≠ .cancelled → s.server.Answers = false →
    (∀ err, s.up.recv.tail ≠ .broken err) → s.up.content = requestFrame methodName payload
  lost : s.lost = true → s.up.recv.tail ≠ .live
  broken : ∀ err, s.up.recv.tail = .broken err → s.lost = true

/-- What the server has come to, and how much of its answer is on its way. -/
structure Settled (c : Inbound) (registry : Registry) (methodName : String) (payload : Bytes)
    (s : UnaryRun) (e : Entry) : Prop where
  invoked : s.invoked = invocations registry e
  kind : e = .unary methodName payload ∨
    (s.caller = .cancelled ∧ Shortened methodName payload e) ∨
    e = .refused none ∧ ∃ err, s.down.recv.tail = .broken err
  writing : ∀ left, s.server = .writing left → s.down.closed = false ∧
    (s.lost = false → s.down.content ++ left = answer c registry e)
  closed : s.server = .closed → s.caller.Gone = false →
    (∀ err, s.down.recv.tail ≠ .broken err) → s.down.content = answer c registry e

/-- The response: nothing before the server is at a method, and then what it has come to. -/
structure Answering (c : Inbound) (registry : Registry) (methodName : String) (payload : Bytes)
    (s : UnaryRun) : Prop where
  sound : s.down.Sound
  idle : s.server.Answers = false →
    s.invoked = [] ∧ s.down.closed = false ∧ s.down.content = []
  settled : s.server.Answers = true → ∃ e, Settled c registry methodName payload s e
  lost : s.lost = true → s.down.recv.tail ≠ .live
  broken : ∀ err, s.down.recv.tail = .broken err → s.lost = true

/-- The errors of the transport. -/
def IsTransportError : RpcError → Prop
  | .transportOpenSubstream _ _ | .transportRead _ | .transportWrite _ => True
  | _ => False

/-- What a call may return. -/
def Outcome (c : Inbound) (registry : Registry) (methodName : String) (payload : Bytes)
    (s : UnaryRun) (result : RpcResult Bytes) : Prop :=
  (result = localCall c registry methodName payload ∧ s.server.Answers = true ∧
    s.invoked = invocations registry (.unary methodName payload)) ∨
  ∃ e, result = .error e ∧ IsTransportError e

structure Inv (c : Inbound) (registry : Registry) (methodName : String) (payload : Bytes)
    (s : UnaryRun) : Prop where
  asking : Asking methodName payload s
  answering : Answering c registry methodName payload s
  returned : ∀ result, s.caller = .returned result →
    Outcome c registry methodName payload s result

theorem inv_start : Inv c registry methodName payload start where
  asking :=
    { sound := Pipe.sound_start
      sent := List.nil_prefix
      opening := fun _ => ⟨rfl, rfl, rfl⟩
      writing := by rintro left ⟨⟩
      whole := by rintro ⟨⟩
      lost := by rintro ⟨⟩
      broken := by rintro err ⟨⟩ }
  answering :=
    { sound := Pipe.sound_start
      idle := fun _ => ⟨rfl, rfl, rfl⟩
      settled := by rintro ⟨⟩
      lost := by rintro ⟨⟩
      broken := by rintro err ⟨⟩ }
  returned := by rintro result ⟨⟩

omit [Deps] in
/-- The end of a request is seen behind the whole of it, unless the call has been given up. -/
theorem Asking.finished (h : Asking methodName payload s) (hserver : s.server.Answers = false)
    (hcaller : s.caller ≠ .cancelled) (hfin : s.up.recv.tail = .finished) :
    s.up.recv.buf = requestFrame methodName payload := by
  obtain ⟨hclosed, hbuf⟩ := h.sound.finished hfin
  rw [hbuf]
  refine h.whole hclosed hcaller hserver ?_
  rintro err hbroken
  rw [hfin] at hbroken
  cases hbroken

/-- A reader of the answer that sees its end has the whole of it. -/
theorem Answering.finished (h : Answering c registry methodName payload s)
    (hcaller : s.caller = .reading) (hfin : s.down.recv.tail = .finished) :
    s.server.Answers = true ∧ s.invoked = invocations registry (.unary methodName payload) ∧
      s.down.recv.buf = answer c registry (.unary methodName payload) := by
  obtain ⟨hclosed, hbuf⟩ := h.sound.finished hfin
  have hanswers : s.server.Answers = true := by
    by_contra hidle
    rw [(h.idle (Bool.eq_false_iff.mpr hidle)).2.1] at hclosed
    cases hclosed
  obtain ⟨e, hsettled⟩ := h.settled hanswers
  have hunbroken : ∀ err, s.down.recv.tail ≠ .broken err := by
    intro err hbroken
    rw [hfin] at hbroken
    cases hbroken
  obtain rfl : e = .unary methodName payload := by
    obtain he | ⟨hcancelled, -⟩ | ⟨-, err, hbroken⟩ := hsettled.kind
    · exact he
    · rw [hcaller] at hcancelled
      cases hcancelled
    · exact absurd hbroken (hunbroken err)
  refine ⟨hanswers, hsettled.invoked, ?_⟩
  cases hserver : s.server with
  | absent =>
      rw [hserver] at hanswers
      cases hanswers
  | reading =>
      rw [hserver] at hanswers
      cases hanswers
  | writing left =>
      rw [(hsettled.writing left hserver).1] at hclosed
      cases hclosed
  | closed => rw [hbuf, hsettled.closed hserver (by rw [hcaller]; rfl) hunbroken]

/-! ### What the caller does -/

theorem Answering.of_caller (h : Answering c registry methodName payload s)
    (hthere : s.caller.Gone = false) (caller : UnaryCaller) (up : Pipe) :
    Answering c registry methodName payload { s with caller := caller, up := up } where
  sound := h.sound
  idle := h.idle
  lost := h.lost
  broken := h.broken
  settled := by
    intro hanswers
    obtain ⟨e, hsettled⟩ := h.settled hanswers
    refine ⟨e, hsettled.invoked, ?_, hsettled.writing, fun hserver _ hunbroken =>
      hsettled.closed hserver hthere hunbroken⟩
    obtain he | ⟨hcancelled, -⟩ | hbroken := hsettled.kind
    · exact .inl he
    · rw [hcancelled] at hthere
      cases hthere
    · exact .inr (.inr hbroken)

theorem receiveResponse_cases {recv : RecvStream} {r : Except RpcError (Bytes × RecvStream)}
    (h : receiveResponse recv = .ready r) :
    (recv.tail = .finished ∧ r.map Prod.fst = decodeResponseFrame recv.buf) ∨
      ∃ e, r = .error e ∧ IsTransportError e := by
  have hfail : ∀ e, readToEnd rpcResponseReadLimit recv = .ready (.error e) →
      ∃ e, r = .error e ∧ IsTransportError e := by
    intro e he
    rw [receiveResponse, ReadM.bind_error _ (ReadM.mapErr_error _ he)] at h
    obtain rfl := Poll.ready.inj h
    exact ⟨_, rfl, trivial⟩
  by_cases hlong : rpcResponseReadLimit < recv.buf.length
  · exact .inr (hfail .tooLong (by simp [readToEnd, hlong]))
  · obtain ⟨buf, tail⟩ := recv
    cases tail with
    | live =>
        have hwait : readToEnd rpcResponseReadLimit ⟨buf, .live⟩ = .pending := by
          simpa [readToEnd] using hlong
        rw [receiveResponse, ReadM.bind_pending _ (ReadM.mapErr_pending _ hwait)] at h
        cases h
    | finished =>
        refine .inl ⟨rfl, ?_⟩
        rw [receiveResponse, ReadM.bind_ok _ (ReadM.mapErr_ok _
          (readToEnd_finished (Nat.not_lt.mp hlong)))] at h
        show r.map Prod.fst = decodeResponseFrame buf
        dsimp only at h
        cases hdec : decodeResponseFrame buf with
        | error e =>
            rw [hdec] at h
            cases h
            rfl
        | ok response =>
            rw [hdec] at h
            cases h
            rfl
    | broken err =>
        refine .inr (hfail (.readError err) ?_)
        simpa [readToEnd] using hlong

theorem decode_answer (hw : EnvelopeCodec)
    (hname : (Utf8.bytes methodName).length ≤ maxMethodNameLen)
    (hresponse : ∀ handler, registry.lookup methodName = some handler →
      ResponseFits (handler (buildInboundContext c) payload)) :
    decodeResponseFrame (answer c registry (.unary methodName payload)) =
      localCall c registry methodName payload := by
  have hfits : ResponseFits (invoke c registry methodName payload) := by
    cases hl : registry.lookup methodName with
    | none =>
        obtain ⟨b, hb, hlen⟩ := hw.unknownMethod methodName hname
        rw [invoke, hl]
        refine ⟨b, hb, ?_⟩
        simp only [maxMethodNameLen, rpcResponseReadLimit] at hname ⊢
        omega
    | some handler =>
        rw [invoke, hl]
        exact hresponse handler hl
  obtain ⟨buf, hlog, -, -, hdecode⟩ := respondUnary_fresh hw hfits
  have hanswer : answer c registry (.unary methodName payload) = buf := by
    show (respondUnary (.fresh none) (invoke c registry methodName payload)).wire = buf
    rw [SendStream.wire, hlog]
    simp
  rw [hanswer, hdecode, observed_invoke]

theorem Inv.notOpened (h : Inv c registry methodName payload s) (hcaller : s.caller = .opening)
    {err : RpcError} (herr : IsTransportError err) :
    Inv c registry methodName payload { s with caller := .returned (.error err) } := by
  obtain ⟨-, hclosed, -⟩ := h.asking.opening hcaller
  refine ⟨⟨h.asking.sound, h.asking.sent, by rintro ⟨⟩, by rintro left ⟨⟩, fun hc => ?_,
    h.asking.lost, h.asking.broken⟩, h.answering.of_caller (by rw [hcaller]; rfl) _ _, ?_⟩
  · rw [hclosed] at hc
    cases hc
  · rintro result ⟨⟩
    exact .inr ⟨err, rfl, herr⟩

theorem Inv.opens (h : Inv c registry methodName payload s) (hcaller : s.caller = .opening) :
    Inv c registry methodName payload
      { s with caller := .writing (requestFrame methodName payload), server := .reading } := by
  obtain ⟨habsent, hclosed, hcontent⟩ := h.asking.opening hcaller
  have hidle := h.answering.idle (by rw [habsent]; rfl)
  refine ⟨⟨h.asking.sound, h.asking.sent, by rintro ⟨⟩, ?_, fun hc => ?_, h.asking.lost,
    h.asking.broken⟩, ⟨h.answering.sound, fun _ => hidle, by rintro ⟨⟩, h.answering.lost,
    h.answering.broken⟩, by rintro result ⟨⟩⟩
  · rintro left ⟨⟩
    refine ⟨hclosed, fun _ => ?_⟩
    dsimp only
    rw [hcontent, List.nil_append]
  · rw [hclosed] at hc
    cases hc

theorem Inv.write (h : Inv c registry methodName payload s) {n : ℕ} {left : Bytes}
    (hcaller : s.caller = .writing left) (hkept : s.lost = false) :
    Inv c registry methodName payload
      { s with caller := .writing (left.drop n), up := s.up.push (left.take n) } := by
  obtain ⟨hclosed, hcontent⟩ := h.asking.writing left hcaller
  have hlive := h.asking.sound.live hclosed fun err hbroken => by
    rw [h.asking.broken err hbroken] at hkept
    cases hkept
  have hnext : (s.up.push (left.take n)).content ++ left.drop n =
      requestFrame methodName payload := by
    rw [Pipe.push_content, List.append_assoc, List.take_append_drop, hcontent hkept]
  refine ⟨⟨Pipe.sound_push hlive _, ⟨_, hnext⟩, by rintro ⟨⟩, ?_, fun hc => ?_, h.asking.lost,
    h.asking.broken⟩, h.answering.of_caller (by rw [hcaller]; rfl) _ _, by rintro result ⟨⟩⟩
  · rintro _ ⟨⟩
    exact ⟨hclosed, fun _ => hnext⟩
  · rw [Pipe.push_closed, hclosed] at hc
    cases hc

/-- A write that fails leaves a front of the request behind a connection that is lost, or a server
that has read what it will. -/
theorem Inv.writeFails (h : Inv c registry methodName payload s) (reason : String) {left : Bytes}
    (hcaller : s.caller = .writing left) (hwhy : s.lost = true ∨ s.server = .closed) :
    Inv c registry methodName payload
      { s with caller := .returned (.error (.transportWrite ("write_all: " ++ reason)))
               up := s.up.close } := by
  obtain ⟨hclosed, -⟩ := h.asking.writing left hcaller
  refine ⟨⟨h.asking.sound.close, h.asking.sent, by rintro ⟨⟩, by rintro left ⟨⟩,
    fun _ _ hserver hunbroken => ?_, h.asking.lost, h.asking.broken⟩,
    h.answering.of_caller (by rw [hcaller]; rfl) _ _, ?_⟩
  · obtain hlost | hserver' := hwhy
    · exact absurd (h.asking.sound.live hclosed hunbroken) (h.asking.lost hlost)
    · rw [hserver'] at hserver
      cases hserver
  · rintro result ⟨⟩
    exact .inr ⟨_, rfl, trivial⟩

theorem Inv.finish (h : Inv c registry methodName payload s) (hcaller : s.caller = .writing []) :
    Inv c registry methodName payload { s with caller := .reading, up := s.up.close } := by
  obtain ⟨hclosed, hcontent⟩ := h.asking.writing [] hcaller
  refine ⟨⟨h.asking.sound.close, h.asking.sent, by rintro ⟨⟩, by rintro left ⟨⟩,
    fun _ _ _ hunbroken => ?_, h.asking.lost, h.asking.broken⟩,
    h.answering.of_caller (by rw [hcaller]; rfl) _ _, by rintro result ⟨⟩⟩
  cases hlost : s.lost with
  | false => simpa using hcontent hlost
  | true => exact absurd (h.asking.sound.live hclosed hunbroken) (h.asking.lost hlost)

theorem Inv.read (hw : EnvelopeCodec)
    (hname : (Utf8.bytes methodName).length ≤ maxMethodNameLen)
    (hresponse : ∀ handler, registry.lookup methodName = some handler →
      ResponseFits (handler (buildInboundContext c) payload))
    (h : Inv c registry methodName payload s) (hcaller : s.caller = .reading)
    {r : Except RpcError (Bytes × RecvStream)} (hread : receiveResponse s.down.recv = .ready r) :
    Inv c registry methodName payload { s with caller := .returned (r.map Prod.fst) } := by
  refine ⟨⟨h.asking.sound, h.asking.sent, by rintro ⟨⟩, by rintro left ⟨⟩,
    fun hc _ => h.asking.whole hc (by rw [hcaller]; rintro ⟨⟩), h.asking.lost,
    h.asking.broken⟩, h.answering.of_caller (by rw [hcaller]; rfl) _ _, ?_⟩
  rintro result ⟨⟩
  obtain ⟨hfin, hr⟩ | ⟨e, rfl, he⟩ := receiveResponse_cases hread
  · obtain ⟨hserver, hinvoked, hbuf⟩ := h.answering.finished hcaller hfin
    refine .inl ⟨?_, hserver, hinvoked⟩
    rw [hr, hbuf, decode_answer hw hname hresponse]
  · exact .inr ⟨e, rfl, he⟩

theorem Inv.cancel (h : Inv c registry methodName payload s) (hthere : s.caller.Gone = false) :
    Inv c registry methodName payload { s with caller := .cancelled, up := s.up.close } :=
  ⟨⟨h.asking.sound.close, h.asking.sent, by rintro ⟨⟩, by rintro left ⟨⟩,
    fun _ hne => absurd rfl hne, h.asking.lost, h.asking.broken⟩,
    h.answering.of_caller hthere _ _, by rintro result ⟨⟩⟩

/-! ### What the transport does -/

theorem Inv.up (h : Inv c registry methodName payload s) {up : Pipe} (harr : s.up.Arrives up) :
    Inv c registry methodName payload { s with up := up } := by
  refine ⟨⟨harr.sound h.asking.sound, harr.content ▸ h.asking.sent, ?_, ?_, ?_,
    fun hlost => harr.not_live (h.asking.lost hlost),
    fun err hb => h.asking.broken err ((harr.broken_iff err).mp hb)⟩,
    ⟨h.answering.sound, h.answering.idle, ?_, h.answering.lost, h.answering.broken⟩, h.returned⟩
  · dsimp only
    rw [harr.closed, harr.content]
    exact h.asking.opening
  · dsimp only
    rw [harr.closed, harr.content]
    exact h.asking.writing
  · intro hc hcaller hserver hunbroken
    dsimp only at hc ⊢
    rw [harr.closed] at hc
    rw [harr.content]
    exact h.asking.whole hc hcaller hserver fun err hb =>
      hunbroken err ((harr.broken_iff err).mpr hb)
  · intro hanswers
    obtain ⟨e, hsettled⟩ := h.answering.settled hanswers
    exact ⟨e, hsettled.invoked, hsettled.kind, hsettled.writing, hsettled.closed⟩

theorem Inv.down (h : Inv c registry methodName payload s) {down : Pipe}
    (harr : s.down.Arrives down) :
    Inv c registry methodName payload { s with down := down } := by
  refine ⟨⟨h.asking.sound, h.asking.sent, h.asking.opening, h.asking.writing, h.asking.whole,
    h.asking.lost, h.asking.broken⟩, ⟨harr.sound h.answering.sound, ?_, fun hanswers => ?_,
    fun hlost => harr.not_live (h.answering.lost hlost),
    fun err hb => h.answering.broken err ((harr.broken_iff err).mp hb)⟩, h.returned⟩
  · dsimp only
    rw [harr.closed, harr.content]
    exact h.answering.idle
  · obtain ⟨e, hsettled⟩ := h.answering.settled hanswers
    refine ⟨e, hsettled.invoked, ?_, ?_, fun hserver hthere hunbroken => ?_⟩
    · obtain he | hcancelled | ⟨he, err, hb⟩ := hsettled.kind
      · exact .inl he
      · exact .inr (.inl hcancelled)
      · exact .inr (.inr ⟨he, err, (harr.broken_iff err).mpr hb⟩)
    · dsimp only
      rw [harr.closed, harr.content]
      exact hsettled.writing
    · dsimp only
      rw [harr.content]
      exact hsettled.closed hserver hthere fun err hb =>
        hunbroken err ((harr.broken_iff err).mpr hb)

theorem Inv.lose (h : Inv c registry methodName payload s) (err : ReadError) :
    Inv c registry methodName payload
      { s with lost := true, up := s.up.cut err, down := s.down.cut err } := by
  have hnil : ∀ p : Pipe, p.content = [] → (p.cut err).content = [] := by
    intro p hp
    exact List.prefix_nil.mp (hp ▸ Pipe.cut_content err p)
  refine ⟨⟨h.asking.sound.cut err, (Pipe.cut_content err s.up).trans h.asking.sent,
    fun hcaller => ?_, fun left hcaller => ?_, fun hclosed hcaller hserver hunbroken => ?_,
    fun _ => Pipe.cut_not_live err _, fun _ _ => rfl⟩,
    ⟨h.answering.sound.cut err, fun hserver => ?_, fun hanswers => ?_,
      fun _ => Pipe.cut_not_live err _, fun _ _ => rfl⟩, h.returned⟩
  · obtain ⟨habsent, hclosed, hcontent⟩ := h.asking.opening hcaller
    exact ⟨habsent, (Pipe.cut_closed err _).trans hclosed, hnil _ hcontent⟩
  · exact ⟨(Pipe.cut_closed err _).trans (h.asking.writing left hcaller).1, by rintro ⟨⟩⟩
  · have hkept := Pipe.cut_eq hunbroken
    dsimp only at hclosed hunbroken ⊢
    rw [hkept] at hclosed hunbroken ⊢
    exact h.asking.whole hclosed hcaller hserver hunbroken
  · obtain ⟨hinvoked, hclosed, hcontent⟩ := h.answering.idle hserver
    exact ⟨hinvoked, (Pipe.cut_closed err _).trans hclosed, hnil _ hcontent⟩
  · obtain ⟨e, hsettled⟩ := h.answering.settled hanswers
    refine ⟨e, hsettled.invoked, ?_, fun left hserver => ⟨?_, by rintro ⟨⟩⟩,
      fun hserver hthere hunbroken => ?_⟩
    · obtain he | hcancelled | ⟨he, e', hbroken⟩ := hsettled.kind
      · exact .inl he
      · exact .inr (.inl hcancelled)
      · exact .inr (.inr ⟨he, e', Pipe.cut_broken hbroken⟩)
    · exact (Pipe.cut_closed err _).trans (hsettled.writing left hserver).1
    · have hkept := Pipe.cut_eq hunbroken
      dsimp only at hunbroken ⊢
      rw [hkept] at hunbroken ⊢
      exact hsettled.closed hserver hthere hunbroken

/-! ### What the server does -/

omit [Deps] in
theorem Asking.of_server (h : Asking methodName payload s) {server : UnaryServer}
    (hserver : server.Answers = true) (hopen : s.server ≠ .absent) (down : Pipe)
    (invoked : List (String × Bytes)) : Asking methodName payload
      { s with server := server, down := down, invoked := invoked } where
  sound := h.sound
  sent := h.sent
  opening := fun hcaller => absurd (h.opening hcaller).1 hopen
  writing := h.writing
  whole := by
    intro _ _ hidle
    dsimp only at hidle
    rw [hserver] at hidle
    cases hidle
  lost := h.lost
  broken := h.broken

theorem Inv.still_returned (h : Inv c registry methodName payload s) {server : UnaryServer}
    (hserver : server.Answers = true) (down : Pipe) {invoked : List (String × Bytes)}
    (hinvoked : s.server.Answers = true → invoked = s.invoked) {result : RpcResult Bytes}
    (hcaller : s.caller = .returned result) : Outcome c registry methodName payload
      { s with server := server, down := down, invoked := invoked } result := by
  obtain ⟨hresult, hanswers, hsame⟩ | herror := h.returned result hcaller
  · exact .inl ⟨hresult, hserver, (hinvoked hanswers).trans hsame⟩
  · exact .inr herror

theorem Inv.enter (hname : (Utf8.bytes methodName).length ≤ maxMethodNameLen)
    (hlen : (requestFrame methodName payload).length ≤ rpcStreamReadLimit + 1)
    (h : Inv c registry methodName payload s) (hserver : s.server = .reading) {e : Entry}
    {recv' : RecvStream} (hentry : entry s.up.recv = .ready (.ok (e, recv'))) :
    Inv c registry methodName payload
      { s with server := .writing (answer c registry e)
               invoked := s.invoked ++ invocations registry e } := by
  have hidle : s.server.Answers = false := by
    rw [hserver]
    rfl
  obtain ⟨hinvoked, hclosed, hnil⟩ := h.answering.idle hidle
  have hfront : s.up.recv.buf <+: requestFrame methodName payload :=
    (List.prefix_append _ _).trans h.asking.sent
  obtain ⟨-, hpending⟩ | ⟨e', recv₁, hentry', hcome⟩ :=
    entry_request hname hlen hfront s.up.recv.tail
  · cases hpending.symm.trans hentry
  · cases hentry'.symm.trans hentry
    refine ⟨h.asking.of_server rfl (by rw [hserver]; rintro ⟨⟩) _ _,
      ⟨h.answering.sound, by rintro ⟨⟩, fun _ => ⟨e, ?_, ?_, ?_, by rintro ⟨⟩⟩,
        h.answering.lost, h.answering.broken⟩,
      fun result hcaller => h.still_returned rfl _ (fun hanswers => ?_) hcaller⟩
    · dsimp only
      rw [hinvoked, List.nil_append]
    · obtain ⟨hfin, hshortened, hwhole⟩ | ⟨⟨err, hbroken⟩, he⟩ := hcome
      · by_cases hcancelled : s.caller = .cancelled
        · exact .inr (.inl ⟨hcancelled, hshortened⟩)
        · exact .inl (hwhole (h.asking.finished hidle hcancelled hfin))
      · have hlost := h.answering.lost (h.asking.broken err hbroken)
        exact .inr (.inr ⟨he, h.answering.sound.broken hclosed hlost⟩)
    · rintro left ⟨⟩
      refine ⟨hclosed, fun _ => ?_⟩
      dsimp only
      rw [hnil, List.nil_append]
    · rw [hidle] at hanswers
      cases hanswers

theorem Inv.respond (h : Inv c registry methodName payload s) {n : ℕ} {left : Bytes}
    (hserver : s.server = .writing left) (hkept : s.lost = false) :
    Inv c registry methodName payload
      { s with server := .writing (left.drop n), down := s.down.push (left.take n) } := by
  obtain ⟨e, hsettled⟩ := h.answering.settled (by rw [hserver]; rfl)
  obtain ⟨hclosed, hcontent⟩ := hsettled.writing left hserver
  refine ⟨h.asking.of_server rfl (by rw [hserver]; rintro ⟨⟩) _ _,
    ⟨?_, by rintro ⟨⟩, fun _ => ⟨e, hsettled.invoked, hsettled.kind, ?_, by rintro ⟨⟩⟩,
      h.answering.lost, h.answering.broken⟩,
    fun result hcaller => h.still_returned rfl _ (fun _ => rfl) hcaller⟩
  · refine Pipe.sound_push (h.answering.sound.live hclosed fun err hbroken => ?_) _
    rw [h.answering.broken err hbroken] at hkept
    cases hkept
  · rintro _ ⟨⟩
    refine ⟨hclosed, fun _ => ?_⟩
    dsimp only
    rw [Pipe.push_content, List.append_assoc, List.take_append_drop, hcontent hkept]

theorem Inv.closes (h : Inv c registry methodName payload s) {left : Bytes}
    (hserver : s.server = .writing left)
    (hwhy : left = [] ∨ s.lost = true ∨ s.caller.Gone = true) :
    Inv c registry methodName payload { s with server := .closed, down := s.down.close } := by
  obtain ⟨e, hsettled⟩ := h.answering.settled (by rw [hserver]; rfl)
  obtain ⟨hclosed, hcontent⟩ := hsettled.writing left hserver
  refine ⟨h.asking.of_server rfl (by rw [hserver]; rintro ⟨⟩) _ _,
    ⟨h.answering.sound.close, by rintro ⟨⟩,
      fun _ => ⟨e, hsettled.invoked, hsettled.kind, by rintro _ ⟨⟩, fun _ hthere hunbroken => ?_⟩,
      h.answering.lost, h.answering.broken⟩,
    fun result hcaller => h.still_returned rfl _ (fun _ => rfl) hcaller⟩
  have hlive := h.answering.sound.live hclosed hunbroken
  have hkept : s.lost = false := by
    cases hlost : s.lost with
    | false => rfl
    | true => exact absurd hlive (h.answering.lost hlost)
  obtain rfl | hlost | hgone := hwhy
  · simpa using hcontent hkept
  · rw [hkept] at hlost
    cases hlost
  · dsimp only at hthere
    rw [hthere] at hgone
    cases hgone

/-! ### Every run -/

section runs

variable (hw : EnvelopeCodec) (hname : (Utf8.bytes methodName).length ≤ maxMethodNameLen)
  (hlen : (requestFrame methodName payload).length ≤ rpcStreamReadLimit + 1)
  (hresponse : ∀ handler, registry.lookup methodName = some handler →
    ResponseFits (handler (buildInboundContext c) payload))

include hw hname hlen hresponse

theorem Inv.step (h : Inv c registry methodName payload s)
    (hs : Moved c registry peer methodName payload s s') :
    Inv c registry methodName payload s' := by
  have hframe : buildUnaryRequestFrame methodName payload =
      .ok (requestFrame methodName payload) :=
    buildUnaryRequestFrame_ok (lt_of_le_usizeMax (hname.trans maxMethodNameLen_le_usizeMax)) payload
  cases hs with
  | refused _ he => cases he.symm.trans hframe
  | openFails reason hcaller => exact h.notOpened hcaller trivial
  | opens hcaller hf =>
      obtain rfl := Except.ok.inj (hframe.symm.trans hf)
      exact h.opens hcaller
  | write hcaller hkept _ _ => exact h.write hcaller hkept
  | writeFails reason hcaller hwhy => exact h.writeFails reason hcaller hwhy
  | finish hcaller => exact h.finish hcaller
  | read hcaller hread => exact h.read hw hname hresponse hcaller hread
  | cancel hthere => exact h.cancel hthere
  | up harr => exact h.up harr
  | down harr => exact h.down harr
  | lose err _ => exact h.lose err
  | enter hserver hentry => exact h.enter hname hlen hserver hentry
  | respond hserver hkept _ _ => exact h.respond hserver hkept
  | closes hserver hwhy => exact h.closes hserver hwhy

/-- **A unary call runs its handler at most once.**  In every run, whatever the connection does and
whenever the caller gives up: the handler of the method is invoked at most once, on the payload or,
if the call has been given up, on a front of it; and the call returns the result of the local call,
whose handler has run then, or an error of the transport. -/
theorem unaryCall_atMostOnce {as : List UnaryAct}
    (hrun : Runs (UnaryRun.step c registry peer methodName payload) Any as start s) :
    (s.invoked = [] ∨ ∃ front, front <+: payload ∧ s.invoked = [(methodName, front)] ∧
      (registry.lookup methodName).isSome = true ∧
      (front ≠ payload → s.caller = .cancelled)) ∧
    ∀ result, s.caller = .returned result →
      (result = localCall c registry methodName payload ∧
        s.invoked = invocations registry (.unary methodName payload)) ∨
      ∃ e, result = .error e ∧ IsTransportError e := by
  have hinv : Inv c registry methodName payload s :=
    hrun.invariant (fun _ _ _ _ hi hs => hi.step hw hname hlen hresponse (moved_of_step hs))
      inv_start
  refine ⟨?_, fun result hcaller => ?_⟩
  · cases hanswers : s.server.Answers with
    | false => exact .inl (hinv.answering.idle hanswers).1
    | true =>
      obtain ⟨e, hsettled⟩ := hinv.answering.settled hanswers
      rw [hsettled.invoked]
      have hunary : ∀ front, front <+: payload → (front ≠ payload → s.caller = .cancelled) →
          invocations registry (.unary methodName front) = [] ∨ ∃ front', front' <+: payload ∧
            invocations registry (.unary methodName front) = [(methodName, front')] ∧
            (registry.lookup methodName).isSome = true ∧
            (front' ≠ payload → s.caller = .cancelled) := by
        intro front hfront hcut
        by_cases hfound : (registry.lookup methodName).isSome = true
        · exact .inr ⟨front, hfront, if_pos hfound, hfound, hcut⟩
        · exact .inl (if_neg hfound)
      obtain rfl | ⟨hcancelled, ⟨err, rfl⟩ | ⟨front, hfront, rfl⟩⟩ | ⟨rfl, -⟩ := hsettled.kind
      · exact hunary payload List.prefix_rfl fun hne => absurd rfl hne
      · exact .inl rfl
      · exact hunary front hfront fun _ => hcancelled
      · exact .inl rfl
  · obtain ⟨hresult, -, hinvoked⟩ | herror := hinv.returned result hcaller
    · exact .inl ⟨hresult, hinvoked⟩
    · exact .inr herror

end runs

end steps

section reference

attribute [local instance] reference

/-- One whole call of the echo method. -/
def echoCall : List UnaryAct :=
  [.openSubstream (.ok ()), .write 9, .finish, .deliverUp 4, .deliverUp 5, .finUp, .enter,
    .respond 3, .close, .deliverDown 3, .finDown, .read]

/-- What it leaves. -/
def echoAnswered : UnaryRun :=
  ⟨.returned (.ok [7, 8]), .closed, ⟨[], true, ⟨[0, 5, 97, 47, 98, 47, 99, 7, 8], .finished⟩⟩,
    ⟨[], true, ⟨[1, 7, 8], .finished⟩⟩, false, [("a/b/c", [7, 8])]⟩

theorem run_echoCall :
    run (step anyInbound echoRegistry "peer" "a/b/c" [7, 8]) echoCall start =
      some echoAnswered := by
  decide +kernel

theorem unaryCall_atMostOnce_echo :
    localCall anyInbound echoRegistry "a/b/c" [7, 8] = .ok [7, 8] := by
  have hresponse : ∀ handler, echoRegistry.lookup "a/b/c" = some handler →
      ResponseFits (handler (buildInboundContext anyInbound) [7, 8]) := by
    intro handler hlookup
    obtain rfl : (fun _ payload => .ok payload) = handler := Option.some.inj hlookup
    exact show 2 + 1 ≤ rpcResponseReadLimit by decide
  obtain ⟨hresult, -⟩ | ⟨e, herror, -⟩ :=
    (unaryCall_atMostOnce envelopeCodec_reference (by decide) (by decide) hresponse
      (runs_any_iff.mpr run_echoCall)).2 (.ok [7, 8]) rfl
  · exact hresult.symm
  · cases herror

end reference

end UnaryRun

end NerwRpc
