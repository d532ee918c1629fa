import NerwRpc.FrameStream
import NerwRpc.Transition

/-! # Pumps from a byte stream into a bounded channel

A pump is a task that reads frames off a byte stream and forwards items into a bounded
channel, until its arms tell it to stop.  `Leg` is the receiving half of one direction of a
call: the bytes in flight, the pump, the channel and its consumer; `Leg.step` takes one
action of the transport, the pump or the consumer.

* `forwards bs`: the items a pump forwards when `bs` is all it will ever be given.
* `Leg.outlook l Z`: what the consumer has read, what is queued and what the pump will still
  forward if `Z` follows the bytes in flight.  It is the conserved quantity of the system
  (`Leg.outlook_step`): delivery in fragments, back-pressure and scheduling do not change it.
* `Leg.weight`: a measure that every action but an abort decreases; `Leg.progress` says that a
  leg is stuck only while it waits for its sender.
* `Leg.quits_iff`: when a pump takes at most one more frame behind a closed channel. -/

namespace FramePump

open ByteStream Transition

/-- What a pump does after it has sent an item: go on unless the channel is closed, go on
anyway, or return. -/
inductive Next where
  | whileOpen
  | always
  | last
deriving DecidableEq, Repr

/-- What a pump does with a frame. -/
inductive Arm (ι : Type) where
  | stop
  | send (item : ι) (next : Next)
deriving DecidableEq, Repr

/-- A pump: its frame reader and its arms.  It returns at the end of the stream, and forwards
a failed read and returns. -/
structure Pump (ε φ ι : Type) where
  read : ReadM ε (Option φ)
  onFrame : φ → Arm ι
  onError : ε → ι
  regular : Regular read
  shortens : ∀ s f s', read s = .ready (.ok (some f, s')) → s'.buf.length < s.buf.length

variable {ε φ ι : Type}

/-- The state of the task. -/
inductive PumpState (ι : Type) where
  | reading
  | sending (item : ι) (next : Next)
  | done
deriving DecidableEq, Repr

/-- Where the task stands after a read. -/
def Pump.afterRead (P : Pump ε φ ι) : Except ε (Option φ × RecvStream) → PumpState ι
  | .error e => .sending (P.onError e) .last
  | .ok (none, _) => .done
  | .ok (some f, _) => match P.onFrame f with
    | .stop => .done
    | .send item next => .sending item next

/-- The bytes behind the frame a read has taken, together with those still to arrive. -/
def rest (more : List UInt8) : Except ε (Option φ × RecvStream) → List UInt8
  | .ok (_, s) => s.buf ++ more
  | .error _ => more

/-! ### What a pump forwards -/

/-- The items of at most `n` rounds on a stream that gets no more bytes. -/
def Pump.forwardFuel (P : Pump ε φ ι) : ℕ → RecvStream → List ι
  | 0, _ => []
  | n + 1, s => match P.read s with
    | .pending => []
    | .ready (.error e) => [P.onError e]
    | .ready (.ok (none, _)) => []
    | .ready (.ok (some f, s')) => match P.onFrame f with
      | .stop => []
      | .send item .last => [item]
      | .send item _ => item :: P.forwardFuel n s'

/-- The items forwarded when `bs` is all there is. -/
def Pump.forwards (P : Pump ε φ ι) (bs : List UInt8) : List ι :=
  P.forwardFuel (bs.length + 1) ⟨bs, .finished⟩

/-- The items still to come from a task in the given state, when `bs` is all it will get. -/
def Pump.upstream (P : Pump ε φ ι) (bs : List UInt8) : PumpState ι → List ι
  | .reading => P.forwards bs
  | .sending item .last => [item]
  | .sending item _ => item :: P.forwards bs
  | .done => []

/-- The items made of a sequence of frames and of how it ends. -/
def Pump.relay (P : Pump ε φ ι) : List φ → FramesEnd ε → List ι
  | [], fin => match fin with
    | .failed e => [P.onError e]
    | _ => []
  | f :: fs, fin => match P.onFrame f with
    | .stop => []
    | .send item .last => [item]
    | .send item _ => item :: P.relay fs fin

theorem Pump.forwardFuel_eq_relay (P : Pump ε φ ι) (n : ℕ) (s : RecvStream) :
    P.forwardFuel n s = P.relay (readFrames P.read n s).1 (readFrames P.read n s).2 := by
  induction n generalizing s with
  | zero => rfl
  | succ n ih =>
      unfold forwardFuel readFrames
      cases P.read s with
      | pending => rfl
      | ready r =>
          obtain e | ⟨_ | f, s'⟩ := r
          · rfl
          · rfl
          · simp only [ih, relay]

theorem Pump.forwardFuel_eq (P : Pump ε φ ι) (n k : ℕ) (s : RecvStream)
    (hn : s.buf.length < n) (hk : s.buf.length < k) : P.forwardFuel n s = P.forwardFuel k s := by
  rw [P.forwardFuel_eq_relay, P.forwardFuel_eq_relay, readFrames_fuel P.shortens n k s hn hk]

theorem Pump.forwards_eq (P : Pump ε φ ι) {bs : List UInt8}
    {r : Except ε (Option φ × RecvStream)} (h : P.read ⟨bs, .finished⟩ = .ready r) :
    P.forwards bs = P.upstream (rest [] r) (P.afterRead r) := by
  rw [forwards, forwardFuel, h]
  obtain e | ⟨_ | f, s'⟩ := r
  · rfl
  · rfl
  · have hs := P.shortens _ f s' h
    obtain ⟨buf', tail'⟩ := s'
    obtain ⟨_, _, rfl : tail' = .finished⟩ := P.regular.suffix _ _ _ h
    have ih : P.forwardFuel bs.length ⟨buf', .finished⟩ = P.forwards buf' :=
      P.forwardFuel_eq _ _ _ (by simpa using hs) (by simp)
    dsimp only [afterRead]
    cases P.onFrame f with
    | stop => rfl
    | send item next => cases next <;> simp only [upstream, rest, List.append_nil, ih]

/-- What follows the bytes at hand, for a task that reads them. -/
def Follows (t : StreamEnd) (more : List UInt8) : Prop := t = .live ∨ t = .finished ∧ more = []

/-- **A read does not change what will be forwarded**, whatever is still to arrive. -/
theorem Pump.forwards_read (P : Pump ε φ ι) {buf more : List UInt8} {t : StreamEnd}
    {r : Except ε (Option φ × RecvStream)} (h : P.read ⟨buf, t⟩ = .ready r)
    (ht : Follows t more) :
    P.forwards (buf ++ more) = P.upstream (rest more r) (P.afterRead r) := by
  obtain rfl | ⟨rfl, rfl⟩ := ht
  · obtain ⟨h1, -⟩ := P.regular.stable buf more .finished r h
    rw [P.forwards_eq h1]
    obtain e | ⟨_ | f, s'⟩ := r
    · rfl
    · rfl
    · simp only [extend, rest, List.append_nil, afterRead]
  · rw [List.append_nil, P.forwards_eq h]

theorem Pump.forwards_frame (P : Pump ε φ ι) {Q : ε → Prop} {bs more : List UInt8} {f : φ}
    (h : ExactFrame P.read bs f Q) :
    P.forwards (bs ++ more) = P.upstream more (match P.onFrame f with
      | .stop => .done
      | .send item next => .sending item next) := by
  rw [P.forwards_eq (h.reads more .finished)]
  simp [rest, afterRead]

theorem Pump.forwards_error (P : Pump ε φ ι) {bs : List UInt8} {e : ε}
    (h : P.read ⟨bs, .finished⟩ = .ready (.error e)) : P.forwards bs = [P.onError e] := by
  rw [P.forwards_eq h]
  rfl

/-! ### The receiving half of one direction -/

/-- The bytes in flight, whether the sender has finished, the pump's end of the stream, the
task, the channel, and the consumer: what it has read, whether it has dropped its end and
whether it has seen the end of the items. -/
structure Leg (ι : Type) where
  inflight : List UInt8
  closed : Bool
  recv : RecvStream
  pump : PumpState ι
  queue : List ι
  got : List ι
  dropped : Bool
  ended : Bool
deriving DecidableEq, Repr

inductive LegAct where
  | deliver (n : ℕ)
  | deliverFin
  | read
  | send
  | take
  | takeNone
  | dropReceiver
  | abort
deriving DecidableEq, Repr

namespace Leg

def start : Leg ι := ⟨[], false, ⟨[], .live⟩, .reading, [], [], false, false⟩

/-- The sender hands bytes to the transport. -/
def push (l : Leg ι) (bs : List UInt8) : Leg ι := { l with inflight := l.inflight ++ bs }

/-- The sender finishes its half. -/
def close (l : Leg ι) : Leg ι := { l with closed := true }

@[simp] theorem push_closed (l : Leg ι) (bs : List UInt8) : (l.push bs).closed = l.closed := rfl
@[simp] theorem push_pump (l : Leg ι) (bs : List UInt8) : (l.push bs).pump = l.pump := rfl
@[simp] theorem push_queue (l : Leg ι) (bs : List UInt8) : (l.push bs).queue = l.queue := rfl
@[simp] theorem push_got (l : Leg ι) (bs : List UInt8) : (l.push bs).got = l.got := rfl
@[simp] theorem close_closed (l : Leg ι) : l.close.closed = true := rfl

/-- Where the stream stands after a read. -/
def afterRecv (l : Leg ι) : Except ε (Option φ × RecvStream) → RecvStream
  | .ok (_, s) => s
  | .error _ => l.recv

variable (P : Pump ε φ ι) (cap : ℕ)

/-- One action; `none` when it is not possible.  The pump takes bytes off the transport only
while it reads, and blocks on a full channel. -/
def step : LegAct → Leg ι → Option (Leg ι)
  | .deliver n, l => match l.pump with
    | .reading =>
        if 0 < n ∧ n ≤ l.inflight.length then
          some { l with inflight := l.inflight.drop n
                        recv := ⟨l.recv.buf ++ l.inflight.take n, l.recv.tail⟩ }
        else none
    | _ => none
  | .deliverFin, l => match l.pump with
    | .reading =>
        if l.closed = true ∧ l.inflight = [] ∧ l.recv.tail = .live then
          some { l with recv := ⟨l.recv.buf, .finished⟩ }
        else none
    | _ => none
  | .read, l => match l.pump with
    | .reading => match P.read l.recv with
      | .pending => none
      | .ready r => some { l with recv := l.afterRecv r, pump := P.afterRead r }
    | _ => none
  | .send, l => match l.pump with
    | .sending item next =>
        if l.dropped = true then
          some { l with pump := if next = .always then .reading else .done }
        else if l.queue.length < cap then
          some { l with queue := l.queue ++ [item]
                        pump := if next = .last then .done else .reading }
        else none
    | _ => none
  | .take, l => match l.queue with
    | [] => none
    | item :: queue => some { l with queue := queue, got := l.got ++ [item] }
  | .takeNone, l => match l.queue, l.pump with
    | [], .done =>
        if l.dropped = false ∧ l.ended = false then some { l with ended := true } else none
    | _, _ => none
  | .dropReceiver, l =>
      if l.dropped = false then some { l with dropped := true, queue := [] } else none
  | .abort, l => some { l with pump := .done }

/-- What the consumer has read, what is queued, and what will still be forwarded if `Z`
follows the bytes in flight. -/
def outlook (l : Leg ι) (Z : List UInt8) : List ι :=
  l.got ++ (l.queue ++ P.upstream (l.recv.buf ++ (l.inflight ++ Z)) l.pump)

/-- The end of the stream is seen behind the last byte; a dropped channel is empty; the
consumer sees the end of the items when the pump has returned and the channel is empty. -/
structure Tidy (l : Leg ι) : Prop where
  tail : l.recv.tail = .live ∨ l.recv.tail = .finished ∧ l.closed = true ∧ l.inflight = []
  queue : l.dropped = true → l.queue = []
  ended : l.ended = true → l.pump = .done ∧ l.queue = []

theorem tidy_start : Tidy (start : Leg ι) := ⟨.inl rfl, nofun, nofun⟩

variable {P cap} {l l' : Leg ι}

/-! ### What a step can do -/

theorem step_deliver_iff {n : ℕ} : step P cap (.deliver n) l = some l' ↔
    l.pump = .reading ∧ 0 < n ∧ n ≤ l.inflight.length ∧
      l' = { l with inflight := l.inflight.drop n
                    recv := ⟨l.recv.buf ++ l.inflight.take n, l.recv.tail⟩ } := by
  cases hp : l.pump <;> simp [step, hp, and_assoc, @eq_comm _ _ l']

theorem step_deliverFin_iff : step P cap .deliverFin l = some l' ↔
    l.pump = .reading ∧ l.closed = true ∧ l.inflight = [] ∧ l.recv.tail = .live ∧
      l' = { l with recv := ⟨l.recv.buf, .finished⟩ } := by
  cases hp : l.pump <;> simp [step, hp, and_assoc, @eq_comm _ _ l']

theorem step_read_iff : step P cap .read l = some l' ↔
    l.pump = .reading ∧ ∃ r, P.read l.recv = .ready r ∧
      l' = { l with recv := l.afterRecv r, pump := P.afterRead r } := by
  constructor
  · intro h
    cases hp : l.pump with
    | reading =>
        cases hr : P.read l.recv with
        | pending => simp only [step, hp, hr, reduceCtorEq] at h
        | ready r =>
            simp only [step, hp, hr, Option.some.injEq] at h
            exact ⟨rfl, r, rfl, h.symm⟩
    | _ => simp only [step, hp, reduceCtorEq] at h
  · rintro ⟨hp, r, hr, rfl⟩
    simp only [step, hp, hr]

theorem step_send_iff : step P cap .send l = some l' ↔
    ∃ item next, l.pump = .sending item next ∧
      (l.dropped = true ∧
        l' = { l with pump := if next = .always then .reading else .done } ∨
      l.dropped = false ∧ l.queue.length < cap ∧
        l' = { l with queue := l.queue ++ [item]
                      pump := if next = .last then .done else .reading }) := by
  constructor
  · intro h
    cases hp : l.pump with
    | sending item next =>
        refine ⟨item, next, rfl, ?_⟩
        simp only [step, hp] at h
        by_cases hd : l.dropped = true
        · rw [if_pos hd] at h
          exact .inl ⟨hd, (Option.some.inj h).symm⟩
        · rw [if_neg hd] at h
          by_cases hcap : l.queue.length < cap
          · rw [if_pos hcap] at h
            exact .inr ⟨Bool.eq_false_iff.mpr hd, hcap, (Option.some.inj h).symm⟩
          · rw [if_neg hcap] at h
            cases h
    | _ => simp only [step, hp, reduceCtorEq] at h
  · rintro ⟨item, next, hp, ⟨hd, rfl⟩ | ⟨hd, hcap, rfl⟩⟩
    · simp only [step, hp, hd, if_true]
    · simp only [step, hp, hd, hcap, Bool.false_eq_true, if_false, if_true]

theorem step_take_iff : step P cap .take l = some l' ↔
    ∃ item queue, l.queue = item :: queue ∧
      l' = { l with queue := queue, got := l.got ++ [item] } := by
  cases hq : l.queue <;> simp [step, hq, @eq_comm _ _ l']

theorem step_takeNone_iff : step P cap .takeNone l = some l' ↔
    l.queue = [] ∧ l.pump = .done ∧ l.dropped = false ∧ l.ended = false ∧
      l' = { l with ended := true } := by
  cases hq : l.queue <;> cases hp : l.pump <;> simp [step, hq, hp, and_assoc, @eq_comm _ _ l']

theorem step_dropReceiver_iff : step P cap .dropReceiver l = some l' ↔
    l.dropped = false ∧ l' = { l with dropped := true, queue := [] } := by
  cases hd : l.dropped <;> simp [step, hd, @eq_comm _ _ l']

theorem step_abort_iff : step P cap .abort l = some l' ↔ l' = { l with pump := .done } := by
  simp [step, @eq_comm _ _ l']

/-- Only the sender ends the leg, only the consumer drops its end, and only it sees the end of the
items. -/
theorem step_frame {a : LegAct} (h : step P cap a l = some l') :
    l'.closed = l.closed ∧ (a ≠ .dropReceiver → l'.dropped = l.dropped) ∧
      (a ≠ .takeNone → l'.ended = l.ended) := by
  cases a with
  | deliver n =>
      obtain ⟨-, -, -, rfl⟩ := step_deliver_iff.mp h
      exact ⟨rfl, fun _ => rfl, fun _ => rfl⟩
  | deliverFin =>
      obtain ⟨-, -, -, -, rfl⟩ := step_deliverFin_iff.mp h
      exact ⟨rfl, fun _ => rfl, fun _ => rfl⟩
  | read =>
      obtain ⟨-, r, -, rfl⟩ := step_read_iff.mp h
      exact ⟨rfl, fun _ => rfl, fun _ => rfl⟩
  | send =>
      obtain ⟨_, _, -, ⟨-, rfl⟩ | ⟨-, -, rfl⟩⟩ := step_send_iff.mp h
      · exact ⟨rfl, fun _ => rfl, fun _ => rfl⟩
      · exact ⟨rfl, fun _ => rfl, fun _ => rfl⟩
  | take =>
      obtain ⟨_, _, -, rfl⟩ := step_take_iff.mp h
      exact ⟨rfl, fun _ => rfl, fun _ => rfl⟩
  | takeNone =>
      obtain ⟨-, -, -, -, rfl⟩ := step_takeNone_iff.mp h
      exact ⟨rfl, fun _ => rfl, fun ha => absurd rfl ha⟩
  | dropReceiver =>
      obtain ⟨-, rfl⟩ := step_dropReceiver_iff.mp h
      exact ⟨rfl, fun ha => absurd rfl ha, fun _ => rfl⟩
  | abort =>
      obtain rfl := step_abort_iff.mp h
      exact ⟨rfl, fun _ => rfl, fun _ => rfl⟩

theorem step_closed {a : LegAct} (h : step P cap a l = some l') : l'.closed = l.closed :=
  (step_frame h).1

theorem step_dropped {a : LegAct} (h : step P cap a l = some l') (ha : a ≠ .dropReceiver) :
    l'.dropped = l.dropped :=
  (step_frame h).2.1 ha

theorem step_ended {a : LegAct} (h : step P cap a l = some l') (ha : a ≠ .takeNone) :
    l'.ended = l.ended :=
  (step_frame h).2.2 ha

theorem step_pump_done {a : LegAct} (h : step P cap a l = some l') (hp : l.pump = .done) :
    l'.pump = .done := by
  cases a with
  | deliver n => obtain ⟨hr, -⟩ := step_deliver_iff.mp h; rw [hp] at hr; cases hr
  | deliverFin => obtain ⟨hr, -⟩ := step_deliverFin_iff.mp h; rw [hp] at hr; cases hr
  | read => obtain ⟨hr, -⟩ := step_read_iff.mp h; rw [hp] at hr; cases hr
  | send => obtain ⟨_, _, hr, -⟩ := step_send_iff.mp h; rw [hp] at hr; cases hr
  | take => obtain ⟨_, _, -, rfl⟩ := step_take_iff.mp h; exact hp
  | takeNone => obtain ⟨-, -, -, -, rfl⟩ := step_takeNone_iff.mp h; exact hp
  | dropReceiver => obtain ⟨-, rfl⟩ := step_dropReceiver_iff.mp h; exact hp
  | abort => obtain rfl := step_abort_iff.mp h; rfl

/-- The pump has returned or holds its last item: the bytes behind it are not read. -/
def Sealed (l : Leg ι) : Prop := l.pump = .done ∨ ∃ item, l.pump = .sending item .last

theorem Sealed.step {a : LegAct} (hl : Sealed l) (h : Leg.step P cap a l = some l') :
    Sealed l' := by
  obtain hp | ⟨item, hp⟩ := hl
  · exact .inl (step_pump_done h hp)
  · cases a with
    | deliver n => obtain ⟨hr, -⟩ := step_deliver_iff.mp h; rw [hp] at hr; cases hr
    | deliverFin => obtain ⟨hr, -⟩ := step_deliverFin_iff.mp h; rw [hp] at hr; cases hr
    | read => obtain ⟨hr, -⟩ := step_read_iff.mp h; rw [hp] at hr; cases hr
    | send =>
        obtain ⟨_, _, hr, ⟨-, rfl⟩ | ⟨-, -, rfl⟩⟩ := step_send_iff.mp h
        · cases hp.symm.trans hr
          exact .inl rfl
        · cases hp.symm.trans hr
          exact .inl rfl
    | take => obtain ⟨_, _, -, rfl⟩ := step_take_iff.mp h; exact .inr ⟨item, hp⟩
    | takeNone => obtain ⟨-, -, -, -, rfl⟩ := step_takeNone_iff.mp h; exact .inr ⟨item, hp⟩
    | dropReceiver => obtain ⟨-, rfl⟩ := step_dropReceiver_iff.mp h; exact .inr ⟨item, hp⟩
    | abort => obtain rfl := step_abort_iff.mp h; exact .inl rfl

theorem tail_afterRecv {r : Except ε (Option φ × RecvStream)} (h : P.read l.recv = .ready r) :
    (l.afterRecv r).tail = l.recv.tail := by
  cases r with
  | error e => rfl
  | ok p =>
      obtain ⟨_, _, ht⟩ := P.regular.suffix _ p.1 p.2 h
      exact ht

theorem Tidy.push (hl : Tidy l) (hc : l.closed = false) (bs : List UInt8) : Tidy (l.push bs) := by
  refine ⟨.inl ?_, hl.queue, hl.ended⟩
  obtain ht | ⟨-, hc', -⟩ := hl.tail
  · exact ht
  · rw [hc] at hc'
    cases hc'

theorem Tidy.close (hl : Tidy l) : Tidy l.close := by
  refine ⟨?_, hl.queue, hl.ended⟩
  obtain ht | ⟨ht, -, hnil⟩ := hl.tail
  · exact .inl ht
  · exact .inr ⟨ht, rfl, hnil⟩

theorem Tidy.step {a : LegAct} (hl : Tidy l) (h : Leg.step P cap a l = some l') : Tidy l' := by
  obtain ⟨ht, hq, he⟩ := hl
  have hpump : ∀ {st : PumpState ι}, l.pump = st → st ≠ .done → l.ended ≠ true :=
    fun hp hne hend => hne (hp.symm.trans (he hend).1)
  cases a with
  | deliver n =>
      obtain ⟨hp, hn, hle, rfl⟩ := step_deliver_iff.mp h
      refine ⟨?_, hq, fun hend => absurd hend (hpump hp nofun)⟩
      obtain ht | ⟨-, -, hnil⟩ := ht
      · exact .inl ht
      · rw [hnil] at hle
        simp only [List.length_nil] at hle
        omega
  | deliverFin =>
      obtain ⟨hp, hc, hnil, -, rfl⟩ := step_deliverFin_iff.mp h
      exact ⟨.inr ⟨rfl, hc, hnil⟩, hq, fun hend => absurd hend (hpump hp nofun)⟩
  | read =>
      obtain ⟨hp, r, hr, rfl⟩ := step_read_iff.mp h
      exact ⟨by simpa only [tail_afterRecv hr] using ht, hq,
        fun hend => absurd hend (hpump hp nofun)⟩
  | send =>
      obtain ⟨_, _, hp, ⟨-, rfl⟩ | ⟨hd, -, rfl⟩⟩ := step_send_iff.mp h
      · exact ⟨ht, hq, fun hend => absurd hend (hpump hp nofun)⟩
      · exact ⟨ht, fun h' => by simp [hd] at h', fun hend => absurd hend (hpump hp nofun)⟩
  | take =>
      obtain ⟨item, queue, hqueue, rfl⟩ := step_take_iff.mp h
      refine ⟨ht, fun h' => ?_, fun hend => ?_⟩
      · have := hq h'
        simp [hqueue] at this
      · have := (he hend).2
        simp [hqueue] at this
  | takeNone =>
      obtain ⟨hqueue, hp, -, -, rfl⟩ := step_takeNone_iff.mp h
      exact ⟨ht, hq, fun _ => ⟨hp, hqueue⟩⟩
  | dropReceiver =>
      obtain ⟨-, rfl⟩ := step_dropReceiver_iff.mp h
      exact ⟨ht, fun _ => rfl, fun hend => ⟨(he hend).1, rfl⟩⟩
  | abort =>
      obtain rfl := step_abort_iff.mp h
      exact ⟨ht, hq, fun hend => ⟨rfl, (he hend).2⟩⟩

theorem dropped_of_step {a : LegAct} (h : step P cap a l = some l') (hd : l'.dropped = false) :
    l.dropped = false := by
  by_cases ha : a = .dropReceiver
  · subst ha
    exact (step_dropReceiver_iff.mp h).1
  · rwa [step_dropped h ha] at hd

theorem step_got {a : LegAct} (hl : Tidy l) (h : step P cap a l = some l')
    (hd : l'.dropped = true) : l'.got = l.got := by
  cases a with
  | deliver n => obtain ⟨-, -, -, rfl⟩ := step_deliver_iff.mp h; rfl
  | deliverFin => obtain ⟨-, -, -, -, rfl⟩ := step_deliverFin_iff.mp h; rfl
  | read => obtain ⟨-, r, -, rfl⟩ := step_read_iff.mp h; rfl
  | send => obtain ⟨_, _, -, ⟨-, rfl⟩ | ⟨-, -, rfl⟩⟩ := step_send_iff.mp h <;> rfl
  | take =>
      obtain ⟨item, queue, hq, rfl⟩ := step_take_iff.mp h
      have := hl.queue hd
      simp [hq] at this
  | takeNone => obtain ⟨-, -, -, -, rfl⟩ := step_takeNone_iff.mp h; rfl
  | dropReceiver => obtain ⟨-, rfl⟩ := step_dropReceiver_iff.mp h; rfl
  | abort => obtain rfl := step_abort_iff.mp h; rfl

theorem step_got_of_ne {a : LegAct} (h : step P cap a l = some l') (ha : a ≠ .take) :
    l'.got = l.got := by
  cases a with
  | deliver n => obtain ⟨-, -, -, rfl⟩ := step_deliver_iff.mp h; rfl
  | deliverFin => obtain ⟨-, -, -, -, rfl⟩ := step_deliverFin_iff.mp h; rfl
  | read => obtain ⟨-, r, -, rfl⟩ := step_read_iff.mp h; rfl
  | send => obtain ⟨_, _, -, ⟨-, rfl⟩ | ⟨-, -, rfl⟩⟩ := step_send_iff.mp h <;> rfl
  | take => exact absurd rfl ha
  | takeNone => obtain ⟨-, -, -, -, rfl⟩ := step_takeNone_iff.mp h; rfl
  | dropReceiver => obtain ⟨-, rfl⟩ := step_dropReceiver_iff.mp h; rfl
  | abort => obtain rfl := step_abort_iff.mp h; rfl

theorem ended_of_dropped {a : LegAct} (h : step P cap a l = some l') (hd : l'.dropped = true)
    (he : l'.ended = true) : l.ended = true := by
  cases a with
  | deliver n => obtain ⟨-, -, -, rfl⟩ := step_deliver_iff.mp h; exact he
  | deliverFin => obtain ⟨-, -, -, -, rfl⟩ := step_deliverFin_iff.mp h; exact he
  | read => obtain ⟨-, r, -, rfl⟩ := step_read_iff.mp h; exact he
  | send => obtain ⟨_, _, -, ⟨-, rfl⟩ | ⟨-, -, rfl⟩⟩ := step_send_iff.mp h <;> exact he
  | take => obtain ⟨_, _, -, rfl⟩ := step_take_iff.mp h; exact he
  | takeNone =>
      obtain ⟨-, -, hopen, -, rfl⟩ := step_takeNone_iff.mp h
      rw [hopen] at hd
      cases hd
  | dropReceiver => obtain ⟨-, rfl⟩ := step_dropReceiver_iff.mp h; exact he
  | abort => obtain rfl := step_abort_iff.mp h; exact he

/-- A consumer that has seen the end has read everything. -/
theorem step_got_ended {a : LegAct} (hl : Tidy l) (h : step P cap a l = some l')
    (he : l.ended = true) : l'.got = l.got ∧ l'.ended = true := by
  cases a with
  | deliver n => obtain ⟨-, -, -, rfl⟩ := step_deliver_iff.mp h; exact ⟨rfl, he⟩
  | deliverFin => obtain ⟨-, -, -, -, rfl⟩ := step_deliverFin_iff.mp h; exact ⟨rfl, he⟩
  | read => obtain ⟨-, r, -, rfl⟩ := step_read_iff.mp h; exact ⟨rfl, he⟩
  | send => obtain ⟨_, _, -, ⟨-, rfl⟩ | ⟨-, -, rfl⟩⟩ := step_send_iff.mp h <;> exact ⟨rfl, he⟩
  | take =>
      obtain ⟨item, queue, hq, rfl⟩ := step_take_iff.mp h
      have := (hl.ended he).2
      simp [hq] at this
  | takeNone => obtain ⟨-, -, -, -, rfl⟩ := step_takeNone_iff.mp h; exact ⟨rfl, rfl⟩
  | dropReceiver => obtain ⟨-, rfl⟩ := step_dropReceiver_iff.mp h; exact ⟨rfl, he⟩
  | abort => obtain rfl := step_abort_iff.mp h; exact ⟨rfl, he⟩

/-! ### The conserved quantity -/

theorem outlook_push (l : Leg ι) (bs Z : List UInt8) :
    (l.push bs).outlook P Z = l.outlook P (bs ++ Z) := by
  simp [outlook, push, List.append_assoc]

theorem outlook_close (l : Leg ι) (Z : List UInt8) : l.close.outlook P Z = l.outlook P Z := rfl

theorem outlook_done (h : l.pump = .done) (Z : List UInt8) :
    l.outlook P Z = l.got ++ l.queue := by
  simp [outlook, h, Pump.upstream]

/-- What a sealed leg leaves to be read does not depend on the bytes behind its pump. -/
theorem Sealed.outlook_eq (h : Sealed l) (Z Z' : List UInt8) :
    l.outlook P Z = l.outlook P Z' := by
  rcases h with hp | ⟨item, hp⟩ <;> simp [outlook, hp, Pump.upstream]

/-- An abort loses what has not reached the channel. -/
theorem outlook_abort_prefix (l : Leg ι) (Z : List UInt8) :
    l.got ++ l.queue <+: l.outlook P Z := by
  rw [outlook, ← List.append_assoc]
  exact List.prefix_append _ _

theorem got_prefix_outlook (l : Leg ι) (Z : List UInt8) : l.got <+: l.outlook P Z :=
  List.prefix_append _ _

/-- The actions that lose items. -/
def Loses : LegAct → Prop
  | .dropReceiver | .abort => True
  | _ => False

/-- **The outlook is conserved**: nothing is lost, duplicated or reordered by delivery,
reading, back-pressure or consumption, as long as the consumer keeps its end. -/
theorem outlook_step {a : LegAct} (hl : Tidy l) (h : step P cap a l = some l') (ha : ¬ Loses a)
    (hd : l.dropped = false) {Z : List UInt8} (hZ : l.closed = true → Z = []) :
    l'.outlook P Z = l.outlook P Z := by
  cases a with
  | deliver n =>
      obtain ⟨hp, -, -, rfl⟩ := step_deliver_iff.mp h
      simp only [outlook, List.append_assoc]
      rw [← List.append_assoc (l.inflight.take n), List.take_append_drop]
  | deliverFin => obtain ⟨-, -, -, -, rfl⟩ := step_deliverFin_iff.mp h; rfl
  | read =>
      obtain ⟨hp, r, hr, rfl⟩ := step_read_iff.mp h
      have hfollows : Follows l.recv.tail (l.inflight ++ Z) := by
        obtain ht | ⟨ht, hc, hnil⟩ := hl.tail
        · exact .inl ht
        · exact .inr ⟨ht, by rw [hnil, hZ hc]; rfl⟩
      have key := P.forwards_read hr hfollows
      simp only [outlook, hp, Pump.upstream]
      rw [key]
      rcases r with e | ⟨o, s'⟩ <;> rfl
  | send =>
      obtain ⟨item, next, hp, ⟨hd', -⟩ | ⟨-, -, rfl⟩⟩ := step_send_iff.mp h
      · simp [hd] at hd'
      · cases next <;> simp [outlook, hp, Pump.upstream]
  | take =>
      obtain ⟨item, queue, hqueue, rfl⟩ := step_take_iff.mp h
      simp [outlook, hqueue]
  | takeNone => obtain ⟨-, -, -, -, rfl⟩ := step_takeNone_iff.mp h; rfl
  | dropReceiver => exact absurd trivial ha
  | abort => exact absurd trivial ha

/-! ### Termination and progress -/

/-- What a state of the task costs. -/
def pumpWeight : PumpState ι → ℕ
  | .reading => 4
  | .sending _ .last => 3
  | .sending _ _ => 6
  | .done => 0

/-- A byte costs less the nearer it is to its frame, an item less the nearer it is to the
consumer. -/
def weight (l : Leg ι) : ℕ :=
  5 * l.inflight.length + 4 * l.recv.buf.length + pumpWeight l.pump + l.queue.length +
    (if l.recv.tail = .live then 1 else 0) + (!l.dropped).toNat + (!l.ended).toNat

theorem weight_push (l : Leg ι) (bs : List UInt8) :
    (l.push bs).weight = l.weight + 5 * bs.length := by
  have h : (l.push bs).weight = 5 * (l.inflight ++ bs).length + 4 * l.recv.buf.length +
      pumpWeight l.pump + l.queue.length + (if l.recv.tail = .live then 1 else 0) +
      (!l.dropped).toNat + (!l.ended).toNat := rfl
  rw [h, List.length_append, weight]
  omega

@[simp] theorem weight_close (l : Leg ι) : l.close.weight = l.weight := rfl

theorem weight_read {r : Except ε (Option φ × RecvStream)} (h : P.read l.recv = .ready r) :
    4 * (l.afterRecv r).buf.length + pumpWeight (P.afterRead r) < 4 * l.recv.buf.length + 4 := by
  obtain e | ⟨_ | f, s'⟩ := r
  · simp only [afterRecv, Pump.afterRead, pumpWeight]
    omega
  · obtain ⟨p, hp, -⟩ := P.regular.suffix _ _ s' h
    have := congrArg List.length hp
    simp only [List.length_append] at this
    simp only [afterRecv, Pump.afterRead, pumpWeight]
    omega
  · have := P.shortens _ f s' h
    have hw : ∀ st : PumpState ι, pumpWeight st ≤ 6 := by
      rintro (_ | ⟨_, _ | _ | _⟩ | _) <;> simp [pumpWeight]
    have := hw (P.afterRead (.ok (some f, s')))
    simp only [afterRecv]
    omega

/-- **Every action but an abort decreases the weight.** -/
theorem weight_step {a : LegAct} (h : step P cap a l = some l') (ha : a ≠ .abort) :
    l'.weight < l.weight := by
  cases a with
  | deliver n =>
      obtain ⟨-, hn, hle, rfl⟩ := step_deliver_iff.mp h
      simp only [weight, List.length_drop, List.length_append, List.length_take]
      omega
  | deliverFin =>
      obtain ⟨-, -, -, ht, rfl⟩ := step_deliverFin_iff.mp h
      simp [weight, ht]
  | read =>
      obtain ⟨hp, r, hr, rfl⟩ := step_read_iff.mp h
      have := weight_read hr
      have hreading : pumpWeight (.reading : PumpState ι) = 4 := rfl
      simp only [weight, tail_afterRecv hr, hp, hreading]
      omega
  | send =>
      obtain ⟨item, next, hp, ⟨hd, rfl⟩ | ⟨hd, -, rfl⟩⟩ := step_send_iff.mp h
      · cases next <;> simp [weight, hp, pumpWeight]
      · cases next <;> simp [weight, hp, pumpWeight] <;> omega
  | take =>
      obtain ⟨item, queue, hqueue, rfl⟩ := step_take_iff.mp h
      simp [weight, hqueue]
  | takeNone =>
      obtain ⟨-, -, -, he, rfl⟩ := step_takeNone_iff.mp h
      simp [weight, he]
  | dropReceiver =>
      obtain ⟨hd, rfl⟩ := step_dropReceiver_iff.mp h
      simp only [weight, hd, List.length_nil, Bool.not_false, Bool.not_true, Bool.toNat_true,
        Bool.toNat_false]
      omega
  | abort => exact absurd rfl ha

theorem weight_abort (h : l.pump ≠ .done) :
    ({ l with pump := .done } : Leg ι).weight < l.weight := by
  have hpos : 0 < pumpWeight l.pump := by
    cases hp : l.pump with
    | reading => simp [pumpWeight]
    | sending item next => cases next <;> simp [pumpWeight]
    | done => exact absurd hp h
  have hdone : pumpWeight (.done : PumpState ι) = 0 := rfl
  simp only [weight, hdone]
  omega

/-- **Progress**: a leg whose consumer keeps its end has ended, or can act, or waits for its
sender to write or to finish. -/
theorem progress (hl : Tidy l) (hd : l.dropped = false) (hcap : 0 < cap) :
    l.ended = true ∨ (∃ a l', ¬ Loses a ∧ step P cap a l = some l') ∨
      l.pump = .reading ∧ l.closed = false ∧ l.inflight = [] := by
  cases hq : l.queue with
  | cons item queue =>
      exact .inr (.inl ⟨.take, _, nofun, step_take_iff.mpr ⟨item, queue, hq, rfl⟩⟩)
  | nil =>
      cases hp : l.pump with
      | done =>
          cases he : l.ended with
          | true => exact .inl rfl
          | false =>
              exact .inr (.inl ⟨.takeNone, _, nofun, step_takeNone_iff.mpr ⟨hq, hp, hd, he, rfl⟩⟩)
      | sending item next =>
          exact .inr (.inl ⟨.send, _, nofun, step_send_iff.mpr ⟨item, next, hp,
            .inr ⟨hd, by simpa [hq] using hcap, rfl⟩⟩⟩)
      | reading =>
          by_cases hin : l.inflight = []
          · cases hc : l.closed with
            | false => exact .inr (.inr ⟨rfl, rfl, hin⟩)
            | true =>
                refine .inr (.inl ?_)
                by_cases ht : l.recv.tail = .live
                · exact ⟨.deliverFin, _, nofun, step_deliverFin_iff.mpr ⟨hp, hc, hin, ht, rfl⟩⟩
                · have hfin : l.recv.tail = .finished := (hl.tail.resolve_left ht).1
                  cases hr : P.read l.recv with
                  | pending =>
                      have := P.regular.settles l.recv.buf
                      rw [← hfin] at this
                      exact absurd hr this
                  | ready r => exact ⟨.read, _, nofun, step_read_iff.mpr ⟨hp, r, hr, rfl⟩⟩
          · have hpos := List.length_pos_iff.mpr hin
            exact .inr (.inl ⟨.deliver 1, _, nofun, step_deliver_iff.mpr
              ⟨hp, Nat.one_pos, hpos, rfl⟩⟩)

/-- The pump needs more bytes. -/
def waits (P : Pump ε φ ι) (l : Leg ι) : Bool :=
  match P.read l.recv with
  | .pending => true
  | .ready _ => false

theorem progress_waits (hl : Tidy l) (hd : l.dropped = false) (hcap : 0 < cap) :
    l.ended = true ∨
      (∃ a l', ¬ Loses a ∧ (∀ n, a = .deliver n → l.waits P = true) ∧ step P cap a l = some l') ∨
      l.pump = .reading ∧ l.closed = false ∧ l.inflight = [] := by
  obtain hend | ⟨a, l', ha, hs⟩ | hwaiting := progress (P := P) hl hd hcap
  · exact .inl hend
  · refine .inr (.inl ?_)
    by_cases hdeliver : ∃ n, a = .deliver n
    · obtain ⟨n, rfl⟩ := hdeliver
      obtain ⟨hp, -⟩ := step_deliver_iff.mp hs
      cases hr : P.read l.recv with
      | pending => exact ⟨_, l', ha, fun _ _ => by rw [waits, hr], hs⟩
      | ready r => exact ⟨.read, _, nofun, nofun, step_read_iff.mpr ⟨hp, r, hr, rfl⟩⟩
    · exact ⟨a, l', ha, fun n hn => absurd ⟨n, hn⟩ hdeliver, hs⟩
  · exact .inr (.inr hwaiting)

/-! ### Runs on all the bytes of a sender -/

/-- The bytes the sender will ever write, all in flight. -/
def opened (bs : List UInt8) (closed : Bool) : Leg ι :=
  ⟨bs, closed, ⟨[], .live⟩, .reading, [], [], false, false⟩

theorem tidy_opened (bs : List UInt8) (closed : Bool) : Tidy (opened bs closed : Leg ι) :=
  ⟨.inl rfl, nofun, nofun⟩

/-- The consumer keeps its end and the task is not aborted. -/
def Keeps (a : LegAct) (_ : Leg ι) : Prop := ¬ Loses a

/-- What holds in every state of a run on `bs`, at the end of which the sender has finished. -/
structure OnBytes (P : Pump ε φ ι) (bs : List UInt8) (l : Leg ι) : Prop where
  tidy : l.Tidy
  kept : l.dropped = false
  closed : l.closed = true
  outlook : l.outlook P [] = P.forwards bs

theorem onBytes_opened (P : Pump ε φ ι) (bs : List UInt8) : OnBytes P bs (opened bs true) where
  tidy := tidy_opened bs true
  kept := rfl
  closed := rfl
  outlook := by simp [outlook, opened, Pump.upstream]

theorem OnBytes.step {bs : List UInt8} {a : LegAct} (hl : OnBytes P bs l) (ha : Keeps a l)
    (h : Leg.step P cap a l = some l') : OnBytes P bs l' := by
  have hkept : l'.dropped = l.dropped := step_dropped h fun hdrop => ha (hdrop ▸ trivial)
  refine ⟨hl.tidy.step h, hkept.trans hl.kept, (step_closed h).trans hl.closed, ?_⟩
  rw [outlook_step hl.tidy h ha hl.kept fun _ => rfl, hl.outlook]

theorem onBytes_of_runs {bs : List UInt8} {as : List LegAct}
    (h : Runs (Leg.step P cap) Keeps as (opened bs true) l) : OnBytes P bs l :=
  h.invariant (fun _ _ _ ha hl hs => hl.step ha hs) (onBytes_opened P bs)

theorem OnBytes.forwarded {bs : List UInt8} (hl : OnBytes P bs l) :
    l.got ++ l.queue <+: P.forwards bs :=
  hl.outlook ▸ outlook_abort_prefix l []

theorem OnBytes.ended {bs : List UInt8} (hl : OnBytes P bs l) (he : l.ended = true) :
    l.pump = .done ∧ l.got = P.forwards bs := by
  obtain ⟨hp, hq⟩ := hl.tidy.ended he
  have hall := hl.outlook
  rw [outlook_done hp, hq, List.append_nil] at hall
  exact ⟨hp, hall⟩

theorem OnBytes.stuck {bs : List UInt8} (hl : OnBytes P bs l) (hcap : 0 < cap)
    (h : ∀ a, Keeps a l → Leg.step P cap a l = none) : l.ended = true := by
  obtain he | ⟨a, l', ha, hs⟩ | ⟨-, hopen, -⟩ := progress (P := P) hl.tidy hl.kept hcap
  · exact he
  · rw [h a ha] at hs
    cases hs
  · rw [hl.closed] at hopen
    cases hopen

theorem runs_length_le {as : List LegAct} (h : Runs (Leg.step P cap) Keeps as l l') :
    as.length ≤ l.weight := by
  have hle : as.length + l'.weight ≤ l.weight := by
    apply h.length_add_le (fun _ _ _ _ _ _ => trivial) ?_ trivial
    intro a s s' ha _ hs
    apply weight_step hs
    intro habort
    exact ha (habort ▸ trivial)
  omega

/-! ### A pump whose consumer is gone -/

/-- The frame that the pump takes off the stream by an action. -/
def readsFrame (P : Pump ε φ ι) : LegAct → Leg ι → Option φ
  | .read, l => match l.pump with
    | .reading => match P.read l.recv with
      | .ready (.ok (f, _)) => f
      | _ => none
    | _ => none
  | _, _ => none

/-- The frames that the pump takes off the stream in a run. -/
def framesRead (P : Pump ε φ ι) (cap : ℕ) : List LegAct → Leg ι → List φ
  | [], _ => []
  | a :: as, l => (readsFrame P a l).toList ++ match step P cap a l with
    | some l' => framesRead P cap as l'
    | none => []

/-- The pump has returned, or does so by its next step. -/
def Returning (P : Pump ε φ ι) (cap : ℕ) (l : Leg ι) : Prop :=
  l.pump = .done ∨ ∃ l', step P cap .send l = some l' ∧ l'.pump = .done

/-- From here on the pump takes at most one more frame, and returns behind it. -/
def Quits (P : Pump ε φ ι) (cap : ℕ) (l : Leg ι) : Prop :=
  ∀ as l', run (step P cap) as l = some l' → (framesRead P cap as l).length ≤ 1 ∧
    (framesRead P cap as l ≠ [] → Returning P cap l')

/-- The pump will take another frame: it reads, or holds an item behind which it goes on anyway. -/
def Listening (l : Leg ι) : Prop := l.pump = .reading ∨ ∃ item, l.pump = .sending item .always

/-- The leg when everything that the sender has written has arrived, and the end behind it. -/
def allArrived (l : Leg ι) : Leg ι :=
  { l with inflight := []
           recv := ⟨l.recv.buf ++ l.inflight, if l.closed then .finished else .live⟩ }

/-- The first of the frames that the sender has written and the pump has not taken. -/
def nextFrame (P : Pump ε φ ι) (l : Leg ι) : Option φ :=
  match P.read l.allArrived.recv with
  | .ready (.ok (f, _)) => f
  | _ => none

/-- The pump goes on behind the frame even if the channel is closed. -/
def GoesOn (P : Pump ε φ ι) (f : φ) : Prop := ∃ item, P.onFrame f = .send item .always

theorem step_keeps_dropped {a : LegAct} (h : step P cap a l = some l') (hd : l.dropped = true) :
    l'.dropped = true := by
  by_cases ha : a = .dropReceiver
  · subst ha
    rw [(step_dropReceiver_iff.mp h).1] at hd
    cases hd
  · rw [step_dropped h ha, hd]

/-- Behind a closed channel a pump returns as soon as it does not listen. -/
theorem returning_iff (hd : l.dropped = true) : Returning P cap l ↔ ¬ Listening l := by
  constructor
  · rintro (hdone | ⟨l', hs, hdone⟩) (hreading | ⟨item, halways⟩)
    · rw [hdone] at hreading
      cases hreading
    · rw [hdone] at halways
      cases halways
    · obtain ⟨_, _, hsending, -⟩ := step_send_iff.mp hs
      rw [hreading] at hsending
      cases hsending
    · obtain ⟨item', next, hsending, ⟨-, rfl⟩ | ⟨hopen, -⟩⟩ := step_send_iff.mp hs
      · rw [halways] at hsending
        cases hsending
        cases hdone
      · rw [hd] at hopen
        cases hopen
  · intro hquiet
    cases hp : l.pump with
    | done => exact .inl hp
    | reading => exact absurd (.inl hp) hquiet
    | sending item next =>
        by_cases hnext : next = .always
        · subst hnext
          exact absurd (.inr ⟨item, hp⟩) hquiet
        · exact .inr ⟨_, step_send_iff.mpr ⟨item, next, hp, .inl ⟨hd, rfl⟩⟩, if_neg hnext⟩

/-- A frame that is read is the next one, however many bytes have been delivered. -/
theorem nextFrame_of_read (hl : Tidy l) {f : φ} {s : RecvStream}
    (h : P.read l.recv = .ready (.ok (some f, s))) : nextFrame P l = some f := by
  unfold nextFrame allArrived
  obtain ht | ⟨ht, hc, hnil⟩ := hl.tail
  · have hlive : P.read ⟨l.recv.buf, .live⟩ = .ready (.ok (some f, s)) := by
      rw [← ht]
      exact h
    rw [(P.regular.stable l.recv.buf l.inflight _ _ hlive).1]
    rfl
  · have hfinished : P.read ⟨l.recv.buf, .finished⟩ = .ready (.ok (some f, s)) := by
      rw [← ht]
      exact h
    rw [hnil, List.append_nil, hc, if_pos rfl, hfinished]

/-- Once a pump does not listen it takes no more frames. -/
theorem step_quiet {a : LegAct} (hd : l.dropped = true) (hq : ¬ Listening l)
    (h : step P cap a l = some l') : readsFrame P a l = none ∧ ¬ Listening l' := by
  have hreading : l.pump ≠ .reading := fun hp => hq (.inl hp)
  cases a with
  | deliver n => exact absurd (step_deliver_iff.mp h).1 hreading
  | deliverFin => exact absurd (step_deliverFin_iff.mp h).1 hreading
  | read => exact absurd (step_read_iff.mp h).1 hreading
  | send =>
      obtain ⟨item, next, hp, ⟨-, rfl⟩ | ⟨hopen, -⟩⟩ := step_send_iff.mp h
      · have hnext : next ≠ .always := by
          intro halways
          subst halways
          exact hq (.inr ⟨item, hp⟩)
        refine ⟨rfl, ?_⟩
        rw [if_neg hnext]
        rintro (hp' | ⟨_, hp'⟩) <;> cases hp'
      · rw [hd] at hopen
        cases hopen
  | take => obtain ⟨_, _, -, rfl⟩ := step_take_iff.mp h; exact ⟨rfl, hq⟩
  | takeNone => obtain ⟨-, -, -, -, rfl⟩ := step_takeNone_iff.mp h; exact ⟨rfl, hq⟩
  | dropReceiver => obtain ⟨-, rfl⟩ := step_dropReceiver_iff.mp h; exact ⟨rfl, hq⟩
  | abort =>
      obtain rfl := step_abort_iff.mp h
      refine ⟨rfl, ?_⟩
      rintro (hp' | ⟨_, hp'⟩) <;> cases hp'

/-- A step behind a closed channel: it takes no frame and the next one stays, or the pump listens
no more, or it takes the next frame. -/
theorem step_nextFrame {a : LegAct} (hl : Tidy l) (hd : l.dropped = true)
    (h : step P cap a l = some l') :
    (readsFrame P a l = none ∧ nextFrame P l' = nextFrame P l) ∨
    (readsFrame P a l = none ∧ ¬ Listening l') ∨
    ∃ f, readsFrame P a l = some f ∧ nextFrame P l = some f ∧ (¬ GoesOn P f → ¬ Listening l') := by
  cases a with
  | deliver n =>
      obtain ⟨-, -, -, rfl⟩ := step_deliver_iff.mp h
      refine .inl ⟨rfl, ?_⟩
      simp only [nextFrame, allArrived, List.append_assoc, List.take_append_drop]
  | deliverFin => obtain ⟨-, -, -, -, rfl⟩ := step_deliverFin_iff.mp h; exact .inl ⟨rfl, rfl⟩
  | read =>
      obtain ⟨hreading, r, hr, rfl⟩ := step_read_iff.mp h
      obtain e | ⟨_ | f, s⟩ := r
      · refine .inr (.inl ⟨by simp only [readsFrame, hreading, hr], ?_⟩)
        rintro (hp' | ⟨_, hp'⟩) <;> cases hp'
      · refine .inr (.inl ⟨by simp only [readsFrame, hreading, hr], ?_⟩)
        rintro (hp' | ⟨_, hp'⟩) <;> cases hp'
      · refine .inr (.inr ⟨f, by simp only [readsFrame, hreading, hr], nextFrame_of_read hl hr, ?_⟩)
        intro hgoes hlisten
        simp only [Listening, Pump.afterRead] at hlisten
        cases harm : P.onFrame f with
        | stop => simp [harm] at hlisten
        | send item next =>
            simp only [harm, PumpState.sending.injEq, reduceCtorEq, false_or] at hlisten
            obtain ⟨_, rfl, rfl⟩ := hlisten
            exact hgoes ⟨_, harm⟩
  | send =>
      obtain ⟨item, next, -, ⟨-, rfl⟩ | ⟨hopen, -⟩⟩ := step_send_iff.mp h
      · exact .inl ⟨rfl, rfl⟩
      · rw [hd] at hopen
        cases hopen
  | take => obtain ⟨_, _, -, rfl⟩ := step_take_iff.mp h; exact .inl ⟨rfl, rfl⟩
  | takeNone => obtain ⟨-, -, -, -, rfl⟩ := step_takeNone_iff.mp h; exact .inl ⟨rfl, rfl⟩
  | dropReceiver => obtain ⟨-, rfl⟩ := step_dropReceiver_iff.mp h; exact .inl ⟨rfl, rfl⟩
  | abort => obtain rfl := step_abort_iff.mp h; exact .inl ⟨rfl, rfl⟩

theorem framesRead_cons {a : LegAct} (as : List LegAct) (h : step P cap a l = some l') :
    framesRead P cap (a :: as) l = (readsFrame P a l).toList ++ framesRead P cap as l' := by
  rw [framesRead, h]

theorem framesRead_quiet {as : List LegAct} (hd : l.dropped = true) (hq : ¬ Listening l)
    (h : run (step P cap) as l = some l') : framesRead P cap as l = [] ∧ ¬ Listening l' := by
  induction as generalizing l with
  | nil =>
      cases h
      exact ⟨rfl, hq⟩
  | cons a as ih =>
      obtain ⟨l₁, hs, hrun⟩ := Option.bind_eq_some_iff.mp h
      obtain ⟨hnone, hq₁⟩ := step_quiet hd hq hs
      obtain ⟨hframes, hq'⟩ := ih (step_keeps_dropped hs hd) hq₁ hrun
      rw [framesRead_cons as hs, hnone, hframes]
      exact ⟨rfl, hq'⟩

theorem framesRead_nextFrame {as : List LegAct} (hl : Tidy l) (hd : l.dropped = true)
    (hnext : ∀ f, nextFrame P l = some f → ¬ GoesOn P f)
    (h : run (step P cap) as l = some l') : (framesRead P cap as l).length ≤ 1 ∧
      (framesRead P cap as l ≠ [] → ¬ Listening l') := by
  induction as generalizing l with
  | nil => exact ⟨Nat.zero_le _, fun hne => absurd rfl hne⟩
  | cons a as ih =>
      obtain ⟨l₁, hs, hrun⟩ := Option.bind_eq_some_iff.mp h
      have hd₁ := step_keeps_dropped hs hd
      rw [framesRead_cons as hs]
      obtain ⟨hnone, hsame⟩ | ⟨hnone, hq⟩ | ⟨f, hf, hfirst, hquiet⟩ := step_nextFrame hl hd hs
      · rw [hnone]
        exact ih (hl.step hs) hd₁ (hsame ▸ hnext) hrun
      · obtain ⟨hframes, hq'⟩ := framesRead_quiet hd₁ hq hrun
        rw [hnone, hframes]
        exact ⟨Nat.zero_le _, fun hne => absurd rfl hne⟩
      · obtain ⟨hframes, hq'⟩ := framesRead_quiet hd₁ (hquiet (hnext f hfirst)) hrun
        rw [hf, hframes]
        exact ⟨le_refl 1, fun _ => hq'⟩

theorem framesRead_append (as bs : List LegAct) (h : run (step P cap) as l = some l') :
    framesRead P cap (as ++ bs) l = framesRead P cap as l ++ framesRead P cap bs l' := by
  induction as generalizing l with
  | nil =>
      cases h
      rfl
  | cons a as ih =>
      obtain ⟨l₁, hs, hrun⟩ := Option.bind_eq_some_iff.mp h
      rw [List.cons_append, framesRead_cons _ hs, framesRead_cons _ hs, ih hrun, List.append_assoc]

theorem run_keeps_dropped {as : List LegAct} (h : run (step P cap) as l = some l')
    (hd : l.dropped = true) : l'.dropped = true :=
  (runs_any_iff.mpr h).invariant (fun _ _ _ _ hd hs => step_keeps_dropped hs hd) hd

theorem exists_run_allArrived (P : Pump ε φ ι) (cap : ℕ) (hl : Tidy l) (hp : l.pump = .reading) :
    ∃ as, run (step P cap) as l = some l.allArrived ∧ framesRead P cap as l = [] := by
  have hdeliver : ∃ as, run (step P cap) as l = some { l with
      inflight := [], recv := ⟨l.recv.buf ++ l.inflight, l.recv.tail⟩ } ∧
      framesRead P cap as l = [] := by
    by_cases hnil : l.inflight = []
    · refine ⟨[], ?_, rfl⟩
      rw [hnil, List.append_nil, ← hnil]
      rfl
    · have hpos := List.length_pos_iff.mpr hnil
      have hs : step P cap (.deliver l.inflight.length) l = some { l with
          inflight := [], recv := ⟨l.recv.buf ++ l.inflight, l.recv.tail⟩ } :=
        step_deliver_iff.mpr ⟨hp, hpos, le_refl _, by simp⟩
      refine ⟨[.deliver l.inflight.length], by rw [run, hs]; rfl, ?_⟩
      rw [framesRead_cons _ hs]
      rfl
  obtain ⟨as, hrun, hframes⟩ := hdeliver
  by_cases hfin : l.closed = true ∧ l.recv.tail = .live
  · obtain ⟨hc, ht⟩ := hfin
    have hs : step P cap .deliverFin { l with
        inflight := [], recv := ⟨l.recv.buf ++ l.inflight, l.recv.tail⟩ } = some l.allArrived :=
      step_deliverFin_iff.mpr ⟨hp, hc, rfl, ht, by rw [allArrived, if_pos hc]⟩
    refine ⟨as ++ [.deliverFin], ?_, ?_⟩
    · rw [run_append, hrun, Option.bind_some, run, hs]
      rfl
    · rw [framesRead_append _ _ hrun, hframes, framesRead_cons _ hs]
      rfl
  · have htail : (if l.closed then StreamEnd.finished else .live) = l.recv.tail := by
      obtain ht | ⟨ht, hc, -⟩ := hl.tail
      · have hopen : ¬ l.closed = true := fun hc => hfin ⟨hc, ht⟩
        rw [if_neg hopen, ht]
      · rw [if_pos hc, ht]
    refine ⟨as, ?_, hframes⟩
    rw [allArrived, htail]
    exact hrun

theorem exists_run_read (cap : ℕ) (hl : Tidy l) (hp : l.pump = .reading) {f : φ} {item : ι}
    {next : Next} (hf : nextFrame P l = some f) (harm : P.onFrame f = .send item next) :
    ∃ as l', run (step P cap) as l = some l' ∧ framesRead P cap as l = [f] ∧
      l'.pump = .sending item next := by
  obtain ⟨as, hrun, hframes⟩ := exists_run_allArrived P cap hl hp
  obtain ⟨s, hr⟩ : ∃ s, P.read l.allArrived.recv = .ready (.ok (some f, s)) := by
    unfold nextFrame at hf
    split at hf
    · rename_i o s hr
      exact ⟨s, hf ▸ hr⟩
    · cases hf
  have hs : step P cap .read l.allArrived = some { l.allArrived with
      recv := s, pump := .sending item next } := by
    refine step_read_iff.mpr ⟨hp, _, hr, ?_⟩
    simp only [afterRecv, Pump.afterRead, harm]
  refine ⟨as ++ [.read], { l.allArrived with recv := s, pump := .sending item next },
    ?_, ?_, rfl⟩
  · rw [run_append, hrun, Option.bind_some, run, hs]
    rfl
  · have hreads : readsFrame P .read l.allArrived = some f := by
      have hp' : l.allArrived.pump = .reading := hp
      simp only [readsFrame, hp', hr]
    rw [framesRead_append _ _ hrun, hframes, framesRead_cons _ hs, hreads]
    rfl

/-- **When a pump quits behind a closed channel**: if it does not listen any more, or would not go
on behind the next frame. -/
theorem quits_iff (hl : Tidy l) (hd : l.dropped = true) :
    Quits P cap l ↔ ¬ (Listening l ∧ ∃ f, nextFrame P l = some f ∧ GoesOn P f) := by
  constructor
  · rintro hquits ⟨hp, f, hf, item, harm⟩
    obtain ⟨as, l', hrun, hframes, hsending⟩ : ∃ as l', run (step P cap) as l = some l' ∧
        framesRead P cap as l = [f] ∧ l'.pump = .sending item .always := by
      obtain hreading | ⟨item₀, hheld⟩ := hp
      · exact exists_run_read cap hl hreading hf harm
      · have hs : step P cap .send l = some { l with pump := .reading } :=
          step_send_iff.mpr ⟨item₀, .always, hheld, .inl ⟨hd, rfl⟩⟩
        obtain ⟨as, l', hrun, hframes, hsending⟩ := exists_run_read cap (hl.step hs) rfl hf harm
        refine ⟨.send :: as, l', ?_, ?_, hsending⟩
        · rw [run, hs, Option.bind_some, hrun]
        · rw [framesRead_cons _ hs, hframes]
          rfl
    have hreturning := (hquits as l' hrun).2 (by rw [hframes]; exact List.cons_ne_nil _ _)
    exact (returning_iff (run_keeps_dropped hrun hd)).mp hreturning (.inr ⟨item, hsending⟩)
  · intro hcond as l' hrun
    by_cases hp : Listening l
    · obtain ⟨hle, hq⟩ := framesRead_nextFrame hl hd
        (fun f hf hgoes => hcond ⟨hp, f, hf, hgoes⟩) hrun
      exact ⟨hle, fun hne => (returning_iff (run_keeps_dropped hrun hd)).mpr (hq hne)⟩
    · obtain ⟨hframes, -⟩ := framesRead_quiet hd hp hrun
      rw [hframes]
      exact ⟨Nat.zero_le _, fun hne => absurd rfl hne⟩

end Leg

end FramePump
