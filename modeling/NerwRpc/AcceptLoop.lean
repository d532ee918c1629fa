import Mathlib.Data.List.AList
import NerwRpc.Context
import NerwRpc.Error
import NerwRpc.KeyedHistory
import NerwRpc.Permits
import NerwRpc.Transition

/-! # The accept loop and its dispatch table

`RpcServer` holds a table of handlers by ALPN and the slot of its accept loop.  Any number of
threads call `serve` and `register_alpn_handler`; the loop spawns a task for every incoming
connection, and each task looks its handler up once, behind the handshake.

A call of `serve` holds the mutex of the slot from its check to the spawn, but not that of the
table; so registrations go on between any two of its steps, and so does the dispatch.  An aborted
loop may go on until its next suspension.  The trace records what touches the table, the lookups
and the connection ids that wire-protocol handlers give out.

* `Serving.step`: the mutex makes the check and the fill one step, so that there is one loop and
  one wire-protocol handler.
* `Dispatching.step`: what a task does is what its lookup has found. -/

namespace NerwRpc

open KeyedHistory Transition

/-- What is in the table: the wire-protocol handler that a call of `serve` installs, or one of the
application. -/
inductive AlpnHandler (H : Type) where
  | wireDispatch (serve : ℕ)
  | application (handler : H)
deriving DecidableEq, Repr

/-- ALPN keyed table of handlers. -/
abbrev AlpnHandlerTable (H : Type) := AList fun _ : Bytes => AlpnHandler H

/-- A call of `serve`: before the check, with the slot reserved, with the wire-protocol handler
installed, and back. -/
inductive ServeCall where
  | called
  | reserved
  | installed
  | returned (result : RpcResult Unit)
deriving DecidableEq, Repr

namespace ServeCall

/-- The call holds the mutex. -/
def busy : ServeCall → Bool
  | reserved | installed => true
  | _ => false

/-- The call has returned. -/
def back : ServeCall → Bool
  | returned _ => true
  | _ => false

/-- The call has spawned an accept loop. -/
def won : ServeCall → Bool
  | returned (.ok ()) => true
  | _ => false

/-- The call has put its wire-protocol handler into the table. -/
def placed : ServeCall → Bool
  | installed | returned (.ok ()) => true
  | _ => false

end ServeCall

/-- The task of an accept loop; `Drop` aborts it. -/
inductive LoopTask where
  | running
  | aborted
  | gone
deriving DecidableEq, Repr

/-- A task that has ended is not touched. -/
def LoopTask.abort : LoopTask → LoopTask
  | .running => .aborted
  | t => t

/-- `CLOSE_NO_HANDLER`. -/
def closeNoHandler : ℕ := 1

/-- The task of an incoming connection. -/
inductive ConnectionDispatch (H : Type) where
  | accepting
  | negotiating
  | handshaking (alpn : Bytes)
  | established (alpn : Bytes)
  | entering (alpn : Bytes) (serve : ℕ)
  | numbered (alpn : Bytes) (serve : ℕ) (connectionId : UInt64)
  | handling (alpn : Bytes) (handler : H)
  | closed (alpn : Bytes) (code : ℕ) (reason : String)
  | ended
deriving DecidableEq, Repr

namespace ConnectionDispatch

variable {H : Type}

/-- The task has not come to its lookup. -/
def early : ConnectionDispatch H → Bool
  | accepting | negotiating | handshaking _ | established _ => true
  | _ => false

/-- The task has been given its connection id. -/
def late : ConnectionDispatch H → Bool
  | numbered _ _ _ | ended => true
  | _ => false

/-- The handler that the task runs, and the ALPN it is for. -/
def runs : ConnectionDispatch H → Option (Bytes × AlpnHandler H)
  | entering alpn serve | numbered alpn serve _ => some (alpn, .wireDispatch serve)
  | handling alpn handler => some (alpn, .application handler)
  | _ => none

end ConnectionDispatch

/-- The table is written, a connection looks its handler up, or it is given its id. -/
inductive AlpnEvent (H : Type) where
  | put (alpn : Bytes) (handler : AlpnHandler H)
  | lookedUp (connection : ℕ) (alpn : Bytes) (found : Option (AlpnHandler H))
  | gaveId (connection serve : ℕ) (connectionId : UInt64)
deriving DecidableEq, Repr

namespace AlpnEvent

variable {H : Type}

def touch : AlpnEvent H → Bytes → Touch (AlpnHandler H)
  | put alpn handler, k => if k = alpn then .put handler else .leave
  | _, _ => .leave

/-- The event is the lookup of a connection. -/
def looksUp (i : ℕ) : AlpnEvent H → Bool
  | lookedUp j _ _ => j = i
  | _ => false

/-- The event is the insertion of the wire-protocol handler of call `j`. -/
def placedBy (j : ℕ) : AlpnEvent H → Bool
  | put _ (.wireDispatch k) => k = j
  | _ => false

/-- The connection that is given an id. -/
def givenTo : AlpnEvent H → Option ℕ
  | gaveId i _ _ => some i
  | _ => none

/-- The connection id that is given. -/
def given : AlpnEvent H → Option UInt64
  | gaveId _ _ connectionId => some connectionId
  | _ => none

/-- The connection id that the wire-protocol handler of call `j` gives. -/
def idOf (j : ℕ) : AlpnEvent H → Option UInt64
  | gaveId _ k connectionId => if k = j then some connectionId else none
  | _ => none

end AlpnEvent

structure RpcServer (H : Type) where
  alpnHandlers : AlpnHandlerTable H
  locked : Bool
  slot : Option ℕ
  dropped : Bool
  endpointOpen : Bool
  serves : List ServeCall
  loops : List LoopTask
  counters : ℕ → UInt64
  connections : List (ConnectionDispatch H)
  trace : List (AlpnEvent H)

inductive ConnectionStep where
  | accept (ok : Bool)
  | alpn (negotiated : Option Bytes)
  | handshake (ok : Bool)
  | lookup
  | fetchId
  | returns
deriving DecidableEq, Repr

inductive RpcServerAct (H : Type) where
  | registerAlpnHandler (alpn : Bytes) (handler : H)
  | serve
  | lock (i : ℕ)
  | install (i : ℕ)
  | spawn (i : ℕ)
  | drop
  | closeEndpoint
  | incoming (loop : ℕ)
  | loopReturns (loop : ℕ)
  | loopCancelled (loop : ℕ)
  | connection (i : ℕ) (a : ConnectionStep)
deriving DecidableEq, Repr

namespace RpcServer

variable {H : Type}

/-- `RpcServer::new`; the counters are those of the wire-protocol handlers to come. -/
def new : RpcServer H := ⟨∅, false, none, false, true, [], [], fun _ => 1, [], []⟩

/-- Insert into the table. -/
def insert (alpn : Bytes) (handler : AlpnHandler H) (s : RpcServer H) : RpcServer H :=
  { s with
    alpnHandlers := s.alpnHandlers.insert alpn handler
    trace := s.trace ++ [.put alpn handler] }

/-- What a connection task does with what it has found. -/
def dispatched (alpn : Bytes) : Option (AlpnHandler H) → ConnectionDispatch H
  | some (.wireDispatch serve) => .entering alpn serve
  | some (.application handler) => .handling alpn handler
  | none => .closed alpn closeNoHandler "no-handler-registered"

/-- A step of the task of connection `i`. -/
def connectionStep (i : ℕ) (c : ConnectionDispatch H) (s : RpcServer H) :
    ConnectionStep → Option (RpcServer H) :=
  let moves (c : ConnectionDispatch H) := { s with connections := s.connections.set i c }
  fun a => match c, a with
    | .accepting, .accept ok => some (moves (if ok then .negotiating else .ended))
    | .negotiating, .alpn none => some (moves .ended)
    | .negotiating, .alpn (some alpn) => some (moves (.handshaking alpn))
    | .handshaking alpn, .handshake ok => some (moves (if ok then .established alpn else .ended))
    | .established alpn, .lookup =>
        let found := s.alpnHandlers.lookup alpn
        some { moves (dispatched alpn found) with trace := s.trace ++ [.lookedUp i alpn found] }
    | .entering alpn serve, .fetchId =>
        some { moves (.numbered alpn serve (s.counters serve)) with
          counters := Function.update s.counters serve (s.counters serve + 1)
          trace := s.trace ++ [.gaveId i serve (s.counters serve)] }
    | .numbered _ _ _, .returns | .handling _ _, .returns => some (moves .ended)
    | _, _ => none

/-- One step of a thread that uses the server, of a loop or of a connection task; `none` when it is
not possible.  The server is dropped when no call is in progress. -/
def step : RpcServerAct H → RpcServer H → Option (RpcServer H)
  | .registerAlpnHandler alpn handler, s =>
      if s.dropped then none else some (s.insert alpn (.application handler))
  | .serve, s => if s.dropped then none else some { s with serves := s.serves ++ [.called] }
  | .lock i, s => match s.serves[i]? with
    | some .called =>
        if s.locked then none
        else if s.slot.isSome then
          some { s with serves := s.serves.set i (.returned (.error .alreadyServing)) }
        else some { s with locked := true, serves := s.serves.set i .reserved }
    | _ => none
  | .install i, s => match s.serves[i]? with
    | some .reserved =>
        some { s.insert alpnNerwRpc (.wireDispatch i) with serves := s.serves.set i .installed }
    | _ => none
  | .spawn i, s => match s.serves[i]? with
    | some .installed =>
        some { s with
          locked := false
          slot := some s.loops.length
          serves := s.serves.set i (.returned (.ok ()))
          loops := s.loops ++ [.running] }
    | _ => none
  | .drop, s =>
      if s.dropped = false ∧ s.serves.all ServeCall.back then
        some { s with
          dropped := true
          slot := none
          loops := match s.slot with
            | some k => s.loops.modify k LoopTask.abort
            | none => s.loops }
      else none
  | .closeEndpoint, s => if s.endpointOpen then some { s with endpointOpen := false } else none
  | .incoming k, s => match s.loops[k]? with
    | some .running | some .aborted =>
        if s.endpointOpen then some { s with connections := s.connections ++ [.accepting] }
        else none
    | _ => none
  | .loopReturns k, s => match s.loops[k]? with
    | some .running | some .aborted =>
        if s.endpointOpen then none else some { s with loops := s.loops.set k .gone }
    | _ => none
  | .loopCancelled k, s => match s.loops[k]? with
    | some .aborted => some { s with loops := s.loops.set k .gone }
    | _ => none
  | .connection i a, s => match s.connections[i]? with
    | some c => s.connectionStep i c a
    | none => none

/-! ### What a step can do -/

/-- The steps, with what each is taken from. -/
inductive Steps (s : RpcServer H) : RpcServer H → Prop
  | register (alpn : Bytes) (handler : H) : Steps s (s.insert alpn (.application handler))
  | serve : s.dropped = false → Steps s { s with serves := s.serves ++ [.called] }
  | refuse {i : ℕ} : s.serves[i]? = some .called → s.slot.isSome = true →
      Steps s { s with serves := s.serves.set i (.returned (.error .alreadyServing)) }
  | reserve {i : ℕ} : s.serves[i]? = some .called → s.locked = false → s.slot = none →
      Steps s { s with locked := true, serves := s.serves.set i .reserved }
  | install {i : ℕ} : s.serves[i]? = some .reserved →
      Steps s { s.insert alpnNerwRpc (.wireDispatch i) with serves := s.serves.set i .installed }
  | spawn {i : ℕ} : s.serves[i]? = some .installed →
      Steps s { s with
        locked := false
        slot := some s.loops.length
        serves := s.serves.set i (.returned (.ok ()))
        loops := s.loops ++ [.running] }
  | drop {loops : List LoopTask} : s.dropped = false → (∀ c ∈ s.serves, c.back = true) →
      loops.length = s.loops.length →
      Steps s { s with dropped := true, slot := none, loops := loops }
  | endpoint : Steps s { s with endpointOpen := false }
  | loop {loops : List LoopTask} : loops.length = s.loops.length →
      Steps s { s with loops := loops }
  | incoming : s.loops ≠ [] → Steps s { s with connections := s.connections ++ [.accepting] }
  | early {i : ℕ} {c c' : ConnectionDispatch H} : s.connections[i]? = some c → c.early = true →
      c'.early = true ∨ c' = .ended →
      Steps s { s with connections := s.connections.set i c' }
  | lookup {i : ℕ} {alpn : Bytes} : s.connections[i]? = some (.established alpn) →
      Steps s { s with
        connections := s.connections.set i (dispatched alpn (s.alpnHandlers.lookup alpn))
        trace := s.trace ++ [.lookedUp i alpn (s.alpnHandlers.lookup alpn)] }
  | fetchId {i : ℕ} {alpn : Bytes} {j : ℕ} : s.connections[i]? = some (.entering alpn j) →
      Steps s { s with
        connections := s.connections.set i (.numbered alpn j (s.counters j))
        counters := Function.update s.counters j (s.counters j + 1)
        trace := s.trace ++ [.gaveId i j (s.counters j)] }
  | returns {i : ℕ} {c : ConnectionDispatch H} : s.connections[i]? = some c → c.runs.isSome = true →
      Steps s { s with connections := s.connections.set i .ended }

variable {s s' : RpcServer H}

theorem steps_of_connectionStep {i : ℕ} {c : ConnectionDispatch H} {a : ConnectionStep}
    (hc : s.connections[i]? = some c) (h : s.connectionStep i c a = some s') : Steps s s' := by
  unfold connectionStep at h
  dsimp only at h
  split at h
  · rename_i ok
    cases h
    cases ok
    · exact .early hc rfl (.inr rfl)
    · exact .early hc rfl (.inl rfl)
  · cases h
    exact .early hc rfl (.inr rfl)
  · cases h
    exact .early hc rfl (.inl rfl)
  · rename_i ok
    cases h
    cases ok
    · exact .early hc rfl (.inr rfl)
    · exact .early hc rfl (.inl rfl)
  · cases h
    exact .lookup hc
  · cases h
    exact .fetchId hc
  · cases h
    exact .returns hc rfl
  · cases h
    exact .returns hc rfl
  · cases h

theorem steps_of_step {a : RpcServerAct H} (h : step a s = some s') : Steps s s' := by
  cases a with
  | registerAlpnHandler alpn handler =>
      simp only [step] at h
      split at h
      · cases h
      · cases h
        exact .register alpn handler
  | serve =>
      simp only [step] at h
      split at h
      · cases h
      · rename_i hd
        cases h
        exact .serve (Bool.eq_false_iff.mpr hd)
  | lock i =>
      simp only [step] at h
      split at h
      · rename_i hi
        split_ifs at h with hlocked hslot
        · cases h
          exact .refuse hi hslot
        · cases h
          exact .reserve hi (Bool.eq_false_iff.mpr hlocked) (by simpa using hslot)
      · cases h
  | install i =>
      simp only [step] at h
      split at h
      · rename_i hi
        cases h
        exact .install hi
      · cases h
  | spawn i =>
      simp only [step] at h
      split at h
      · rename_i hi
        cases h
        exact .spawn hi
      · cases h
  | drop =>
      simp only [step] at h
      split at h
      · rename_i hd
        cases h
        refine .drop hd.1 (List.all_eq_true.mp hd.2) ?_
        cases s.slot with
        | none => rfl
        | some k => exact List.length_modify ..
      · cases h
  | closeEndpoint =>
      simp only [step] at h
      split at h
      · cases h
        exact .endpoint
      · cases h
  | incoming k =>
      have hk : ∀ t, s.loops[k]? = some t → s.loops ≠ [] := by
        intro t ht hnil
        rw [hnil] at ht
        cases ht
      simp only [step] at h
      split at h
      · rename_i ht
        split at h
        · cases h
          exact .incoming (hk _ ht)
        · cases h
      · rename_i ht
        split at h
        · cases h
          exact .incoming (hk _ ht)
        · cases h
      · cases h
  | loopReturns k =>
      simp only [step] at h
      split at h
      · split at h
        · cases h
        · cases h
          exact .loop (List.length_set ..)
      · split at h
        · cases h
        · cases h
          exact .loop (List.length_set ..)
      · cases h
  | loopCancelled k =>
      simp only [step] at h
      split at h
      · cases h
        exact .loop (List.length_set ..)
      · cases h
  | connection i a =>
      simp only [step] at h
      split at h
      · rename_i hc
        exact steps_of_connectionStep hc h
      · cases h

/-! ### One accept loop -/

/-- The mutex is held by at most one call; a loop has been spawned by each call that has won; until
the server is dropped the slot says so. -/
structure Serving (s : RpcServer H) : Prop where
  lock : s.serves.countP ServeCall.busy = s.locked.toNat
  loops : s.loops.length = s.serves.countP ServeCall.won
  single : s.serves.countP ServeCall.busy + s.serves.countP ServeCall.won ≤ 1
  slot : s.slot.isSome = true → s.loops ≠ []
  free : s.slot = none → s.dropped = false → s.loops = []
  back : s.dropped = true → ∀ c ∈ s.serves, c.back = true

theorem serving_new : Serving (new : RpcServer H) :=
  ⟨rfl, rfl, Nat.zero_le _, nofun, fun _ _ => rfl, nofun⟩

/-- A call that is in progress sees a server that has not been dropped. -/
theorem Serving.alive (hi : Serving s) {i : ℕ} {c : ServeCall} (hc : s.serves[i]? = some c)
    (hback : c.back = false) : s.dropped = false := by
  cases hd : s.dropped with
  | false => rfl
  | true =>
      have := hi.back hd c (List.mem_of_getElem? hc)
      rw [hback] at this
      cases this

theorem ne_nil_of_length {α : Type} {l l' : List α} (h : l.length = l'.length) (hne : l' ≠ []) :
    l ≠ [] := by
  rintro rfl
  exact hne (List.length_eq_zero_iff.mp h.symm)

theorem countP_serves {i : ℕ} {c : ServeCall} (hc : s.serves[i]? = some c) (c' : ServeCall)
    (q : ServeCall → Bool) : (s.serves.set i c').countP q + (q c).toNat =
      s.serves.countP q + (q c').toNat :=
  Permits.countP_set_add q hc c'

theorem Serving.step (hi : Serving s) (h : Steps s s') : Serving s' := by
  obtain ⟨hlock, hloops, hsingle, hslot, hfree, hback⟩ := id hi
  cases h with
  | register alpn handler => exact ⟨hlock, hloops, hsingle, hslot, hfree, hback⟩
  | serve hd =>
      have hbusy : (s.serves ++ [ServeCall.called]).countP ServeCall.busy =
          s.serves.countP ServeCall.busy := by simp [ServeCall.busy]
      have hwon : (s.serves ++ [ServeCall.called]).countP ServeCall.won =
          s.serves.countP ServeCall.won := by simp [ServeCall.won]
      refine ⟨hbusy.trans hlock, hloops.trans hwon.symm, ?_, hslot, hfree, ?_⟩
      · dsimp only
        omega
      · intro hdropped
        have : s.dropped = true := hdropped
        rw [hd] at this
        cases this
  | refuse hc hsome =>
      have hbusy := countP_serves hc (.returned (.error .alreadyServing)) ServeCall.busy
      have hwon := countP_serves hc (.returned (.error .alreadyServing)) ServeCall.won
      simp only [ServeCall.busy, ServeCall.won, Bool.toNat_false, Nat.add_zero] at hbusy hwon
      refine ⟨hbusy.trans hlock, hloops.trans hwon.symm, by dsimp only; omega, hslot, hfree, ?_⟩
      intro hd
      rw [hi.alive hc rfl] at hd
      cases hd
  | reserve hc hunlocked hnone =>
      have hbusy := countP_serves hc .reserved ServeCall.busy
      have hwon := countP_serves hc .reserved ServeCall.won
      simp only [ServeCall.busy, ServeCall.won, Bool.toNat_false, Bool.toNat_true,
        Nat.add_zero] at hbusy hwon
      rw [hunlocked, Bool.toNat_false] at hlock
      have hnil := hfree hnone (hi.alive hc rfl)
      rw [hnil, List.length_nil] at hloops
      refine ⟨?_, ?_, by dsimp only; omega, hslot, hfree, ?_⟩
      · dsimp only
        rw [hbusy, hlock]
        rfl
      · dsimp only
        rw [hnil, hwon, ← hloops]
        rfl
      · intro hd
        rw [hi.alive hc rfl] at hd
        cases hd
  | install hc =>
      have hbusy := countP_serves hc .installed ServeCall.busy
      have hwon := countP_serves hc .installed ServeCall.won
      simp only [ServeCall.busy, ServeCall.won, Bool.toNat_false, Bool.toNat_true,
        Nat.add_zero, Nat.add_right_cancel_iff] at hbusy hwon
      refine ⟨hbusy.trans hlock, hloops.trans hwon.symm, by dsimp only; omega, hslot, hfree, ?_⟩
      intro hd
      have : s.dropped = true := hd
      rw [hi.alive hc rfl] at this
      cases this
  | spawn hc =>
      have hbusy := countP_serves hc (.returned (.ok ())) ServeCall.busy
      have hwon := countP_serves hc (.returned (.ok ())) ServeCall.won
      simp only [ServeCall.busy, ServeCall.won, Bool.toNat_false, Bool.toNat_true,
        Nat.add_zero] at hbusy hwon
      refine ⟨?_, ?_, by dsimp only; omega, fun _ => by simp, nofun, ?_⟩
      · dsimp only
        simp only [Bool.toNat_false]
        omega
      · dsimp only
        rw [List.length_append, hwon, hloops]
        rfl
      · intro hd
        have : s.dropped = true := hd
        rw [hi.alive hc rfl] at this
        cases this
  | drop hd hall hlen =>
      refine ⟨hlock, hlen.trans hloops, hsingle, nofun, nofun, fun _ => hall⟩
  | endpoint => exact ⟨hlock, hloops, hsingle, hslot, hfree, hback⟩
  | loop hlen =>
      rename_i loops
      refine ⟨hlock, hlen.trans hloops, hsingle, fun hs => ne_nil_of_length hlen (hslot hs),
        fun hs hd => ?_, hback⟩
      have hnil : s.loops = [] := hfree hs hd
      rw [hnil] at hlen
      exact List.length_eq_zero_iff.mp hlen
  | incoming hne => exact ⟨hlock, hloops, hsingle, hslot, hfree, hback⟩
  | early hc hearly hnext => exact ⟨hlock, hloops, hsingle, hslot, hfree, hback⟩
  | lookup hc => exact ⟨hlock, hloops, hsingle, hslot, hfree, hback⟩
  | fetchId hc => exact ⟨hlock, hloops, hsingle, hslot, hfree, hback⟩
  | returns hc hruns => exact ⟨hlock, hloops, hsingle, hslot, hfree, hback⟩

/-! ### One wire-protocol handler -/

/-- Call `j` has put its handler into the table. -/
def placedAt (serves : List ServeCall) (j : ℕ) : Bool :=
  match serves[j]? with
  | some c => c.placed
  | none => false

theorem placedAt_set {serves : List ServeCall} {i : ℕ} {c : ServeCall} (hc : serves[i]? = some c)
    (c' : ServeCall) (j : ℕ) :
    placedAt (serves.set i c') j = if j = i then c'.placed else placedAt serves j := by
  have hlt : i < serves.length := (List.getElem?_eq_some_iff.mp hc).1
  unfold placedAt
  by_cases hj : j = i
  · subst hj
    simp [hlt]
  · rw [List.getElem?_set_ne (fun h => hj h.symm), if_neg hj]

theorem placedAt_append (serves : List ServeCall) (j : ℕ) :
    placedAt (serves ++ [.called]) j = placedAt serves j := by
  unfold placedAt
  by_cases hj : j < serves.length
  · rw [List.getElem?_append_left hj]
  · rw [List.getElem?_append_right (by omega), List.getElem?_eq_none (l := serves) (by omega)]
    cases j - serves.length <;> rfl

/-- A call that has placed its handler is in progress or has won. -/
theorem placed_le (serves : List ServeCall) : serves.countP ServeCall.placed ≤
    serves.countP ServeCall.busy + serves.countP ServeCall.won := by
  induction serves with
  | nil => simp
  | cons c serves ih =>
      have hc : c.placed.toNat ≤ c.busy.toNat + c.won.toNat := by
        rcases c with _ | _ | _ | (_ | _)
        all_goals simp [ServeCall.placed, ServeCall.busy, ServeCall.won]
      simp only [List.countP_cons]
      cases hp : c.placed <;> cases hb : c.busy <;> cases hw : c.won <;>
        simp only [hp, hb, hw, Bool.toNat_true, Bool.toNat_false] at hc ⊢ <;> simp <;> omega

theorem eq_of_countP_le_one {α : Type} {q : α → Bool} {l : List α} (h : l.countP q ≤ 1) {i j : ℕ}
    {x y : α} (hx : l[i]? = some x) (hy : l[j]? = some y) (hqx : q x = true) (hqy : q y = true) :
    i = j := by
  induction l generalizing i j with
  | nil => cases hx
  | cons z l ih =>
      rw [List.countP_cons] at h
      cases i with
      | zero =>
          cases j with
          | zero => rfl
          | succ j =>
              obtain rfl : z = x := by simpa using hx
              have hpos : 0 < l.countP q :=
                List.countP_pos_iff.mpr ⟨y, List.mem_of_getElem? (by simpa using hy), hqy⟩
              rw [if_pos hqx] at h
              omega
      | succ i =>
          have hmem : x ∈ l := List.mem_of_getElem? (by simpa using hx)
          have hpos : 0 < l.countP q := List.countP_pos_iff.mpr ⟨x, hmem, hqx⟩
          cases j with
          | zero =>
              obtain rfl : z = y := by simpa using hy
              rw [if_pos hqy] at h
              omega
          | succ j =>
              exact congrArg (· + 1) (ih (by omega) (by simpa using hx) (by simpa using hy))

/-- The wire-protocol handlers in the table are those of the calls that have come to it, and a call
that was refused met a loop. -/
structure Placed (s : RpcServer H) : Prop where
  count : ∀ j, s.trace.countP (AlpnEvent.placedBy j) = (placedAt s.serves j).toNat
  rpc : ∀ alpn j, AlpnEvent.put alpn (.wireDispatch j) ∈ s.trace → alpn = alpnNerwRpc
  refused : ∀ (j : ℕ) (e : RpcError), s.serves[j]? = some (.returned (.error e)) →
    e = .alreadyServing ∧ s.loops ≠ []

theorem placed_new : Placed (new : RpcServer H) where
  count _ := rfl
  rpc alpn j h := by cases h
  refused j e h := by cases h

theorem countP_append_event {q : AlpnEvent H → Bool} {e : AlpnEvent H} (h : q e = false)
    (trace : List (AlpnEvent H)) : (trace ++ [e]).countP q = trace.countP q := by
  simp [h]

theorem Placed.event (hp : Placed s) {e : AlpnEvent H} (hplaced : ∀ j, e.placedBy j = false) :
    (∀ j, (s.trace ++ [e]).countP (AlpnEvent.placedBy j) = (placedAt s.serves j).toNat) ∧
      ∀ alpn j, AlpnEvent.put alpn (.wireDispatch j) ∈ s.trace ++ [e] → alpn = alpnNerwRpc := by
  refine ⟨fun j => (countP_append_event (hplaced j) s.trace).trans (hp.count j), ?_⟩
  intro alpn j hmem
  obtain hmem | hmem := List.mem_append.mp hmem
  · exact hp.rpc alpn j hmem
  · obtain rfl := List.mem_singleton.mp hmem
    have := hplaced j
    simp [AlpnEvent.placedBy] at this

theorem Placed.call (hp : Placed s) {i : ℕ} {c : ServeCall} (hc : s.serves[i]? = some c)
    (c' : ServeCall) (loops : List LoopTask) (hsame : c'.placed = c.placed)
    (hloops : s.loops ≠ [] → loops ≠ [])
    (hnew : ∀ e : RpcError, c' = .returned (.error e) → e = .alreadyServing ∧ loops ≠ []) :
    (∀ j, s.trace.countP (AlpnEvent.placedBy j) = (placedAt (s.serves.set i c') j).toNat) ∧
      ∀ (j : ℕ) (e : RpcError), (s.serves.set i c')[j]? = some (.returned (.error e)) →
        e = .alreadyServing ∧ loops ≠ [] := by
  have hlt : i < s.serves.length := (List.getElem?_eq_some_iff.mp hc).1
  refine ⟨fun j => ?_, fun j e hj => ?_⟩
  · rw [placedAt_set hc, hp.count j]
    by_cases hj : j = i
    · subst hj
      rw [if_pos rfl, hsame, placedAt, hc]
    · rw [if_neg hj]
  · by_cases hji : j = i
    · subst hji
      rw [List.getElem?_set_self hlt] at hj
      exact hnew e (Option.some.inj hj)
    · rw [List.getElem?_set_ne (fun h => hji h.symm)] at hj
      obtain ⟨he, hne⟩ := hp.refused j e hj
      exact ⟨he, hloops hne⟩

theorem Placed.step (hi : Serving s) (hp : Placed s) (h : Steps s s') : Placed s' := by
  obtain ⟨hcount, hrpc, hrefused⟩ := id hp
  cases h with
  | register alpn handler =>
      obtain ⟨hcount', hrpc'⟩ := hp.event (e := .put alpn (.application handler)) fun _ => rfl
      exact ⟨hcount', hrpc', hrefused⟩
  | serve hd =>
      refine ⟨fun j => (hcount j).trans (by rw [placedAt_append]), hrpc, fun j e hj => ?_⟩
      obtain hlt | hge := Nat.lt_or_ge j s.serves.length
      · exact hrefused j e (by rwa [List.getElem?_append_left hlt] at hj)
      · rw [List.getElem?_append_right hge] at hj
        cases hk : j - s.serves.length with
        | zero => rw [hk] at hj; cases hj
        | succ k => rw [hk] at hj; cases hj
  | refuse hc hsome =>
      obtain ⟨hcount', hrefused'⟩ := hp.call hc (.returned (.error .alreadyServing)) s.loops rfl
        id fun e he => by
          cases he
          exact ⟨rfl, hi.slot hsome⟩
      exact ⟨hcount', hrpc, hrefused'⟩
  | reserve hc hunlocked hnone =>
      obtain ⟨hcount', hrefused'⟩ := hp.call hc .reserved s.loops rfl id fun e he => by cases he
      exact ⟨hcount', hrpc, hrefused'⟩
  | install hc =>
      rename_i i
      have hlt : i < s.serves.length := (List.getElem?_eq_some_iff.mp hc).1
      refine ⟨fun j => ?_, fun alpn j hmem => ?_, fun j e hj => ?_⟩
      · have hevent : (AlpnEvent.put alpnNerwRpc (.wireDispatch i) : AlpnEvent H).placedBy j =
            decide (i = j) := rfl
        simp only [insert, List.countP_append, List.countP_singleton, hcount j, hevent,
          placedAt_set hc]
        by_cases hj : j = i
        · subst hj
          simp [placedAt, hc, ServeCall.placed]
        · have hij : ¬ i = j := fun h => hj h.symm
          simp [hj, hij]
      · obtain hmem | hmem := List.mem_append.mp hmem
        · exact hrpc alpn j hmem
        · have := List.mem_singleton.mp hmem
          cases this
          rfl
      · by_cases hji : j = i
        · subst hji
          have : (s.serves.set j .installed)[j]? = some (.returned (.error e)) := hj
          rw [List.getElem?_set_self hlt] at this
          cases this
        · have : (s.serves.set i .installed)[j]? = some (.returned (.error e)) := hj
          rw [List.getElem?_set_ne (fun h => hji h.symm)] at this
          exact hrefused j e this
  | spawn hc =>
      obtain ⟨hcount', hrefused'⟩ := hp.call hc (.returned (.ok ()))
        (s.loops ++ [.running]) rfl (fun _ => by simp) fun e he => by cases he
      exact ⟨hcount', hrpc, hrefused'⟩
  | drop hd hall hlen =>
      refine ⟨hcount, hrpc, fun j e hj => ?_⟩
      obtain ⟨he, hne⟩ := hrefused j e hj
      exact ⟨he, ne_nil_of_length hlen hne⟩
  | endpoint => exact ⟨hcount, hrpc, hrefused⟩
  | loop hlen =>
      refine ⟨hcount, hrpc, fun j e hj => ?_⟩
      obtain ⟨he, hne⟩ := hrefused j e hj
      exact ⟨he, ne_nil_of_length hlen hne⟩
  | incoming hne => exact ⟨hcount, hrpc, hrefused⟩
  | early hc hearly hnext => exact ⟨hcount, hrpc, hrefused⟩
  | lookup hc =>
      obtain ⟨hcount', hrpc'⟩ := hp.event (e := .lookedUp _ _ _) fun _ => rfl
      exact ⟨hcount', hrpc', hrefused⟩
  | fetchId hc =>
      obtain ⟨hcount', hrpc'⟩ := hp.event (e := .gaveId _ _ _) fun _ => rfl
      exact ⟨hcount', hrpc', hrefused⟩
  | returns hc hruns => exact ⟨hcount, hrpc, hrefused⟩

theorem serving_of_run {as : List (RpcServerAct H)} (hrun : run step as new = some s) :
    Serving s ∧ Placed s := by
  have hboth : (fun s : RpcServer H => Serving s ∧ Placed s) s := by
    apply (runs_any_iff.mpr hrun).invariant
    · intro a s s' _ hi h
      exact ⟨hi.1.step (steps_of_step h), hi.2.step hi.1 (steps_of_step h)⟩
    · exact ⟨serving_new, placed_new⟩
  exact hboth

/-- A call that has won or is about to is the only one that has come to the table. -/
theorem Serving.placed_unique (hi : Serving s) {i j : ℕ} (hpi : placedAt s.serves i = true)
    (hpj : placedAt s.serves j = true) : i = j := by
  have hat : ∀ k, placedAt s.serves k = true →
      ∃ c, s.serves[k]? = some c ∧ c.placed = true := by
    intro k hk
    unfold placedAt at hk
    split at hk
    · exact ⟨_, by assumption, hk⟩
    · cases hk
  obtain ⟨c, hc, hqc⟩ := hat i hpi
  obtain ⟨d, hd, hqd⟩ := hat j hpj
  exact eq_of_countP_le_one ((placed_le s.serves).trans hi.single) hc hd hqc hqd

/-- **However many threads call `serve`, one accept loop is spawned and one wire-protocol handler
is installed**, whether or not the call has returned yet, and they are those of the call that
returns `Ok`; a call that is refused has met the loop, and has left the table alone. -/
theorem serve_once {as : List (RpcServerAct H)} (hrun : run step as new = some s) :
    s.loops.length ≤ 1 ∧
      (∀ j, s.trace.countP (AlpnEvent.placedBy j) ≤ 1) ∧
      (∀ i j, 0 < s.trace.countP (AlpnEvent.placedBy i) →
        0 < s.trace.countP (AlpnEvent.placedBy j) → i = j) ∧
      (∀ i, s.serves[i]? = some (.returned (.ok ())) → s.loops ≠ [] ∧
        ∀ j, s.trace.countP (AlpnEvent.placedBy j) = if j = i then 1 else 0) ∧
      ∀ i e, s.serves[i]? = some (.returned (.error e)) → e = .alreadyServing ∧ s.loops ≠ [] ∧
        s.trace.countP (AlpnEvent.placedBy i) = 0 := by
  obtain ⟨hi, hp⟩ := serving_of_run hrun
  refine ⟨?_, fun j => ?_, fun i j hpi hpj => ?_, fun i hw => ⟨?_, fun j => ?_⟩, fun i e hr => ?_⟩
  · have hsingle := hi.single
    rw [hi.loops]
    omega
  · rw [hp.count j]
    exact Bool.toNat_le _
  · have hpos : ∀ b : Bool, 0 < b.toNat → b = true := by decide
    rw [hp.count] at hpi hpj
    exact hi.placed_unique (hpos _ hpi) (hpos _ hpj)
  · have hpos : 0 < s.serves.countP ServeCall.won :=
      List.countP_pos_iff.mpr ⟨_, List.mem_of_getElem? hw, rfl⟩
    rw [← hi.loops] at hpos
    exact List.length_pos_iff.mp hpos
  · have hplaced : placedAt s.serves i = true := by
      simp [placedAt, hw, ServeCall.placed]
    rw [hp.count j]
    by_cases hj : j = i
    · rw [if_pos hj, hj, hplaced]
      rfl
    · rw [if_neg hj]
      cases hpj : placedAt s.serves j with
      | false => rfl
      | true => exact absurd (hi.placed_unique hpj hplaced) hj
  · obtain ⟨he, hne⟩ := hp.refused i e hr
    refine ⟨he, hne, ?_⟩
    rw [hp.count i]
    simp [placedAt, hr, ServeCall.placed]

/-- Two threads call `serve`; a registration goes on between the check and the insertion. -/
def twoServes : List (RpcServerAct String) :=
  [.serve, .serve, .lock 1, .registerAlpnHandler alpnNerwRpc "app", .install 1, .spawn 1, .lock 0]

theorem serve_once_twoServes :
    ∃ s : RpcServer String, run step twoServes new = some s ∧ s.loops.length ≤ 1 ∧
      s.serves = [.returned (.error .alreadyServing), .returned (.ok ())] := by
  obtain ⟨s, hs⟩ : ∃ s : RpcServer String, run step twoServes new = some s :=
    Option.isSome_iff_exists.mp (by decide)
  have hserves : (run step twoServes (new : RpcServer String)).map RpcServer.serves =
      some [.returned (.error .alreadyServing), .returned (.ok ())] := by decide
  rw [hs] at hserves
  exact ⟨s, hs, (serve_once hs).1, Option.some.inj hserves⟩

end RpcServer

end NerwRpc
