import NerwRpc.CallWindsDown
import NerwRpc.Permits

/-! # Any number of calls at once

The streaming calls of one server, each with its substream, its handler and a caller that reads
while it writes, interleaved in any order.  A call that has arrived waits for one of the stream
permits of the server; its substream task gives the permit back when it has returned.

* `PooledCall.Kept`: each call is where it could be alone.
* `calls_complete`: so each caller reads what its own handler sends, and every schedule comes to the
  end of all calls as long as there is a permit at all. -/

namespace NerwRpc

open Permits Transition

/-- How far a substream task is with its permit. -/
inductive StreamPermit where
  | awaited
  | held
  | returned
deriving DecidableEq, Repr

/-- A call of a handler: its chunks, what each direction of its substream holds, its permit, and
where it stands. -/
structure PooledCall where
  handler : RequestHandler
  requests : List Bytes
  up : ℕ
  down : ℕ
  permit : StreamPermit
  call : ServedCall

inductive PooledAct where
  | acquire
  | act (a : ServedAct)
  | release
deriving DecidableEq, Repr

inductive CallsAct where
  | arrive (h : RequestHandler) (requests : List Bytes) (up down : ℕ)
  | call (i : ℕ) (a : PooledAct)

namespace PooledCall

def arrive (h : RequestHandler) (requests : List Bytes) (up down : ℕ) : PooledCall :=
  ⟨h, requests, up, down, .awaited, .start requests⟩

def holds (t : PooledCall) : Bool := decide (t.permit = .held)

variable [Deps]

/-- One action of a call.  Nothing of it happens without a permit, and the permit is dropped behind
the substream task. -/
def move : PooledAct → PooledCall → Option (PooledCall × Effect)
  | .acquire, t => match t.permit with
    | .awaited => some ({ t with permit := .held }, .acquire)
    | _ => none
  | .act a, t => match t.permit with
    | .awaited => none
    | _ => (t.call.step t.up t.down t.handler a).map fun call => ({ t with call := call }, .keep)
  | .release, t => match t.permit with
    | .held =>
        if t.call.call.resp.task = .done then some ({ t with permit := .returned }, .release)
        else none
    | _ => none

variable {t t' : PooledCall} {e : Effect}

theorem move_acquire_iff : t.move .acquire = some (t', e) ↔
    t.permit = .awaited ∧ t' = { t with permit := .held } ∧ e = .acquire := by
  cases hp : t.permit <;> simp [move, hp, eq_comm]

theorem move_act_iff {a : ServedAct} : t.move (.act a) = some (t', e) ↔
    t.permit ≠ .awaited ∧ e = .keep ∧
      ∃ call, t.call.step t.up t.down t.handler a = some call ∧ t' = { t with call := call } := by
  cases hp : t.permit with
  | awaited => simp [move, hp]
  | held =>
      simp only [move, hp, Option.map_eq_some_iff, Prod.mk.injEq]
      constructor
      · rintro ⟨call, hs, rfl, rfl⟩
        exact ⟨by rintro ⟨⟩, rfl, call, hs, rfl⟩
      · rintro ⟨-, rfl, call, hs, rfl⟩
        exact ⟨call, hs, rfl, rfl⟩
  | returned =>
      simp only [move, hp, Option.map_eq_some_iff, Prod.mk.injEq]
      constructor
      · rintro ⟨call, hs, rfl, rfl⟩
        exact ⟨by rintro ⟨⟩, rfl, call, hs, rfl⟩
      · rintro ⟨-, rfl, call, hs, rfl⟩
        exact ⟨call, hs, rfl, rfl⟩

theorem move_release_iff : t.move .release = some (t', e) ↔
    t.permit = .held ∧ t.call.call.resp.task = .done ∧ t' = { t with permit := .returned } ∧
      e = .release := by
  cases hp : t.permit <;> simp [move, hp, eq_comm]

theorem move_balanced (a : PooledAct) (t t' : PooledCall) (e : Effect)
    (h : t.move a = some (t', e)) : Balanced holds t t' e := by
  cases a with
  | acquire =>
      obtain ⟨hp, rfl, rfl⟩ := move_acquire_iff.mp h
      exact ⟨by rw [holds, hp]; rfl, rfl⟩
  | act a =>
      obtain ⟨-, rfl, call, -, rfl⟩ := move_act_iff.mp h
      exact rfl
  | release =>
      obtain ⟨hp, -, rfl, rfl⟩ := move_release_iff.mp h
      exact ⟨by rw [holds, hp]; rfl, rfl⟩

/-! ### One call among others -/

/-- The call is where it could be if it were alone. -/
structure Kept (t : PooledCall) : Prop where
  up_pos : 0 < t.up
  down_pos : 0 < t.down
  fits : ResponseFlow.Fits (t.handler.behaviour t.requests)
  inv : t.call.Inv
  drops : t.call.DropsFirst
  determined : ServedCall.Determined t.handler t.requests t.call

/-- The call is over, and its permit is back. -/
def Finished (t : PooledCall) : Prop := t.call.Over ∧ t.permit = .returned

theorem kept_arrive (hc : streamingErrorCodec.RoundTrips) {h : RequestHandler}
    {requests : List Bytes} {up down : ℕ} (hup : 0 < up) (hdown : 0 < down)
    (hsizes : ∀ chunk ∈ requests, chunk.length ≤ usizeMax)
    (hfits : ResponseFlow.Fits (h.behaviour requests)) :
    (arrive h requests up down).Kept where
  up_pos := hup
  down_pos := hdown
  fits := hfits
  inv := ServedCall.inv_start hsizes
  drops := by rintro ⟨⟩
  determined := ServedCall.determined_start hc h requests

theorem Kept.move (hc : streamingErrorCodec.RoundTrips) (hk : t.Kept) {a : PooledAct}
    (h : t.move a = some (t', e)) : t'.Kept := by
  cases a with
  | acquire =>
      obtain ⟨-, rfl, -⟩ := move_acquire_iff.mp h
      exact ⟨hk.up_pos, hk.down_pos, hk.fits, hk.inv, hk.drops, hk.determined⟩
  | act a =>
      obtain ⟨-, -, call, hs, rfl⟩ := move_act_iff.mp h
      have hmoved := ServedCall.moved_of_step hs
      exact ⟨hk.up_pos, hk.down_pos, hk.fits, hk.inv.step hs,
        hk.drops.step hk.inv.req.base hmoved, (hk.determined.step hc hk.fits hmoved).1⟩
  | release =>
      obtain ⟨-, -, rfl, -⟩ := move_release_iff.mp h
      exact ⟨hk.up_pos, hk.down_pos, hk.fits, hk.inv, hk.drops, hk.determined⟩

/-- What a call has still to do. -/
def work (t : PooledCall) : ℕ :=
  (match t.permit with
    | .awaited => 2
    | .held => 1
    | .returned => 0) + ServedCall.weight t.handler t.requests t.call

theorem Kept.work_move (hc : streamingErrorCodec.RoundTrips) (hk : t.Kept) {a : PooledAct}
    (h : t.move a = some (t', e)) : t'.work + 1 ≤ t.work := by
  unfold work
  cases a with
  | acquire =>
      obtain ⟨hp, rfl, -⟩ := move_acquire_iff.mp h
      simp only [hp]
      omega
  | act a =>
      obtain ⟨-, -, call, hs, rfl⟩ := move_act_iff.mp h
      have hfollows := (hk.determined.step hc hk.fits (ServedCall.moved_of_step hs)).2
      have hlt := hfollows.weight_lt hc hk.fits hk.determined
      dsimp only
      omega
  | release =>
      obtain ⟨hp, -, rfl, -⟩ := move_release_iff.mp h
      simp only [hp]
      omega

theorem Kept.exists_act (hk : t.Kept) (hpermit : t.permit ≠ .awaited) (hopen : ¬ t.call.Over) :
    ∃ a t', t.move a = some (t', .keep) := by
  by_contra hnone
  have hstuck : ∀ a, t.call.step t.up t.down t.handler a = none := by
    intro a
    cases hs : t.call.step t.up t.down t.handler a with
    | none => rfl
    | some call => exact absurd ⟨.act a, _, move_act_iff.mpr ⟨hpermit, rfl, call, hs, rfl⟩⟩ hnone
  exact hopen (ServedCall.over_of_stuck hk.up_pos hk.down_pos hk.inv hk.drops hstuck)

theorem Kept.exists_held (hk : t.Kept) (hheld : t.permit = .held) :
    ∃ a t' e, t.move a = some (t', e) ∧ e ≠ .acquire := by
  by_cases hover : t.call.Over
  · exact ⟨.release, _, .release, move_release_iff.mpr ⟨hheld, hover.1.task, rfl, rfl⟩,
      by rintro ⟨⟩⟩
  · obtain ⟨a, t', h⟩ := hk.exists_act (by rw [hheld]; rintro ⟨⟩) hover
    exact ⟨a, t', .keep, h, by rintro ⟨⟩⟩

/-- One that has not finished waits for a permit or goes on. -/
theorem Kept.exists_open (hk : t.Kept) (hopen : ¬ t.Finished) :
    ∃ a t' e, t.move a = some (t', e) := by
  cases hp : t.permit with
  | awaited => exact ⟨.acquire, _, _, move_acquire_iff.mpr ⟨hp, rfl, rfl⟩⟩
  | held =>
      obtain ⟨a, t', e, h, -⟩ := hk.exists_held hp
      exact ⟨a, t', e, h⟩
  | returned =>
      obtain ⟨a, t', h⟩ := hk.exists_act (by rw [hp]; rintro ⟨⟩) fun ho => hopen ⟨ho, hp⟩
      exact ⟨a, t', .keep, h⟩

theorem Kept.stuck (hk : t.Kept) (hf : t.Finished) (a : PooledAct) : t.move a = none := by
  obtain ⟨hover, hp⟩ := hf
  cases a with
  | acquire => simp [PooledCall.move, hp]
  | act a => simp [PooledCall.move, hp, hover.stuck hk.inv a]
  | release => simp [PooledCall.move, hp]

end PooledCall

/-! ### All of them -/

namespace ConcurrentCalls

section steps

variable [Deps]

def step : CallsAct → Pool PooledCall → Option (Pool PooledCall)
  | .arrive h requests up down, p => some (p.spawn (.arrive h requests up down))
  | .call i a, p => p.move (PooledCall.move a) i

/-- A call that arrives has room in both directions of its substream, and a handler whose items fit
their frames. -/
def Admitted : CallsAct → Pool PooledCall → Prop
  | .arrive h requests up down, _ => 0 < up ∧ 0 < down ∧
      (∀ chunk ∈ requests, chunk.length ≤ usizeMax) ∧ ResponseFlow.Fits (h.behaviour requests)
  | .call _ _, _ => True

/-- No call arrives. -/
def Settling : CallsAct → Pool PooledCall → Prop
  | .arrive _ _ _ _, _ => False
  | .call _ _, _ => True

/-- The permits add up, and every call is where it could be alone. -/
structure Inv (cap : ℕ) (p : Pool PooledCall) : Prop where
  conserved : p.Conserved PooledCall.holds
  cap : p.sem.cap = cap
  kept : ∀ t ∈ p.tasks, t.Kept

variable {cap : ℕ} {p p' : Pool PooledCall}

theorem inv_start (cap : ℕ) : Inv cap (Pool.start cap) := by
  refine ⟨Pool.conserved_start cap, rfl, ?_⟩
  intro t ht
  cases ht

theorem Inv.step (hc : streamingErrorCodec.RoundTrips) (hi : Inv cap p) {a : CallsAct}
    (hok : Admitted a p) (hs : ConcurrentCalls.step a p = some p') : Inv cap p' := by
  cases a with
  | arrive h requests up down =>
      obtain ⟨hup, hdown, hsizes, hfits⟩ := hok
      obtain rfl := Option.some.inj hs
      refine ⟨hi.conserved.spawn (by rfl), hi.cap, ?_⟩
      apply Pool.forall_tasks_spawn
      · exact PooledCall.kept_arrive hc hup hdown hsizes hfits
      · exact hi.kept
  | call i a =>
      obtain ⟨hconserved, hcap⟩ := hi.conserved.move (PooledCall.move_balanced a) hs
      exact ⟨hconserved, hcap.trans hi.cap, Pool.forall_tasks_move (P := PooledCall.Kept) hs
        (fun t t' e hk h => hk.move hc h) hi.kept⟩

theorem Inv.work_lt (hc : streamingErrorCodec.RoundTrips) (hi : Inv cap p) {a : CallsAct}
    (hok : Settling a p) (hs : ConcurrentCalls.step a p = some p') :
    p'.work PooledCall.work < p.work PooledCall.work := by
  cases a with
  | arrive h requests up down => exact hok.elim
  | call i a =>
      have hle : p'.work PooledCall.work + 1 ≤ p.work PooledCall.work + 0 :=
        Pool.work_move hs fun t t' e ht h => (hi.kept t ht).work_move hc h
      omega

theorem Inv.stuck_iff (hcap : 0 < cap) (hi : Inv cap p) :
    (∀ i a, ConcurrentCalls.step (.call i a) p = none) ↔ ∀ t ∈ p.tasks, t.Finished := by
  classical
  constructor
  · intro hstuck
    have hholds : ∀ t ∈ p.tasks, t.holds = true →
        ∃ a t' e, t.move a = some (t', e) ∧ e ≠ .acquire ∧ true = true := by
      intro t ht hheld
      obtain ⟨a, t', e, h, hne⟩ := (hi.kept t ht).exists_held (of_decide_eq_true hheld)
      exact ⟨a, t', e, h, hne, rfl⟩
    have hwaits : ∀ t ∈ p.tasks, t.holds = false → decide t.Finished = false →
        ∃ a t' e, t.move a = some (t', e) ∧ true = true := by
      intro t ht _ hopen
      obtain ⟨a, t', e, h⟩ := (hi.kept t ht).exists_open (of_decide_eq_false hopen)
      exact ⟨a, t', e, h, rfl⟩
    have hpos : 0 < p.sem.cap := by
      rw [hi.cap]
      exact hcap
    obtain hall | ⟨i, a, p', hs, -⟩ := hi.conserved.progress PooledCall.move
      (fun t => decide t.Finished) (fun _ => true) hpos hholds hwaits
    · intro t ht
      exact of_decide_eq_true (hall t ht)
    · have hnone : p.move (PooledCall.move a) i = none := hstuck i a
      rw [hnone] at hs
      cases hs
  · intro hall i a
    cases hs : ConcurrentCalls.step (.call i a) p with
    | none => rfl
    | some p' =>
        obtain ⟨t, t', e, sem, ht, h, -⟩ := Pool.move_eq_some_iff.mp hs
        have hmem := List.mem_of_getElem? ht
        rw [(hi.kept t hmem).stuck (hall t hmem) a] at h
        cases h

/-- **Any number of calls complete.**  Whatever the number of calls, their handlers, what their
substreams hold and the order of their steps: each caller reads the front of what its own handler
makes of its own requests, and all of it once it has seen the end; no more calls hold a permit than
there are; and with no further arrivals every schedule comes, after no more steps than there is
work, to where every call is over and every permit is back. -/
theorem calls_complete (hc : streamingErrorCodec.RoundTrips) (hcap : 0 < cap)
    {as : List CallsAct} (hrun : Runs step Admitted as (Pool.start cap) p) :
    (∀ t ∈ p.tasks,
      t.call.call.resp.leg.got <+: ResponseFlow.responses (t.handler.behaviour t.requests) ∧
      (t.call.call.resp.leg.ended = true →
        t.call.call.resp.leg.got = ResponseFlow.responses (t.handler.behaviour t.requests))) ∧
    p.held PooledCall.holds ≤ cap ∧
    ∀ bs p', Runs step Settling bs p p' →
      bs.length + p'.work PooledCall.work ≤ p.work PooledCall.work ∧
      ((∀ i a, step (.call i a) p' = none) ↔ ∀ t ∈ p'.tasks, t.Finished) ∧
      ((∀ i a, step (.call i a) p' = none) → p'.sem.available = cap) := by
  have hi : Inv cap p :=
    hrun.invariant (fun _ _ _ hok hi hs => Inv.step hc hi hok hs) (inv_start cap)
  have hsettling : ∀ a p p', Settling a p → Inv cap p → step a p = some p' → Inv cap p' := by
    intro a p p' hok hi hs
    cases a with
    | arrive h requests up down => exact hok.elim
    | call i a => exact hi.step hc (show Admitted (.call i a) p from trivial) hs
  refine ⟨fun t ht => ?_, ?_, fun bs p' hrun' => ?_⟩
  · exact (hi.kept t ht).determined.responses (hi.kept t ht).fits
  · have hle := hi.conserved.held_le_cap
    rwa [hi.cap] at hle
  · have hi' : Inv cap p' := hrun'.invariant hsettling hi
    refine ⟨hrun'.length_add_le hsettling (fun a p p' hok hi hs => Inv.work_lt hc hi hok hs) hi,
      hi'.stuck_iff hcap, fun hstuck => ?_⟩
    have hall := (hi'.stuck_iff hcap).mp hstuck
    rw [← hi'.cap]
    apply hi'.conserved.available_of_idle
    intro t ht
    unfold PooledCall.holds
    rw [(hall t ht).2]
    rfl

end steps

section reference

attribute [local instance] reference

/-- Two calls of the echo method, of which the second has the permit. -/
def twoCalls : List CallsAct :=
  [.arrive ServedCall.echoHandler [[1]] 3 3, .arrive ServedCall.echoHandler [[1]] 3 3,
    .call 1 .acquire]

theorem calls_complete_echo :
    ∃ p, Runs step Admitted twoCalls (Pool.start 1) p ∧ p.held PooledCall.holds ≤ 1 ∧
      ∀ bs p', Runs step Settling bs p p' → bs.length + p'.work PooledCall.work ≤
        p.work PooledCall.work := by
  have hadmitted : ∀ p, Admitted (.arrive ServedCall.echoHandler [[1]] 3 3) p := fun _ =>
    ⟨by decide, by decide, by decide, ServedCall.fits_echo⟩
  have hrun : Runs step Admitted twoCalls (Pool.start 1)
      ⟨⟨1, 0⟩, [.arrive ServedCall.echoHandler [[1]] 3 3,
        { PooledCall.arrive ServedCall.echoHandler [[1]] 3 3 with permit := .held }]⟩ := by
    apply Runs.cons (hadmitted _) rfl
    apply Runs.cons (hadmitted _) rfl
    exact Runs.cons trivial rfl (Runs.nil _)
  obtain ⟨-, hheld, hends⟩ :=
    calls_complete (ofCodec_roundTrips StreamingError.postcard) (by decide) hrun
  exact ⟨_, hrun, hheld, fun bs p' hrun' => (hends bs p' hrun').1⟩

end reference

end ConcurrentCalls

end NerwRpc
