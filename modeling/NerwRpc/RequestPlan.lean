import NerwRpc.RequestFlow

/-! # The requests that are still to be written

A caller that will send some more chunks and then drop its sender fixes the bytes that the outbound
pump has still to write.

* `Planned.outlook_step`: with these bytes ahead, what the handler has read, what is queued for it
  and what its pump will make of the rest is conserved until a task is aborted or the handler drops
  its stream.
* `Planned.weight_step`: every step of a task decreases a measure, the aborts of a task that runs
  included. -/

namespace NerwRpc

open ByteStream FramePump Transition

/-- The frames of the requests, and the end frame. -/
def requestBytes (requests : List Bytes) : Bytes :=
  chunkFrames requests ++ [opcodeStreamingRequestEnd]

theorem requestBytes_cons (c : Bytes) (requests : List Bytes) :
    requestBytes (c :: requests) = chunkFrame c ++ requestBytes requests := by
  rw [requestBytes, chunkFrames_cons, List.append_assoc, requestBytes]

namespace RequestFlow

/-- The bytes the outbound pump has still to write, if the caller sends `todo` and then drops its
sender. -/
def toWrite (todo : List Bytes) (s : RequestFlow) : Bytes :=
  match s.out with
  | .recv => requestBytes (s.queue ++ todo)
  | .writing _ left => left ++ requestBytes (s.queue ++ todo)
  | .ending => [opcodeStreamingRequestEnd]
  | .done => []

/-- Behind a dropped sender nothing is to come. -/
structure Planned [Deps] (todo : List Bytes) (s : RequestFlow) : Prop where
  base : Base s
  dropped : s.senderDropped = true → todo = []
  ending : s.out = .ending → s.senderDropped = true ∧ s.queue = []

/-- What a state of the outbound pump costs. -/
def outWeight : OutboundPump → ℕ
  | .recv | .writing _ _ => 3
  | .ending => 2
  | .done => 0

/-- Bytes cost more before they are written. -/
def weight (todo : List Bytes) (s : RequestFlow) : ℕ :=
  6 * (toWrite todo s).length + s.leg.weight + outWeight s.out + 2 * s.queue.length +
    (!s.senderDropped).toNat

/-- An abort takes down a task that has not returned. -/
def Fresh (s : RequestFlow) : RequestAct → Prop
  | .abort => s.out ≠ .done
  | .leg .abort => s.leg.pump ≠ .done
  | _ => True

theorem outWeight_pos {out : OutboundPump} (h : out ≠ .done) : 0 < outWeight out := by
  cases out with
  | done => exact absurd rfl h
  | _ => simp [outWeight]

variable {todo : List Bytes} {s s' : RequestFlow}

theorem toWrite_done (h : s.out = .done) : toWrite todo s = [] := by
  unfold toWrite
  rw [h]

theorem toWrite_send (h : s.out ≠ .ending) (c : Bytes) :
    toWrite todo { s with sent := s.sent ++ [c], queue := s.queue ++ [c] } =
      toWrite (c :: todo) s := by
  unfold toWrite
  cases ho : s.out with
  | recv => simp
  | writing d left => simp
  | ending => exact absurd ho h
  | done => simp

theorem weight_nil_le (todo : List Bytes) (s : RequestFlow) : weight [] s ≤ weight todo s := by
  have hle : ∀ queue,
      (requestBytes (queue ++ [])).length ≤ (requestBytes (queue ++ todo)).length := by
    intro queue
    unfold requestBytes
    simp only [chunkFrames_append, List.length_append]
    simp [chunkFrames_nil]
  have hwrite : (toWrite [] s).length ≤ (toWrite todo s).length := by
    unfold toWrite
    cases s.out with
    | recv => exact hle s.queue
    | writing c left =>
        simp only [List.length_append]
        exact Nat.add_le_add_left (hle s.queue) _
    | ending => exact le_refl _
    | done => exact le_refl _
  unfold weight
  omega

theorem weight_stop (todo : List Bytes) (h : s.out ≠ .done) :
    weight todo s.stop < weight todo s := by
  have hpos := outWeight_pos h
  have hout : s.stop.out = .done := rfl
  have hnil : toWrite todo s.stop = [] := toWrite_done hout
  have hleg : s.stop.leg.weight = s.leg.weight := Leg.weight_close s.leg
  have hqueue : s.stop.queue = [] := rfl
  have hsender : s.stop.senderDropped = s.senderDropped := rfl
  have hdone : outWeight .done = 0 := rfl
  simp only [weight, hout, hnil, hleg, hqueue, hsender, hdone, List.length_nil]
  omega

section steps

variable [Deps] {window : ℕ}

theorem planned_start (todo : List Bytes) : Planned todo start := ⟨base_start, nofun, nofun⟩

theorem Planned.step (h : Planned todo s) {a : RequestAct}
    (hs : RequestFlow.step window a s = some s') (hsend : ∀ c, a ≠ .callerSend c)
    (hdrop : a ≠ .callerDrop) : Planned todo s' := by
  have hb := h.base.step hs
  cases a with
  | callerSend c => exact absurd rfl (hsend c)
  | callerDrop => exact absurd rfl hdrop
  | recv =>
      obtain ⟨-, ⟨c, queue, -, rfl⟩ | ⟨hqueue, hdropped, rfl⟩⟩ :=
        step_recv_cases (fun c hc => h.base.sizes c (h.base.queue c hc)) hs
      · exact ⟨hb, h.dropped, nofun⟩
      · exact ⟨hb, h.dropped, fun _ => ⟨hdropped, hqueue⟩⟩
  | write n =>
      obtain ⟨c, left, -, -, rfl⟩ | ⟨c, left, -, rfl⟩ | ⟨-, rfl⟩ := step_write_cases hs
      · exact ⟨hb, h.dropped, nofun⟩
      · exact ⟨hb, h.dropped, nofun⟩
      · exact ⟨hb, h.dropped, nofun⟩
  | writeFails =>
      obtain ⟨-, rfl⟩ := step_writeFails_cases hs
      exact ⟨hb, h.dropped, nofun⟩
  | abort =>
      obtain rfl := step_abort_iff.mp hs
      exact ⟨hb, h.dropped, nofun⟩
  | leg b =>
      obtain ⟨l, -, rfl⟩ := step_leg_iff.mp hs
      exact ⟨hb, h.dropped, h.ending⟩

theorem Planned.send {c : Bytes} (h : Planned (c :: todo) s)
    (hs : RequestFlow.step window (.callerSend c) s = some s') : Planned todo s' ∧
      s'.leg = s.leg ∧ toWrite todo s' = toWrite (c :: todo) s ∧
      weight todo s' = weight (c :: todo) s + 2 := by
  have hb := h.base.step hs
  obtain ⟨hopen, -, -, -, rfl⟩ := step_callerSend_iff.mp hs
  have hne : s.out ≠ .ending := by
    intro ho
    rw [(h.ending ho).1] at hopen
    cases hopen
  have hdropped : s.senderDropped = true → todo = [] := by
    intro hd
    rw [hopen] at hd
    cases hd
  refine ⟨⟨hb, hdropped, fun ho => absurd ho hne⟩, rfl, toWrite_send hne c, ?_⟩
  simp only [weight, toWrite_send hne c, List.length_append, List.length_singleton]
  omega

theorem Planned.drop (h : Planned [] s) (hs : RequestFlow.step window .callerDrop s = some s') :
    Planned [] s' ∧ s'.leg = s.leg ∧ toWrite [] s' = toWrite [] s ∧
      weight [] s' < weight [] s := by
  have hb := h.base.step hs
  obtain ⟨hopen, rfl⟩ := step_callerDrop_iff.mp hs
  have hsame : toWrite [] { s with senderDropped := true } = toWrite [] s := rfl
  refine ⟨⟨hb, fun _ => rfl, fun ho => ⟨rfl, (h.ending ho).2⟩⟩, rfl, hsame, ?_⟩
  simp only [weight, hsame, hopen, Bool.not_true, Bool.not_false, Bool.toNat_true,
    Bool.toNat_false]
  omega

/-- Taking a chunk, or the end of the chunks, off the channel leaves the bytes to write as they
are. -/
theorem Planned.toWrite_recv (h : Planned todo s)
    (hs : RequestFlow.step window .recv s = some s') : s'.leg = s.leg ∧
      toWrite todo s' = toWrite todo s ∧ weight todo s' < weight todo s := by
  obtain ⟨ho, ⟨c, queue, hqueue, rfl⟩ | ⟨hqueue, hdropped, rfl⟩⟩ :=
    step_recv_cases (fun c hc => h.base.sizes c (h.base.queue c hc)) hs
  · have hsame : toWrite todo { s with queue := queue, out := .writing c (chunkFrame c) } =
        toWrite todo s := by
      simp only [toWrite, ho, hqueue, List.cons_append, requestBytes_cons]
    refine ⟨rfl, hsame, ?_⟩
    simp only [weight, hsame, ho, hqueue, outWeight, List.length_cons]
    omega
  · obtain rfl := h.dropped hdropped
    have hsame : toWrite [] { s with out := .ending } = toWrite [] s := by
      simp [toWrite, ho, hqueue, requestBytes]
    refine ⟨rfl, hsame, ?_⟩
    simp only [weight, hsame, ho, outWeight]
    omega

theorem step_write_le {n : ℕ} (h : RequestFlow.step window (.write n) s = some s') :
    0 < n ∧ ∀ c left, s.out = .writing c left → n ≤ left.length := by
  cases ho : s.out with
  | writing c left =>
      simp only [RequestFlow.step, write, ho] at h
      split at h
      · rename_i hn
        refine ⟨hn.1, ?_⟩
        rintro d bs ⟨⟩
        exact hn.2.1
      · cases h
  | ending =>
      simp only [RequestFlow.step, write, ho] at h
      split at h
      · rename_i hn
        refine ⟨by omega, ?_⟩
        rintro d bs ⟨⟩
      · cases h
  | recv => simp [RequestFlow.step, write, ho] at h
  | done => simp [RequestFlow.step, write, ho] at h

theorem toWrite_write (todo : List Bytes) {n : ℕ}
    (hs : RequestFlow.step window (.write n) s = some s') :
    ∃ bs, toWrite todo s = bs ++ toWrite todo s' ∧
      (s'.leg = s.leg.push bs ∨ s'.leg = (s.leg.push bs).close) ∧
      weight todo s' < weight todo s := by
  obtain ⟨hpos, hle⟩ := step_write_le hs
  obtain ⟨c, left, ho, -, rfl⟩ | ⟨c, left, ho, rfl⟩ | ⟨ho, rfl⟩ := step_write_cases hs
  · have hbytes : toWrite todo s = left.take n ++
        (left.drop n ++ requestBytes (s.queue ++ todo)) := by
      rw [← List.append_assoc, List.take_append_drop]
      simp only [toWrite, ho]
    refine ⟨left.take n, hbytes, .inl rfl, ?_⟩
    have hn := hle c left ho
    simp only [weight, Leg.weight_push, ho, outWeight, toWrite, List.length_append,
      List.length_take, List.length_drop]
    omega
  · have hbytes : toWrite todo s = left ++ requestBytes (s.queue ++ todo) := by
      simp only [toWrite, ho]
    refine ⟨left, hbytes, .inl rfl, ?_⟩
    have hn := hle c left ho
    simp only [weight, Leg.weight_push, ho, outWeight, toWrite, List.length_append]
    omega
  · have hbytes : toWrite todo s = [opcodeStreamingRequestEnd] ++ [] := by
      simp only [toWrite, ho, List.append_nil]
    refine ⟨_, hbytes, .inr rfl, ?_⟩
    have hwritten : toWrite todo s.finished = [] := toWrite_done rfl
    have hleg : s.finished.leg.weight = s.leg.weight + 5 := by
      have := Leg.weight_push s.leg [opcodeStreamingRequestEnd]
      simpa [finished, RequestFlow.stop] using this
    have hrest : s.finished.out = .done ∧ s.finished.queue = [] ∧
        s.finished.senderDropped = s.senderDropped := ⟨rfl, rfl, rfl⟩
    simp only [weight, hbytes, hwritten, hleg, hrest, ho, outWeight, List.length_append,
      List.length_singleton, List.length_nil]
    omega

/-- Only chunks and their order matter to the handler: the outlook for all that is to be written
is conserved, unless a task is aborted or the handler drops its stream. -/
theorem Planned.outlook_step (h : Planned todo s) {a : RequestAct}
    (hs : RequestFlow.step window a s = some s') (hsend : ∀ c, a ≠ .callerSend c)
    (hdrop : a ≠ .callerDrop) (habort : a ≠ .abort) (hleg : ∀ b, a = .leg b → ¬ Leg.Loses b)
    (hd : s.leg.dropped = false) :
    s'.leg.outlook pumpInboundRequests (toWrite todo s') =
      s.leg.outlook pumpInboundRequests (toWrite todo s) := by
  cases a with
  | callerSend c => exact absurd rfl (hsend c)
  | callerDrop => exact absurd rfl hdrop
  | recv =>
      obtain ⟨hl, hsame, -⟩ := h.toWrite_recv hs
      rw [hl, hsame]
  | write n =>
      obtain ⟨bs, hbytes, hl | hl, -⟩ := toWrite_write todo hs
      · rw [hl, hbytes, Leg.outlook_push]
      · rw [hl, hbytes, Leg.outlook_close, Leg.outlook_push]
  | writeFails =>
      obtain ⟨hp, rfl⟩ := step_writeFails_cases hs
      have hp' : s.stop.leg.pump = .done := hp
      rw [Leg.outlook_done hp, Leg.outlook_done hp']
      rfl
  | abort => exact absurd rfl habort
  | leg b =>
      obtain ⟨l, hl, rfl⟩ := step_leg_iff.mp hs
      refine Leg.outlook_step h.base.tidy hl (hleg b rfl) hd fun hclosed => ?_
      exact toWrite_done (h.base.closed.mp hclosed)

/-- **Every step of a task decreases the weight.** -/
theorem Planned.weight_step (h : Planned todo s) {a : RequestAct}
    (hs : RequestFlow.step window a s = some s') (hsend : ∀ c, a ≠ .callerSend c)
    (hdrop : a ≠ .callerDrop) (hfresh : Fresh s a) : weight todo s' < weight todo s := by
  cases a with
  | callerSend c => exact absurd rfl (hsend c)
  | callerDrop => exact absurd rfl hdrop
  | recv => exact (h.toWrite_recv hs).2.2
  | write n =>
      obtain ⟨bs, -, -, hlt⟩ := toWrite_write todo hs
      exact hlt
  | writeFails =>
      have hout : s.out ≠ .done := by
        intro ho
        simp [RequestFlow.step, ho] at hs
      obtain ⟨-, rfl⟩ := step_writeFails_cases hs
      exact weight_stop todo hout
  | abort =>
      obtain rfl := step_abort_iff.mp hs
      exact weight_stop todo hfresh
  | leg b =>
      obtain ⟨l, hl, rfl⟩ := step_leg_iff.mp hs
      have hlt : l.weight < s.leg.weight := by
        by_cases hb : b = .abort
        · subst hb
          obtain rfl := Leg.step_abort_iff.mp hl
          exact Leg.weight_abort hfresh
        · exact Leg.weight_step hl hb
      have hsame : toWrite todo { s with leg := l } = toWrite todo s := rfl
      simp only [weight, hsame]
      omega

end steps

end RequestFlow

end NerwRpc
