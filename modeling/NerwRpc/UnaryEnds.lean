import NerwRpc.UnaryRuns
import Mathlib.Data.Prod.Lex

/-! # A unary call comes to its end

* `Live`: every stream that a side waits for is ended by the other.
* `unaryCall_ends`: no run of a call goes on forever, and a run stops only when the caller has its
  result, or has given up, and the server's task is over.
* `cancelled_truncates`: a call that is given up may still run its handler, on any front of its
  payload. -/

namespace NerwRpc

open ByteStream Transition

/-- The caller gives up, or the connection is lost. -/
def UnaryAct.Interrupts : UnaryAct → Bool
  | .cancel | .lose _ => true
  | _ => false

namespace UnaryRun

section steps

variable [Deps] {c : Inbound} {registry : Registry} {peer : NodeId} {methodName : String}
  {payload : Bytes} {s s' : UnaryRun}

/-- Every stream that a side waits for is ended by the other. -/
structure Live (s : UnaryRun) : Prop where
  opening : s.caller = .opening → s.server = .absent
  absent : s.server = .absent → s.caller = .opening ∨ s.caller.Gone = true
  reading : s.server = .reading → (∃ left, s.caller = .writing left) ∨ s.up.closed = true
  closed : s.server = .closed → s.down.closed = true
  lost : s.lost = true → s.up.recv.tail ≠ .live ∧ s.down.recv.tail ≠ .live

omit [Deps] in
theorem live_start : Live start :=
  ⟨fun _ => rfl, fun _ => .inl rfl, by rintro ⟨⟩, by rintro ⟨⟩, by rintro ⟨⟩⟩

omit [Deps] in
theorem Live.gone (h : Live s) {caller : UnaryCaller} (hgone : caller.Gone = true) (up : Pipe)
    (hclosed : s.server = .reading → up.closed = true) (hup : up.recv = s.up.recv) :
    Live { s with caller := caller, up := up } where
  opening := by
    rintro rfl
    cases hgone
  absent := fun _ => .inr hgone
  reading := fun hserver => .inr (hclosed hserver)
  closed := h.closed
  lost := by
    dsimp only
    rw [hup]
    exact h.lost

theorem Live.step (h : Live s) (hs : Moved c registry peer methodName payload s s') : Live s' := by
  have hopening : s.caller = .opening → s.server = .reading → s.up.closed = true := by
    intro hcaller hserver
    rw [h.opening hcaller] at hserver
    cases hserver
  cases hs with
  | refused hcaller _ => exact h.gone rfl _ (hopening hcaller) rfl
  | openFails reason hcaller => exact h.gone rfl _ (hopening hcaller) rfl
  | opens _ _ => exact ⟨by rintro ⟨⟩, by rintro ⟨⟩, fun _ => .inl ⟨_, rfl⟩, by rintro ⟨⟩, h.lost⟩
  | write hcaller _ _ _ =>
      refine ⟨by rintro ⟨⟩, fun habsent => ?_, fun _ => .inl ⟨_, rfl⟩, h.closed, h.lost⟩
      obtain hopen | hgone := h.absent habsent
      · rw [hcaller] at hopen
        cases hopen
      · rw [hcaller] at hgone
        cases hgone
  | writeFails reason _ _ => exact h.gone rfl _ (fun _ => rfl) rfl
  | finish hcaller =>
      refine ⟨by rintro ⟨⟩, fun habsent => ?_, fun _ => .inr rfl, h.closed, h.lost⟩
      obtain hopen | hgone := h.absent habsent
      · rw [hcaller] at hopen
        cases hopen
      · rw [hcaller] at hgone
        cases hgone
  | read hcaller _ =>
      refine h.gone rfl _ (fun hserver => ?_) rfl
      obtain ⟨left, hwriting⟩ | hclosed := h.reading hserver
      · rw [hcaller] at hwriting
        cases hwriting
      · exact hclosed
  | cancel _ => exact h.gone rfl _ (fun _ => rfl) rfl
  | up harr =>
      refine ⟨h.opening, h.absent, ?_, h.closed, fun hlost =>
        ⟨harr.not_live (h.lost hlost).1, (h.lost hlost).2⟩⟩
      dsimp only
      rw [harr.closed]
      exact h.reading
  | down harr =>
      refine ⟨h.opening, h.absent, h.reading, ?_, fun hlost =>
        ⟨(h.lost hlost).1, harr.not_live (h.lost hlost).2⟩⟩
      dsimp only
      rw [harr.closed]
      exact h.closed
  | lose err _ =>
      refine ⟨h.opening, h.absent, ?_, ?_, fun _ =>
        ⟨Pipe.cut_not_live err _, Pipe.cut_not_live err _⟩⟩
      · dsimp only
        rw [Pipe.cut_closed]
        exact h.reading
      · dsimp only
        rw [Pipe.cut_closed]
        exact h.closed
  | enter hserver _ =>
      refine ⟨fun hcaller => ?_, by rintro ⟨⟩, by rintro ⟨⟩, by rintro ⟨⟩, h.lost⟩
      rw [h.opening hcaller] at hserver
      cases hserver
  | respond hserver _ _ _ =>
      refine ⟨fun hcaller => ?_, by rintro ⟨⟩, by rintro ⟨⟩, by rintro ⟨⟩, h.lost⟩
      rw [h.opening hcaller] at hserver
      cases hserver
  | closes hserver _ =>
      refine ⟨fun hcaller => ?_, by rintro ⟨⟩, by rintro ⟨⟩, fun _ => rfl, h.lost⟩
      rw [h.opening hcaller] at hserver
      cases hserver

/-- What the caller has still to do. -/
def callerWork : UnaryCaller → ℕ
  | .opening => 1
  | .writing left => 2 * left.length + 3
  | .reading => 2
  | .returned _ | .cancelled => 0

/-- How far the server is, and what it has still to write. -/
def serverWork : UnaryServer → ℕ × ℕ
  | .absent => (3, 0)
  | .reading => (2, 0)
  | .writing left => (1, 2 * left.length)
  | .closed => (0, 0)

/-- How far the server is counts for most, as its answer is not known before it has read. -/
def measure (s : UnaryRun) : ℕ ×ₗ ℕ :=
  toLex ((serverWork s.server).1, callerWork s.caller + (serverWork s.server).2 + s.up.toArrive +
    s.down.toArrive + if s.lost = true then 0 else 1)

omit [Deps] in
theorem measure_lt_of_server (h : (serverWork s'.server).1 < (serverWork s.server).1) :
    s'.measure < s.measure :=
  Prod.Lex.toLex_lt_toLex.mpr (.inl h)

theorem Live.measure_lt (hl : Live s) (hs : Moved c registry peer methodName payload s s') :
    s'.measure < s.measure := by
  have hrest : ∀ {s s' : UnaryRun}, s'.server = s.server →
      callerWork s'.caller + s'.up.toArrive + s'.down.toArrive + (if s'.lost = true then 0 else 1) <
        callerWork s.caller + s.up.toArrive + s.down.toArrive + (if s.lost = true then 0 else 1) →
      s'.measure < s.measure := by
    intro s s' hsame hlt
    refine Prod.Lex.toLex_lt_toLex.mpr (.inr ⟨by rw [hsame], ?_⟩)
    dsimp only
    rw [hsame]
    omega
  cases hs with
  | refused hcaller _ => exact hrest rfl (by simp [hcaller, callerWork])
  | openFails reason hcaller => exact hrest rfl (by simp [hcaller, callerWork])
  | opens hcaller _ =>
      refine measure_lt_of_server ?_
      rw [hl.opening hcaller]
      exact Nat.lt_succ_self 2
  | write hcaller _ hpos hle =>
      refine hrest rfl ?_
      simp only [hcaller, callerWork, Pipe.toArrive_push, List.length_take, List.length_drop]
      omega
  | writeFails reason hcaller _ => exact hrest rfl (by simp [hcaller, callerWork])
  | finish hcaller => exact hrest rfl (by simp [hcaller, callerWork])
  | read hcaller _ => exact hrest rfl (by simp [hcaller, callerWork])
  | cancel hthere =>
      refine hrest rfl ?_
      cases hcaller : s.caller with
      | opening => simp [callerWork]
      | writing left => simp [callerWork]
      | reading => simp [callerWork]
      | returned result =>
          rw [hcaller] at hthere
          cases hthere
      | cancelled =>
          rw [hcaller] at hthere
          cases hthere
  | up harr =>
      have := harr.toArrive_lt
      exact hrest rfl (by dsimp only; omega)
  | down harr =>
      have := harr.toArrive_lt
      exact hrest rfl (by dsimp only; omega)
  | lose err hkept =>
      have hup := Pipe.toArrive_cut err s.up
      have hdown := Pipe.toArrive_cut err s.down
      refine hrest rfl ?_
      simp only [hkept]
      simp
      omega
  | enter hserver _ =>
      exact measure_lt_of_server (by simp [hserver, serverWork])
  | respond hserver _ hpos hle =>
      refine Prod.Lex.toLex_lt_toLex.mpr (.inr ⟨by rw [hserver]; rfl, ?_⟩)
      simp only [hserver, serverWork, Pipe.toArrive_push, List.length_take, List.length_drop]
      omega
  | closes hserver _ =>
      exact measure_lt_of_server (by simp [hserver, serverWork])

/-! ### Who can go on -/

theorem settles_receiveResponse : Settles receiveResponse :=
  ((settles_readToEnd _).mapErr _).bind ((regular_readToEnd _).mapErr _) fun _ => settles_lift _

/-- Some step is possible that interrupts nothing. -/
def CanStep (c : Inbound) (registry : Registry) (peer : NodeId) (methodName : String)
    (payload : Bytes) (s : UnaryRun) : Prop :=
  ∃ a s', a.Interrupts = false ∧ step c registry peer methodName payload a s = some s'

theorem canStep_up (hclosed : s.up.closed = true) (hlive : s.up.recv.tail = .live) :
    CanStep c registry peer methodName payload s := by
  obtain ⟨n, up, hup⟩ | ⟨up, hup⟩ := Pipe.exists_arrives hclosed hlive
  · exact ⟨.deliverUp n, { s with up := up }, rfl, Option.map_eq_some_iff.mpr ⟨up, hup, rfl⟩⟩
  · exact ⟨.finUp, { s with up := up }, rfl, Option.map_eq_some_iff.mpr ⟨up, hup, rfl⟩⟩

theorem canStep_down (hclosed : s.down.closed = true) (hlive : s.down.recv.tail = .live) :
    CanStep c registry peer methodName payload s := by
  obtain ⟨n, down, hdown⟩ | ⟨down, hdown⟩ := Pipe.exists_arrives hclosed hlive
  · exact ⟨.deliverDown n, { s with down := down }, rfl,
      Option.map_eq_some_iff.mpr ⟨down, hdown, rfl⟩⟩
  · exact ⟨.finDown, { s with down := down }, rfl,
      Option.map_eq_some_iff.mpr ⟨down, hdown, rfl⟩⟩

theorem Live.server_reads (hl : Live s) (hserver : s.server = .reading)
    (hcaller : ∀ left, s.caller ≠ .writing left) :
    CanStep c registry peer methodName payload s := by
  have hclosed : s.up.closed = true := by
    obtain ⟨left, hwriting⟩ | hclosed := hl.reading hserver
    · exact absurd hwriting (hcaller left)
    · exact hclosed
  cases hentry : entry s.up.recv with
  | pending =>
      by_cases hlive : s.up.recv.tail = .live
      · exact canStep_up hclosed hlive
      · exact absurd hentry (settles_entry _ hlive)
  | ready r =>
      obtain e | ⟨e, recv'⟩ := r
      · cases e
      · exact ⟨.enter, _, rfl, by simp only [UnaryRun.step, hserver, hentry]; rfl⟩

theorem server_writes {left : Bytes} (hserver : s.server = .writing left) :
    CanStep c registry peer methodName payload s := by
  cases left with
  | nil => exact ⟨.close, _, rfl, by simp only [step, hserver]; rfl⟩
  | cons b left =>
      cases hlost : s.lost with
      | false => exact ⟨.respond 1, _, rfl, by simp [step, hserver, hlost]; rfl⟩
      | true => exact ⟨.respondFails, _, rfl, by simp [step, hserver, hlost]; rfl⟩

theorem Live.progress (hl : Live s)
    (hstuck : ¬ CanStep c registry peer methodName payload s) :
    s.caller.Gone = true ∧ (s.server = .absent ∨ s.server = .closed) := by
  have hserver : (∀ left, s.caller ≠ .writing left) → s.server = .absent ∨ s.server = .closed := by
    intro hcaller
    cases hserver : s.server with
    | absent => exact .inl rfl
    | reading => exact absurd (hl.server_reads hserver hcaller) hstuck
    | writing left => exact absurd (server_writes hserver) hstuck
    | closed => exact .inr rfl
  cases hcaller : s.caller with
  | opening =>
      exfalso
      apply hstuck
      cases hframe : buildUnaryRequestFrame methodName payload with
      | error e =>
          exact ⟨.openSubstream (.ok ()), _, rfl, by
            simp only [UnaryRun.step, hcaller, hframe]; rfl⟩
      | ok frame =>
          exact ⟨.openSubstream (.ok ()), _, rfl, by
            simp only [UnaryRun.step, hcaller, hframe]; rfl⟩
  | writing left =>
      exfalso
      apply hstuck
      cases left with
      | nil => exact ⟨.finish, _, rfl, by simp only [UnaryRun.step, hcaller]; rfl⟩
      | cons b left =>
          cases hlost : s.lost with
          | false => exact ⟨.write 1, _, rfl, by simp [UnaryRun.step, hcaller, hlost]; rfl⟩
          | true => exact ⟨.writeFails "", _, rfl, by simp [UnaryRun.step, hcaller, hlost]; rfl⟩
  | reading =>
      exfalso
      apply hstuck
      cases hread : receiveResponse s.down.recv with
      | ready r => exact ⟨.read, _, rfl, by simp only [UnaryRun.step, hcaller, hread]; rfl⟩
      | pending =>
          have hlive : s.down.recv.tail = .live := by
            by_contra hended
            exact settles_receiveResponse _ hended hread
          obtain habsent | hclosed := hserver (by rw [hcaller]; rintro left ⟨⟩)
          · obtain hopening | hgone := hl.absent habsent
            · rw [hcaller] at hopening
              cases hopening
            · rw [hcaller] at hgone
              cases hgone
          · exact canStep_down (hl.closed hclosed) hlive
  | returned result => exact ⟨rfl, hserver (by rw [hcaller]; rintro left ⟨⟩)⟩
  | cancelled => exact ⟨rfl, hserver (by rw [hcaller]; rintro left ⟨⟩)⟩

/-- **A unary call comes to its end**, whatever its method, its payload and its answer are and
whatever becomes of the connection: no run goes on forever, and one that cannot go on has a caller
with its result, or one that has given up, and no task of the server any more. -/
theorem unaryCall_ends {as : List UnaryAct}
    (hrun : run (step c registry peer methodName payload) as start = some s) :
    (¬ ∃ f : ℕ → UnaryRun, f 0 = s ∧
      ∀ n, ∃ a, step c registry peer methodName payload a (f n) = some (f (n + 1))) ∧
    (¬ CanStep c registry peer methodName payload s →
      s.caller.Gone = true ∧ (s.server = .absent ∨ s.server = .closed)) := by
  have hl : Live s :=
    (runs_any_iff.mpr hrun).invariant (fun _ _ _ _ hl hs => hl.step (moved_of_step hs)) live_start
  refine ⟨fun hforever => ?_, hl.progress⟩
  have hacc : Acc (Stepped (step c registry peer methodName payload)) s :=
    acc_of_decreasing wellFounded_lt measure
      (fun _ _ _ hl hs => ⟨hl.step (moved_of_step hs), hl.measure_lt (moved_of_step hs)⟩) hl
  exact not_acc_iff_exists_descending_chain.mpr hforever hacc

/-! ### A call that is given up -/

/-- Write as much, give up, and let the server have it. -/
def cutShort (front : Bytes) : List UnaryAct :=
  [.openSubstream (.ok ()), .write front.length, .cancel, .deliverUp front.length, .finUp, .enter]

/-- **A call that is given up may run its handler on less than its payload**: on any front of it,
as the end of the caller's half is no different from the end of a request. -/
theorem cancelled_truncates (hname : (Utf8.bytes methodName).length ≤ maxMethodNameLen)
    {front rest : Bytes} (hpayload : payload = front ++ rest)
    (hlen : (requestFrame methodName front).length ≤ rpcStreamReadLimit + 1)
    (hfound : (registry.lookup methodName).isSome = true) :
    ∃ s, run (step c registry peer methodName payload) (cutShort (requestFrame methodName front))
        start = some s ∧ s.caller = .cancelled ∧ s.invoked = [(methodName, front)] := by
  have hframe : buildUnaryRequestFrame methodName payload =
      .ok (requestFrame methodName front ++ rest) := by
    rw [buildUnaryRequestFrame_ok (lt_of_le_usizeMax (hname.trans maxMethodNameLen_le_usizeMax)),
      hpayload]
    simp [requestFrame]
  obtain ⟨cut, hcut⟩ : ∃ cut, requestFrame methodName front = cut := ⟨_, rfl⟩
  have hpos : 0 < cut.length := by
    rw [← hcut]
    exact Nat.succ_pos _
  have hentry : ∃ recv', entry ⟨cut, .finished⟩ =
      .ready (.ok (.unary methodName front, recv')) := by
    obtain ⟨hlive, -⟩ | ⟨e, recv', hready, ⟨-, -, hwhole⟩ | ⟨⟨err, hbroken⟩, -⟩⟩ :=
      entry_request hname hlen List.prefix_rfl .finished
    · cases hlive
    · rw [hwhole rfl, hcut] at hready
      exact ⟨recv', hready⟩
    · cases hbroken
  obtain ⟨recv', hentry⟩ := hentry
  rw [hcut] at hframe ⊢
  have hopen : step c registry peer methodName payload (.openSubstream (.ok ())) start =
      some ⟨.writing (cut ++ rest), .reading, .start, .start, false, []⟩ := by
    simp only [step, start, hframe]
  have hwrite : step c registry peer methodName payload (.write cut.length)
      ⟨.writing (cut ++ rest), .reading, .start, .start, false, []⟩ =
      some ⟨.writing rest, .reading, ⟨cut, false, ⟨[], .live⟩⟩, .start, false, []⟩ := by
    simp [step, hpos, Pipe.push, Pipe.start]
  have hcancel : step c registry peer methodName payload .cancel
      ⟨.writing rest, .reading, ⟨cut, false, ⟨[], .live⟩⟩, .start, false, []⟩ =
      some ⟨.cancelled, .reading, ⟨cut, true, ⟨[], .live⟩⟩, .start, false, []⟩ := rfl
  have hdeliver : step c registry peer methodName payload (.deliverUp cut.length)
      ⟨.cancelled, .reading, ⟨cut, true, ⟨[], .live⟩⟩, .start, false, []⟩ =
      some ⟨.cancelled, .reading, ⟨[], true, ⟨cut, .live⟩⟩, .start, false, []⟩ := by
    simp [step, Pipe.deliver, hpos]
  have hfin : step c registry peer methodName payload .finUp
      ⟨.cancelled, .reading, ⟨[], true, ⟨cut, .live⟩⟩, .start, false, []⟩ =
      some ⟨.cancelled, .reading, ⟨[], true, ⟨cut, .finished⟩⟩, .start, false, []⟩ := rfl
  have henter : step c registry peer methodName payload .enter
      ⟨.cancelled, .reading, ⟨[], true, ⟨cut, .finished⟩⟩, .start, false, []⟩ =
      some ⟨.cancelled, .writing (answer c registry (.unary methodName front)),
        ⟨[], true, ⟨cut, .finished⟩⟩, .start, false, [(methodName, front)]⟩ := by
    simp only [step, hentry, invocations, hfound, if_true, List.nil_append]
  refine ⟨⟨.cancelled, .writing (answer c registry (.unary methodName front)),
    ⟨[], true, ⟨cut, .finished⟩⟩, .start, false, [(methodName, front)]⟩, ?_, rfl, rfl⟩
  simp only [cutShort, run, hopen, hwrite, hcancel, hdeliver, hfin, henter, Option.bind_some]

end steps

section reference

attribute [local instance] reference

/-- No run of a call of the echo method goes on forever. -/
theorem unaryCall_ends_echo :
    ¬ ∃ f : ℕ → UnaryRun, f 0 = start ∧
      ∀ n, ∃ a, step anyInbound echoRegistry "peer" "a/b/c" [7, 8] a (f n) = some (f (n + 1)) := by
  have hrun : run (step anyInbound echoRegistry "peer" "a/b/c" [7, 8]) [] start = some start := rfl
  exact (unaryCall_ends hrun).1

/-- The echo method, called and given up behind the first byte of its payload. -/
theorem cancelled_truncates_echo :
    ∃ s, run (step anyInbound echoRegistry "peer" "a/b/c" [7, 8])
        (cutShort [0, 5, 97, 47, 98, 47, 99, 7]) start = some s ∧
      s.caller = .cancelled ∧ s.invoked = [("a/b/c", [7])] := by
  have hpayload : ([7, 8] : Bytes) = [7] ++ [8] := rfl
  exact cancelled_truncates (by decide) hpayload (by decide) (by decide)

end reference

end UnaryRun

end NerwRpc
