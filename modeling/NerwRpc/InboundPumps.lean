import NerwRpc.StreamPumps
import NerwRpc.Reference

/-! # What the inbound pumps make of arbitrary bytes

The peer may send any bytes.  `framesIn` is how the frame reader splits them into frames, and
`Direction.emitted` what a pump of one direction is to make of these frames: the chunks of its own
direction and the non-terminal errors up to the first frame that closes the stream, and what that
frame, or the end of the bytes, gives.

* `inboundPumps_obey`: in any interleaving, both pumps emit exactly that, and the two directions
  are mirror images of each other.
* `inboundPumps_quit_iff`: a pump whose consumer is gone stops at the next frame, unless that is a
  non-terminal error. -/

namespace NerwRpc

open ByteStream FramePump Transition

/-- Which side a pump reads for. -/
inductive Direction where
  | toServer
  | toClient
deriving DecidableEq, Repr

namespace Direction

/-- The chunk frame of a direction. -/
def chunk : Direction → Bytes → StreamingFrame
  | toServer => .requestChunk
  | toClient => .responseChunk

/-- The frame that ends a direction. -/
def finish : Direction → StreamingFrame
  | toServer => .requestEnd
  | toClient => .responseEnd

def label : Direction → String
  | toServer => "client→server"
  | toClient => "server→client"

/-- Behind these frames the stream goes on: the chunks of the direction and the non-terminal
errors. -/
def continues : Direction → StreamingFrame → Bool
  | toServer, .requestChunk _ => true
  | toClient, .responseChunk _ => true
  | _, .error err => !err.terminal
  | _, _ => false

variable [Deps]

def pump : Direction → Pump RpcError StreamingFrame (RpcResult Bytes)
  | toServer => pumpInboundRequests
  | toClient => pumpInboundResponses

/-- What the consumer gets of a frame: the payload of a chunk of the direction, an error for an
error frame, nothing for the end of the direction, and an error for every other frame. -/
def surfaces : Direction → StreamingFrame → Option (RpcResult Bytes)
  | toServer, .requestChunk bytes => some (.ok bytes)
  | toClient, .responseChunk bytes => some (.ok bytes)
  | _, .error err => some (.error (.handler err.message))
  | toServer, .requestEnd => none
  | toClient, .responseEnd => none
  | d, other => some (.error (.malformedFrame
      ("unexpected " ++ d.label ++ " frame: " ++ debugFrame other)))

/-- What the consumer gets at the end of the bytes. -/
def atEnd : FramesEnd RpcError → List (RpcResult Bytes)
  | .failed e => [.error e]
  | _ => []

/-- What the consumer gets of the frames: the items of those behind which the stream goes on, and
then that of the frame that closes it or of the end of the bytes. -/
def emitted (d : Direction) (fs : List StreamingFrame) (fin : FramesEnd RpcError) :
    List (RpcResult Bytes) :=
  match fs.dropWhile d.continues with
  | [] => fs.filterMap d.surfaces ++ atEnd fin
  | f :: _ => (fs.takeWhile d.continues ++ [f]).filterMap d.surfaces

/-! ### Both pumps are the specification -/

/-- The arms of the two pumps: an item behind which the pump goes on, or nothing, or its last
item. -/
theorem onFrame_cases (d : Direction) (f : StreamingFrame) :
    (d.continues f = true ∧ ∃ item next, d.pump.onFrame f = .send item next ∧ next ≠ .last ∧
      d.surfaces f = some item) ∨
    (d.continues f = false ∧ d.pump.onFrame f = .stop ∧ d.surfaces f = none) ∨
    d.continues f = false ∧ ∃ item, d.pump.onFrame f = .send item .last ∧
      d.surfaces f = some item := by
  cases d with
  | toServer =>
      cases f with
      | requestChunk bytes => exact .inl ⟨rfl, _, .whileOpen, rfl, nofun, rfl⟩
      | requestEnd => exact .inr (.inl ⟨rfl, rfl, rfl⟩)
      | error err =>
          obtain ⟨message, _ | _⟩ := err
          · exact .inl ⟨rfl, _, .always, rfl, nofun, rfl⟩
          · exact .inr (.inr ⟨rfl, _, rfl, rfl⟩)
      | _ => exact .inr (.inr ⟨rfl, _, rfl, rfl⟩)
  | toClient =>
      cases f with
      | responseChunk bytes => exact .inl ⟨rfl, _, .whileOpen, rfl, nofun, rfl⟩
      | responseEnd => exact .inr (.inl ⟨rfl, rfl, rfl⟩)
      | error err =>
          obtain ⟨message, _ | _⟩ := err
          · exact .inl ⟨rfl, _, .always, rfl, nofun, rfl⟩
          · exact .inr (.inr ⟨rfl, _, rfl, rfl⟩)
      | _ => exact .inr (.inr ⟨rfl, _, rfl, rfl⟩)

theorem onError_eq (d : Direction) (e : RpcError) : d.pump.onError e = .error e := by
  cases d <;> rfl

theorem read_eq (d : Direction) : d.pump.read = readStreamingFrame := by
  cases d <;> rfl

theorem emitted_nil (d : Direction) (fin : FramesEnd RpcError) : d.emitted [] fin = atEnd fin := rfl

theorem emitted_continues {d : Direction} {f : StreamingFrame} (h : d.continues f = true)
    (fs : List StreamingFrame) (fin : FramesEnd RpcError) :
    d.emitted (f :: fs) fin = (d.surfaces f).toList ++ d.emitted fs fin := by
  unfold emitted
  rw [List.dropWhile_cons_of_pos h, List.takeWhile_cons_of_pos h]
  cases hs : d.surfaces f <;> cases fs.dropWhile d.continues <;> simp [hs]

theorem emitted_stops {d : Direction} {f : StreamingFrame} (h : d.continues f = false)
    (fs : List StreamingFrame) (fin : FramesEnd RpcError) :
    d.emitted (f :: fs) fin = (d.surfaces f).toList := by
  have hn : ¬ d.continues f = true := by simp [h]
  unfold emitted
  rw [List.dropWhile_cons_of_neg hn, List.takeWhile_cons_of_neg hn]
  cases hs : d.surfaces f <;> simp [hs]

/-- **The pumps emit what they are to emit.** -/
theorem relay_eq_emitted (d : Direction) (fs : List StreamingFrame) (fin : FramesEnd RpcError) :
    d.pump.relay fs fin = d.emitted fs fin := by
  induction fs with
  | nil =>
      rw [emitted_nil]
      cases fin <;> simp [Pump.relay, atEnd, onError_eq]
  | cons f fs ih =>
      unfold Pump.relay
      obtain ⟨hc, item, next, harm, hnext, hs⟩ | ⟨hc, harm, hs⟩ | ⟨hc, item, harm, hs⟩ :=
        onFrame_cases d f
      · rw [emitted_continues hc, harm, hs, ← ih]
        cases next with
        | last => exact absurd rfl hnext
        | _ => rfl
      · rw [emitted_stops hc, harm, hs]
        rfl
      · rw [emitted_stops hc, harm, hs]
        rfl

end Direction

/-! ### The frames in a byte string -/

section obey

variable [Deps]

/-- The frames at the front of the bytes, and how they come to their end. -/
def framesIn (bs : Bytes) : List StreamingFrame × FramesEnd RpcError :=
  readFrames readStreamingFrame (bs.length + 1) ⟨bs, .finished⟩

theorem framesIn_frame {bs rest : Bytes} {f : StreamingFrame}
    (h : readStreamingFrame ⟨bs, .finished⟩ = .ready (.ok (some f, ⟨rest, .finished⟩))) :
    framesIn bs = (f :: (framesIn rest).1, (framesIn rest).2) := by
  have hlt := readStreamingFrame_shortens h
  unfold framesIn
  rw [readFrames_some _ h, readFrames_fuel (fun _ _ _ => readStreamingFrame_shortens) bs.length
    (rest.length + 1) _ hlt (Nat.lt_succ_self _)]

theorem framesIn_error {bs : Bytes} {e : RpcError}
    (h : readStreamingFrame ⟨bs, .finished⟩ = .ready (.error e)) :
    framesIn bs = ([], .failed e) :=
  readFrames_error _ h

theorem readStreamingFrame_finished (b : UInt8) (bs : Bytes) :
    (∃ e, readStreamingFrame ⟨b :: bs, .finished⟩ = .ready (.error e)) ∨
    ∃ f used rest, bs = used ++ rest ∧
      readStreamingFrame ⟨b :: bs, .finished⟩ = .ready (.ok (some f, ⟨rest, .finished⟩)) := by
  rw [readStreamingFrame_cons]
  cases hr : readFrameBehind [b] ⟨bs, .finished⟩ with
  | pending => exact absurd hr ((regular_readFrameBehind [b]).settles bs)
  | ready r =>
      obtain e | ⟨o, ⟨rest, t⟩⟩ := r
      · exact .inl ⟨e, rfl⟩
      · obtain ⟨used, hused, ht : t = .finished⟩ := (regular_readFrameBehind [b]).suffix _ o _ hr
        subst ht
        obtain ⟨f, s, -, hsome⟩ := ReadM.bind_ok_inv hr
        cases hsome
        exact .inr ⟨f, used, rest, hused, rfl⟩

/-- The bytes end between two frames, or in something that is not a frame. -/
theorem framesIn_end (n : ℕ) (bs : Bytes) (hn : bs.length ≤ n) :
    (framesIn bs).2 = .eof ∨ ∃ e, (framesIn bs).2 = .failed e := by
  induction n generalizing bs with
  | zero =>
      obtain rfl : bs = [] := List.length_eq_zero_iff.mp (Nat.le_zero.mp hn)
      exact .inl rfl
  | succ n ih =>
      cases bs with
      | nil => exact .inl rfl
      | cons b behind =>
          obtain ⟨e, he⟩ | ⟨f, used, rest, rfl, hf⟩ := readStreamingFrame_finished b behind
          · rw [framesIn_error he]
            exact .inr ⟨e, rfl⟩
          · rw [framesIn_frame hf]
            apply ih rest
            simp only [List.length_cons, List.length_append] at hn
            omega

/-! ### The mirror image of a byte string -/

/-- The opcode of the same kind of frame in the other direction. -/
def swapOpcode (b : UInt8) : UInt8 :=
  if b = opcodeStreamingRequestChunk then opcodeStreamingResponseChunk
  else if b = opcodeStreamingResponseChunk then opcodeStreamingRequestChunk
  else if b = opcodeStreamingRequestEnd then opcodeStreamingResponseEnd
  else if b = opcodeStreamingResponseEnd then opcodeStreamingRequestEnd
  else b

/-- The opcodes in at most `n` frame positions are swapped. -/
def mirrorFuel : ℕ → Bytes → Bytes
  | 0, bs => bs
  | n + 1, bs => match bs with
    | [] => []
    | b :: behind => swapOpcode b :: match readStreamingFrame ⟨b :: behind, .finished⟩ with
      | .ready (.ok (some _, s)) =>
          behind.take (behind.length - s.buf.length) ++ mirrorFuel n s.buf
      | _ => behind

/-- The opcodes in frame position are swapped. -/
def mirror (bs : Bytes) : Bytes := mirrorFuel bs.length bs

/-- The same kind of frame in the other direction. -/
def mirrorFrame : StreamingFrame → StreamingFrame
  | .requestChunk bytes => .responseChunk bytes
  | .responseChunk bytes => .requestChunk bytes
  | .requestEnd => .responseEnd
  | .responseEnd => .requestEnd
  | other => other

/-- What is read behind the swapped opcode is the mirrored frame. -/
theorem readStreamingFrameAfterOpcode_swap (b : UInt8) :
    readStreamingFrameAfterOpcode (swapOpcode b) =
      readStreamingFrameAfterOpcode b >>= fun f => pure (mirrorFrame f) := by
  unfold swapOpcode
  split_ifs with h20 h21 h30 h31
  · have hchunk : readStreamingFrameAfterOpcode b =
        readLengthPrefixed >>= fun bytes => pure (.requestChunk bytes) := by
      rw [h20]
      rfl
    rw [hchunk, ReadM.bind_assoc]
    rfl
  · have hchunk : readStreamingFrameAfterOpcode b =
        readLengthPrefixed >>= fun bytes => pure (.responseChunk bytes) := by
      rw [h21]
      rfl
    rw [hchunk, ReadM.bind_assoc]
    rfl
  · subst h30
    rfl
  · subst h31
    rfl
  · unfold readStreamingFrameAfterOpcode
    rw [if_neg h20, if_neg h21, if_neg h30, if_neg h31]
    split_ifs
    · rw [ReadM.bind_assoc]
      rfl
    · rw [ReadM.bind_assoc]
      rfl
    · rw [ReadM.bind_assoc]
      rfl
    · rfl

theorem readFrameBehind_swap (b : UInt8) :
    readFrameBehind [swapOpcode b] =
      readFrameBehind [b] >>= fun o => pure (o.map mirrorFrame) := by
  unfold readFrameBehind
  rw [List.headD_cons, List.headD_cons, readStreamingFrameAfterOpcode_swap, ReadM.bind_assoc,
    ReadM.bind_assoc]
  rfl

theorem read_mirrored {b : UInt8} {used rest rest' : Bytes} {f : StreamingFrame}
    (h : readStreamingFrame ⟨b :: (used ++ rest), .finished⟩ =
      .ready (.ok (some f, ⟨rest, .finished⟩))) :
    readStreamingFrame ⟨swapOpcode b :: (used ++ rest'), .finished⟩ =
      .ready (.ok (some (mirrorFrame f), ⟨rest', .finished⟩)) := by
  have halone := readStreamingFrame_takesOnly (p := b :: used) h
  rw [readStreamingFrame_cons] at halone
  have hswapped : readFrameBehind [swapOpcode b] ⟨used, .live⟩ =
      .ready (.ok (some (mirrorFrame f), ⟨[], .live⟩)) := by
    rw [readFrameBehind_swap, ReadM.bind_ok _ halone]
    rfl
  rw [readStreamingFrame_cons]
  exact ((regular_readFrameBehind _).stable used rest' .finished _ hswapped).1

theorem read_mirrored_error {b : UInt8} {bs : Bytes} {e : RpcError}
    (h : readStreamingFrame ⟨b :: bs, .finished⟩ = .ready (.error e)) :
    readStreamingFrame ⟨swapOpcode b :: bs, .finished⟩ = .ready (.error e) := by
  rw [readStreamingFrame_cons] at h ⊢
  rw [readFrameBehind_swap]
  exact ReadM.bind_error _ h

theorem framesIn_mirrorFuel (n : ℕ) (bs : Bytes) (hn : bs.length ≤ n) :
    framesIn (mirrorFuel n bs) = ((framesIn bs).1.map mirrorFrame, (framesIn bs).2) := by
  induction n generalizing bs with
  | zero =>
      obtain rfl : bs = [] := List.length_eq_zero_iff.mp (Nat.le_zero.mp hn)
      rfl
  | succ n ih =>
      cases bs with
      | nil => rfl
      | cons b behind =>
          unfold mirrorFuel
          obtain ⟨e, he⟩ | ⟨f, used, rest, rfl, hf⟩ := readStreamingFrame_finished b behind
          · simp only [he]
            rw [framesIn_error he, framesIn_error (read_mirrored_error he)]
            rfl
          · simp only [hf, List.length_append, Nat.add_sub_cancel, List.take_left]
            rw [framesIn_frame hf, framesIn_frame (read_mirrored hf), ih rest]
            · rfl
            · simp only [List.length_cons, List.length_append] at hn
              omega

/-- **The frames of the mirror image are the mirrored frames**, and end as the frames do. -/
theorem framesIn_mirror (bs : Bytes) :
    framesIn (mirror bs) = ((framesIn bs).1.map mirrorFrame, (framesIn bs).2) :=
  framesIn_mirrorFuel bs.length bs (le_refl _)

/-- An item without the text of its error. -/
def withoutText (item : RpcResult Bytes) : Except RpcError.Variant Bytes :=
  item.mapError RpcError.variant

namespace Direction

omit [Deps] in
theorem continues_mirror (f : StreamingFrame) :
    toClient.continues (mirrorFrame f) = toServer.continues f := by
  cases f <;> rfl

theorem surfaces_mirror (f : StreamingFrame) :
    (toClient.surfaces (mirrorFrame f)).map withoutText =
      (toServer.surfaces f).map withoutText := by
  cases f <;> rfl

/-- **The two directions are mirror images of each other**, up to the text of errors. -/
theorem emitted_mirror (fs : List StreamingFrame) (fin : FramesEnd RpcError) :
    (toClient.emitted (fs.map mirrorFrame) fin).map withoutText =
      (toServer.emitted fs fin).map withoutText := by
  induction fs with
  | nil => rfl
  | cons f fs ih =>
      have hs : (toClient.surfaces (mirrorFrame f)).toList.map withoutText =
          (toServer.surfaces f).toList.map withoutText := by
        have := congrArg Option.toList (surfaces_mirror f)
        simpa only [Option.toList_map] using this
      rw [List.map_cons]
      by_cases hc : toServer.continues f = true
      · rw [emitted_continues hc, emitted_continues ((continues_mirror f).trans hc),
          List.map_append, List.map_append, ih, hs]
      · have hc' : toServer.continues f = false := Bool.eq_false_iff.mpr hc
        rw [emitted_stops hc', emitted_stops ((continues_mirror f).trans hc'), hs]

theorem chunk_of_surfaces {d : Direction} {f : StreamingFrame} {bytes : Bytes}
    (h : d.surfaces f = some (.ok bytes)) : f = d.chunk bytes := by
  cases d <;> cases f <;> simp_all [surfaces, chunk]

/-- Only the payloads of the direction's own chunks come out as chunks. -/
theorem chunk_mem_of_emitted (d : Direction) (fs : List StreamingFrame) (fin : FramesEnd RpcError)
    {bytes : Bytes} (h : .ok bytes ∈ d.emitted fs fin) : d.chunk bytes ∈ fs := by
  induction fs with
  | nil =>
      rw [emitted_nil] at h
      cases fin <;> simp [atEnd] at h
  | cons f fs ih =>
      by_cases hc : d.continues f = true
      · rw [emitted_continues hc, List.mem_append, Option.mem_toList] at h
        obtain hf | hrest := h
        · rw [chunk_of_surfaces hf]
          exact List.mem_cons_self
        · exact List.mem_cons_of_mem f (ih hrest)
      · rw [emitted_stops (Bool.eq_false_iff.mpr hc), Option.mem_toList] at h
        rw [chunk_of_surfaces h]
        exact List.mem_cons_self

/-- What is emitted for a byte string. -/
def emits (d : Direction) (bs : Bytes) : List (RpcResult Bytes) :=
  d.emitted (framesIn bs).1 (framesIn bs).2

end Direction

theorem forwards_eq_emits (d : Direction) (bs : Bytes) : d.pump.forwards bs = d.emits bs := by
  rw [Pump.forwards, Pump.forwardFuel_eq_relay, d.read_eq, d.relay_eq_emitted]
  rfl

/-- **Both inbound pumps obey the direction and closing rules on arbitrary bytes.**  In every run on
the bytes of the peer and the end of the stream behind them, whose consumer keeps its end: what is
emitted is at any time a front of `emits`; who has seen the end of the items has seen all of it,
and the pump has returned; the run is finite and cannot get stuck before.  Chunks come out of the
direction's own chunk frames only, and the two pumps are mirror images of each other. -/
theorem inboundPumps_obey (bs : Bytes) :
    ((framesIn bs).2 = .eof ∨ ∃ e, (framesIn bs).2 = .failed e) ∧
    (∀ (d : Direction) (as : List LegAct) (l : Leg (RpcResult Bytes)),
      Runs (Leg.step d.pump channelCapacity) Leg.Keeps as (Leg.opened bs true) l →
        l.got ++ l.queue <+: d.emits bs ∧
        (l.ended = true → l.pump = .done ∧ l.got = d.emits bs) ∧
        ((∀ a, Leg.Keeps a l → Leg.step d.pump channelCapacity a l = none) → l.ended = true) ∧
        as.length ≤ (Leg.opened bs true : Leg (RpcResult Bytes)).weight) ∧
    (∀ (d : Direction) (bytes : Bytes), .ok bytes ∈ d.emits bs →
      d.chunk bytes ∈ (framesIn bs).1) ∧
    (Direction.toServer.emits bs).map withoutText =
      (Direction.toClient.emits (mirror bs)).map withoutText := by
  refine ⟨framesIn_end bs.length bs (le_refl _), ?_, ?_, ?_⟩
  · intro d as l hruns
    have hl := Leg.onBytes_of_runs hruns
    rw [← forwards_eq_emits]
    exact ⟨hl.forwarded, hl.ended, hl.stuck channelCapacity_pos, Leg.runs_length_le hruns⟩
  · intro d bytes h
    exact d.chunk_mem_of_emitted _ _ h
  · unfold Direction.emits
    rw [framesIn_mirror]
    exact (Direction.emitted_mirror _ _).symm

end obey

section reference

attribute [local instance] reference

/-- A chunk of one byte, the end of the responses and another chunk. -/
def downloadBytes : Bytes := [0x21, 0x01, 0x07, 0x31, 0x21, 0x01, 0x08]

def downloadRun : List LegAct :=
  [.deliver 2, .deliver 3, .read, .send, .take, .read, .takeNone]

theorem inboundPumps_obey_download :
    ∃ l, run (Leg.step Direction.toClient.pump channelCapacity) downloadRun
        (Leg.opened downloadBytes true) = some l ∧
      l.pump = .done ∧ l.got = Direction.toClient.emits downloadBytes := by
  obtain ⟨l, hl⟩ : ∃ l, run (Leg.step Direction.toClient.pump channelCapacity) downloadRun
      (Leg.opened downloadBytes true) = some l :=
    Option.isSome_iff_exists.mp (by decide +kernel)
  have hend : l.ended = true := by
    have : (run (Leg.step Direction.toClient.pump channelCapacity) downloadRun
        (Leg.opened downloadBytes true)).map (fun l => l.ended) = some true := by
      decide +kernel
    simpa [hl] using this
  have hkeeps : ∀ a ∈ downloadRun, ∀ l : Leg (RpcResult Bytes), Leg.Keeps a l := by
    simp [downloadRun, Leg.Keeps, Leg.Loses]
  obtain ⟨-, hruns, -⟩ := inboundPumps_obey downloadBytes
  exact ⟨l, hl, (hruns .toClient downloadRun l (runs_of_run hl hkeeps)).2.1 hend⟩

end reference

/-! ### A pump whose consumer is gone -/

section quit

variable [Deps]

/-- Behind a non-terminal error, and only there, the pumps go on without looking at the
channel. -/
theorem goesOn_iff (d : Direction) (f : StreamingFrame) :
    Leg.GoesOn d.pump f ↔ ∃ err, f = .error err ∧ err.terminal = false := by
  constructor
  · rintro ⟨item, harm⟩
    cases f with
    | error err =>
        refine ⟨err, rfl, ?_⟩
        have hnext : errorFrame err = .send item .always := by cases d <;> exact harm
        simp only [errorFrame, Arm.send.injEq, ite_eq_right_iff, reduceCtorEq, imp_false,
          Bool.not_eq_true] at hnext
        exact hnext.2
    | _ => cases d <;> cases harm
  · rintro ⟨⟨message, terminal⟩, rfl, hterminal⟩
    obtain rfl : terminal = false := hterminal
    cases d <;> exact ⟨_, rfl⟩

/-- **When a pump stops behind a consumer that is gone**: exactly when it does not read any more, or
the next frame is not a non-terminal error. -/
theorem inboundPumps_quit_iff (d : Direction) (bs : Bytes) (closed : Bool) (as : List LegAct)
    (l : Leg (RpcResult Bytes))
    (hrun : run (Leg.step d.pump channelCapacity) as (Leg.opened bs closed) = some l)
    (hdrop : l.dropped = true) : l.Quits d.pump channelCapacity ↔
      ¬ (l.Listening ∧ ∃ err, l.nextFrame d.pump = some (.error err) ∧ err.terminal = false) := by
  have htidy : l.Tidy := (runs_any_iff.mpr hrun).invariant (fun _ _ _ _ hl hs => hl.step hs)
    (Leg.tidy_opened bs closed)
  rw [Leg.quits_iff htidy hdrop]
  apply not_congr
  apply and_congr_right
  intro _
  constructor
  · rintro ⟨f, hnext, hgoes⟩
    obtain ⟨err, rfl, hterminal⟩ := (goesOn_iff d f).mp hgoes
    exact ⟨err, hnext, hterminal⟩
  · rintro ⟨err, hnext, hterminal⟩
    exact ⟨_, hnext, (goesOn_iff d _).mpr ⟨err, rfl, hterminal⟩⟩

end quit

section reference

attribute [local instance] reference

/-- A response pump on two chunks, the consumer of which is gone from the start. -/
def chunksUnread : Leg (RpcResult Bytes) :=
  { Leg.opened [0x21, 0x01, 0x07, 0x21, 0x01, 0x08] false with dropped := true }

theorem inboundPumps_quit_iff_chunks :
    chunksUnread.Quits Direction.toClient.pump channelCapacity := by
  refine (inboundPumps_quit_iff .toClient [0x21, 0x01, 0x07, 0x21, 0x01, 0x08] false
    [.dropReceiver] chunksUnread rfl rfl).mpr ?_
  rintro ⟨-, err, hnext, -⟩
  have hchunk : chunksUnread.nextFrame Direction.toClient.pump = some (.responseChunk [7]) := by
    decide +kernel
  rw [hchunk] at hnext
  cases hnext

/-- A pump on two non-terminal errors, the consumer of which is gone from the start. -/
def errorsUnread : Leg (RpcResult Bytes) :=
  { Leg.opened [0x40, 0x03, 0x01, 0x78, 0x00, 0x40, 0x03, 0x01, 0x78, 0x00] false with
    dropped := true }

def lingeringRun : List LegAct := [.deliver 10, .read, .send, .read, .send]

theorem errorsUnread_lingers (d : Direction) :
    ∃ l, run (Leg.step d.pump channelCapacity) lingeringRun errorsUnread = some l ∧
      (errorsUnread.framesRead d.pump channelCapacity lingeringRun).length = 2 := by
  have hsome : (run (Leg.step d.pump channelCapacity) lingeringRun errorsUnread).isSome = true := by
    cases d <;> decide +kernel
  obtain ⟨l, hl⟩ := Option.isSome_iff_exists.mp hsome
  exact ⟨l, hl, by cases d <;> decide +kernel⟩

/-- The consumer drops its end before the first frame, and the pump takes both frames. -/
theorem inboundPumps_outlive_consumer :
    run (Leg.step pumpInboundResponses channelCapacity) [.dropReceiver] (Leg.opened
      [0x40, 0x03, 0x01, 0x78, 0x00, 0x40, 0x03, 0x01, 0x78, 0x00] false) = some errorsUnread ∧
    ¬ errorsUnread.Quits pumpInboundResponses channelCapacity ∧
    ¬ errorsUnread.Quits pumpInboundRequests channelCapacity := by
  have hlingers : ∀ d : Direction, ¬ errorsUnread.Quits d.pump channelCapacity := by
    intro d hquits
    obtain ⟨l, hrun, htwo⟩ := errorsUnread_lingers d
    have hone := (hquits lingeringRun l hrun).1
    omega
  exact ⟨rfl, hlingers .toClient, hlingers .toServer⟩

end reference

end NerwRpc
