import NerwRpc.FramePump
import NerwRpc.Streaming

/-! # The two inbound pumps

`pumpInboundRequests` runs on the server and feeds the handler's request stream;
`pumpInboundResponses` runs on the client and feeds the caller's response stream.  They are
the same loop with the two directions exchanged.

`forwards_cut` is what the request pump makes of a stream of chunk frames that is
cut anywhere: the chunks that are whole, up to the first oversized one, and an error when the
cut is inside a frame. -/

namespace NerwRpc

open ByteStream FramePump

/-- The capacity of the four channels of a call. -/
def channelCapacity : ℕ := 16

theorem channelCapacity_pos : 0 < channelCapacity := by decide

/-! ### Request chunks on the wire -/

/-- The frame of a request chunk. -/
def chunkFrame (chunk : Bytes) : Bytes :=
  opcodeStreamingRequestChunk :: (Leb128.encode chunk.length ++ chunk)

/-- The frames of a list of request chunks. -/
def chunkFrames (chunks : List Bytes) : Bytes := (chunks.map chunkFrame).flatten

@[simp] theorem chunkFrames_nil : chunkFrames [] = [] := rfl

@[simp] theorem chunkFrames_cons (c : Bytes) (cs : List Bytes) :
    chunkFrames (c :: cs) = chunkFrame c ++ chunkFrames cs := rfl

theorem chunkFrames_append (cs ds : List Bytes) :
    chunkFrames (cs ++ ds) = chunkFrames cs ++ chunkFrames ds := by
  simp [chunkFrames]

theorem chunkFrame_ne_nil (c : Bytes) : chunkFrame c ≠ [] := by simp [chunkFrame]

/-! ### The pumps -/

variable [Deps]

/-- The arm of a frame the other side may not send. -/
def unexpectedFrame (direction : String) (other : StreamingFrame) : Arm (RpcResult Bytes) :=
  .send (.error (.malformedFrame ("unexpected " ++ direction ++ " frame: " ++ debugFrame other)))
    .last

/-- The arm of an error frame. -/
def errorFrame (err : StreamingError) : Arm (RpcResult Bytes) :=
  .send (.error (.handler err.message)) (if err.terminal then .last else .always)

def pumpInboundRequests : Pump RpcError StreamingFrame (RpcResult Bytes) where
  read := readStreamingFrame
  onFrame
    | .requestChunk bytes => .send (.ok bytes) .whileOpen
    | .requestEnd => .stop
    | .error err => errorFrame err
    | other => unexpectedFrame "client→server" other
  onError e := .error e
  regular := regular_readStreamingFrame
  shortens _ _ _ h := readStreamingFrame_shortens h

def pumpInboundResponses : Pump RpcError StreamingFrame (RpcResult Bytes) where
  read := readStreamingFrame
  onFrame
    | .responseChunk bytes => .send (.ok bytes) .whileOpen
    | .responseEnd => .stop
    | .error err => errorFrame err
    | other => unexpectedFrame "server→client" other
  onError e := .error e
  regular := regular_readStreamingFrame
  shortens _ _ _ h := readStreamingFrame_shortens h

/-! ### Reading a request chunk -/

/-- What a request pump can be in the middle of: chunk frames, and then nothing or the
end-of-requests frame. -/
structure RequestStream (cs : List Bytes) (tail : Bytes) : Prop where
  sizes : ∀ c ∈ cs, c.length ≤ usizeMax
  tail : tail = [] ∨ tail = [opcodeStreamingRequestEnd]

theorem RequestStream.cons_inv {c : Bytes} {cs : List Bytes} {tail : Bytes}
    (h : RequestStream (c :: cs) tail) : c.length ≤ usizeMax ∧ RequestStream cs tail :=
  ⟨h.sizes c List.mem_cons_self, fun d hd => h.sizes d (List.mem_cons_of_mem c hd), h.tail⟩

theorem frameBytes_requestChunk {c : Bytes} (h : c.length ≤ usizeMax) :
    frameBytes (.requestChunk c) = .ok (chunkFrame c) :=
  lengthPrefixed_ok (lt_of_le_usizeMax h) _

theorem exactFrame_chunkFrame {c : Bytes} (h : c.length ≤ maxStreamingPayloadLen) :
    ExactFrame readStreamingFrame (chunkFrame c) (.requestChunk c) IsTransportRead :=
  exactFrame_of_exact ((exact_readLengthPrefixed h).bind_pure rfl)

theorem exactFrame_requestEnd :
    ExactFrame readStreamingFrame [opcodeStreamingRequestEnd] .requestEnd IsTransportRead :=
  exactFrame_opcode rfl

theorem readLengthPrefixed_oversized {n : ℕ} (h : maxStreamingPayloadLen < n) (hn : n ≤ usizeMax)
    (rest : Bytes) (t : StreamEnd) :
    ∃ e, readLengthPrefixed ⟨Leb128.encode n ++ rest, t⟩ = .ready (.error e) := by
  have hread := (exact_readVarintU64 (lt_of_le_usizeMax hn)).reads rest t
  rw [readLengthPrefixed, ReadM.bind_ok _ hread, if_neg (by omega), if_pos h]
  exact ⟨_, rfl⟩

theorem read_oversized {n : ℕ} {p q body : Bytes} (h : maxStreamingPayloadLen < n)
    (hn : n ≤ usizeMax) (hpq : p ++ q = opcodeStreamingRequestChunk :: (Leb128.encode n ++ body)) :
    (readStreamingFrame ⟨p, .live⟩ = .pending ∨
      ∃ e, readStreamingFrame ⟨p, .live⟩ = .ready (.error e)) ∧
    (p ≠ [] → ∃ e, readStreamingFrame ⟨p, .finished⟩ = .ready (.error e)) := by
  cases p with
  | nil => exact ⟨.inl rfl, fun h' => absurd rfl h'⟩
  | cons b p =>
      obtain ⟨rfl, hpq'⟩ : b = opcodeStreamingRequestChunk ∧
          p ++ q = Leb128.encode n ++ body := by simpa using hpq
      rw [readStreamingFrame_cons, readStreamingFrame_cons]
      have hbehind : readFrameBehind [opcodeStreamingRequestChunk] =
          ((readLengthPrefixed >>= fun bytes => pure (.requestChunk bytes)) >>=
            fun f => pure (some f)) := rfl
      obtain ⟨q', hq', hp⟩ | ⟨p', rfl, -⟩ := proper_prefix_append hpq'
      · have hvar := exact_readVarintU64 (lt_of_le_usizeMax hn)
        have hwait := hvar.waits p q' hp hq'
        obtain ⟨e, -, hcut⟩ := hvar.cuts p q' hp hq'
        rw [hbehind]
        refine ⟨.inl (ReadM.bind_pending _ (ReadM.bind_pending _ ?_)), fun _ =>
          ⟨e, ReadM.bind_error _ (ReadM.bind_error _ ?_)⟩⟩
        · exact ReadM.bind_pending _ hwait
        · exact ReadM.bind_error _ hcut
      · obtain ⟨e, he⟩ := readLengthPrefixed_oversized h hn p' .live
        obtain ⟨e', he'⟩ := readLengthPrefixed_oversized h hn p' .finished
        rw [hbehind]
        exact ⟨.inr ⟨e, ReadM.bind_error _ (ReadM.bind_error _ he)⟩,
          fun _ => ⟨e', ReadM.bind_error _ (ReadM.bind_error _ he')⟩⟩

/-! ### A stream of request chunks, cut anywhere -/

/-- Behind the last chunk there is at most the end frame. -/
theorem RequestStream.nil_cut {tail p q : Bytes} (hs : RequestStream [] tail)
    (hpq : p ++ q = chunkFrames [] ++ tail) :
    p = [] ∨ p = [opcodeStreamingRequestEnd] ∧ q = [] := by
  cases p with
  | nil => exact .inl rfl
  | cons b p =>
      obtain rfl | rfl := hs.tail
      · simp at hpq
      · obtain ⟨rfl, rfl, rfl⟩ : b = opcodeStreamingRequestEnd ∧ p = [] ∧ q = [] := by
          simpa using hpq
        exact .inr ⟨rfl, rfl⟩

/-- A read on the first bytes of a request stream takes its first chunk, or its end, or fails
on an oversized chunk. -/
theorem read_cut {cs : List Bytes} {tail p q : Bytes}
    {r : RpcResult (Option StreamingFrame × RecvStream)}
    (hs : RequestStream cs tail) (hpq : p ++ q = chunkFrames cs ++ tail)
    (hr : readStreamingFrame ⟨p, .live⟩ = .ready r) :
    (∃ c cs' p', cs = c :: cs' ∧ p = chunkFrame c ++ p' ∧
      r = .ok (some (.requestChunk c), ⟨p', .live⟩)) ∨
    (cs = [] ∧ p = [opcodeStreamingRequestEnd] ∧ q = [] ∧
      r = .ok (some .requestEnd, ⟨[], .live⟩)) ∨
    ∃ c ∈ cs, maxStreamingPayloadLen < c.length ∧ ∃ e, r = .error e := by
  cases cs with
  | nil =>
      refine .inr (.inl ?_)
      obtain rfl | ⟨rfl, rfl⟩ := hs.nil_cut hpq
      · simp at hr
      · have hend := exactFrame_requestEnd.reads [] .live
        rw [List.append_nil, hr] at hend
        cases hend
        exact ⟨rfl, rfl, rfl, rfl⟩
  | cons c cs =>
      rw [chunkFrames_cons, List.append_assoc] at hpq
      by_cases hc : c.length ≤ maxStreamingPayloadLen
      · have hexact := exactFrame_chunkFrame hc
        obtain ⟨q', hq', hp⟩ | ⟨p', rfl, -⟩ := proper_prefix_append hpq
        · rw [hexact.waits p q' hp hq'] at hr
          cases hr
        · rw [hexact.reads p' .live] at hr
          cases hr
          exact .inl ⟨c, cs, p', rfl, rfl, rfl⟩
      · refine .inr (.inr ⟨c, List.mem_cons_self, by omega, ?_⟩)
        have hpq' : p ++ q = opcodeStreamingRequestChunk ::
            (Leb128.encode c.length ++ (c ++ (chunkFrames cs ++ tail))) := by
          simpa [chunkFrame] using hpq
        obtain hwait | ⟨e, he⟩ := (read_oversized (by omega) hs.cons_inv.1 hpq').1
        · rw [hwait] at hr
          cases hr
        · rw [he] at hr
          cases hr
          exact ⟨e, rfl⟩

theorem forwards_chunkFrame {c : Bytes} (h : c.length ≤ maxStreamingPayloadLen) (more : Bytes) :
    pumpInboundRequests.forwards (chunkFrame c ++ more) =
      .ok c :: pumpInboundRequests.forwards more :=
  pumpInboundRequests.forwards_frame (exactFrame_chunkFrame h)

/-- **What the pump makes of a request stream that ends after any number of bytes**: the
chunks that are whole, up to the first oversized one, and an error unless the end is between
two frames. -/
theorem forwards_cut : ∀ {cs : List Bytes} {tail p q : Bytes}, RequestStream cs tail →
    p ++ q = chunkFrames cs ++ tail → ∃ ws rest, cs = ws ++ rest ∧
      ((pumpInboundRequests.forwards p = ws.map .ok ∧
        (∀ c ∈ ws, c.length ≤ maxStreamingPayloadLen) ∧
        (p = chunkFrames ws ∨ rest = [] ∧ q = [])) ∨
      ∃ e, pumpInboundRequests.forwards p = ws.map .ok ++ [.error e])
  | [], tail, p, q, hs, hpq => by
      refine ⟨[], [], rfl, ?_⟩
      obtain rfl | ⟨rfl, rfl⟩ := hs.nil_cut hpq
      · exact .inl ⟨rfl, by simp, .inl rfl⟩
      · exact .inl ⟨pumpInboundRequests.forwards_frame exactFrame_requestEnd, by simp,
          .inr ⟨rfl, rfl⟩⟩
  | c :: cs, tail, p, q, hs, hpq => by
      rw [chunkFrames_cons, List.append_assoc] at hpq
      by_cases hnil : p = []
      · subst hnil
        exact ⟨[], c :: cs, rfl, .inl ⟨rfl, by simp, .inl rfl⟩⟩
      by_cases hc : c.length ≤ maxStreamingPayloadLen
      · obtain ⟨q', hq', hp⟩ | ⟨p', rfl, hp'⟩ := proper_prefix_append hpq
        · obtain ⟨e, -, he⟩ := (exactFrame_chunkFrame hc).cuts p q' hp hnil hq'
          exact ⟨[], c :: cs, rfl, .inr ⟨e, pumpInboundRequests.forwards_error he⟩⟩
        · obtain ⟨ws, rest, rfl, hcase⟩ := forwards_cut hs.cons_inv.2 hp'
          refine ⟨c :: ws, rest, rfl, ?_⟩
          rw [forwards_chunkFrame hc]
          obtain ⟨hf, hfit, hwhole⟩ | ⟨e, hf⟩ := hcase
          · refine .inl ⟨by rw [hf]; rfl, ?_, ?_⟩
            · simpa using ⟨hc, hfit⟩
            · obtain rfl | h := hwhole
              · exact .inl rfl
              · exact .inr h
          · exact .inr ⟨e, by rw [hf]; rfl⟩
      · have hpq' : p ++ q = opcodeStreamingRequestChunk ::
            (Leb128.encode c.length ++ (c ++ (chunkFrames cs ++ tail))) := by
          simpa [chunkFrame] using hpq
        obtain ⟨e, he⟩ := (read_oversized (by omega) hs.cons_inv.1 hpq').2 hnil
        exact ⟨[], c :: cs, rfl, .inr ⟨e, pumpInboundRequests.forwards_error he⟩⟩

end NerwRpc
