import NerwRpc.Streaming
import NerwRpc.Reference
import Mathlib.Data.List.Forall2

/-! # The frame codec over whole streams

What a sequence of writers puts on a stream, cut after any number of bytes, is read back as
the frames that are whole; the end of the stream is clean exactly when the cut falls between
two frames. -/

namespace NerwRpc

open ByteStream

section codec

variable [Deps]

/-- Write frames one after the other, stopping at the first failure. -/
def writeFrames (send : SendStream) : List StreamingFrame → Sent
  | [] => (.ok (), send)
  | f :: fs => match writeFrame send f with
    | (.ok (), send) => writeFrames send fs
    | (.error e, send) => (.error e, send)

/-- The attempts of writers none of which failed. -/
def attempts (bss : List Bytes) : List WriteAttempt := bss.map fun buf => ⟨buf, buf.length, true⟩

omit [Deps] in
theorem written_of_log {send : SendStream} {bss : List Bytes} (h : send.log = attempts bss) :
    send.written = bss := by
  rw [SendStream.written, h, attempts, List.filter_eq_self.mpr (by simp), List.map_map]
  exact List.map_id bss

omit [Deps] in
theorem wire_of_log {send : SendStream} {bss : List Bytes} (h : send.log = attempts bss) :
    send.wire = bss.flatten := by
  rw [SendStream.wire, h, attempts, List.map_map]
  congr 1
  exact (List.map_congr_left fun b _ => List.take_length).trans (List.map_id bss)

theorem writeFrames_ok {fs : List StreamingFrame} {bss : List Bytes}
    (h : List.Forall₂ (fun f bs => frameBytes f = .ok bs) fs bss) :
    ∀ send : SendStream, send.fate = none →
      ∃ send', writeFrames send fs = (.ok (), send') ∧
        send'.log = send.log ++ attempts bss := by
  induction h with
  | nil => exact fun send _ => ⟨send, rfl, by simp [attempts]⟩
  | @cons f bs fs bss hf _ ih =>
      intro send hfate
      rcases writeFrame_cases send f with ⟨buf, send₁, hb, hw, hlog, hkeep⟩ |
        ⟨_, _, _, _, _, _, _, hne⟩ | ⟨e, he, _⟩
      · obtain rfl : buf = bs := by simpa [hb] using hf
        obtain ⟨send', hw', hlog'⟩ := ih send₁ (hkeep hfate)
        refine ⟨send', by simp only [writeFrames, hw, hw'], ?_⟩
        rw [hlog', hlog, attempts, attempts, List.map_cons, List.append_assoc]
        rfl
      · exact absurd hfate hne
      · rw [hf] at he
        cases he

/-- Of the stream cut after any number of bytes, the reader returns the frames of `fs` that
are whole, in order, and then the end of the stream if the cut is between two frames and a
failed read otherwise. -/
def ReadsWholeFrames (fs : List StreamingFrame) (send : SendStream) : Prop :=
  ∀ k fuel, k ≤ send.wire.length → k < fuel →
    ∃ n fin, n ≤ fs.length ∧ (send.written.take n).flatten.length ≤ k ∧
      (n < fs.length → k < (send.written.take (n + 1)).flatten.length) ∧
      readFrames readStreamingFrame fuel ⟨send.wire.take k, .finished⟩ = (fs.take n, fin) ∧
      (AtBoundary send.written k → fin = .eof) ∧
      (¬ AtBoundary send.written k → ∃ reason, fin = .failed (.transportRead reason))

theorem exactFrames (hc : BodiesRoundTrip) : ∀ fs : List StreamingFrame, (∀ f ∈ fs, BodyFits f) →
    ∃ bss, List.Forall₂ (fun f bs => frameBytes f = .ok bs ∧
      ExactFrame readStreamingFrame bs f IsTransportRead) fs bss
  | [], _ => ⟨[], .nil⟩
  | f :: fs, h => by
      obtain ⟨bss, hbss⟩ := exactFrames hc fs fun g hg => h g (List.mem_cons_of_mem f hg)
      obtain ⟨bs, hbs⟩ := exactFrame_readStreamingFrame hc (h f List.mem_cons_self)
      exact ⟨bs :: bss, .cons hbs hbss⟩

/-- **The frame codec over whole streams and every cut point.** -/
theorem writeFrames_readsWholeFrames (hc : BodiesRoundTrip) (fs : List StreamingFrame)
    (hfit : ∀ f ∈ fs, BodyFits f) :
    ∃ send, writeFrames (SendStream.fresh none) fs = (.ok (), send) ∧
      List.Forall₂ (fun f bs => frameBytes f = .ok bs) fs send.written ∧
      send.wire = send.written.flatten ∧ ReadsWholeFrames fs send := by
  obtain ⟨bss, hbss⟩ := exactFrames hc fs hfit
  have hbytes := hbss.imp fun _ _ h => h.1
  have hexact := hbss.imp fun _ _ h => h.2
  obtain ⟨send, hw, hlog⟩ := writeFrames_ok hbytes (SendStream.fresh none) rfl
  have hlog' : send.log = attempts bss := by simpa [SendStream.fresh] using hlog
  have hwire : send.wire = send.written.flatten := by
    rw [wire_of_log hlog', written_of_log hlog']
  rw [← written_of_log hlog'] at hbytes hexact
  refine ⟨send, hw, hbytes, hwire, ?_⟩
  intro k fuel hk hfuel
  rw [hwire] at hk ⊢
  obtain ⟨n, fin, hn, hle, hlt, hrun, heof, hfail⟩ :=
    readFrames_cut readStreamingFrame_nil_finished hexact k fuel hk hfuel
  have hboundary := atBoundary_iff hle (by rwa [← hexact.length_eq])
  refine ⟨n, fin, hn, hle, hlt, hrun, fun h => heof (hboundary.mp h), fun h => ?_⟩
  obtain ⟨e, ⟨reason, rfl⟩, rfl⟩ := hfail fun h' => h (hboundary.mpr h')
  exact ⟨reason, rfl⟩

end codec

section reference

attribute [local instance] reference

theorem bodiesRoundTrip_reference : BodiesRoundTrip :=
  ⟨ofCodec_roundTrips StreamingOpenRequest.postcard,
    ofCodec_roundTrips StreamingOpenResponse.postcard,
    ofCodec_roundTrips StreamingError.postcard⟩

/-- An open-request, an empty chunk, a chunk and the end of the requests. -/
theorem writeFrames_readsWholeFrames_reference :
    ∃ send, writeFrames (SendStream.fresh none) [.openRequest ⟨"a@1/b/c", 300⟩, .requestChunk [],
        .requestChunk [1, 2, 3], .requestEnd] = (.ok (), send) ∧
      ReadsWholeFrames [.openRequest ⟨"a@1/b/c", 300⟩, .requestChunk [],
        .requestChunk [1, 2, 3], .requestEnd] send := by
  obtain ⟨send, hw, _, _, h⟩ := writeFrames_readsWholeFrames bodiesRoundTrip_reference
    [.openRequest ⟨"a@1/b/c", 300⟩, .requestChunk [], .requestChunk [1, 2, 3], .requestEnd] (by
      intro f hf
      simp only [List.mem_cons, List.not_mem_nil, or_false] at hf
      obtain rfl | rfl | rfl | rfl := hf
      · exact ⟨StreamingOpenRequest.postcard.encode ⟨"a@1/b/c", 300⟩, rfl, by decide⟩
      · exact Nat.zero_le _
      · exact show 3 ≤ maxStreamingPayloadLen by decide
      · trivial)
  exact ⟨send, hw, h⟩

end reference

end NerwRpc
