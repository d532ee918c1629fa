import NerwRpc.ByteStream
import Mathlib.Data.List.Infix

/-! # Streams of frames

A frame reader `m : ReadM ε (Option φ)` returns `none` at a clean end of the stream.
`ExactFrame m bs f P` says that it consumes exactly the bytes `bs` of the frame `f`, waits
inside them, and fails with an error in `P` when the stream ends inside them; `readFrames`
reads until the stream ends.

`readFrames_cut` is the law of a whole stream: of a concatenation of frames cut after any
number of bytes it reads the frames that are whole, and ends cleanly exactly at a frame
boundary. -/

namespace ByteStream

variable {ε φ : Type} {P : ε → Prop}

structure ExactFrame (m : ReadM ε (Option φ)) (bs : List UInt8) (f : φ) (P : ε → Prop) :
    Prop where
  ne_nil : bs ≠ []
  reads : ∀ rest t, m ⟨bs ++ rest, t⟩ = .ready (.ok (some f, ⟨rest, t⟩))
  waits : ∀ p q, p ++ q = bs → q ≠ [] → m ⟨p, .live⟩ = .pending
  cuts : ∀ p q, p ++ q = bs → p ≠ [] → q ≠ [] →
    ∃ e, P e ∧ m ⟨p, .finished⟩ = .ready (.error e)

/-- How a sequence of reads came to its end. -/
inductive FramesEnd (ε : Type) where
  | eof
  | failed (e : ε)
  | waiting
  | outOfFuel
deriving DecidableEq, Repr

/-- Read frames until there are no more. -/
def readFrames (m : ReadM ε (Option φ)) : ℕ → RecvStream → List φ × FramesEnd ε
  | 0, _ => ([], .outOfFuel)
  | n + 1, s => match m s with
    | .pending => ([], .waiting)
    | .ready (.error e) => ([], .failed e)
    | .ready (.ok (none, _)) => ([], .eof)
    | .ready (.ok (some f, s)) => (f :: (readFrames m n s).1, (readFrames m n s).2)

theorem readFrames_some {m : ReadM ε (Option φ)} {s s' : RecvStream} {f : φ} (n : ℕ)
    (h : m s = .ready (.ok (some f, s'))) :
    readFrames m (n + 1) s = (f :: (readFrames m n s').1, (readFrames m n s').2) := by
  simp [readFrames, h]

theorem readFrames_none {m : ReadM ε (Option φ)} {s s' : RecvStream} (n : ℕ)
    (h : m s = .ready (.ok (none, s'))) : readFrames m (n + 1) s = ([], .eof) := by
  simp [readFrames, h]

theorem readFrames_error {m : ReadM ε (Option φ)} {s : RecvStream} {e : ε} (n : ℕ)
    (h : m s = .ready (.error e)) : readFrames m (n + 1) s = ([], .failed e) := by
  simp [readFrames, h]

theorem readFrames_fuel {m : ReadM ε (Option φ)}
    (hm : ∀ s f s', m s = .ready (.ok (some f, s')) → s'.buf.length < s.buf.length) :
    ∀ (n k : ℕ) (s : RecvStream), s.buf.length < n → s.buf.length < k →
      readFrames m n s = readFrames m k s
  | n + 1, k + 1, s, hn, hk => by
      unfold readFrames
      cases hr : m s with
      | pending => rfl
      | ready r =>
          obtain e | ⟨_ | f, s'⟩ := r
          · rfl
          · rfl
          · have hs := hm s f s' hr
            simp only [readFrames_fuel hm n k s' (by omega) (by omega)]

/-- **A stream of frames cut after `k` bytes**: the frames that are whole are read, in order,
and the stream ends cleanly if the cut is at a frame boundary and in an error in `P` if it is
inside a frame. -/
theorem readFrames_cut {m : ReadM ε (Option φ)} {s' : RecvStream}
    (hnil : m ⟨[], .finished⟩ = .ready (.ok (none, s'))) {fs : List φ} {bss : List (List UInt8)}
    (h : List.Forall₂ (fun f bs => ExactFrame m bs f P) fs bss) :
    ∀ k fuel, k ≤ bss.flatten.length → k < fuel →
      ∃ n fin, n ≤ fs.length ∧ (bss.take n).flatten.length ≤ k ∧
        (n < fs.length → k < (bss.take (n + 1)).flatten.length) ∧
        readFrames m fuel ⟨bss.flatten.take k, .finished⟩ = (fs.take n, fin) ∧
        (k = (bss.take n).flatten.length → fin = .eof) ∧
        (k ≠ (bss.take n).flatten.length → ∃ e, P e ∧ fin = .failed e) := by
  induction h with
  | nil =>
      intro k fuel hk hfuel
      obtain ⟨fuel, rfl⟩ : ∃ n, fuel = n + 1 := ⟨fuel - 1, by omega⟩
      obtain rfl : k = 0 := by simpa using hk
      exact ⟨0, .eof, by simp, by simp, by simp, readFrames_none fuel (by simpa using hnil),
        by simp, by simp⟩
  | @cons f bs fs bss hf _ ih =>
      intro k fuel hk hfuel
      obtain ⟨fuel, rfl⟩ : ∃ n, fuel = n + 1 := ⟨fuel - 1, by omega⟩
      have hpos : 0 < bs.length := List.length_pos_iff.mpr hf.ne_nil
      by_cases hwhole : bs.length ≤ k
      · have htake : (bs :: bss).flatten.take k = bs ++ bss.flatten.take (k - bs.length) := by
          rw [List.flatten_cons, List.take_append, List.take_of_length_le hwhole]
        have hk' : k - bs.length ≤ bss.flatten.length := by
          simp only [List.flatten_cons, List.length_append] at hk
          omega
        obtain ⟨n, fin, hn, hle, hlt, hrun, heof, hfail⟩ :=
          ih (k - bs.length) fuel hk' (by omega)
        refine ⟨n + 1, fin, by simpa using hn, ?_, ?_, ?_, ?_, ?_⟩
        · simp only [List.take_succ_cons, List.flatten_cons, List.length_append]
          omega
        · intro h'
          have := hlt (by simpa using h')
          simp only [List.take_succ_cons, List.flatten_cons, List.length_append]
          omega
        · rw [htake, readFrames_some fuel (hf.reads _ _), hrun, List.take_succ_cons]
        · intro h'
          apply heof
          simp only [List.take_succ_cons, List.flatten_cons, List.length_append] at h'
          omega
        · intro h'
          apply hfail
          simp only [List.take_succ_cons, List.flatten_cons, List.length_append] at h'
          omega
      · have htake : (bs :: bss).flatten.take k = bs.take k := by
          rw [List.flatten_cons, List.take_append_of_le_length (by omega)]
        have hrest : bs.drop k ≠ [] := by
          rw [← List.length_pos_iff, List.length_drop]
          omega
        rw [htake]
        by_cases hk0 : k = 0
        · subst hk0
          exact ⟨0, .eof, by simp, by simp, fun _ => by simpa using hpos,
            readFrames_none fuel (by simpa using hnil), by simp, by simp⟩
        · have hfirst : bs.take k ≠ [] := by
            rw [← List.length_pos_iff, List.length_take]
            omega
          obtain ⟨e, he, hme⟩ := hf.cuts _ _ (List.take_append_drop k bs) hfirst hrest
          refine ⟨0, .failed e, by simp, by simp, fun _ => ?_, readFrames_error fuel hme,
            fun h' => absurd h' (by simpa using hk0), fun _ => ⟨e, he, rfl⟩⟩
          simp only [Nat.zero_add, List.take_succ_cons, List.take_zero, List.flatten_cons,
            List.flatten_nil, List.append_nil]
          omega

/-- A cut after `k` bytes falls between two frames. -/
def AtBoundary (bss : List (List UInt8)) (k : ℕ) : Prop :=
  ∃ j, k = (bss.take j).flatten.length

theorem length_flatten_take_mono {bss : List (List UInt8)} {i j : ℕ} (h : i ≤ j) :
    (bss.take i).flatten.length ≤ (bss.take j).flatten.length :=
  (List.take_prefix_take_left h).flatten.length_le

/-- A cut at or after `n` whole frames and before the end of the next one is at a boundary
only if it is right behind the `n` frames. -/
theorem atBoundary_iff {bss : List (List UInt8)} {k n : ℕ} (hle : (bss.take n).flatten.length ≤ k)
    (hlt : n < bss.length → k < (bss.take (n + 1)).flatten.length) :
    AtBoundary bss k ↔ k = (bss.take n).flatten.length := by
  refine ⟨?_, fun h => ⟨n, h⟩⟩
  rintro ⟨j, rfl⟩
  by_cases hj : j ≤ n
  · exact le_antisymm (length_flatten_take_mono hj) hle
  · by_cases hn : n < bss.length
    · have h1 := hlt hn
      have h2 : (bss.take (n + 1)).flatten.length ≤ (bss.take j).flatten.length :=
        length_flatten_take_mono (by omega)
      omega
    · rw [List.take_of_length_le (by omega), List.take_of_length_le (by omega)]

end ByteStream
