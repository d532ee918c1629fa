import NerwRpc.ByteStream

/-! # One direction of a connection that may be lost

Bytes that one side has written travel in order and arrive in pieces; behind the last of them the
end of the stream arrives, if the sender has ended it.  When the connection is lost, what is on its
way is lost with it: the reader still has what has arrived, and then an error, unless the end had
arrived before.

* `Pipe.Sound` is what every action keeps: the end of the stream is seen behind the last byte only.
* `Settles m`: a reader does not wait on a stream that has ended or broken off. -/

namespace ByteStream

/-- The bytes on their way, whether the sender has ended the stream, and the reader's end of it. -/
structure Pipe where
  inflight : List UInt8
  closed : Bool
  recv : RecvStream
deriving DecidableEq, Repr

namespace Pipe

def start : Pipe := ⟨[], false, ⟨[], .live⟩⟩

def push (p : Pipe) (bs : List UInt8) : Pipe := { p with inflight := p.inflight ++ bs }

/-- The sender finishes its half, or drops it. -/
def close (p : Pipe) : Pipe := { p with closed := true }

/-- Some bytes arrive. -/
def deliver (n : ℕ) (p : Pipe) : Option Pipe :=
  if 0 < n ∧ n ≤ p.inflight.length then
    some { p with inflight := p.inflight.drop n
                  recv := ⟨p.recv.buf ++ p.inflight.take n, p.recv.tail⟩ }
  else none

/-- The end of the stream arrives. -/
def deliverFin (p : Pipe) : Option Pipe :=
  if p.closed = true ∧ p.inflight = [] ∧ p.recv.tail = .live then
    some { p with recv := ⟨p.recv.buf, .finished⟩ }
  else none

/-- The connection is lost. -/
def cut (e : ReadError) (p : Pipe) : Pipe :=
  match p.recv.tail with
  | .live => { p with inflight := [], recv := ⟨p.recv.buf, .broken e⟩ }
  | _ => p

/-- What has been written and not been lost. -/
def content (p : Pipe) : List UInt8 := p.recv.buf ++ p.inflight

/-- Neither the end nor a failure is seen before the last byte. -/
def Sound (p : Pipe) : Prop :=
  p.recv.tail = .live ∨ p.inflight = [] ∧ (p.recv.tail = .finished → p.closed = true)

@[simp] theorem push_closed (p : Pipe) (bs : List UInt8) : (p.push bs).closed = p.closed := rfl
@[simp] theorem close_closed (p : Pipe) : p.close.closed = true := rfl
@[simp] theorem close_content (p : Pipe) : p.close.content = p.content := rfl

@[simp] theorem push_content (p : Pipe) (bs : List UInt8) :
    (p.push bs).content = p.content ++ bs := (List.append_assoc ..).symm

theorem sound_start : start.Sound := .inl rfl

variable {p p' : Pipe}

theorem Sound.close (h : p.Sound) : p.close.Sound := by
  obtain hlive | ⟨hnil, -⟩ := h
  · exact .inl hlive
  · exact .inr ⟨hnil, fun _ => rfl⟩

theorem sound_push (h : p.recv.tail = .live) (bs : List UInt8) : (p.push bs).Sound := .inl h

theorem Sound.finished (h : p.Sound) (hfin : p.recv.tail = .finished) :
    p.closed = true ∧ p.recv.buf = p.content := by
  obtain hlive | ⟨hnil, hclosed⟩ := h
  · rw [hfin] at hlive
    cases hlive
  · exact ⟨hclosed hfin, by rw [content, hnil, List.append_nil]⟩

theorem Sound.live (h : p.Sound) (hclosed : p.closed = false)
    (hkept : ∀ e, p.recv.tail ≠ .broken e) : p.recv.tail = .live := by
  cases htail : p.recv.tail with
  | live => rfl
  | finished =>
      rw [(h.finished htail).1] at hclosed
      cases hclosed
  | broken e => exact absurd htail (hkept e)

theorem Sound.broken (h : p.Sound) (hclosed : p.closed = false) (hopen : p.recv.tail ≠ .live) :
    ∃ e, p.recv.tail = .broken e := by
  by_contra hkept
  exact hopen (h.live hclosed fun e he => hkept ⟨e, he⟩)

theorem deliver_iff {n : ℕ} : p.deliver n = some p' ↔ 0 < n ∧ n ≤ p.inflight.length ∧
    p' = { p with inflight := p.inflight.drop n
                  recv := ⟨p.recv.buf ++ p.inflight.take n, p.recv.tail⟩ } := by
  simp [deliver, and_assoc, @eq_comm _ _ p']

theorem deliverFin_iff : p.deliverFin = some p' ↔
    p.closed = true ∧ p.inflight = [] ∧ p.recv.tail = .live ∧
      p' = { p with recv := ⟨p.recv.buf, .finished⟩ } := by
  simp [deliverFin, and_assoc, @eq_comm _ _ p']

/-- Some bytes arrive, or the end of the stream: what has been written stays the same. -/
structure Arrives (p p' : Pipe) : Prop where
  content : p'.content = p.content
  closed : p'.closed = p.closed
  tail : p'.recv.tail = p.recv.tail ∧ p'.inflight.length < p.inflight.length ∨
    p.recv.tail = .live ∧ p'.recv.tail = .finished ∧ p'.inflight = p.inflight
  sound : p.Sound → p'.Sound

theorem arrives_deliver {n : ℕ} (h : p.deliver n = some p') : p.Arrives p' := by
  obtain ⟨hpos, hle, rfl⟩ := deliver_iff.mp h
  refine ⟨by simp [Pipe.content], rfl, .inl ⟨rfl, ?_⟩, fun hs => ?_⟩
  · rw [List.length_drop]
    omega
  · obtain hlive | ⟨hnil, -⟩ := hs
    · exact .inl hlive
    · rw [hnil, List.length_nil] at hle
      omega

theorem arrives_deliverFin (h : p.deliverFin = some p') : p.Arrives p' := by
  obtain ⟨hclosed, hnil, hlive, rfl⟩ := deliverFin_iff.mp h
  exact ⟨rfl, rfl, .inr ⟨hlive, rfl, rfl⟩, fun _ => .inr ⟨hnil, fun _ => hclosed⟩⟩

theorem Arrives.broken_iff (h : p.Arrives p') (e : ReadError) :
    p'.recv.tail = .broken e ↔ p.recv.tail = .broken e := by
  obtain ⟨hsame, -⟩ | ⟨hlive, hfin, -⟩ := h.tail
  · rw [hsame]
  · simp [hlive, hfin]

theorem Arrives.not_live (h : p.Arrives p') (hp : p.recv.tail ≠ .live) :
    p'.recv.tail ≠ .live := by
  obtain ⟨hsame, -⟩ | ⟨hlive, -⟩ := h.tail
  · rwa [hsame]
  · exact absurd hlive hp

theorem exists_arrives (hclosed : p.closed = true) (hlive : p.recv.tail = .live) :
    (∃ n p', p.deliver n = some p') ∨ ∃ p', p.deliverFin = some p' := by
  by_cases hnil : p.inflight = []
  · exact .inr ⟨_, deliverFin_iff.mpr ⟨hclosed, hnil, hlive, rfl⟩⟩
  · exact .inl ⟨_, _, deliver_iff.mpr ⟨List.length_pos_iff.mpr hnil, Nat.le_refl _, rfl⟩⟩

@[simp] theorem cut_closed (e : ReadError) (p : Pipe) : (p.cut e).closed = p.closed := by
  unfold cut
  split <;> rfl

theorem Sound.cut (h : p.Sound) (e : ReadError) : (p.cut e).Sound := by
  unfold Pipe.cut
  split
  · exact .inr ⟨rfl, by rintro ⟨⟩⟩
  · exact h

theorem cut_content (e : ReadError) (p : Pipe) : (p.cut e).content <+: p.content := by
  unfold cut
  split
  · simp [content]
  · exact List.prefix_rfl

theorem cut_cases (e : ReadError) (p : Pipe) :
    (p.recv.tail = .live ∧ p.cut e = ⟨[], p.closed, ⟨p.recv.buf, .broken e⟩⟩) ∨
      p.recv.tail ≠ .live ∧ p.cut e = p := by
  unfold cut
  cases ht : p.recv.tail with
  | live => exact .inl ⟨rfl, rfl⟩
  | finished => exact .inr ⟨by rintro ⟨⟩, rfl⟩
  | broken e' => exact .inr ⟨by rintro ⟨⟩, rfl⟩

theorem cut_not_live (e : ReadError) (p : Pipe) : (p.cut e).recv.tail ≠ .live := by
  obtain ⟨-, hcut⟩ | ⟨hne, hcut⟩ := cut_cases e p
  · rw [hcut]
    rintro ⟨⟩
  · rwa [hcut]

theorem cut_broken {e e' : ReadError} (h : p.recv.tail = .broken e') :
    (p.cut e).recv.tail = .broken e' := by
  obtain ⟨hlive, -⟩ | ⟨-, hcut⟩ := cut_cases e p
  · rw [h] at hlive
    cases hlive
  · rw [hcut, h]

theorem cut_eq {e : ReadError} (h : ∀ e', (p.cut e).recv.tail ≠ .broken e') : p.cut e = p := by
  obtain ⟨-, hcut⟩ | ⟨-, hcut⟩ := cut_cases e p
  · rw [hcut] at h
    exact absurd rfl (h e)
  · exact hcut

/-- What is still to arrive. -/
def toArrive (p : Pipe) : ℕ :=
  p.inflight.length + if p.recv.tail = .live then 1 else 0

@[simp] theorem toArrive_close (p : Pipe) : p.close.toArrive = p.toArrive := rfl

theorem toArrive_push (p : Pipe) (bs : List UInt8) :
    (p.push bs).toArrive = p.toArrive + bs.length := by
  unfold toArrive push
  dsimp only
  rw [List.length_append]
  omega

theorem Arrives.toArrive_lt (h : p.Arrives p') : p'.toArrive < p.toArrive := by
  unfold toArrive
  obtain ⟨hsame, hlt⟩ | ⟨hlive, hfin, hinflight⟩ := h.tail
  · rw [hsame]
    omega
  · rw [hlive, hfin, hinflight]
    simp

theorem toArrive_cut (e : ReadError) (p : Pipe) : (p.cut e).toArrive ≤ p.toArrive := by
  obtain ⟨-, hcut⟩ | ⟨-, hcut⟩ := cut_cases e p
  · rw [hcut]
    simp [toArrive]
  · exact Nat.le_of_eq (congrArg toArrive hcut)

end Pipe

/-! ### Readers of a stream that may break off -/

variable {ε ε' α β : Type}

/-- The reader does not wait once the stream has ended or broken off. -/
def Settles (m : ReadM ε α) : Prop := ∀ s, s.tail ≠ .live → m s ≠ .pending

theorem settles_pure (a : α) : Settles (Pure.pure a : ReadM ε α) := by
  rintro s _ ⟨⟩

theorem settles_lift (r : Except ε α) : Settles (ReadM.lift r) := by
  cases r with
  | ok a => exact settles_pure a
  | error e =>
      rintro s _ ⟨⟩

theorem Settles.bind {m : ReadM ε α} {k : α → ReadM ε β} (hm : Settles m) (hr : Regular m)
    (hk : ∀ a, Settles (k a)) : Settles (m >>= k) := by
  intro s hs h
  cases hms : m s with
  | pending => exact hm s hs hms
  | ready r =>
      cases r with
      | error e =>
          rw [ReadM.bind_error k hms] at h
          cases h
      | ok p =>
          obtain ⟨a, t⟩ := p
          rw [ReadM.bind_ok k hms] at h
          obtain ⟨-, -, htail⟩ := hr.suffix s a t hms
          exact hk a t (htail ▸ hs) h

theorem Settles.mapErr {m : ReadM ε α} (hm : Settles m) (f : ε → ε') : Settles (m.mapErr f) := by
  intro s hs h
  cases hms : m s with
  | pending => exact hm s hs hms
  | ready r => cases r <;> simp [ReadM.mapErr, hms] at h

theorem Settles.attempt {m : ReadM ε α} (hm : Settles m) :
    Settles (m.attempt : ReadM ε' (Except ε α)) := by
  intro s hs h
  cases hms : m s with
  | pending => exact hm s hs hms
  | ready r => cases r <;> simp [ReadM.attempt, hms] at h

theorem settles_readExact (n : ℕ) : Settles (readExact n) := by
  rintro ⟨buf, tail⟩ hs h
  unfold readExact at h
  split_ifs at h
  cases tail with
  | live => exact hs rfl
  | finished => cases h
  | broken e => cases h

theorem settles_readToEnd (limit : ℕ) : Settles (readToEnd limit) := by
  rintro ⟨buf, tail⟩ hs h
  unfold readToEnd at h
  split_ifs at h
  cases tail with
  | live => exact hs rfl
  | finished => cases h
  | broken e => cases h

end ByteStream
