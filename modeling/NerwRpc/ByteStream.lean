import Mathlib.Data.Nat.Notation
import Mathlib.Tactic.Common

/-! # Byte streams that arrive in fragments

A reader of a byte stream runs on the bytes that have arrived and not been read yet.  When
they do not decide its result it is *pending*; it is run again, from the start of the same
read, once more bytes have arrived.  `ReadM` is the monad of such readers, with the two
primitives `readExact` and `readToEnd`.

* `Stable m`: a result reached on the bytes at hand is the result on every longer input.
  It is preserved by the combinators, and makes a reader blind to the way the bytes were
  cut (`feed_eq`).
* `Regular m`: moreover `m` leaves a suffix of its input and settles once the stream ends.
* `FailsLive m P`: while the stream is open, `m` fails with errors in `P` only.
* `Exact m bs a P`: `m` consumes exactly the bytes `bs`, returns `a`, waits on every proper
  prefix of `bs` that may still grow, and fails with an error in `P` on every proper prefix
  at which the stream ends.  `Exact.bind` composes these facts along a program.

`SendStream` is the other half: the log of the writes attempted on it, with at most one
planned failure after which every write fails. -/

namespace ByteStream

variable {ε ε' α β : Type}

/-- The state of an asynchronous computation. -/
inductive Poll (α : Type) where
  | pending
  | ready (a : α)
deriving DecidableEq, Repr

/-- A failure of the stream below the reader. -/
inductive ReadError where
  | closedStream
  | other (display : String)
deriving DecidableEq, Repr

def ReadError.display : ReadError → String
  | closedStream => "closed stream"
  | other d => d

/-- What follows the bytes that have arrived: more bytes, the end of the stream, or a
failure. -/
inductive StreamEnd where
  | live
  | finished
  | broken (e : ReadError)
deriving DecidableEq, Repr

/-- The receive half: bytes that have arrived and not been read, and what follows them. -/
structure RecvStream where
  buf : List UInt8
  tail : StreamEnd
deriving DecidableEq, Repr

/-- Failures of `readExact`. -/
inductive ReadExactError where
  | finishedEarly (n : ℕ)
  | readError (e : ReadError)
deriving DecidableEq, Repr

def ReadExactError.display : ReadExactError → String
  | finishedEarly n => s!"stream finished early ({n} bytes read)"
  | readError e => e.display

/-- Failures of `readToEnd`. -/
inductive ReadToEndError where
  | tooLong
  | readError (e : ReadError)
deriving DecidableEq, Repr

def ReadToEndError.display : ReadToEndError → String
  | tooLong => "stream too long"
  | readError e => "read error: " ++ e.display

/-- A reader: its result on the bytes at hand, or `pending`. -/
abbrev ReadM (ε α : Type) : Type := RecvStream → Poll (Except ε (α × RecvStream))

namespace ReadM

def pure (a : α) : ReadM ε α := fun s => .ready (.ok (a, s))

def fail (e : ε) : ReadM ε α := fun _ => .ready (.error e)

def bind (m : ReadM ε α) (k : α → ReadM ε β) : ReadM ε β := fun s =>
  match m s with
  | .pending => .pending
  | .ready (.error e) => .ready (.error e)
  | .ready (.ok (a, s')) => k a s'

def mapErr (f : ε → ε') (m : ReadM ε α) : ReadM ε' α := fun s =>
  match m s with
  | .pending => .pending
  | .ready (.error e) => .ready (.error (f e))
  | .ready (.ok r) => .ready (.ok r)

instance : Monad (ReadM ε) where
  pure := ReadM.pure
  bind := ReadM.bind

/-- Run `m` and keep its failure as a value. -/
def attempt (m : ReadM ε α) : ReadM ε' (Except ε α) := fun s =>
  match m s with
  | .pending => .pending
  | .ready (.error e) => .ready (.ok (.error e, s))
  | .ready (.ok (a, s')) => .ready (.ok (.ok a, s'))

/-- A value computed without reading. -/
def lift : Except ε α → ReadM ε α
  | .ok a => ReadM.pure a
  | .error e => ReadM.fail e

@[simp] theorem pure_apply (a : α) (s : RecvStream) :
    (Pure.pure a : ReadM ε α) s = .ready (.ok (a, s)) := rfl

@[simp] theorem fail_apply (e : ε) (s : RecvStream) :
    (fail e : ReadM ε α) s = .ready (.error e) := rfl

@[simp] theorem lift_ok_bind (a : α) (k : α → ReadM ε β) :
    ((lift (.ok a) : ReadM ε α) >>= k) = k a := rfl

@[simp] theorem lift_error_bind (e : ε) (k : α → ReadM ε β) :
    ((lift (.error e) : ReadM ε α) >>= k) = fail e := rfl

theorem bind_assoc {γ : Type} (m : ReadM ε α) (k : α → ReadM ε β) (k' : β → ReadM ε γ) :
    m >>= k >>= k' = m >>= fun a => k a >>= k' := by
  funext s
  show ReadM.bind (ReadM.bind m k) k' s = ReadM.bind m (fun a => ReadM.bind (k a) k') s
  unfold ReadM.bind
  cases m s with
  | pending => rfl
  | ready r => cases r <;> rfl

theorem bind_pending {m : ReadM ε α} {s : RecvStream} (k : α → ReadM ε β)
    (h : m s = .pending) : (m >>= k) s = .pending := by
  show ReadM.bind m k s = _
  simp [ReadM.bind, h]

theorem bind_error {m : ReadM ε α} {s : RecvStream} {e : ε} (k : α → ReadM ε β)
    (h : m s = .ready (.error e)) : (m >>= k) s = .ready (.error e) := by
  show ReadM.bind m k s = _
  simp [ReadM.bind, h]

theorem bind_ok {m : ReadM ε α} {s s' : RecvStream} {a : α} (k : α → ReadM ε β)
    (h : m s = .ready (.ok (a, s'))) : (m >>= k) s = k a s' := by
  show ReadM.bind m k s = _
  simp [ReadM.bind, h]

theorem bind_ok_inv {m : ReadM ε α} {k : α → ReadM ε β} {s s' : RecvStream} {b : β}
    (h : (m >>= k) s = .ready (.ok (b, s'))) :
    ∃ a t, m s = .ready (.ok (a, t)) ∧ k a t = .ready (.ok (b, s')) := by
  cases hm : m s with
  | pending => rw [bind_pending k hm] at h; cases h
  | ready r =>
      cases r with
      | error e => rw [bind_error k hm] at h; cases h
      | ok p =>
          obtain ⟨a, t⟩ := p
          rw [bind_ok k hm] at h
          exact ⟨a, t, rfl, h⟩

theorem bind_error_inv {m : ReadM ε α} {k : α → ReadM ε β} {s : RecvStream} {e : ε}
    (h : (m >>= k) s = .ready (.error e)) :
    m s = .ready (.error e) ∨
      ∃ a t, m s = .ready (.ok (a, t)) ∧ k a t = .ready (.error e) := by
  cases hm : m s with
  | pending => rw [bind_pending k hm] at h; cases h
  | ready r =>
      cases r with
      | error e' =>
          rw [bind_error k hm] at h
          cases h
          exact .inl rfl
      | ok p =>
          obtain ⟨a, t⟩ := p
          rw [bind_ok k hm] at h
          exact .inr ⟨a, t, rfl, h⟩

theorem lift_error_inv {r : Except ε α} {s : RecvStream} {e : ε}
    (h : (lift r) s = .ready (.error e)) : r = .error e := by
  cases r with
  | ok a => cases h
  | error e' =>
      cases h
      rfl

theorem attempt_pending {m : ReadM ε α} {s : RecvStream} (h : m s = .pending) :
    (m.attempt : ReadM ε' (Except ε α)) s = .pending := by simp [attempt, h]

theorem attempt_error {m : ReadM ε α} {s : RecvStream} {e : ε} (h : m s = .ready (.error e)) :
    (m.attempt : ReadM ε' (Except ε α)) s = .ready (.ok (.error e, s)) := by
  simp [attempt, h]

theorem attempt_ok {m : ReadM ε α} {s s' : RecvStream} {a : α}
    (h : m s = .ready (.ok (a, s'))) :
    (m.attempt : ReadM ε' (Except ε α)) s = .ready (.ok (.ok a, s')) := by
  simp [attempt, h]

theorem mapErr_pending {m : ReadM ε α} {s : RecvStream} (f : ε → ε') (h : m s = .pending) :
    m.mapErr f s = .pending := by simp [mapErr, h]

theorem mapErr_error {m : ReadM ε α} {s : RecvStream} {e : ε} (f : ε → ε')
    (h : m s = .ready (.error e)) : m.mapErr f s = .ready (.error (f e)) := by
  simp [mapErr, h]

theorem mapErr_ok {m : ReadM ε α} {s : RecvStream} {r : α × RecvStream} (f : ε → ε')
    (h : m s = .ready (.ok r)) : m.mapErr f s = .ready (.ok r) := by
  simp [mapErr, h]

theorem mapErr_ok_inv {m : ReadM ε α} {s : RecvStream} {r : α × RecvStream} {f : ε → ε'}
    (h : m.mapErr f s = .ready (.ok r)) : m s = .ready (.ok r) := by
  cases hm : m s with
  | pending => rw [mapErr_pending f hm] at h; cases h
  | ready x =>
      cases x with
      | error e => rw [mapErr_error f hm] at h; cases h
      | ok p => rw [mapErr_ok f hm] at h; cases h; rfl

end ReadM

/-- Read exactly `n` bytes. -/
def readExact (n : ℕ) : ReadM ReadExactError (List UInt8) := fun s =>
  if n ≤ s.buf.length then .ready (.ok (s.buf.take n, ⟨s.buf.drop n, s.tail⟩))
  else match s.tail with
    | .live => .pending
    | .finished => .ready (.error (.finishedEarly s.buf.length))
    | .broken e => .ready (.error (.readError e))

/-- Read everything up to the end of the stream, refusing more than `limit` bytes. -/
def readToEnd (limit : ℕ) : ReadM ReadToEndError (List UInt8) := fun s =>
  if limit < s.buf.length then .ready (.error .tooLong)
  else match s.tail with
    | .live => .pending
    | .finished => .ready (.ok (s.buf, ⟨[], .finished⟩))
    | .broken e => .ready (.error (.readError e))

theorem readExact_append (bs rest : List UInt8) (t : StreamEnd) :
    readExact bs.length ⟨bs ++ rest, t⟩ = .ready (.ok (bs, ⟨rest, t⟩)) := by
  simp [readExact]

theorem readExact_one (b : UInt8) (rest : List UInt8) (t : StreamEnd) :
    readExact 1 ⟨b :: rest, t⟩ = .ready (.ok ([b], ⟨rest, t⟩)) :=
  readExact_append [b] rest t

theorem readToEnd_finished {limit : ℕ} {bs : List UInt8} (h : bs.length ≤ limit) :
    readToEnd limit ⟨bs, .finished⟩ = .ready (.ok (bs, ⟨[], .finished⟩)) := by
  have : ¬ limit < bs.length := by omega
  simp [readToEnd, this]

/-! ### Readers do not see how the bytes were cut -/

/-- The result of a read that stopped before the last of the bytes arrived. -/
def extend (more : List UInt8) (t : StreamEnd) :
    Except ε (α × RecvStream) → Except ε (α × RecvStream)
  | .ok (a, s) => .ok (a, ⟨s.buf ++ more, t⟩)
  | .error e => .error e

/-- A result reached on the bytes at hand is the result on every longer input. -/
def Stable (m : ReadM ε α) : Prop :=
  ∀ buf more t r, m ⟨buf, .live⟩ = .ready r →
    m ⟨buf ++ more, t⟩ = .ready (extend more t r) ∧ ∀ a s, r = .ok (a, s) → s.tail = .live

theorem stable_pure (a : α) : Stable (Pure.pure a : ReadM ε α) := by
  intro buf more t r h
  simp only [ReadM.pure_apply, Poll.ready.injEq] at h
  subst h
  exact ⟨rfl, by rintro _ _ ⟨⟩; rfl⟩

theorem stable_fail (e : ε) : Stable (ReadM.fail e : ReadM ε α) := by
  intro buf more t r h
  simp only [ReadM.fail_apply, Poll.ready.injEq] at h
  subst h
  exact ⟨rfl, by rintro _ _ ⟨⟩⟩

theorem stable_bind {m : ReadM ε α} {k : α → ReadM ε β} (hm : Stable m)
    (hk : ∀ a, Stable (k a)) : Stable (m >>= k) := by
  intro buf more t r h
  cases hms : m ⟨buf, .live⟩ with
  | pending => rw [ReadM.bind_pending k hms] at h; cases h
  | ready x =>
      obtain ⟨h1, h2⟩ := hm buf more t x hms
      cases x with
      | error e =>
          rw [ReadM.bind_error k hms] at h
          cases h
          exact ⟨ReadM.bind_error k h1, by rintro _ _ ⟨⟩⟩
      | ok p =>
          obtain ⟨a, s⟩ := p
          have hlive : s = ⟨s.buf, .live⟩ := by rw [← h2 a s rfl]
          rw [ReadM.bind_ok k hms, hlive] at h
          obtain ⟨h3, h4⟩ := hk a s.buf more t r h
          exact ⟨(ReadM.bind_ok k h1).trans h3, h4⟩

theorem stable_mapErr {m : ReadM ε α} (f : ε → ε') (hm : Stable m) : Stable (m.mapErr f) := by
  intro buf more t r h
  cases hms : m ⟨buf, .live⟩ with
  | pending => rw [ReadM.mapErr_pending f hms] at h; cases h
  | ready x =>
      obtain ⟨h1, h2⟩ := hm buf more t x hms
      cases x with
      | error e =>
          rw [ReadM.mapErr_error f hms] at h
          cases h
          exact ⟨ReadM.mapErr_error f h1, by rintro _ _ ⟨⟩⟩
      | ok p =>
          rw [ReadM.mapErr_ok f hms] at h
          cases h
          refine ⟨ReadM.mapErr_ok f h1, fun a s he => ?_⟩
          simp only [Except.ok.injEq] at he
          exact h2 a s (by rw [he])

theorem stable_readExact (n : ℕ) : Stable (readExact n) := by
  intro buf more t r h
  by_cases hn : n ≤ buf.length
  · simp only [readExact, hn, if_true, Poll.ready.injEq] at h
    subst h
    have hn' : n ≤ (buf ++ more).length := by simp; omega
    refine ⟨?_, by rintro _ _ ⟨⟩; rfl⟩
    simp only [readExact, hn', if_true, extend, List.take_append_of_le_length hn,
      List.drop_append_of_le_length hn]
  · simp [readExact, hn] at h

theorem stable_readToEnd (limit : ℕ) : Stable (readToEnd limit) := by
  intro buf more t r h
  by_cases hn : limit < buf.length
  · simp only [readToEnd, hn, if_true, Poll.ready.injEq] at h
    subst h
    have hn' : limit < (buf ++ more).length := by simp; omega
    exact ⟨by simp only [readToEnd, hn', if_true, extend], by rintro _ _ ⟨⟩⟩
  · simp [readToEnd, hn] at h

/-- The value a reader comes to when the fragments arrive one after another behind `buf` and
`t` follows the last of them; it is polled on every arrival. -/
def feed (m : ReadM ε α) (t : StreamEnd) : List UInt8 → List (List UInt8) → Poll (Except ε α)
  | buf, [] => match m ⟨buf, t⟩ with
    | .pending => .pending
    | .ready r => .ready (r.map Prod.fst)
  | buf, f :: fs => match m ⟨buf, .live⟩ with
    | .pending => feed m t (buf ++ f) fs
    | .ready r => .ready (r.map Prod.fst)

theorem map_fst_extend (more : List UInt8) (t : StreamEnd) (r : Except ε (α × RecvStream)) :
    (extend more t r).map Prod.fst = r.map Prod.fst := by
  cases r <;> rfl

/-- **A stable reader comes to the same value however the bytes are cut.** -/
theorem feed_eq {m : ReadM ε α} (hm : Stable m) (t : StreamEnd) :
    ∀ (fs : List (List UInt8)) (buf : List UInt8), feed m t buf fs = feed m t (buf ++ fs.flatten) []
  | [], buf => by simp
  | f :: fs, buf => by
      cases h : m ⟨buf, .live⟩ with
      | pending =>
          have e : feed m t buf (f :: fs) = feed m t (buf ++ f) fs := by rw [feed, h]
          rw [e, feed_eq hm t fs (buf ++ f)]
          simp
      | ready r =>
          have := (hm buf (f :: fs).flatten t r h).1
          have e : feed m t buf (f :: fs) = .ready (r.map Prod.fst) := by rw [feed, h]
          rw [e, feed, this]
          simp only [map_fst_extend]

/-! ### Regular readers -/

/-- A stable reader that leaves a suffix of its input and does not wait once the stream has
ended. -/
structure Regular (m : ReadM ε α) : Prop where
  stable : Stable m
  suffix : ∀ s a s', m s = .ready (.ok (a, s')) → ∃ p, s.buf = p ++ s'.buf ∧ s'.tail = s.tail
  settles : ∀ buf, m ⟨buf, .finished⟩ ≠ .pending

theorem regular_pure (a : α) : Regular (Pure.pure a : ReadM ε α) where
  stable := stable_pure a
  suffix := by
    rintro s _ _ ⟨⟩
    exact ⟨[], rfl, rfl⟩
  settles _ := by simp

theorem regular_fail (e : ε) : Regular (ReadM.fail e : ReadM ε α) where
  stable := stable_fail e
  suffix := by rintro _ _ _ ⟨⟩
  settles _ := by simp

theorem regular_lift (r : Except ε α) : Regular (ReadM.lift r) := by
  cases r with
  | ok a => exact regular_pure a
  | error e => exact regular_fail e

theorem Regular.bind {m : ReadM ε α} {k : α → ReadM ε β} (hm : Regular m)
    (hk : ∀ a, Regular (k a)) : Regular (m >>= k) where
  stable := stable_bind hm.stable fun a => (hk a).stable
  suffix s b s' h := by
    obtain ⟨a, t, h1, h2⟩ := ReadM.bind_ok_inv h
    obtain ⟨p, hp, ht⟩ := hm.suffix s a t h1
    obtain ⟨q, hq, ht'⟩ := (hk a).suffix t b s' h2
    exact ⟨p ++ q, by rw [hp, hq, List.append_assoc], ht'.trans ht⟩
  settles buf h := by
    cases hms : m ⟨buf, .finished⟩ with
    | pending => exact hm.settles buf hms
    | ready r =>
        cases r with
        | error e => rw [ReadM.bind_error k hms] at h; cases h
        | ok p =>
            obtain ⟨a, buf', tail'⟩ := p
            obtain ⟨_, _, rfl : tail' = .finished⟩ := hm.suffix _ a _ hms
            rw [ReadM.bind_ok k hms] at h
            exact (hk a).settles buf' h

theorem Regular.mapErr {m : ReadM ε α} (f : ε → ε') (hm : Regular m) :
    Regular (m.mapErr f) where
  stable := stable_mapErr f hm.stable
  suffix s a s' h := hm.suffix s a s' (ReadM.mapErr_ok_inv h)
  settles buf h := by
    cases hms : m ⟨buf, .finished⟩ with
    | pending => exact hm.settles buf hms
    | ready r =>
        cases r with
        | error e => rw [ReadM.mapErr_error f hms] at h; cases h
        | ok p => rw [ReadM.mapErr_ok f hms] at h; cases h

theorem Regular.attempt {m : ReadM ε α} (hm : Regular m) :
    Regular (m.attempt : ReadM ε' (Except ε α)) where
  stable := by
    intro buf more t r h
    cases hms : m ⟨buf, .live⟩ with
    | pending => rw [ReadM.attempt_pending hms] at h; cases h
    | ready x =>
        obtain ⟨h1, h2⟩ := hm.stable buf more t x hms
        cases x with
        | error e =>
            rw [ReadM.attempt_error hms] at h
            cases h
            exact ⟨ReadM.attempt_error h1, by rintro _ _ ⟨⟩; rfl⟩
        | ok p =>
            obtain ⟨a, s⟩ := p
            rw [ReadM.attempt_ok hms] at h
            cases h
            refine ⟨ReadM.attempt_ok h1, ?_⟩
            rintro _ _ ⟨⟩
            exact h2 a s rfl
  suffix s a s' h := by
    cases hms : m s with
    | pending => rw [ReadM.attempt_pending hms] at h; cases h
    | ready x =>
        cases x with
        | error e =>
            rw [ReadM.attempt_error hms] at h
            cases h
            exact ⟨[], rfl, rfl⟩
        | ok p =>
            obtain ⟨b, t⟩ := p
            rw [ReadM.attempt_ok hms] at h
            cases h
            exact hm.suffix s b _ hms
  settles buf h := by
    cases hms : m ⟨buf, .finished⟩ with
    | pending => exact hm.settles buf hms
    | ready x =>
        cases x with
        | error e => rw [ReadM.attempt_error hms] at h; cases h
        | ok p => rw [ReadM.attempt_ok hms] at h; cases h

theorem regular_readExact (n : ℕ) : Regular (readExact n) where
  stable := stable_readExact n
  suffix s a s' h := by
    by_cases hn : n ≤ s.buf.length
    · simp only [readExact, hn, if_true, Poll.ready.injEq, Except.ok.injEq, Prod.mk.injEq] at h
      obtain ⟨rfl, rfl⟩ := h
      exact ⟨s.buf.take n, (List.take_append_drop n s.buf).symm, rfl⟩
    · simp only [readExact, hn, if_false] at h
      split at h <;> simp at h
  settles buf := by
    by_cases hn : n ≤ buf.length <;> simp [readExact, hn]

theorem regular_readToEnd (limit : ℕ) : Regular (readToEnd limit) where
  stable := stable_readToEnd limit
  suffix := by
    rintro ⟨buf, t⟩ a s' h
    by_cases hn : limit < buf.length
    · simp [readToEnd, hn] at h
    · cases t with
      | finished =>
          simp only [readToEnd, hn, if_false, Poll.ready.injEq, Except.ok.injEq,
            Prod.mk.injEq] at h
          obtain ⟨-, rfl⟩ := h
          exact ⟨buf, by simp, rfl⟩
      | live => simp [readToEnd, hn] at h
      | broken e => simp [readToEnd, hn] at h
  settles buf := by
    by_cases hn : limit < buf.length <;> simp [readToEnd, hn]

/-! ### Reads take nothing but the bytes of their value -/

/-- On the bytes it has consumed alone, a read has the result it had. -/
structure Tight (m : ReadM ε α) : Prop extends Regular m where
  takesOnly : ∀ p rest t a, m ⟨p ++ rest, t⟩ = .ready (.ok (a, ⟨rest, t⟩)) →
    m ⟨p, .live⟩ = .ready (.ok (a, ⟨[], .live⟩))

theorem tight_pure (a : α) : Tight (Pure.pure a : ReadM ε α) where
  toRegular := regular_pure a
  takesOnly := by
    intro p rest t b h
    simp only [ReadM.pure_apply, Poll.ready.injEq, Except.ok.injEq, Prod.mk.injEq,
      RecvStream.mk.injEq, and_true] at h
    obtain ⟨rfl, hp⟩ := h
    obtain rfl : p = [] := List.append_left_eq_self.mp hp
    rfl

theorem tight_fail (e : ε) : Tight (ReadM.fail e : ReadM ε α) where
  toRegular := regular_fail e
  takesOnly := by
    intro p rest t a h
    cases h

theorem tight_lift (r : Except ε α) : Tight (ReadM.lift r) := by
  cases r with
  | ok a => exact tight_pure a
  | error e => exact tight_fail e

theorem Tight.bind {m : ReadM ε α} {k : α → ReadM ε β} (hm : Tight m) (hk : ∀ a, Tight (k a)) :
    Tight (m >>= k) where
  toRegular := hm.toRegular.bind fun a => (hk a).toRegular
  takesOnly := by
    intro p rest t b h
    obtain ⟨a, ⟨mid, t'⟩, hread, hthen⟩ := ReadM.bind_ok_inv h
    obtain ⟨p₁, hp₁, ht : t' = t⟩ := hm.suffix _ a _ hread
    subst ht
    obtain ⟨p₂, hp₂, -⟩ := (hk a).suffix _ b _ hthen
    obtain rfl : mid = p₂ ++ rest := hp₂
    obtain rfl : p = p₁ ++ p₂ := by
      rw [← List.append_assoc] at hp₁
      exact List.append_cancel_right hp₁
    rw [List.append_assoc] at hread
    have hfirst := (hm.stable p₁ p₂ .live _ (hm.takesOnly p₁ (p₂ ++ rest) t' a hread)).1
    rw [ReadM.bind_ok k hfirst]
    exact (hk a).takesOnly p₂ rest t' b hthen

theorem Tight.mapErr {m : ReadM ε α} (f : ε → ε') (hm : Tight m) : Tight (m.mapErr f) where
  toRegular := hm.toRegular.mapErr f
  takesOnly := by
    intro p rest t a h
    exact ReadM.mapErr_ok f (hm.takesOnly p rest t a (ReadM.mapErr_ok_inv h))

theorem tight_readExact (n : ℕ) : Tight (readExact n) where
  toRegular := regular_readExact n
  takesOnly := by
    intro p rest t a h
    by_cases hn : n ≤ (p ++ rest).length
    · simp only [readExact, hn, if_true, Poll.ready.injEq, Except.ok.injEq, Prod.mk.injEq,
        RecvStream.mk.injEq, and_true] at h
      obtain ⟨rfl, hdrop⟩ := h
      have hlen := congrArg List.length hdrop
      simp only [List.length_drop, List.length_append] at hlen hn
      obtain rfl : n = p.length := by omega
      have hwhole := readExact_append p [] .live
      rw [List.append_nil] at hwhole
      rw [hwhole, List.take_left]
    · simp only [readExact, hn, if_false] at h
      split at h <;> simp at h

/-! ### What a reader fails with while the stream is open -/

/-- While the stream is open, `m` fails with errors in `P` only. -/
def FailsLive (m : ReadM ε α) (P : ε → Prop) : Prop :=
  ∀ buf e, m ⟨buf, .live⟩ = .ready (.error e) → P e

theorem failsLive_pure (a : α) (P : ε → Prop) : FailsLive (Pure.pure a : ReadM ε α) P := by
  intro buf e h
  cases h

theorem failsLive_fail {P : ε → Prop} {e : ε} (he : P e) :
    FailsLive (ReadM.fail e : ReadM ε α) P := by
  intro buf e' h
  cases h
  exact he

theorem failsLive_lift {P : ε → Prop} {r : Except ε α} (hr : ∀ e, r = .error e → P e) :
    FailsLive (ReadM.lift r) P := by
  cases r with
  | ok a => exact failsLive_pure a P
  | error e => exact failsLive_fail (hr e rfl)

theorem FailsLive.bind {P : ε → Prop} {m : ReadM ε α} {k : α → ReadM ε β} (hs : Stable m)
    (hm : FailsLive m P) (hk : ∀ a, FailsLive (k a) P) : FailsLive (m >>= k) P := by
  intro buf e h
  obtain hms | ⟨a, s, hms, h⟩ := ReadM.bind_error_inv h
  · exact hm buf e hms
  · have hlive : s = ⟨s.buf, .live⟩ := by rw [← (hs buf [] .live _ hms).2 a s rfl]
    rw [hlive] at h
    exact hk a s.buf e h

theorem FailsLive.mapErr {P : ε → Prop} {Q : ε' → Prop} {m : ReadM ε α} {f : ε → ε'}
    (hm : FailsLive m P) (hf : ∀ e, P e → Q (f e)) : FailsLive (m.mapErr f) Q := by
  intro buf e' h
  cases hms : m ⟨buf, .live⟩ with
  | pending => rw [ReadM.mapErr_pending f hms] at h; cases h
  | ready r =>
      cases r with
      | error e =>
          rw [ReadM.mapErr_error f hms] at h
          cases h
          exact hf e (hm buf e hms)
      | ok p => rw [ReadM.mapErr_ok f hms] at h; cases h

theorem failsLive_readExact (n : ℕ) : FailsLive (readExact n) fun _ => False := by
  intro buf e h
  by_cases hn : n ≤ buf.length <;> simp [readExact, hn] at h

/-! ### Readers that consume a known string -/

/-- `m` consumes exactly `bs` and returns `a`; it waits on the proper prefixes of `bs` that
may still grow and fails with an error in `P` on those at which the stream ends. -/
structure Exact (m : ReadM ε α) (bs : List UInt8) (a : α) (P : ε → Prop) : Prop where
  reads : ∀ rest t, m ⟨bs ++ rest, t⟩ = .ready (.ok (a, ⟨rest, t⟩))
  waits : ∀ p q, p ++ q = bs → q ≠ [] → m ⟨p, .live⟩ = .pending
  cuts : ∀ p q, p ++ q = bs → q ≠ [] → ∃ e, P e ∧ m ⟨p, .finished⟩ = .ready (.error e)

variable {P : ε → Prop} {m : ReadM ε α} {a : α} {b : β} {bs cs : List UInt8}

theorem exact_pure (a : α) : Exact (Pure.pure a : ReadM ε α) [] a P where
  reads _ _ := rfl
  waits _ _ h hq := absurd (List.append_eq_nil_iff.mp h).2 hq
  cuts _ _ h hq := absurd (List.append_eq_nil_iff.mp h).2 hq

/-- A proper prefix of `bs ++ cs` is a proper prefix of `bs`, or `bs` and a proper prefix of
`cs`. -/
theorem proper_prefix_append {bs cs p q : List UInt8} (h : p ++ q = bs ++ cs) :
    (∃ q', q' ≠ [] ∧ p ++ q' = bs) ∨ ∃ p', p = bs ++ p' ∧ p' ++ q = cs := by
  obtain ⟨r, hb, hqr⟩ | ⟨r, hp, hc⟩ := List.append_eq_append_iff.mp h
  · by_cases hr : r = []
    · subst hr
      exact .inr ⟨[], by simpa using hb.symm, by simpa using hqr⟩
    · exact .inl ⟨r, hr, hb.symm⟩
  · exact .inr ⟨r, hp, hc.symm⟩

theorem Exact.bind {k : α → ReadM ε β} (hm : Exact m bs a P) (hk : Exact (k a) cs b P) :
    Exact (m >>= k) (bs ++ cs) b P where
  reads rest t := by
    rw [List.append_assoc, ReadM.bind_ok k (hm.reads (cs ++ rest) t)]
    exact hk.reads rest t
  waits p q h hq := by
    obtain ⟨q', hq', hp⟩ | ⟨p', rfl, hp'⟩ := proper_prefix_append h
    · exact ReadM.bind_pending k (hm.waits p q' hp hq')
    · rw [ReadM.bind_ok k (hm.reads p' .live)]
      exact hk.waits p' q hp' hq
  cuts p q h hq := by
    obtain ⟨q', hq', hp⟩ | ⟨p', rfl, hp'⟩ := proper_prefix_append h
    · obtain ⟨e, he, hme⟩ := hm.cuts p q' hp hq'
      exact ⟨e, he, ReadM.bind_error k hme⟩
    · rw [ReadM.bind_ok k (hm.reads p' .finished)]
      exact hk.cuts p' q hp' hq

theorem Exact.bind_pure {k : α → ReadM ε β} (hm : Exact m bs a P) (hk : k a = Pure.pure b) :
    Exact (m >>= k) bs b P := by
  have : Exact (k a) [] b P := hk ▸ exact_pure b
  simpa using hm.bind this

theorem Exact.mapErr {f : ε → ε'} {Q : ε' → Prop} (hm : Exact m bs a P)
    (hf : ∀ e, P e → Q (f e)) : Exact (m.mapErr f) bs a Q where
  reads rest t := ReadM.mapErr_ok f (hm.reads rest t)
  waits p q h hq := ReadM.mapErr_pending f (hm.waits p q h hq)
  cuts p q h hq := by
    obtain ⟨e, he, hme⟩ := hm.cuts p q h hq
    exact ⟨f e, hf e he, ReadM.mapErr_error f hme⟩

theorem exact_readExact (bs : List UInt8) :
    Exact (readExact bs.length) bs bs (fun _ => True) where
  reads rest t := readExact_append bs rest t
  waits p q h hq := by
    have : ¬ bs.length ≤ p.length := by
      have := List.length_pos_iff.mpr hq
      rw [← h, List.length_append]; omega
    simp [readExact, this]
  cuts p q h hq := by
    have : ¬ bs.length ≤ p.length := by
      have := List.length_pos_iff.mpr hq
      rw [← h, List.length_append]; omega
    exact ⟨.finishedEarly p.length, trivial, by simp [readExact, this]⟩

/-! ### The send half -/

/-- A failed write. -/
structure WriteError where
  display : String
deriving DecidableEq, Repr

/-- One call of `writeAll`: the bytes handed over, how many of them the transport took, and
whether the call succeeded. -/
structure WriteAttempt where
  buf : List UInt8
  accepted : ℕ
  ok : Bool
deriving DecidableEq, Repr

/-- A planned failure: `after` writes succeed, the next one fails with `taken` of its bytes
sent, and so does every later write, with none sent. -/
structure WriteFate where
  after : ℕ
  taken : ℕ
  error : WriteError
deriving DecidableEq, Repr

/-- The send half: the writes attempted so far, the failure to come if there is one, and
whether the stream was finished. -/
structure SendStream where
  log : List WriteAttempt
  fate : Option WriteFate
  finished : Bool
deriving DecidableEq, Repr

namespace SendStream

def fresh (fate : Option WriteFate) : SendStream := ⟨[], fate, false⟩

def writeAll (s : SendStream) (buf : List UInt8) : Except WriteError Unit × SendStream :=
  match s.fate with
  | none => (.ok (), { s with log := s.log ++ [⟨buf, buf.length, true⟩] })
  | some ⟨n + 1, k, e⟩ =>
      (.ok (), { s with log := s.log ++ [⟨buf, buf.length, true⟩], fate := some ⟨n, k, e⟩ })
  | some ⟨0, k, e⟩ =>
      (.error e, { s with log := s.log ++ [⟨buf, min k (buf.length - 1), false⟩],
                          fate := some ⟨0, 0, e⟩ })

/-- The next write fails. -/
def Failing (s : SendStream) : Prop := ∃ k e, s.fate = some ⟨0, k, e⟩

theorem writeAll_of_failing {s : SendStream} (h : s.Failing) (buf : List UInt8) :
    ∃ e s', s.writeAll buf = (.error e, s') := by
  obtain ⟨log, fate, fin⟩ := s
  obtain ⟨k, e, rfl⟩ := h
  exact ⟨e, _, rfl⟩

theorem writeAll_of_not_failing {s : SendStream} (h : ¬ s.Failing) (buf : List UInt8) :
    ∃ s', s.writeAll buf = (.ok (), s') ∧ s'.log = s.log ++ [⟨buf, buf.length, true⟩] := by
  obtain ⟨log, fate, fin⟩ := s
  obtain _ | ⟨_ | n, k, e⟩ := fate
  · exact ⟨_, rfl, rfl⟩
  · exact absurd ⟨k, e, rfl⟩ h
  · exact ⟨_, rfl, rfl⟩

/-- Dropping or finishing the send half lets the peer read the end of the stream. -/
def finish (s : SendStream) : SendStream := { s with finished := true }

/-- The bytes the peer can read. -/
def wire (s : SendStream) : List UInt8 := (s.log.map fun w => w.buf.take w.accepted).flatten

/-- The buffers of the writes that completed, in order. -/
def written (s : SendStream) : List (List UInt8) := (s.log.filter (·.ok)).map (·.buf)

@[simp] theorem log_finish (s : SendStream) : s.finish.log = s.log := rfl

@[simp] theorem wire_finish (s : SendStream) : s.finish.wire = s.wire := rfl

theorem writeAll_cases (s : SendStream) (buf : List UInt8) :
    (∃ s', s.writeAll buf = (.ok (), s') ∧ s'.log = s.log ++ [⟨buf, buf.length, true⟩] ∧
      (s.fate = none → s'.fate = none)) ∨
    ∃ e k s', s.writeAll buf = (.error e, s') ∧ s'.log = s.log ++ [⟨buf, k, false⟩] ∧
      s.fate ≠ none := by
  obtain ⟨log, fate, fin⟩ := s
  obtain _ | ⟨_ | n, k, e⟩ := fate
  · exact .inl ⟨_, rfl, rfl, fun _ => rfl⟩
  · exact .inr ⟨e, _, _, rfl, rfl, by simp⟩
  · exact .inl ⟨_, rfl, rfl, fun h => by simp at h⟩

end SendStream

end ByteStream
