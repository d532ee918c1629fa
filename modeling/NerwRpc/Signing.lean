import Mathlib.Data.Set.Basic
import Mathlib.Logic.Function.Basic

/-! # Signature schemes that accept what was signed

A scheme is given by its three functions; `Made` says that a signature came out of one of the
signings performed so far.  `Exact` is the ideal of unforgeability: the scheme verifies exactly the
signatures that were made, and a signature is made of one message with one key.  Under it a
signature binds whatever its message was composed of (`Exact.binds`), and a signature of any other
message does not verify (`Exact.rejects`). -/

namespace Signing

/-- Secret keys, public keys, messages and signatures. -/
structure Scheme (SK PK M S : Type) where
  publicKey : SK → PK
  sign : SK → M → S
  verify : PK → M → S → Bool

variable {SK PK M S T : Type}

/-- The signature came out of a signing of exactly this message with a secret of this key. -/
def Made (σ : Scheme SK PK M S) (signings : Set (SK × M)) (pk : PK) (m : M) (s : S) : Prop :=
  ∃ sk, (sk, m) ∈ signings ∧ σ.publicKey sk = pk ∧ σ.sign sk m = s

structure Exact (σ : Scheme SK PK M S) (signings : Set (SK × M)) : Prop where
  verify_iff : ∀ pk m s, σ.verify pk m s = true ↔ Made σ signings pk m s
  determined : ∀ pk m pk' m' s, Made σ signings pk m s → Made σ signings pk' m' s →
    pk = pk' ∧ m = m'

namespace Exact

variable {σ : Scheme SK PK M S} {signings : Set (SK × M)} {pk pk' : PK} {m m' : M} {s : S}

/-- Two verifications of one signature are of one message under one key. -/
theorem verify_inj (h : Exact σ signings) (hv : σ.verify pk m s = true)
    (hv' : σ.verify pk' m' s = true) : pk = pk' ∧ m = m' :=
  h.determined pk m pk' m' s ((h.verify_iff pk m s).mp hv) ((h.verify_iff pk' m' s).mp hv')

/-- **A signature binds what its message is composed of.** -/
theorem binds (h : Exact σ signings) {compose : T → M} (hc : Function.Injective compose) (t t' : T)
    (hv : σ.verify pk (compose t) s = true) (hv' : σ.verify pk' (compose t') s = true) :
    pk = pk' ∧ t = t' := by
  obtain ⟨hpk, hm⟩ := h.verify_inj hv hv'
  exact ⟨hpk, hc hm⟩

theorem rejects (h : Exact σ signings) {sk : SK} (hsigned : (sk, m) ∈ signings) (hne : m ≠ m') :
    σ.verify pk m' (σ.sign sk m) = false := by
  cases hv : σ.verify pk m' (σ.sign sk m) with
  | false => rfl
  | true =>
      have hmade : Made σ signings (σ.publicKey sk) m (σ.sign sk m) := ⟨sk, hsigned, rfl, rfl⟩
      exact absurd (h.determined _ _ _ _ _ hmade ((h.verify_iff pk m' _).mp hv)).2 hne

end Exact

end Signing
