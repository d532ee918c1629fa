import Mathlib.Data.Nat.Notation
import Mathlib.Tactic.Common
import Mathlib.Data.Nat.Init
import Mathlib.Order.WellFounded

/-! # Labelled transition systems

A system is a partial step function `step : α → σ → Option σ`: `none` when the action is not
enabled.  `Runs step ok as s s'` is a run from `s` to `s'` by the actions `as`, each of which
meets `ok` in the state it is taken from; `run` executes a list of actions.

The rules are: an invariant of every step is an invariant of every run (`Runs.invariant`); a
measure that every step decreases bounds the length of the runs (`Runs.length_add_le`), also when
some actions are given credit (`Runs.length_add_le_credit`); with a well-founded measure no run
goes on forever (`acc_of_decreasing`), and then one comes to a state without a step
(`exists_final`); runs project along a simulation with stuttering (`Runs.project`). -/

namespace Transition

variable {σ τ α β : Type}

/-- Execute a list of actions. -/
def run (step : α → σ → Option σ) : List α → σ → Option σ
  | [], s => some s
  | a :: as, s => (step a s).bind (run step as)

/-- `s'` is reached from `s` by the actions `as`, each meeting `ok` where it is taken. -/
inductive Runs (step : α → σ → Option σ) (ok : α → σ → Prop) : List α → σ → σ → Prop
  | nil (s : σ) : Runs step ok [] s s
  | cons {a : α} {as : List α} {s s₁ s₂ : σ} :
      ok a s → step a s = some s₁ → Runs step ok as s₁ s₂ → Runs step ok (a :: as) s s₂

/-- Every action is allowed. -/
def Any : α → σ → Prop := fun _ _ => True

variable {step : α → σ → Option σ} {ok : α → σ → Prop}

theorem runs_of_run {as : List α} {s s' : σ} (h : run step as s = some s')
    (hok : ∀ a ∈ as, ∀ s, ok a s) : Runs step ok as s s' := by
  induction as generalizing s with
  | nil =>
      obtain rfl : s = s' := by simpa [run] using h
      exact Runs.nil s
  | cons a as ih =>
      simp only [run, Option.bind_eq_some_iff] at h
      obtain ⟨s₁, hs, hr⟩ := h
      exact Runs.cons (hok a List.mem_cons_self s) hs
        (ih hr fun b hb => hok b (List.mem_cons_of_mem a hb))

theorem run_append (xs ys : List α) (s : σ) :
    run step (xs ++ ys) s = (run step xs s).bind (run step ys) := by
  induction xs generalizing s with
  | nil => rfl
  | cons a xs ih =>
      rw [List.cons_append, run, run]
      cases step a s with
      | none => rfl
      | some s₁ => exact ih s₁

theorem run_replicate {a : α} {f : ℕ → σ} {bound : ℕ}
    (hstep : ∀ k < bound, step a (f k) = some (f (k + 1))) (n k : ℕ) (h : k + n ≤ bound) :
    run step (List.replicate n a) (f k) = some (f (k + n)) := by
  induction n generalizing k with
  | zero => rfl
  | succ n ih =>
      have hnext := ih (k + 1) (by omega)
      rw [List.replicate_succ, run, hstep k (by omega), Option.bind_some, hnext]
      congr 2
      omega

/-- Execute a list of actions each of which is allowed where it is taken. -/
def runAllowed (step : α → σ → Option σ) (ok : α → σ → Prop) [∀ a s, Decidable (ok a s)] :
    List α → σ → Option σ
  | [], s => some s
  | a :: as, s => if ok a s then (step a s).bind (runAllowed step ok as) else none

theorem runs_of_runAllowed [∀ a s, Decidable (ok a s)] {as : List α} {s s' : σ}
    (h : runAllowed step ok as s = some s') : Runs step ok as s s' := by
  induction as generalizing s with
  | nil =>
      obtain rfl : s = s' := Option.some.inj h
      exact Runs.nil s
  | cons a as ih =>
      unfold runAllowed at h
      split_ifs at h with hok
      obtain ⟨s₁, hs, hr⟩ := Option.bind_eq_some_iff.mp h
      exact Runs.cons hok hs (ih hr)

theorem Runs.run_eq {as : List α} {s s' : σ} (h : Runs step ok as s s') :
    run step as s = some s' := by
  induction h with
  | nil s => rfl
  | cons _ hs _ ih => simp [run, hs, ih]

theorem runs_any_iff {as : List α} {s s' : σ} :
    Runs step Any as s s' ↔ run step as s = some s' :=
  ⟨Runs.run_eq, fun h => runs_of_run h fun _ _ _ => trivial⟩

/-- **Invariants**: what every step preserves, every run preserves. -/
theorem Runs.invariant {Inv : σ → Prop}
    (hstep : ∀ a s s', ok a s → Inv s → step a s = some s' → Inv s')
    {as : List α} {s s' : σ} (h : Runs step ok as s s') (hs : Inv s) : Inv s' := by
  induction h with
  | nil s => exact hs
  | cons ha hs' _ ih => exact ih (hstep _ _ _ ha hs hs')

/-- **Measures**: if every step from an invariant state decreases `μ`, a run from `s` has at
most `μ s` steps. -/
theorem Runs.length_add_le {Inv : σ → Prop} {μ : σ → ℕ}
    (hstep : ∀ a s s', ok a s → Inv s → step a s = some s' → Inv s')
    (hμ : ∀ a s s', ok a s → Inv s → step a s = some s' → μ s' < μ s)
    {as : List α} {s s' : σ} (h : Runs step ok as s s') (hs : Inv s) :
    as.length + μ s' ≤ μ s := by
  induction h with
  | nil s => simp
  | cons ha hs' _ ih =>
      have h1 := ih (hstep _ _ _ ha hs hs')
      have h2 := hμ _ _ _ ha hs hs'
      simp only [List.length_cons]
      omega

/-- **Halting**: if every step from an invariant state decreases `μ`, the run comes to a state in
which no allowed action is possible. -/
theorem exists_halt {Inv : σ → Prop} {μ : σ → ℕ}
    (hstep : ∀ a s s', ok a s → Inv s → step a s = some s' → Inv s' ∧ μ s' < μ s)
    {s : σ} (hs : Inv s) :
    ∃ as s', Runs step ok as s s' ∧ ∀ a, ok a s' → step a s' = none := by
  induction hm : μ s using Nat.strong_induction_on generalizing s with
  | h m ih =>
      by_cases hnext : ∃ a s', ok a s ∧ step a s = some s'
      · obtain ⟨a, s₁, ha, hs₁⟩ := hnext
        obtain ⟨hinv, hlt⟩ := hstep a s s₁ ha hs hs₁
        obtain ⟨as, s', hrun, hhalt⟩ := ih (μ s₁) (hm ▸ hlt) hinv rfl
        exact ⟨a :: as, s', Runs.cons ha hs₁ hrun, hhalt⟩
      · refine ⟨[], s, Runs.nil s, fun a ha => ?_⟩
        cases hs₁ : step a s with
        | none => rfl
        | some s₁ => exact absurd ⟨a, s₁, ha, hs₁⟩ hnext

/-- `s'` comes next. -/
def Stepped (step : α → σ → Option σ) (s' s : σ) : Prop := ∃ a, step a s = some s'

/-- **Well-founded measures**: if every step from an invariant state decreases `μ`, no run goes on
forever. -/
theorem acc_of_decreasing {r : τ → τ → Prop} (hr : WellFounded r) {Inv : σ → Prop} (μ : σ → τ)
    (hstep : ∀ a s s', Inv s → step a s = some s' → Inv s' ∧ r (μ s') (μ s)) {s : σ}
    (hs : Inv s) : Acc (Stepped step) s := by
  induction hm : μ s using hr.induction generalizing s with
  | h m ih =>
      refine ⟨s, ?_⟩
      rintro s' ⟨a, ha⟩
      obtain ⟨hs', hlt⟩ := hstep a s s' hs ha
      exact ih (μ s') (hm ▸ hlt) hs' rfl

/-- Where no run goes on forever, one comes to a state without a step. -/
theorem exists_final {s : σ} (h : Acc (Stepped step) s) :
    ∃ as s', run step as s = some s' ∧ ∀ a, step a s' = none := by
  induction h with
  | intro s _ ih =>
      by_cases hnext : ∃ s', Stepped step s' s
      · obtain ⟨s₁, a, ha⟩ := hnext
        obtain ⟨as, s', hrun, hfinal⟩ := ih s₁ ⟨a, ha⟩
        exact ⟨a :: as, s', by rw [run, ha, Option.bind_some, hrun], hfinal⟩
      · refine ⟨[], s, rfl, fun a => ?_⟩
        cases ha : step a s with
        | none => rfl
        | some s' => exact absurd ⟨s', a, ha⟩ hnext

/-- **Credit**: if every step from an invariant state brings the measure down by one, but for a
credit of `c` to the actions that meet `p`, a run is no longer than the measure and the credit
allow. -/
theorem Runs.length_add_le_credit {Inv : σ → Prop} {μ : σ → ℕ} {p : α → Bool} {c : ℕ}
    (hstep : ∀ a s s', ok a s → Inv s → step a s = some s' → Inv s')
    (hμ : ∀ a s s', ok a s → Inv s → step a s = some s' → μ s' + 1 ≤ μ s + c * (p a).toNat)
    {as : List α} {s s' : σ} (h : Runs step ok as s s') (hs : Inv s) :
    as.length + μ s' ≤ μ s + c * as.countP p := by
  induction h with
  | nil s => simp
  | @cons a as s s₁ s₂ ha hs' _ ih =>
      have h1 := ih (hstep _ _ _ ha hs hs')
      have h2 := hμ _ _ _ ha hs hs'
      have h3 : (a :: as).countP p = as.countP p + (p a).toNat := by
        rw [List.countP_cons]
        cases p a <;> rfl
      rw [h3, Nat.mul_add, List.length_cons]
      omega

/-- **Simulation with stuttering**: if every step is matched by one step of another system or
by none, runs project. -/
theorem Runs.project {step' : β → τ → Option τ} {okτ : β → τ → Prop} (f : σ → τ)
    (hsim : ∀ a s s', ok a s → step a s = some s' →
      f s' = f s ∨ ∃ b, okτ b (f s) ∧ step' b (f s) = some (f s'))
    {as : List α} {s s' : σ} (h : Runs step ok as s s') :
    ∃ bs, Runs step' okτ bs (f s) (f s') := by
  induction h with
  | nil s => exact ⟨[], Runs.nil _⟩
  | cons ha hs _ ih =>
      obtain ⟨bs, hbs⟩ := ih
      obtain e | ⟨b, hb, hb'⟩ := hsim _ _ _ ha hs
      · exact ⟨bs, e ▸ hbs⟩
      · exact ⟨b :: bs, Runs.cons hb hb' hbs⟩

end Transition
