import Mathlib.Data.Nat.Notation
import Mathlib.Tactic.Common
import Mathlib.Algebra.GroupWithZero.Nat

/-! # Counting semaphores and the tasks that share one

A `Pool` is a semaphore and the list of the tasks that were spawned to take its permits.  A task
moves by itself; what a move does to the semaphore is its `Effect`.  `holds` says of a task
whether it is in possession of a permit.

When every move is `Balanced` (a task that acquires did not hold and holds now, and so on), the
permits that are available and the ones that are held add up to the cap (`Pool.Conserved`), in
every state.  Everything else follows: no more tasks hold than the cap allows
(`Pool.Conserved.held_le_cap`), nor are there more of any kind of task that implies holding
(`Pool.Conserved.countP_le_cap`), and when no task holds, every permit is back
(`Pool.Conserved.available_of_idle`); some task can go on if there is a permit at all and those that
hold one go on (`Pool.Conserved.progress`), and else they wait forever
(`Pool.Conserved.waits_forever`). -/

namespace Permits

structure Semaphore where
  cap : ℕ
  available : ℕ
deriving DecidableEq, Repr

namespace Semaphore

def new (cap : ℕ) : Semaphore := ⟨cap, cap⟩

/-- Take a permit; `none` while there is none to take. -/
def acquire (s : Semaphore) : Option Semaphore :=
  if 0 < s.available then some { s with available := s.available - 1 } else none

def release (s : Semaphore) : Semaphore := { s with available := s.available + 1 }

end Semaphore

/-- What a move of a task does to the semaphore. -/
inductive Effect where
  | keep
  | acquire
  | release
deriving DecidableEq, Repr

def Semaphore.apply : Effect → Semaphore → Option Semaphore
  | .keep, s => some s
  | .acquire, s => s.acquire
  | .release, s => some s.release

structure Pool (τ : Type) where
  sem : Semaphore
  tasks : List τ
deriving DecidableEq, Repr

namespace Pool

variable {τ : Type}

def start (cap : ℕ) : Pool τ := ⟨.new cap, []⟩

def spawn (t : τ) (p : Pool τ) : Pool τ := { p with tasks := p.tasks ++ [t] }

/-- Task `i` makes the move `f`. -/
def move (f : τ → Option (τ × Effect)) (i : ℕ) (p : Pool τ) : Option (Pool τ) :=
  match p.tasks[i]? with
  | none => none
  | some t => match f t with
    | none => none
    | some (t', e) => (p.sem.apply e).map fun sem => ⟨sem, p.tasks.set i t'⟩

variable {p p' : Pool τ} {f : τ → Option (τ × Effect)} {i : ℕ}

theorem move_eq_some_iff : p.move f i = some p' ↔
    ∃ t t' e sem, p.tasks[i]? = some t ∧ f t = some (t', e) ∧ p.sem.apply e = some sem ∧
      p' = ⟨sem, p.tasks.set i t'⟩ := by
  unfold move
  constructor
  · intro h
    cases ht : p.tasks[i]? with
    | none => simp only [ht] at h; cases h
    | some t =>
        cases hf : f t with
        | none => simp only [ht, hf] at h; cases h
        | some q =>
            obtain ⟨t', e⟩ := q
            simp only [ht, hf, Option.map_eq_some_iff] at h
            obtain ⟨sem, hs, rfl⟩ := h
            exact ⟨t, t', e, sem, rfl, hf, hs, rfl⟩
  · rintro ⟨t, t', e, sem, ht, hf, hs, rfl⟩
    simp only [ht, hf, hs, Option.map_some]

theorem forall_tasks_move {P : τ → Prop} (h : p.move f i = some p')
    (hf : ∀ t t' e, P t → f t = some (t', e) → P t') (hp : ∀ t ∈ p.tasks, P t) :
    ∀ t ∈ p'.tasks, P t := by
  obtain ⟨t, t', e, sem, ht, hft, -, rfl⟩ := move_eq_some_iff.mp h
  intro u hu
  obtain hu | rfl := List.mem_or_eq_of_mem_set hu
  · exact hp u hu
  · exact hf t u e (hp t (List.mem_of_getElem? ht)) hft

theorem forall_tasks_spawn {P : τ → Prop} {t : τ} (ht : P t) (hp : ∀ t ∈ p.tasks, P t) :
    ∀ u ∈ (p.spawn t).tasks, P u := by
  intro u hu
  obtain hu | hu := List.mem_append.mp hu
  · exact hp u hu
  · rw [List.mem_singleton.mp hu]
    exact ht

theorem spawn_tasks_getElem {j : ℕ} {t u : τ} (h : p.tasks[j]? = some t) :
    (p.spawn u).tasks[j]? = some t := by
  obtain ⟨hj, ht⟩ := List.getElem?_eq_some_iff.mp h
  unfold spawn
  rw [List.getElem?_append_left hj]
  exact h

end Pool

/-! ### Counting -/

section counting

variable {τ : Type} (q : τ → Bool)

theorem countP_set_add {l : List τ} {i : ℕ} {t : τ} (h : l[i]? = some t) (t' : τ) :
    (l.set i t').countP q + (q t).toNat = l.countP q + (q t').toNat := by
  induction l generalizing i with
  | nil => cases h
  | cons u l ih =>
      cases i with
      | zero =>
          obtain rfl : u = t := by simpa using h
          simp only [List.set_cons_zero, List.countP_cons]
          cases q u <;> cases q t' <;> simp
      | succ i =>
          have := ih (i := i) (by simpa using h)
          simp only [List.set_cons_succ, List.countP_cons]
          omega

end counting

/-! ### Conservation -/

section conservation

variable {τ : Type} (holds : τ → Bool)

/-- The move from `t` to `t'` does to the semaphore what it does to the task's permit. -/
def Balanced (t t' : τ) : Effect → Prop
  | .keep => holds t' = holds t
  | .acquire => holds t = false ∧ holds t' = true
  | .release => holds t = true ∧ holds t' = false

/-- The permits that tasks hold. -/
def Pool.held (p : Pool τ) : ℕ := p.tasks.countP holds

def Pool.Conserved (p : Pool τ) : Prop := p.sem.available + p.held holds = p.sem.cap

variable {holds} {p p' : Pool τ} {f : τ → Option (τ × Effect)} {i : ℕ}

theorem Pool.conserved_start (cap : ℕ) : (Pool.start cap : Pool τ).Conserved holds := by
  simp [Conserved, held, start, Semaphore.new]

theorem Pool.Conserved.spawn {t : τ} (h : p.Conserved holds) (ht : holds t = false) :
    (p.spawn t).Conserved holds := by
  unfold Conserved held Pool.spawn at *
  simp only [List.countP_append, List.countP_singleton, ht]
  simpa using h

theorem Semaphore.apply_acquire {s s' : Semaphore} (h : s.apply .acquire = some s') :
    0 < s.available ∧ s' = { s with available := s.available - 1 } := by
  have h : (if 0 < s.available then some { s with available := s.available - 1 } else none) =
    some s' := h
  split_ifs at h with hs
  cases h
  exact ⟨hs, rfl⟩

/-- **Permits are conserved** by a balanced move, and the cap does not move. -/
theorem Pool.Conserved.move (hf : ∀ t t' e, f t = some (t', e) → Balanced holds t t' e)
    (h : p.Conserved holds) (hm : p.move f i = some p') :
    p'.Conserved holds ∧ p'.sem.cap = p.sem.cap := by
  obtain ⟨t, t', e, sem, ht, hft, hs, rfl⟩ := Pool.move_eq_some_iff.mp hm
  have hcount := countP_set_add holds ht t'
  have hb := hf t t' e hft
  unfold Conserved held at *
  cases e with
  | keep =>
      cases hs
      have hb : holds t' = holds t := hb
      rw [hb] at hcount
      exact ⟨by dsimp only; omega, rfl⟩
  | acquire =>
      obtain ⟨hpos, rfl⟩ := Semaphore.apply_acquire hs
      obtain ⟨h1, h2⟩ : holds t = false ∧ holds t' = true := hb
      rw [h1, h2] at hcount
      simp only [Bool.toNat_false, Bool.toNat_true] at hcount
      exact ⟨by dsimp only; omega, rfl⟩
  | release =>
      cases hs
      obtain ⟨h1, h2⟩ : holds t = true ∧ holds t' = false := hb
      rw [h1, h2] at hcount
      simp only [Bool.toNat_false, Bool.toNat_true] at hcount
      unfold Semaphore.release
      exact ⟨by dsimp only; omega, rfl⟩

theorem Pool.Conserved.held_le_cap (h : p.Conserved holds) : p.held holds ≤ p.sem.cap := by
  unfold Conserved at h
  omega

/-- There are at most as many tasks of a kind that holds a permit as there are permits. -/
theorem Pool.Conserved.countP_le_cap {running : τ → Bool} (h : p.Conserved holds)
    (hrun : ∀ t ∈ p.tasks, running t = true → holds t = true) :
    p.tasks.countP running ≤ p.sem.cap :=
  Nat.le_trans (List.countP_mono_left hrun) h.held_le_cap

theorem Pool.Conserved.available_of_idle (h : p.Conserved holds)
    (hidle : ∀ t ∈ p.tasks, holds t = false) : p.sem.available = p.sem.cap := by
  have : p.held holds = 0 := by
    apply List.countP_eq_zero.mpr
    intro t ht
    simp [hidle t ht]
  unfold Conserved at h
  omega

theorem Pool.exists_move {t t' : τ} {e : Effect} (ht : p.tasks[i]? = some t)
    (hf : f t = some (t', e)) (he : e = .acquire → 0 < p.sem.available) :
    ∃ p', p.move f i = some p' := by
  obtain ⟨sem, hs⟩ : ∃ sem, p.sem.apply e = some sem := by
    cases e with
    | keep => exact ⟨_, rfl⟩
    | acquire => exact ⟨{ p.sem with available := p.sem.available - 1 }, if_pos (he rfl)⟩
    | release => exact ⟨_, rfl⟩
  exact ⟨_, Pool.move_eq_some_iff.mpr ⟨t, t', e, sem, ht, hf, hs, rfl⟩⟩

/-- **No deadlock**: if there is a permit at all and the tasks that hold one go on, then some task
can go on until all of them have ended, by an action that is `ok`. -/
theorem Pool.Conserved.progress {α : Type} (move : α → τ → Option (τ × Effect)) (ended : τ → Bool)
    (ok : α → Bool) (h : p.Conserved holds) (hcap : 0 < p.sem.cap)
    (hholds : ∀ t ∈ p.tasks, holds t = true →
      ∃ a t' e, move a t = some (t', e) ∧ e ≠ .acquire ∧ ok a = true)
    (hwaits : ∀ t ∈ p.tasks, holds t = false → ended t = false →
      ∃ a t' e, move a t = some (t', e) ∧ ok a = true) :
    (∀ t ∈ p.tasks, ended t = true) ∨ ∃ i a p', p.move (move a) i = some p' ∧ ok a = true := by
  by_cases hidle : ∀ t ∈ p.tasks, holds t = false
  · by_cases hended : ∀ t ∈ p.tasks, ended t = true
    · exact .inl hended
    · simp only [not_forall, Bool.not_eq_true] at hended
      obtain ⟨t, ht, hopen⟩ := hended
      obtain ⟨i, hi⟩ := List.getElem?_of_mem ht
      obtain ⟨a, t', e, hm, hok⟩ := hwaits t ht (hidle t ht) hopen
      have havailable := h.available_of_idle hidle
      obtain ⟨p', hp⟩ := Pool.exists_move hi hm fun _ => by omega
      exact .inr ⟨i, a, p', hp, hok⟩
  · simp only [not_forall, Bool.not_eq_false] at hidle
    obtain ⟨t, ht, hheld⟩ := hidle
    obtain ⟨i, hi⟩ := List.getElem?_of_mem ht
    obtain ⟨a, t', e, hm, he, hok⟩ := hholds t ht hheld
    obtain ⟨p', hp⟩ := Pool.exists_move hi hm fun hacquire => absurd hacquire he
    exact .inr ⟨i, a, p', hp, hok⟩

/-- A task that can only acquire waits forever if there is no permit at all. -/
theorem Pool.Conserved.waits_forever (h : p.Conserved holds) (hcap : p.sem.cap = 0) {j : ℕ} {t : τ}
    (ht : p.tasks[j]? = some t) (hf : ∀ t' e, f t = some (t', e) → e = .acquire)
    (hm : p.move f i = some p') : p'.tasks[j]? = some t := by
  obtain ⟨u, u', e, sem, hu, hfu, hs, rfl⟩ := Pool.move_eq_some_iff.mp hm
  by_cases hij : i = j
  · subst hij
    obtain rfl : u = t := Option.some.inj (hu.symm.trans ht)
    obtain rfl := hf u' e hfu
    obtain ⟨hpos, -⟩ := Semaphore.apply_acquire hs
    unfold Conserved at h
    omega
  · rw [List.getElem?_set_ne hij]
    exact ht

end conservation

/-! ### Work -/

section work

variable {τ : Type} (w : τ → ℕ)

/-- What the tasks have still to do. -/
def Pool.work (p : Pool τ) : ℕ := (p.tasks.map w).sum

theorem sum_map_set_add {l : List τ} {i : ℕ} {t : τ} (h : l[i]? = some t) (t' : τ) :
    ((l.set i t').map w).sum + w t = (l.map w).sum + w t' := by
  induction l generalizing i with
  | nil => cases h
  | cons u l ih =>
      cases i with
      | zero =>
          obtain rfl : u = t := by simpa using h
          simp only [List.set_cons_zero, List.map_cons, List.sum_cons]
          omega
      | succ i =>
          have := ih (i := i) (by simpa using h)
          simp only [List.set_cons_succ, List.map_cons, List.sum_cons]
          omega

variable {w} {p p' : Pool τ} {f : τ → Option (τ × Effect)} {i c : ℕ}

/-- A move does as much work as its task, but for what is given on credit. -/
theorem Pool.work_move (hm : p.move f i = some p')
    (hf : ∀ t t' e, t ∈ p.tasks → f t = some (t', e) → w t' + 1 ≤ w t + c) :
    p'.work w + 1 ≤ p.work w + c := by
  obtain ⟨t, t', e, sem, ht, hft, -, rfl⟩ := Pool.move_eq_some_iff.mp hm
  have hsum := sum_map_set_add w ht t'
  have hle := hf t t' e (List.mem_of_getElem? ht) hft
  unfold Pool.work
  dsimp only
  omega

theorem Pool.work_eq_zero (h : ∀ t ∈ p.tasks, w t = 0) : p.work w = 0 := by
  unfold Pool.work
  rw [List.map_eq_replicate_iff.mpr h]
  simp

end work

end Permits
