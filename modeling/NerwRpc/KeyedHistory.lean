import Mathlib.Data.Nat.Notation
import Mathlib.Tactic.Common
import Mathlib.Data.List.Induction

/-! # Who wrote a key last

A history is a list of events in the order in which they happened; an event puts a value under a
key, drops what is under it, or leaves it alone.  `last` is what is under a key after a history,
and `LastPut` says the same of the history itself: its last event that touches the key puts that
value (`last_eq_some_iff`).  `Each` says of every event what it finds in the history before it. -/

namespace KeyedHistory

/-- What an event does to a key. -/
inductive Touch (ν : Type) where
  | leave
  | put (v : ν)
  | drop
deriving DecidableEq, Repr

variable {ε κ ν : Type}

/-- What is under a key after one more event. -/
def Touch.apply (was : Option ν) : Touch ν → Option ν
  | .leave => was
  | .put v => some v
  | .drop => none

section history

variable (touch : ε → κ → Touch ν)

def last (k : κ) (hist : List ε) : Option ν :=
  hist.foldl (fun was e => (touch e k).apply was) none

/-- The last event of the history that touches `k` puts `v`. -/
def LastPut (k : κ) (v : ν) (hist : List ε) : Prop :=
  ∃ before e after, hist = before ++ e :: after ∧ touch e k = .put v ∧
    ∀ e' ∈ after, touch e' k = .leave

variable {touch} {k : κ} {v : ν} {hist : List ε} {e : ε}

@[simp] theorem last_nil : last touch k [] = none := rfl

theorem last_append_singleton :
    last touch k (hist ++ [e]) = (touch e k).apply (last touch k hist) := by
  unfold last
  rw [List.foldl_append]
  rfl

theorem last_append_leave (h : touch e k = .leave) :
    last touch k (hist ++ [e]) = last touch k hist := by
  rw [last_append_singleton, h]
  rfl

theorem last_append_of_forall_leave {after : List ε} (h : ∀ e ∈ after, touch e k = .leave) :
    last touch k (hist ++ after) = last touch k hist := by
  induction after generalizing hist with
  | nil => rw [List.append_nil]
  | cons e after ih =>
      have hcons : hist ++ e :: after = (hist ++ [e]) ++ after := by simp
      rw [hcons, ih fun e' he' => h e' (List.mem_cons_of_mem e he'),
        last_append_leave (h e List.mem_cons_self)]

/-- What is under a key after more events was there before or was put by one of them. -/
theorem exists_put_of_last_append {after : List ε} (h : last touch k (hist ++ after) = some v) :
    last touch k hist = some v ∨ ∃ e ∈ after, touch e k = .put v := by
  induction after generalizing hist with
  | nil =>
      rw [List.append_nil] at h
      exact .inl h
  | cons e after ih =>
      have hcons : hist ++ e :: after = (hist ++ [e]) ++ after := by simp
      rw [hcons] at h
      obtain h | ⟨e', he', hput⟩ := ih h
      · rw [last_append_singleton] at h
        cases ht : touch e k with
        | leave =>
            rw [ht] at h
            exact .inl h
        | put w =>
            rw [ht] at h
            cases h
            exact .inr ⟨e, List.mem_cons_self, ht⟩
        | drop =>
            rw [ht] at h
            cases h
      · exact .inr ⟨e', List.mem_cons_of_mem e he', hput⟩

theorem LastPut.append_leave (h : LastPut touch k v hist) (he : touch e k = .leave) :
    LastPut touch k v (hist ++ [e]) := by
  obtain ⟨before, p, after, rfl, hp, hafter⟩ := h
  refine ⟨before, p, after ++ [e], by simp, hp, ?_⟩
  intro e' he'
  obtain he' | he' := List.mem_append.mp he'
  · exact hafter e' he'
  · rw [List.mem_singleton.mp he']
    exact he

/-- **`last` is the last put that has not been dropped since.** -/
theorem last_eq_some_iff : last touch k hist = some v ↔ LastPut touch k v hist := by
  constructor
  · intro h
    induction hist using List.reverseRecOn with
    | nil => cases h
    | append_singleton hist e ih =>
        rw [last_append_singleton] at h
        cases ht : touch e k with
        | leave =>
            rw [ht] at h
            exact (ih h).append_leave ht
        | put w =>
            rw [ht] at h
            cases h
            exact ⟨hist, e, [], rfl, ht, by simp⟩
        | drop =>
            rw [ht] at h
            cases h
  · rintro ⟨before, e, after, rfl, he, hafter⟩
    have hcons : before ++ e :: after = (before ++ [e]) ++ after := by simp
    rw [hcons, last_append_of_forall_leave hafter, last_append_singleton, he]
    rfl

/-- Where nothing is ever dropped, a key is free as long as nobody has put anything under it. -/
theorem last_eq_none_iff (hdrop : ∀ e, touch e k ≠ .drop) :
    last touch k hist = none ↔ ∀ e ∈ hist, touch e k = .leave := by
  induction hist using List.reverseRecOn with
  | nil => simp
  | append_singleton hist e ih =>
      rw [last_append_singleton, List.forall_mem_append, List.forall_mem_singleton, ← ih]
      cases ht : touch e k with
      | leave => simp [Touch.apply]
      | put v => simp [Touch.apply]
      | drop => exact absurd ht (hdrop e)

end history

/-! ### What each event of a history finds -/

section each

variable {P : List ε → ε → Prop} {hist : List ε}

/-- Every event is as `P` asks of it, given the history before it. -/
def Each (P : List ε → ε → Prop) (hist : List ε) : Prop :=
  ∀ before e after, hist = before ++ e :: after → P before e

theorem each_nil : Each P [] := by
  intro before e after h
  have := congrArg List.length h
  simp at this

theorem Each.append_singleton (h : Each P hist) {e : ε} (he : P hist e) : Each P (hist ++ [e]) := by
  intro before e' after heq
  obtain rfl | ⟨after', e'', rfl⟩ := List.eq_nil_or_concat after
  · obtain ⟨rfl, hlast⟩ := List.append_inj' heq rfl
    cases hlast
    exact he
  · have hcons : before ++ e' :: after'.concat e'' = (before ++ e' :: after') ++ [e''] := by simp
    rw [hcons] at heq
    exact h before e' after' (List.append_inj' heq rfl).1

end each

end KeyedHistory
