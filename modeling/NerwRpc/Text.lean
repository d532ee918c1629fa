import Mathlib.Data.String.Basic
import Mathlib.Data.List.Infix
import Mathlib.Tactic.Common

/-! # Separated text

`splitOnce` cuts a list at the first occurrence of a separator, and `splitOnce_eq_some_iff` says
what it yields.  For texts made of parts that do not hold their separator this decides when a
text begins with a part (`append_prefix_iff`), ends with one (`cons_suffix_iff`), and how two
texts compare: the first difference decides (`append_lt_append`), so a common ending behind the
separator does not matter (`append_cons_lt`). -/

namespace Text

variable {α : Type}

/-- Cut at the first occurrence of `c`. -/
def splitOnce [DecidableEq α] (c : α) : List α → Option (List α × List α)
  | [] => none
  | x :: xs => if x = c then some ([], xs) else (splitOnce c xs).map fun p => (x :: p.1, p.2)

theorem splitOnce_eq_none_iff [DecidableEq α] {c : α} : ∀ {s : List α}, splitOnce c s = none ↔ c ∉ s
  | [] => by simp [splitOnce]
  | x :: xs => by
      by_cases h : x = c
      · simp [splitOnce, h]
      · simp [splitOnce, h, splitOnce_eq_none_iff, Ne.symm h]

theorem splitOnce_eq_some_iff [DecidableEq α] {c : α} : ∀ {s a b : List α},
    splitOnce c s = some (a, b) ↔ c ∉ a ∧ s = a ++ c :: b
  | [], a, b => by simp [splitOnce]
  | x :: xs, a, b => by
      by_cases h : x = c
      · subst h
        cases a with
        | nil => simp [splitOnce]
        | cons y a =>
            simp only [splitOnce, if_true, Option.some.injEq, Prod.mk.injEq, List.mem_cons,
              List.cons_append, List.cons.injEq]
            constructor
            · rintro ⟨h, -⟩; cases h
            · rintro ⟨h, h', -⟩; exact absurd (.inl h') h
      · cases a with
        | nil => simp [splitOnce, h]
        | cons y a =>
            simp only [splitOnce, h, if_false, Option.map_eq_some_iff, Prod.exists,
              Prod.mk.injEq, List.cons.injEq, List.mem_cons, List.cons_append, not_or]
            constructor
            · rintro ⟨a', b', hab, ⟨rfl, rfl⟩, rfl⟩
              obtain ⟨h1, h2⟩ := splitOnce_eq_some_iff.mp hab
              exact ⟨⟨fun hc => h hc.symm, h1⟩, rfl, h2⟩
            · rintro ⟨⟨-, h1⟩, rfl, h2⟩
              exact ⟨a, b, splitOnce_eq_some_iff.mpr ⟨h1, h2⟩, ⟨rfl, rfl⟩, rfl⟩

/-! ### Beginnings and endings -/

theorem append_cons_inj {c : α} [DecidableEq α] {a a' b b' : List α} (ha : c ∉ a) (ha' : c ∉ a') :
    a ++ c :: b = a' ++ c :: b' ↔ a = a' ∧ b = b' := by
  constructor
  · intro h
    have h1 : splitOnce c (a ++ c :: b) = some (a, b) := splitOnce_eq_some_iff.mpr ⟨ha, rfl⟩
    have h2 : splitOnce c (a ++ c :: b) = some (a', b') := splitOnce_eq_some_iff.mpr ⟨ha', h⟩
    simpa using h1.symm.trans h2
  · rintro ⟨rfl, rfl⟩; rfl

theorem append_prefix_iff {c : α} [DecidableEq α] {a a' b : List α} (ha : c ∉ a) (ha' : c ∉ a') :
    a ++ [c] <+: a' ++ c :: b ↔ a = a' := by
  constructor
  · rintro ⟨s, hs⟩
    rw [List.append_assoc, List.singleton_append] at hs
    exact ((append_cons_inj ha ha').mp hs).1
  · rintro rfl
    exact ⟨b, by simp⟩

/-- What ends a text and begins with the separator begins at one of its separators. -/
theorem cons_suffix_iff {c : α} {s b : List α} : ∀ {a : List α}, c ∉ a →
    (c :: s <:+ a ++ c :: b ↔ s = b ∨ c :: s <:+ b)
  | [], _ => by simp [List.suffix_cons_iff]
  | x :: a, ha => by
      simp only [List.mem_cons, not_or] at ha
      rw [List.cons_append, List.suffix_cons_iff, cons_suffix_iff ha.2]
      simp [ha.1]

/-! ### The first difference -/

/-- Neither of two different closed parts begins the other. -/
theorem not_prefix_of_notMem {c : α} {a b : List α} (hb : c ∉ b) (h : a ≠ b) :
    ¬ a ++ [c] <+: b ++ [c] := by
  intro hp
  obtain heq | hab := List.prefix_concat_iff.mp hp
  · exact h (List.append_cancel_right heq)
  · exact hb (hab.subset (by simp))

section order

variable [LinearOrder α]

/-- A difference decides, whatever stands behind it. -/
theorem append_lt_append {x y : List α} : ∀ {a b : List α}, a < b → ¬ a <+: b → a ++ x < b ++ y
  | [], _, _, h => absurd List.nil_prefix h
  | _ :: _, [], h, _ => absurd h (List.not_lt_nil _)
  | u :: a, w :: b, h, hp => by
      obtain hlt | ⟨rfl, hlt⟩ := List.cons_lt_cons_iff.mp h
      · exact List.cons_lt_cons_iff.mpr (.inl hlt)
      · refine List.cons_lt_cons_iff.mpr (.inr ⟨rfl, append_lt_append hlt ?_⟩)
        exact fun hab => hp (List.cons_prefix_cons.mpr ⟨rfl, hab⟩)

/-- Two parts closed by a separator they do not hold compare alike whatever follows. -/
theorem append_cons_lt {c : α} {a b x y : List α} (hb : c ∉ b) (h : a ++ [c] < b ++ [c]) :
    a ++ c :: x < b ++ c :: y := by
  have hne : a ≠ b := by
    rintro rfl
    exact lt_irrefl _ h
  simpa using append_lt_append (x := x) (y := y) h (not_prefix_of_notMem hb hne)

end order

end Text
