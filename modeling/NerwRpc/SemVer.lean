import Mathlib.Data.Nat.Notation
import NerwRpc.Text

/-! # Semantic versions and the order of their texts

A version is read from `major.minor.patch[-pre][+build]`.  Its precedence looks at the first
difference: numbers compare by value, names in character order, a number is below a name, a
pre-release is below its release, and the build part does not count.

The texts compare character by character instead.  The two orders agree on `Aligned` versions
(`Version.render_lt`): where the versions first differ there must be two numbers of one width, or
two names neither of which begins the other. -/

namespace SemVer

open Text

/-! ### Reading a version -/

def isDigits (s : List Char) : Bool := s.all Char.isDigit

/-- A decimal number without a leading zero. -/
def isNumeral (s : List Char) : Bool :=
  isDigits s && s ≠ [] && (s.head? ≠ some '0' || s = ['0'])

def isIdentifier (s : List Char) : Bool :=
  s ≠ [] && s.all fun c => c.isAlphanum || c = '-'

def value (s : List Char) : ℕ := Nat.ofDigitChars 10 s 0

structure Version where
  core : List (List Char)
  pre : List (List Char)
  build : List (List Char)
deriving DecidableEq, Repr

def Version.valid (v : Version) : Bool :=
  v.core.length = 3 && v.core.all isNumeral &&
    v.pre.all (fun s => isIdentifier s && (!isDigits s || isNumeral s)) &&
    v.build.all isIdentifier

/-- Split off the dotted part behind `sep`, if there is one. -/
def splitPart (sep : Char) (s : List Char) : List Char × List (List Char) :=
  match splitOnce sep s with
  | none => (s, [])
  | some (front, part) => (front, part.splitOn '.')

def parse (s : List Char) : Option Version :=
  let (front, build) := splitPart '+' s
  let (core, pre) := splitPart '-' front
  let v : Version := ⟨core.splitOn '.', pre, build⟩
  if v.valid then some v else none

def dotted (parts : List (List Char)) : List Char := ['.'].intercalate parts

def renderPart (sep : Char) : List (List Char) → List Char
  | [] => []
  | parts => sep :: dotted parts

def Version.render (v : Version) : List Char :=
  dotted v.core ++ renderPart '-' v.pre ++ renderPart '+' v.build

theorem renderPart_splitPart (sep : Char) (s : List Char) :
    (splitPart sep s).1 ++ renderPart sep (splitPart sep s).2 = s := by
  unfold splitPart
  cases h : splitOnce sep s with
  | none => simp [renderPart]
  | some cut =>
      obtain ⟨front, part⟩ := cut
      have hs := (splitOnce_eq_some_iff.mp h).2
      cases hparts : part.splitOn '.' with
      | nil => exact absurd hparts (List.splitOn_ne_nil '.' part)
      | cons a parts =>
          have hpart : dotted (a :: parts) = part := by
            rw [← hparts, dotted, List.intercalate_splitOn]
          simp only [hparts, renderPart, hpart, hs]

/-- A version is read from its own text only. -/
theorem render_of_parse {s : List Char} {v : Version} (h : parse s = some v) :
    v.valid = true ∧ v.render = s := by
  have hbuild := renderPart_splitPart '+' s
  have hpre := renderPart_splitPart '-' (splitPart '+' s).1
  simp only [parse] at h
  split_ifs at h with hv
  cases h
  refine ⟨hv, ?_⟩
  rw [Version.render, dotted, List.intercalate_splitOn, hpre, hbuild]

/-! ### Precedence -/

/-- The order of two identifiers of a pre-release. -/
def identifierLt (a b : List Char) : Prop :=
  if isDigits a then
    if isDigits b then value a < value b else True
  else if isDigits b then False else a < b

/-- `v` has lower precedence than `w`. -/
def Version.Precedes (v w : Version) : Prop :=
  List.Lex (fun a b => value a < value b) v.core w.core ∨
    v.core = w.core ∧ v.pre ≠ [] ∧ (w.pre = [] ∨ List.Lex identifierLt v.pre w.pre)

theorem identifierLt_irrefl (a : List Char) : ¬ identifierLt a a := by
  unfold identifierLt
  split_ifs <;> simp

/-! ### Where the texts agree with it -/

section firstDiff

variable {α : Type} [DecidableEq α] {r R : α → α → Prop}

/-- Where the lists first differ both go on, and their elements are related there. -/
def FirstDiff (R : α → α → Prop) : List α → List α → Prop
  | [], [] => True
  | a :: as, b :: bs => if a = b then FirstDiff R as bs else R a b
  | _, _ => False

/-- A lexicographic comparison is decided at the first difference. -/
theorem FirstDiff.exists_of_lex (hr : ∀ a, ¬ r a a) : ∀ {x y : List α}, FirstDiff R x y →
    List.Lex r x y → ∃ l a b as bs, x = l ++ a :: as ∧ y = l ++ b :: bs ∧ r a b ∧ R a b
  | [], [], _, h => nomatch h
  | [], _ :: _, hd, _ => hd.elim
  | _ :: _, [], hd, _ => hd.elim
  | a :: as, b :: bs, hd, h => by
      by_cases hab : a = b
      · subst hab
        rw [FirstDiff, if_pos rfl] at hd
        cases h with
        | rel h => exact absurd h (hr a)
        | cons h =>
            obtain ⟨l, a', b', as', bs', rfl, rfl, hrel⟩ := exists_of_lex hr hd h
            exact ⟨a :: l, a', b', as', bs', rfl, rfl, hrel⟩
      · rw [FirstDiff, if_neg hab] at hd
        cases h with
        | rel h => exact ⟨[], a, b, as, bs, rfl, rfl, h, hd⟩
        | cons h => exact absurd rfl hab

end firstDiff

def SameWidth (a b : List Char) : Prop := a.length = b.length

/-- Identifiers of one kind, with their texts in the order of the kind. -/
def Alike (a b : List Char) : Prop :=
  if isDigits a then isDigits b = true ∧ SameWidth a b
  else isDigits b = false ∧ ¬ a <+: b

/-- The texts of the two versions compare as the versions do. -/
structure Aligned (v w : Version) : Prop where
  core : FirstDiff SameWidth v.core w.core
  pre : v.core = w.core → v.pre ≠ [] → w.pre ≠ [] → FirstDiff Alike v.pre w.pre
  build : v.core = w.core → v.pre ≠ [] → w.pre = [] → w.build = []

/-! ### Numbers of one width -/

theorem toNat_of_isDigit {c : Char} (h : c.isDigit = true) :
    '0'.toNat ≤ c.toNat ∧ c.toNat ≤ '9'.toNat := by
  simpa [Char.isDigit, Char.le_def, UInt32.le_iff_toNat_le] using h

theorem ofDigitChars_lt : ∀ {a b : List Char} {m n : ℕ}, isDigits a = true → isDigits b = true →
    SameWidth a b → m < n → Nat.ofDigitChars 10 a m < Nat.ofDigitChars 10 b n
  | [], [], _, _, _, _, _, h => by simpa using h
  | [], _ :: _, _, _, _, _, hw, _ => nomatch hw
  | _ :: _, [], _, _, _, _, hw, _ => nomatch hw
  | c :: a, d :: b, m, n, ha, hb, hw, h => by
      simp only [isDigits, List.all_cons, Bool.and_eq_true] at ha hb
      rw [Nat.ofDigitChars_cons, Nat.ofDigitChars_cons]
      refine ofDigitChars_lt ha.2 hb.2 (Nat.succ.inj hw) ?_
      have hc := toNat_of_isDigit ha.1
      have hd := toNat_of_isDigit hb.1
      simp only [show '0'.toNat = 48 from rfl, show '9'.toNat = 57 from rfl] at hc hd ⊢
      omega

theorem ofDigitChars_lt_of_lt : ∀ {a b : List Char} (n : ℕ), isDigits a = true →
    isDigits b = true → SameWidth a b → a < b → Nat.ofDigitChars 10 a n < Nat.ofDigitChars 10 b n
  | [], [], _, _, _, _, h => absurd h (List.not_lt_nil _)
  | [], _ :: _, _, _, _, hw, _ => nomatch hw
  | _ :: _, [], _, _, _, hw, _ => nomatch hw
  | c :: a, d :: b, n, ha, hb, hw, h => by
      simp only [isDigits, List.all_cons, Bool.and_eq_true] at ha hb
      have hw' : SameWidth a b := Nat.succ.inj hw
      rw [Nat.ofDigitChars_cons, Nat.ofDigitChars_cons]
      obtain hlt | ⟨rfl, hlt⟩ := List.cons_lt_cons_iff.mp h
      · refine ofDigitChars_lt ha.2 hb.2 hw' ?_
        have hc := toNat_of_isDigit ha.1
        have hcd : c.toNat < d.toNat := hlt
        omega
      · exact ofDigitChars_lt_of_lt _ ha.2 hb.2 hw' hlt

/-- Numbers of one width compare as their texts, and neither begins the other. -/
theorem lt_of_value_lt {a b : List Char} (ha : isDigits a = true) (hb : isDigits b = true)
    (hw : SameWidth a b) (h : value a < value b) : a < b ∧ ¬ a <+: b := by
  constructor
  · obtain hlt | rfl | hlt := lt_trichotomy a b
    · exact hlt
    · exact absurd h (lt_irrefl _)
    · exact absurd (ofDigitChars_lt_of_lt 0 hb ha hw.symm hlt) (lt_asymm h)
  · intro hp
    rw [hp.eq_of_length hw] at h
    exact lt_irrefl _ h

theorem lt_of_identifierLt {a b : List Char} (h : identifierLt a b) (halike : Alike a b) :
    a < b ∧ ¬ a <+: b := by
  unfold identifierLt at h
  unfold Alike at halike
  split_ifs at h halike with ha hb hb
  · exact lt_of_value_lt ha hb halike.2 h
  · exact absurd halike.1 hb
  · exact ⟨h, halike.2⟩

/-! ### The texts of aligned versions -/

theorem dotted_append_cons (a : List Char) (as : List (List Char)) : ∀ l : List (List Char),
    dotted (l ++ a :: as) = l.flatMap (· ++ ['.']) ++ a ++ as.flatMap ('.' :: ·)
  | [] => by
      induction as generalizing a with
      | nil => simp [dotted]
      | cons b as ih =>
          have := ih b
          simp only [dotted, List.nil_append, List.flatMap_nil] at this ⊢
          rw [List.intercalate_cons_cons, this]
          simp
  | b :: l => by
      have := dotted_append_cons a as l
      obtain ⟨x, xs, hx⟩ : ∃ x xs, l ++ a :: as = x :: xs := by cases l <;> simp
      rw [hx] at this
      simp only [dotted] at this ⊢
      rw [List.cons_append, hx, List.intercalate_cons_cons, this]
      simp

/-- Dotted texts compare as their parts do at the first difference. -/
theorem dotted_lt {r R : List Char → List Char → Prop} {x y : List (List Char)}
    (hr : ∀ a, ¬ r a a) (hR : ∀ a ∈ x, ∀ b ∈ y, r a b → R a b → a < b ∧ ¬ a <+: b)
    (hd : FirstDiff R x y) (h : List.Lex r x y) (s t : List Char) :
    dotted x ++ s < dotted y ++ t := by
  obtain ⟨l, a, b, as, bs, rfl, rfl, hab, hRab⟩ := hd.exists_of_lex hr h
  obtain ⟨hlt, hp⟩ := hR a (by simp) b (by simp) hab hRab
  simp only [dotted_append_cons, List.append_assoc]
  exact List.append_left_lt (append_lt_append hlt hp)

variable {v w : Version}

theorem Version.isDigits_of_mem_core (hv : v.valid = true) {a : List Char} (ha : a ∈ v.core) :
    isDigits a = true := by
  simp only [Version.valid, Bool.and_eq_true, List.all_eq_true] at hv
  have := hv.1.1.2 a ha
  simp only [isNumeral, Bool.and_eq_true] at this
  exact this.1.1

/-- **Aligned versions are ordered by their texts**, each closed by a character that is greater
than the `-` of a pre-release. -/
theorem Version.render_lt {c : Char} (hc : '-' < c) (hv : v.valid = true) (hw : w.valid = true)
    (ha : Aligned v w) (h : v.Precedes w) : v.render ++ [c] < w.render ++ [c] := by
  simp only [Version.render, List.append_assoc]
  obtain hcore | ⟨hcore, hpre, hrel⟩ := h
  · refine dotted_lt (r := fun a b => value a < value b) (fun a => lt_irrefl _) ?_ ha.core hcore
      _ _
    intro a hav b hbw hlt hwidth
    exact lt_of_value_lt (Version.isDigits_of_mem_core hv hav)
      (Version.isDigits_of_mem_core hw hbw) hwidth hlt
  · rw [hcore]
    apply List.append_left_lt
    obtain ⟨p, ps, hps⟩ := List.exists_cons_of_ne_nil hpre
    obtain hnil | hlex := hrel
    · rw [hnil, ha.build hcore hpre hnil, hps]
      exact List.cons_lt_cons_iff.mpr (.inl hc)
    · have hne : w.pre ≠ [] := by
        intro hnil
        rw [hnil] at hlex
        exact List.not_lex_nil hlex
      obtain ⟨q, qs, hqs⟩ := List.exists_cons_of_ne_nil hne
      have hd := ha.pre hcore hpre hne
      rw [hps, hqs] at hd hlex ⊢
      simp only [renderPart, List.cons_append]
      refine List.cons_lt_cons_iff.mpr (.inr ⟨rfl, ?_⟩)
      exact dotted_lt identifierLt_irrefl (fun a _ b _ => lt_of_identifierLt) hd hlex _ _

end SemVer
