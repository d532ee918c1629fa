import NerwRpc.Method

/-! # Resolving a version-omitted name

`lookupEntry` compares whole keys with a beginning and an ending of the name, and takes the
greatest key that has both.  `mem_candidates_iff` says which keys those are in terms of their
parsed parts: besides the versions of the name's triple, the keys of the same package whose
*method* segment holds a copy of the ending behind a `/`, which `parse` accepts.

`lookup_neverCrosses_iff`: a lookup stays on its triple, and fails exactly when the triple has
no version, if and only if no such foreign key is greater than every key of the triple. -/

namespace NerwRpc

open Text

namespace MethodName

/-- Equal up to the version. -/
def SameTriple (q p : MethodName) : Prop :=
  q.package = p.package ∧ q.interface = p.interface ∧ q.method = p.method

instance (q p : MethodName) : Decidable (SameTriple q p) :=
  inferInstanceAs (Decidable (_ ∧ _ ∧ _))

/-- The ending of a key that the lookup asks for. -/
def suffix (p : MethodName) : String := "/" ++ p.interface ++ "/" ++ p.method

/-- The method segment of `q` repeats the ending of `p`, so that a key of `q` ends like one of
`p` although its interface and method are different ones. -/
def Shadows (q p : MethodName) : Prop :=
  q.package = p.package ∧ p.suffix.toList <:+ '/' :: q.method.toList

instance (q p : MethodName) : Decidable (Shadows q p) :=
  inferInstanceAs (Decidable (_ ∧ _))

theorem toList_suffix (p : MethodName) :
    p.suffix.toList = '/' :: (p.interface.toList ++ '/' :: p.method.toList) := by
  simp [suffix, String.toList_append]

variable {p q : MethodName}

/-- A key that pins a version begins with `package@` exactly when that is its package. -/
theorem prefix_toCanonical_iff {v : String} (hq : q.WellFormed) (hp : p.WellFormed)
    (hv : q.version = some v) :
    (p.package ++ "@").toList <+: q.toCanonical.toList ↔ q.package = p.package := by
  have hpkg : q.pkgPart = q.package.toList ++ '@' :: v.toList := by simp [pkgPart, hv]
  rw [toList_toCanonical, hpkg, String.toList_append, List.append_assoc, List.cons_append]
  rw [show "@".toList = ['@'] from rfl, append_prefix_iff hp.package_at hq.package_at,
    String.toList_inj, eq_comm]

/-- A key ends with `/interface/method` when these are its segments, or when its method segment
ends so. -/
theorem suffix_toCanonical_iff (hq : q.WellFormed) (hp : p.WellFormed) :
    p.suffix.toList <:+ q.toCanonical.toList ↔
      (q.interface = p.interface ∧ q.method = p.method) ∨
        p.suffix.toList <:+ '/' :: q.method.toList := by
  have hsegments : p.interface.toList ++ '/' :: p.method.toList =
      q.interface.toList ++ '/' :: q.method.toList ↔
        q.interface = p.interface ∧ q.method = p.method := by
    rw [append_cons_inj hp.interface_slash hq.interface_slash, String.toList_inj,
      String.toList_inj, @eq_comm _ p.interface, @eq_comm _ p.method]
  rw [toList_toCanonical, toList_suffix, cons_suffix_iff hq.pkgPart_slash, hsegments,
    cons_suffix_iff hq.interface_slash, List.suffix_cons_iff, List.cons.injEq]
  simp

/-- Only a method segment with a `/` in it shadows another name. -/
theorem Shadows.slash_mem (h : Shadows q p) : '/' ∈ q.method.toList := by
  have hsuffix := h.2
  rw [toList_suffix, List.suffix_cons_iff, List.cons.injEq] at hsuffix
  obtain ⟨-, heq⟩ | hmethod := hsuffix
  · simp [← heq]
  · exact hmethod.subset (by simp)

end MethodName

namespace MethodRegistry

open MethodName

variable {U S : Type} {r : MethodRegistry U S} {name k : String} {p q : MethodName}

/-- **The keys a lookup considers**, by their parsed parts. -/
theorem mem_candidates_iff (hp : p.WellFormed) (hk : k ∈ r.keys)
    (hq : MethodName.parse k = some q) : k ∈ r.candidates p ↔ SameTriple q p ∨ Shadows q p := by
  obtain ⟨q', v, hq', hv⟩ := parse_key hk
  obtain rfl : q' = q := Option.some.inj (hq'.symm.trans hq)
  obtain ⟨hwf, rfl⟩ := parse_eq_some_iff.mp hq
  rw [candidates, List.mem_filter, Bool.and_eq_true, List.isPrefixOf_iff_prefix,
    List.isSuffixOf_iff_suffix, prefix_toCanonical_iff hwf hp hv]
  have hsuffix := suffix_toCanonical_iff hwf hp
  rw [suffix] at hsuffix
  rw [hsuffix, SameTriple, Shadows, suffix]
  tauto

/-- The triple of `p` has this key. -/
def HasKey (r : MethodRegistry U S) (p : MethodName) (k : String) : Prop :=
  k ∈ r.keys ∧ ∃ q, MethodName.parse k = some q ∧ SameTriple q p

/-- The key belongs to another triple and ends like a key of `p`. -/
def HasShadow (r : MethodRegistry U S) (p : MethodName) (k : String) : Prop :=
  k ∈ r.keys ∧ ∃ q, MethodName.parse k = some q ∧ Shadows q p

theorem candidates_iff (hp : p.WellFormed) :
    k ∈ r.candidates p ↔ r.HasKey p k ∨ r.HasShadow p k := by
  constructor
  · intro hk
    have hkey := candidates_subset hk
    obtain ⟨q, -, hq, -⟩ := parse_key hkey
    obtain h | h := (mem_candidates_iff hp hkey hq).mp hk
    · exact .inl ⟨hkey, q, hq, h⟩
    · exact .inr ⟨hkey, q, hq, h⟩
  · rintro (⟨hkey, q, hq, h⟩ | ⟨hkey, q, hq, h⟩)
    · exact (mem_candidates_iff hp hkey hq).mpr (.inl h)
    · exact (mem_candidates_iff hp hkey hq).mpr (.inr h)

/-- A method segment is shorter than an ending it is part of, so no key is of both kinds. -/
theorem HasShadow.not_hasKey (h : r.HasShadow p k) : ¬ r.HasKey p k := by
  obtain ⟨-, q, hq, -, hsuffix⟩ := h
  rintro ⟨-, q', hq', -, -, hmethod⟩
  obtain rfl : q = q' := Option.some.inj (hq.symm.trans hq')
  have hlen := hsuffix.length_le
  rw [toList_suffix, hmethod] at hlen
  simp only [List.length_cons, List.length_append] at hlen
  omega

/-- A lookup stays on the triple of its name: what it returns is registered under a version of
the triple, and it finds nothing exactly when the triple has no version. -/
def NeverCrosses (r : MethodRegistry U S) (name : String) (p : MethodName) : Prop :=
  (∀ k e, r.lookupSlot name = some (k, e) → r.HasKey p k) ∧
    (r.lookupSlot name = none ↔ ∀ k, ¬ r.HasKey p k)

/-- **A version-omitted lookup stays on its triple** if and only if every foreign key that ends
like one of the triple is smaller than some key of the triple. -/
theorem lookup_neverCrosses_iff (r : MethodRegistry U S) (hp : MethodName.parse name = some p)
    (hv : p.version = none) :
    r.NeverCrosses name p ↔
      ∀ k, r.HasShadow p k → ∃ k', r.HasKey p k' ∧ k < k' := by
  have hwf : p.WellFormed := (parse_eq_some_iff.mp hp).1
  constructor
  · rintro ⟨hslot, -⟩ k hk
    have hcand : k ∈ r.candidates p := (candidates_iff hwf).mpr (.inr hk)
    cases hl : r.lookupSlot name with
    | none =>
        rw [lookupSlot_omitted_eq_none_iff hp hv] at hl
        rw [hl] at hcand
        cases hcand
    | some slot =>
        obtain ⟨k', e⟩ := slot
        have hkey := hslot k' e hl
        have hle := ((lookupSlot_omitted_iff hp hv).mp hl).2.2 k hcand
        refine ⟨k', hkey, lt_of_le_of_ne hle ?_⟩
        rintro rfl
        exact hk.not_hasKey hkey
  · intro hdom
    refine ⟨fun k e hl => ?_, ?_⟩
    · obtain ⟨-, hcand, hmax⟩ := (lookupSlot_omitted_iff hp hv).mp hl
      obtain hkey | hshadow := (candidates_iff hwf).mp hcand
      · exact hkey
      · obtain ⟨k', hkey', hlt⟩ := hdom k hshadow
        exact absurd hlt (not_lt_of_ge (hmax k' ((candidates_iff hwf).mpr (.inl hkey'))))
    · rw [lookupSlot_omitted_eq_none_iff hp hv, List.eq_nil_iff_forall_not_mem]
      constructor
      · intro h k hkey
        exact h k ((candidates_iff hwf).mpr (.inl hkey))
      · intro h k hcand
        obtain hkey | hshadow := (candidates_iff hwf).mp hcand
        · exact h k hkey
        · obtain ⟨k', hkey', -⟩ := hdom k hshadow
          exact h k' hkey'

section names

/-- The name whose lookups the two registries below answer. -/
def sendName : MethodName := ⟨"tolki:chat", none, "chat", "send"⟩

/-- The foreign key is the smaller one here. -/
theorem lookup_neverCrosses_iff_dominated : ∃ r : MethodRegistry ℕ ℕ,
    ((empty.register "tolki:chat@1.0.0/admin/chat/send" 7).bind
        (·.registerStreaming "tolki:chat@2.0.0/chat/send" 8)) = some r ∧
      r.NeverCrosses "tolki:chat/chat/send" sendName := by
  refine ⟨_, rfl, (lookup_neverCrosses_iff _ (by decide) rfl).mpr ?_⟩
  intro k hk
  have hparse : MethodName.parse "tolki:chat@2.0.0/chat/send" =
      some ⟨"tolki:chat", some "2.0.0", "chat", "send"⟩ := by decide
  refine ⟨"tolki:chat@2.0.0/chat/send", ⟨by decide, _, hparse, by decide⟩, ?_⟩
  have hmem : k ∈ ["tolki:chat@1.0.0/admin/chat/send", "tolki:chat@2.0.0/chat/send"] := hk.1
  obtain rfl | hmem := List.mem_cons.mp hmem
  · decide
  · obtain rfl := List.mem_singleton.mp hmem
    exact absurd ⟨by decide, _, hparse, by decide⟩ hk.not_hasKey

/-- A lone foreign key that ends like the name. -/
theorem lookup_crosses : ∃ r : MethodRegistry ℕ ℕ,
    empty.register "tolki:chat@1.0.0/admin/chat/send" 7 = some r ∧
      MethodName.parse "tolki:chat/chat/send" = some sendName ∧ sendName.version = none ∧
        ¬ r.NeverCrosses "tolki:chat/chat/send" sendName := by
  refine ⟨_, rfl, by decide, rfl, ?_⟩
  rintro ⟨hslot, -⟩
  obtain ⟨-, q, hq, hsame⟩ := hslot "tolki:chat@1.0.0/admin/chat/send" (.unary 7) (by decide)
  have hparse : MethodName.parse "tolki:chat@1.0.0/admin/chat/send" =
      some ⟨"tolki:chat", some "1.0.0", "admin", "chat/send"⟩ := by decide
  cases hparse.symm.trans hq
  revert hsame
  decide

end names

end MethodRegistry

end NerwRpc
