import NerwRpc.Resolve
import NerwRpc.SemVer

/-! # The version a name resolves to

Where no method segment holds a `/`, a version-omitted lookup chooses among the versions of its
triple.  It takes the greatest key, which is the version with the greatest text once the `/`
behind it is counted in (`HasVersion.key_lt`).

The registry documents this order as the one of its first phase, right for semantic versions of
single-digit components only.  `lookupEntry_latest` says how far it is right: the version
found is above every version it is `Aligned` with. -/

namespace NerwRpc

open Text

namespace MethodRegistry

open MethodName

variable {U S : Type} {r : MethodRegistry U S} {name k k' : String} {p q : MethodName}
  {v v' : String}

/-- The triple of `p` has the version `v`, under the key `k`. -/
def HasVersion (r : MethodRegistry U S) (p : MethodName) (k v : String) : Prop :=
  k ∈ r.keys ∧ MethodName.parse k = some { p with version := some v }

theorem hasKey_iff : r.HasKey p k ↔ ∃ v, r.HasVersion p k v := by
  constructor
  · rintro ⟨hk, q, hq, hpkg, hint, hmethod⟩
    obtain ⟨q', v, hq', hv⟩ := parse_key hk
    obtain rfl : q = q' := Option.some.inj (hq.symm.trans hq')
    refine ⟨v, hk, ?_⟩
    rw [hq, ← hpkg, ← hint, ← hmethod, ← hv]
  · rintro ⟨v, hk, hq⟩
    exact ⟨hk, _, hq, rfl, rfl, rfl⟩

/-- **Keys of one triple compare as their versions**, each with the `/` that closes it. -/
theorem HasVersion.key_lt (h : r.HasVersion p k v) (h' : r.HasVersion p k' v')
    (hlt : v.toList ++ ['/'] < v'.toList ++ ['/']) : k < k' := by
  obtain ⟨-, rfl⟩ := parse_eq_some_iff.mp h.2
  obtain ⟨hwf', rfl⟩ := parse_eq_some_iff.mp h'.2
  rw [String.lt_iff_toList_lt, toList_toCanonical, toList_toCanonical]
  simp only [pkgPart, List.append_assoc, List.cons_append]
  apply List.append_left_lt
  refine List.cons_lt_cons_iff.mpr (.inr ⟨rfl, ?_⟩)
  exact append_cons_lt (hwf'.version_slash v' rfl) hlt

/-- No method segment of the registry holds a `/`. -/
def PlainMethods (r : MethodRegistry U S) : Prop :=
  ∀ k ∈ r.keys, ∀ q, MethodName.parse k = some q → '/' ∉ q.method.toList

theorem PlainMethods.candidates_iff (hr : r.PlainMethods) (hp : p.WellFormed) :
    k ∈ r.candidates p ↔ ∃ v, r.HasVersion p k v := by
  rw [MethodRegistry.candidates_iff hp, hasKey_iff, or_iff_left]
  rintro ⟨hk, q, hq, hshadow⟩
  exact hr k hk q hq hshadow.slash_mem

/-- **The version a name resolves to** has the greatest text of its triple, a `/` behind each,
and precedes no version that it is aligned with. -/
theorem lookupEntry_latest (hr : r.PlainMethods) (hp : MethodName.parse name = some p)
    (hv : p.version = none) (hhas : r.HasVersion p k v) :
    ∃ k₀ v₀ e, r.lookupEntry name = some e ∧ (k₀, e) ∈ r.handlers ∧ r.HasVersion p k₀ v₀ ∧
      ∀ k' v', r.HasVersion p k' v' →
        v'.toList ++ ['/'] ≤ v₀.toList ++ ['/'] ∧
          ∀ a b, SemVer.parse v₀.toList = some a → SemVer.parse v'.toList = some b →
            SemVer.Aligned a b → ¬ a.Precedes b := by
  have hcand : ∀ {k}, k ∈ r.candidates p ↔ ∃ v, r.HasVersion p k v :=
    hr.candidates_iff (parse_eq_some_iff.mp hp).1
  cases hl : r.lookupSlot name with
  | none =>
      rw [lookupSlot_omitted_eq_none_iff hp hv] at hl
      have hk := hcand.mpr ⟨v, hhas⟩
      rw [hl] at hk
      cases hk
  | some slot =>
      obtain ⟨k₀, e⟩ := slot
      obtain ⟨he, hk₀, hmax⟩ := (lookupSlot_omitted_iff hp hv).mp hl
      obtain ⟨v₀, hv₀⟩ := hcand.mp hk₀
      have htext : ∀ k' v', r.HasVersion p k' v' →
          v'.toList ++ ['/'] ≤ v₀.toList ++ ['/'] := by
        intro k' v' h'
        by_contra hlt
        exact absurd (hv₀.key_lt h' (not_le.mp hlt)) (not_lt_of_ge (hmax k' (hcand.mpr ⟨v', h'⟩)))
      refine ⟨k₀, v₀, e, by rw [lookupEntry, hl]; rfl, he, hv₀, ?_⟩
      intro k' v' h'
      refine ⟨htext k' v' h', ?_⟩
      intro a b ha hb halign hprec
      obtain ⟨hva, hta⟩ := SemVer.render_of_parse ha
      obtain ⟨hvb, htb⟩ := SemVer.render_of_parse hb
      have hlt := SemVer.Version.render_lt (c := '/') (by decide) hva hvb halign hprec
      rw [hta, htb] at hlt
      exact absurd hlt (not_lt_of_ge (htext k' v' h'))

/-- Every registered version is a semantic version. -/
def SemVerKeys (r : MethodRegistry U S) : Prop :=
  ∀ k ∈ r.keys, ∀ q, MethodName.parse k = some q →
    ∀ v ∈ q.version, (SemVer.parse v.toList).isSome = true

/-- The lookup returns the entry of a version that no version of the triple is above. -/
def PicksLatest (r : MethodRegistry U S) (name : String) (p : MethodName) : Prop :=
  ∃ k v e a, r.lookupEntry name = some e ∧ (k, e) ∈ r.handlers ∧ r.HasVersion p k v ∧
    SemVer.parse v.toList = some a ∧
      ∀ k' v' b, r.HasVersion p k' v' → SemVer.parse v'.toList = some b → ¬ a.Precedes b

section nineAndTen

variable {r : MethodRegistry ℕ ℕ}

def echoName : MethodName := ⟨"tolki:chat", none, "chat", "echo"⟩

/-- Two versions of one method, of different widths. -/
def nineAndTen : Option (MethodRegistry ℕ ℕ) :=
  (empty.register "tolki:chat@9.0.0/chat/echo" 9).bind
    (·.register "tolki:chat@10.0.0/chat/echo" 10)

theorem parse_nine : MethodName.parse "tolki:chat@9.0.0/chat/echo" =
    some { echoName with version := some "9.0.0" } := by decide

theorem parse_ten : MethodName.parse "tolki:chat@10.0.0/chat/echo" =
    some { echoName with version := some "10.0.0" } := by decide

theorem nineAndTen_keys (hr : nineAndTen = some r) (hk : k ∈ r.keys)
    (hq : MethodName.parse k = some q) :
    q = { echoName with version := some "9.0.0" } ∨
      q = { echoName with version := some "10.0.0" } := by
  cases hr
  have hmem : k ∈ ["tolki:chat@9.0.0/chat/echo", "tolki:chat@10.0.0/chat/echo"] := hk
  obtain rfl | hmem := List.mem_cons.mp hmem
  · exact .inl (Option.some.inj (hq.symm.trans parse_nine))
  · obtain rfl := List.mem_singleton.mp hmem
    exact .inr (Option.some.inj (hq.symm.trans parse_ten))

theorem nineAndTen_plainMethods (hr : nineAndTen = some r) : r.PlainMethods := by
  intro k hk q hq
  rcases nineAndTen_keys hr hk hq with rfl | rfl <;> decide

theorem nineAndTen_semVerKeys (hr : nineAndTen = some r) : r.SemVerKeys := by
  intro k hk q hq
  rcases nineAndTen_keys hr hk hq with rfl | rfl <;> decide

theorem lookupEntry_latest_nineAndTen : ∃ r, nineAndTen = some r ∧
    ∃ k₀ v₀ e, r.lookupEntry "tolki:chat/chat/echo" = some e ∧ (k₀, e) ∈ r.handlers ∧
      r.HasVersion echoName k₀ v₀ ∧ ∀ k' v', r.HasVersion echoName k' v' →
        v'.toList ++ ['/'] ≤ v₀.toList ++ ['/'] ∧
          ∀ a b, SemVer.parse v₀.toList = some a → SemVer.parse v'.toList = some b →
            SemVer.Aligned a b → ¬ a.Precedes b :=
  ⟨_, rfl, lookupEntry_latest (nineAndTen_plainMethods rfl) (by decide) rfl
    ⟨by decide, parse_ten⟩⟩

/-- Version 9 wins over version 10. -/
theorem lookupEntry_notLatest : ∃ r, nineAndTen = some r ∧ r.PlainMethods ∧ r.SemVerKeys ∧
    MethodName.parse "tolki:chat/chat/echo" = some echoName ∧ echoName.version = none ∧
    (∃ k v, r.HasVersion echoName k v) ∧
    ¬ r.PicksLatest "tolki:chat/chat/echo" echoName := by
  refine ⟨_, rfl, nineAndTen_plainMethods rfl, nineAndTen_semVerKeys rfl, by decide, rfl,
    ⟨_, _, by decide, parse_ten⟩, ?_⟩
  rintro ⟨k, v, e, a, hl, he, hv, ha, hmax⟩
  have hentry : e = .unary 9 := Option.some.inj (hl.symm.trans (by decide))
  have hmem : (k, e) ∈ [("tolki:chat@9.0.0/chat/echo", HandlerEntry.unary 9),
      ("tolki:chat@10.0.0/chat/echo", HandlerEntry.unary 10)] := he
  subst hentry
  obtain rfl : k = "tolki:chat@9.0.0/chat/echo" := by simpa using hmem
  cases parse_nine.symm.trans hv.2
  have hnine : SemVer.parse "9.0.0".toList = some ⟨[['9'], ['0'], ['0']], [], []⟩ := by decide
  have hten : SemVer.parse "10.0.0".toList = some ⟨[['1', '0'], ['0'], ['0']], [], []⟩ := by
    decide
  cases hnine.symm.trans ha
  exact hmax _ _ _ ⟨by decide, parse_ten⟩ hten (.inl (.rel (by decide)))

end nineAndTen

end MethodRegistry

end NerwRpc
