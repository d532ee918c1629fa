import Mathlib.Data.Nat.Notation
import Mathlib.Data.List.Nodup
import NerwRpc.Text

/-! # Method names and the method registry

A method name is `package[@version]/interface/method`.  `MethodName.parse` cuts it at the
first two `/` and cuts the first part at its first `@`, so the method segment may itself
contain `/`; `MethodName.parse_eq_some_iff` characterizes it as the inverse of `toCanonical` on
the well-formed names.

`MethodRegistry` carries the invariant that its keys are distinct and pin a version.
`lookupSlot_omitted_iff` says which slot a version-omitted lookup returns: the one with the
greatest key, as a string, among the keys that begin and end like the name. -/

namespace NerwRpc

open Text

/-! ### Method names -/

/-- A parsed canonical method name. -/
structure MethodName where
  package : String
  version : Option String
  interface : String
  method : String
deriving DecidableEq, Repr

namespace MethodName

def parse (s : String) : Option MethodName :=
  match splitOnce '/' s.toList with
  | none => none
  | some (pkgPart, rest) => match splitOnce '/' rest with
    | none => none
    | some (interface, method) =>
        if pkgPart = [] ∨ interface = [] ∨ method = [] then none
        else match splitOnce '@' pkgPart with
          | some (pkg, ver) =>
              if pkg = [] ∨ ver = [] then none
              else some ⟨.ofList pkg, some (.ofList ver), .ofList interface, .ofList method⟩
          | none => some ⟨.ofList pkgPart, none, .ofList interface, .ofList method⟩

def toCanonical (n : MethodName) : String :=
  match n.version with
  | none => n.package ++ "/" ++ n.interface ++ "/" ++ n.method
  | some v => n.package ++ "@" ++ v ++ "/" ++ n.interface ++ "/" ++ n.method

/-- The names that `toCanonical` renders faithfully. -/
structure WellFormed (n : MethodName) : Prop where
  package_ne : n.package.toList ≠ []
  package_slash : '/' ∉ n.package.toList
  package_at : '@' ∉ n.package.toList
  version_ne : ∀ v ∈ n.version, v.toList ≠ []
  version_slash : ∀ v ∈ n.version, '/' ∉ v.toList
  interface_ne : n.interface.toList ≠ []
  interface_slash : '/' ∉ n.interface.toList
  method_ne : n.method.toList ≠ []

/-- The first part of a canonical name. -/
def pkgPart (n : MethodName) : List Char :=
  match n.version with
  | none => n.package.toList
  | some v => n.package.toList ++ '@' :: v.toList

theorem toList_toCanonical (n : MethodName) : n.toCanonical.toList =
    n.pkgPart ++ '/' :: (n.interface.toList ++ '/' :: n.method.toList) := by
  obtain ⟨p, v, i, m⟩ := n
  cases v <;> simp [toCanonical, pkgPart, String.toList_append]

variable {n : MethodName}

theorem WellFormed.pkgPart_slash (h : n.WellFormed) : '/' ∉ n.pkgPart := by
  obtain ⟨p, v, i, m⟩ := n
  cases v with
  | none => exact h.package_slash
  | some v =>
      simp only [pkgPart, List.mem_append, List.mem_cons, not_or]
      exact ⟨h.package_slash, by decide, h.version_slash v rfl⟩

theorem WellFormed.pkgPart_ne (h : n.WellFormed) : n.pkgPart ≠ [] := by
  obtain ⟨p, v, i, m⟩ := n
  cases v with
  | none => exact h.package_ne
  | some v => simp [pkgPart]

/-- **Parsing inverts rendering**, on exactly the well-formed names. -/
theorem parse_eq_some_iff {s : String} : parse s = some n ↔ n.WellFormed ∧ n.toCanonical = s := by
  constructor
  · intro h
    unfold parse at h
    split at h
    · cases h
    · rename_i pkgPart rest hs
      obtain ⟨hpkg, hs⟩ := splitOnce_eq_some_iff.mp hs
      split at h
      · cases h
      · rename_i interface method hrest
        obtain ⟨hint, hrest⟩ := splitOnce_eq_some_iff.mp hrest
        split_ifs at h with hne
        simp only [not_or] at hne
        obtain ⟨hpne, hine, hmne⟩ := hne
        split at h
        · rename_i pkg ver hat
          obtain ⟨hat, hpv⟩ := splitOnce_eq_some_iff.mp hat
          split_ifs at h with hne
          simp only [not_or] at hne
          cases h
          rw [hpv, List.mem_append, List.mem_cons] at hpkg
          simp only [not_or] at hpkg
          refine ⟨⟨by simpa using hne.1, by simpa using hpkg.1, by simpa using hat, ?_, ?_,
            by simpa using hine, by simpa using hint, by simpa using hmne⟩, ?_⟩
          · rintro v ⟨⟩; simpa using hne.2
          · rintro v ⟨⟩; simpa using hpkg.2.2
          · rw [← String.toList_inj, toList_toCanonical, hs, hrest, hpv]
            simp [MethodName.pkgPart]
        · rename_i hat
          cases h
          refine ⟨⟨by simpa using hpne, by simpa using hpkg,
            by simpa using splitOnce_eq_none_iff.mp hat, ?_, ?_, by simpa using hine,
            by simpa using hint, by simpa using hmne⟩, ?_⟩
          · rintro v ⟨⟩
          · rintro v ⟨⟩
          · rw [← String.toList_inj, toList_toCanonical, hs, hrest]
            simp [MethodName.pkgPart]
  · rintro ⟨h, rfl⟩
    have h1 : splitOnce '/' n.toCanonical.toList =
        some (n.pkgPart, n.interface.toList ++ '/' :: n.method.toList) :=
      splitOnce_eq_some_iff.mpr ⟨h.pkgPart_slash, toList_toCanonical n⟩
    have h2 : splitOnce '/' (n.interface.toList ++ '/' :: n.method.toList) =
        some (n.interface.toList, n.method.toList) :=
      splitOnce_eq_some_iff.mpr ⟨h.interface_slash, rfl⟩
    have hne : ¬ (n.pkgPart = [] ∨ n.interface.toList = [] ∨ n.method.toList = []) := by
      simp only [not_or]
      exact ⟨h.pkgPart_ne, h.interface_ne, h.method_ne⟩
    simp only [parse, h1, h2, if_neg hne]
    obtain ⟨p, v, i, m⟩ := n
    cases v with
    | none =>
        have h3 : splitOnce '@' (pkgPart ⟨p, none, i, m⟩) = none :=
          splitOnce_eq_none_iff.mpr h.package_at
        simp only [h3]
        simp [pkgPart]
    | some v =>
        have h3 : splitOnce '@' (pkgPart ⟨p, some v, i, m⟩) = some (p.toList, v.toList) :=
          splitOnce_eq_some_iff.mpr ⟨h.package_at, rfl⟩
        have hne' : ¬ (p.toList = [] ∨ v.toList = []) := by
          simp only [not_or]
          exact ⟨h.package_ne, h.version_ne v rfl⟩
        simp only [h3, if_neg hne', String.ofList_toList]

/-- The texts `package[@version]/interface/method` with nothing empty and no separator where the
next cut would fall. -/
def CanonicalForm (s : String) : Prop :=
  ∃ (package : List Char) (version : Option (List Char)) (interface method : List Char),
    (package ≠ [] ∧ '/' ∉ package ∧ '@' ∉ package) ∧ (∀ v ∈ version, v ≠ [] ∧ '/' ∉ v) ∧
      (interface ≠ [] ∧ '/' ∉ interface) ∧ method ≠ [] ∧
      s.toList = package ++ ((version.map ('@' :: ·)).getD [] ++
        '/' :: (interface ++ '/' :: method))

theorem WellFormed.canonicalForm (h : n.WellFormed) : CanonicalForm n.toCanonical := by
  refine ⟨n.package.toList, n.version.map String.toList, n.interface.toList, n.method.toList,
    ⟨h.package_ne, h.package_slash, h.package_at⟩, ?_, ⟨h.interface_ne, h.interface_slash⟩,
    h.method_ne, ?_⟩
  · intro v hv
    obtain ⟨u, hu, rfl⟩ := Option.map_eq_some_iff.mp hv
    exact ⟨h.version_ne u hu, h.version_slash u hu⟩
  · rw [toList_toCanonical]
    obtain ⟨p, v, i, m⟩ := n
    cases v <;> simp [pkgPart]

theorem CanonicalForm.exists_wellFormed {s : String} (h : CanonicalForm s) :
    ∃ n : MethodName, n.WellFormed ∧ n.toCanonical = s := by
  obtain ⟨p, v, i, m, hp, hv, hi, hm, hs⟩ := h
  refine ⟨⟨.ofList p, v.map String.ofList, .ofList i, .ofList m⟩,
    ⟨by simpa using hp.1, by simpa using hp.2.1, by simpa using hp.2.2, ?_, ?_,
      by simpa using hi.1, by simpa using hi.2, by simpa using hm⟩, ?_⟩
  · intro w hw
    obtain ⟨u, hu, rfl⟩ := Option.map_eq_some_iff.mp hw
    simpa using (hv u hu).1
  · intro w hw
    obtain ⟨u, hu, rfl⟩ := Option.map_eq_some_iff.mp hw
    simpa using (hv u hu).2
  · rw [← String.toList_inj, toList_toCanonical, hs]
    cases v <;> simp [pkgPart]

/-- **Names and their texts identify each other**: parsing and rendering are inverse bijections
between the texts of canonical form and the well-formed names. -/
theorem parse_toCanonical_inverse :
    (∀ (s : String) (n : MethodName), parse s = some n → n.toCanonical = s ∧ n.WellFormed) ∧
      (∀ n : MethodName, n.WellFormed → parse n.toCanonical = some n) ∧
      (∀ s : String, (parse s).isSome = true ↔ CanonicalForm s) ∧
      ∀ (s s' : String) (n : MethodName), parse s = some n → parse s' = some n → s = s' := by
  refine ⟨?_, ?_, ?_, ?_⟩
  · intro s n h
    obtain ⟨hn, hs⟩ := parse_eq_some_iff.mp h
    exact ⟨hs, hn⟩
  · intro n hn
    exact parse_eq_some_iff.mpr ⟨hn, rfl⟩
  · intro s
    rw [Option.isSome_iff_exists]
    constructor
    · rintro ⟨n, h⟩
      obtain ⟨hn, rfl⟩ := parse_eq_some_iff.mp h
      exact hn.canonicalForm
    · intro h
      obtain ⟨n, hn⟩ := h.exists_wellFormed
      exact ⟨n, parse_eq_some_iff.mpr hn⟩
  · intro s s' n h h'
    rw [← (parse_eq_some_iff.mp h).2, ← (parse_eq_some_iff.mp h').2]

end MethodName

/-! ### The registry -/

/-- A registry slot. -/
inductive HandlerEntry (U S : Type) where
  | unary (handler : U)
  | streaming (handler : S)
deriving DecidableEq, Repr

/-- The invariant that both `register` entry points assert of a name. -/
def validateCanonical (canonicalName : String) : Bool :=
  match MethodName.parse canonicalName with
  | none => false
  | some parsed => parsed.version.isSome

theorem validateCanonical_iff {canonicalName : String} : validateCanonical canonicalName = true ↔
    ∃ q v, MethodName.parse canonicalName = some q ∧ q.version = some v := by
  unfold validateCanonical
  cases MethodName.parse canonicalName with
  | none => simp
  | some q => simp [Option.isSome_iff_exists]

theorem validateCanonical_pinned : validateCanonical "a@1/b/c" = true := by decide

/-- The handlers, keyed by canonical names that pin a version. -/
structure MethodRegistry (U S : Type) where
  handlers : List (String × HandlerEntry U S)
  nodup : (handlers.map Prod.fst).Nodup
  pinned : ∀ slot ∈ handlers, validateCanonical slot.1 = true

namespace MethodRegistry

variable {U S : Type} (r : MethodRegistry U S)

def empty : MethodRegistry U S := ⟨[], by simp, by simp⟩

def keys : List String := r.handlers.map Prod.fst

/-- The slot under a key. -/
def get (name : String) : Option (String × HandlerEntry U S) :=
  r.handlers.find? fun slot => slot.1 = name

/-- Map insertion: the last entry under a key wins. -/
def insert (name : String) (entry : HandlerEntry U S) (h : validateCanonical name = true) :
    MethodRegistry U S where
  handlers := (r.handlers.filter fun slot => slot.1 ≠ name) ++ [(name, entry)]
  nodup := by
    rw [List.map_append, List.nodup_append]
    refine ⟨(r.nodup.sublist (List.filter_sublist.map _)), by simp, ?_⟩
    rintro a ha b hb rfl
    simp only [List.map_cons, List.map_nil, List.mem_singleton] at hb
    subst hb
    obtain ⟨slot, hslot, hname⟩ := List.mem_map.mp ha
    have := (List.mem_filter.mp hslot).2
    simp [hname] at this
  pinned := by
    intro slot hslot
    obtain hold | hnew := List.mem_append.mp hslot
    · exact r.pinned slot (List.mem_filter.mp hold).1
    · rw [List.mem_singleton.mp hnew]
      exact h

/-- `none` where the source panics. -/
def register (canonicalName : String) (handler : U) : Option (MethodRegistry U S) :=
  if h : validateCanonical canonicalName = true then
    some (r.insert canonicalName (.unary handler) h)
  else none

def registerStreaming (canonicalName : String) (handler : S) : Option (MethodRegistry U S) :=
  if h : validateCanonical canonicalName = true then
    some (r.insert canonicalName (.streaming handler) h)
  else none

/-- The keys a version-omitted name may resolve to. -/
def candidates (parsed : MethodName) : List String :=
  let pre := parsed.package ++ "@"
  let suf := "/" ++ parsed.interface ++ "/" ++ parsed.method
  r.keys.filter fun k => pre.toList.isPrefixOf k.toList && suf.toList.isSuffixOf k.toList

/-- The slot `lookupEntry` returns a reference to. -/
def lookupSlot (name : String) : Option (String × HandlerEntry U S) :=
  match r.get name with
  | some slot => some slot
  | none => match MethodName.parse name with
    | none => none
    | some parsed =>
        if parsed.version.isSome then none
        else match (r.candidates parsed).max? with
          | none => none
          | some maxKey => r.get maxKey

def lookupEntry (name : String) : Option (HandlerEntry U S) := (r.lookupSlot name).map Prod.snd

def lookup (name : String) : Option U :=
  match r.lookupEntry name with
  | some (.unary h) => some h
  | _ => none

def lookupStreaming (name : String) : Option S :=
  match r.lookupEntry name with
  | some (.streaming h) => some h
  | _ => none

/-- The keys in ascending order. -/
def methodNames : List String := r.keys.mergeSort fun a b => decide (a ≤ b)

/-! ### What a lookup returns -/

variable {r}

theorem get_eq_some_iff {k k' : String} {e : HandlerEntry U S} :
    r.get k = some (k', e) ↔ k' = k ∧ (k, e) ∈ r.handlers := by
  constructor
  · intro h
    have hk : k' = k := by simpa using List.find?_some h
    subst hk
    exact ⟨rfl, List.mem_of_find?_eq_some h⟩
  · rintro ⟨rfl, hmem⟩
    cases hf : r.get k' with
    | none =>
        have := List.find?_eq_none.mp hf _ hmem
        simp at this
    | some slot =>
        obtain ⟨k, e'⟩ := slot
        have hk : k = k' := by simpa using List.find?_some hf
        have hmem' := List.mem_of_find?_eq_some hf
        subst hk
        rw [List.inj_on_of_nodup_map r.nodup hmem' hmem rfl]

theorem get_eq_none_iff {k : String} : r.get k = none ↔ k ∉ r.keys := by
  rw [get, List.find?_eq_none, keys, List.mem_map]
  constructor
  · rintro h ⟨slot, hslot, rfl⟩
    have := h slot hslot
    simp at this
  · intro h slot hslot heq
    exact h ⟨slot, hslot, by simpa using heq⟩

theorem get_insert {name k : String} {entry : HandlerEntry U S}
    (h : validateCanonical name = true) :
    (r.insert name entry h).get k = if k = name then some (name, entry) else r.get k := by
  have hnew : ∀ {k' e}, (k', e) ∈ (r.insert name entry h).handlers ↔
      (k' ≠ name ∧ (k', e) ∈ r.handlers) ∨ (k' = name ∧ e = entry) := by
    intro k' e
    simp [insert, and_comm]
  by_cases hk : k = name
  · rw [if_pos hk, hk]
    exact get_eq_some_iff.mpr ⟨rfl, hnew.mpr (.inr ⟨rfl, rfl⟩)⟩
  · rw [if_neg hk]
    cases hget : r.get k with
    | none =>
        rw [get_eq_none_iff, keys, List.mem_map]
        rintro ⟨⟨k', e⟩, hmem, rfl⟩
        obtain ⟨-, hold⟩ | ⟨rfl, -⟩ := hnew.mp hmem
        · exact get_eq_none_iff.mp hget (List.mem_map_of_mem (f := Prod.fst) hold)
        · exact hk rfl
    | some slot =>
        obtain ⟨k', e⟩ := slot
        obtain ⟨rfl, hmem⟩ := get_eq_some_iff.mp hget
        exact get_eq_some_iff.mpr ⟨rfl, hnew.mpr (.inl ⟨hk, hmem⟩)⟩

theorem mem_keys_iff {k : String} : k ∈ r.keys ↔ ∃ e, (k, e) ∈ r.handlers := by
  simp [keys]

theorem parse_key {k : String} (h : k ∈ r.keys) :
    ∃ q v, MethodName.parse k = some q ∧ q.version = some v := by
  obtain ⟨e, he⟩ := mem_keys_iff.mp h
  exact validateCanonical_iff.mp (r.pinned _ he)

theorem get_omitted {name : String} {p : MethodName} (hp : MethodName.parse name = some p)
    (hv : p.version = none) : r.get name = none := by
  rw [get_eq_none_iff]
  intro hk
  obtain ⟨q, v, hq, hqv⟩ := parse_key hk
  rw [hp] at hq
  cases hq
  rw [hv] at hqv
  cases hqv

/-- **The slot of a version-omitted lookup** is the one with the greatest candidate key. -/
theorem lookupSlot_omitted_iff {name k : String} {p : MethodName} {e : HandlerEntry U S}
    (hp : MethodName.parse name = some p) (hv : p.version = none) :
    r.lookupSlot name = some (k, e) ↔
      (k, e) ∈ r.handlers ∧ k ∈ r.candidates p ∧ ∀ k' ∈ r.candidates p, k' ≤ k := by
  simp only [lookupSlot, get_omitted hp hv, hp, hv, Option.isSome_none, Bool.false_eq_true,
    if_false]
  cases hm : (r.candidates p).max? with
  | none =>
      have := List.max?_eq_none_iff.mp hm
      simp [this]
  | some maxKey =>
      obtain ⟨hmem, hmax⟩ := List.max?_eq_some_iff.mp hm
      simp only [get_eq_some_iff]
      constructor
      · rintro ⟨rfl, he⟩
        exact ⟨he, hmem, hmax⟩
      · rintro ⟨he, hk, hk'⟩
        have : k = maxKey := le_antisymm (hmax k hk) (hk' maxKey hmem)
        subst this
        exact ⟨rfl, he⟩

theorem candidates_subset {p : MethodName} {k : String} (h : k ∈ r.candidates p) : k ∈ r.keys :=
  (List.mem_filter.mp h).1

theorem lookupSlot_omitted_eq_none_iff {name : String} {p : MethodName}
    (hp : MethodName.parse name = some p) (hv : p.version = none) :
    r.lookupSlot name = none ↔ r.candidates p = [] := by
  simp only [lookupSlot, get_omitted hp hv, hp, hv, Option.isSome_none, Bool.false_eq_true,
    if_false]
  cases hm : (r.candidates p).max? with
  | none => simpa using hm
  | some maxKey =>
      obtain ⟨hmem, -⟩ := List.max?_eq_some_iff.mp hm
      have hkey := candidates_subset hmem
      constructor
      · intro h
        exact absurd hkey (get_eq_none_iff.mp h)
      · intro h
        rw [h] at hmem
        cases hmem

/-- A name that pins its version resolves to the slot under that very name. -/
theorem lookupSlot_pinned {name v : String} {p : MethodName}
    (hp : MethodName.parse name = some p) (hv : p.version = some v) :
    r.lookupSlot name = r.get name := by
  simp only [lookupSlot, hp, hv, Option.isSome_some, if_true]
  cases r.get name <;> rfl

section congr

variable {r' : MethodRegistry U S}

theorem get_congr (h : r.handlers.Perm r'.handlers) (k : String) : r.get k = r'.get k := by
  apply Option.ext
  rintro ⟨k', e⟩
  rw [get_eq_some_iff, get_eq_some_iff, h.mem_iff]

/-- A slot lies under its own key, so that its entry is all there is to know of it. -/
theorem get_ext (h : ∀ k, (r.get k).map Prod.snd = (r'.get k).map Prod.snd) (k : String) :
    r.get k = r'.get k := by
  have hslot : ∀ (r : MethodRegistry U S) k' e, r.get k = some (k', e) ↔
      k' = k ∧ (r.get k).map Prod.snd = some e := by
    intro r k' e
    constructor
    · intro hget
      exact ⟨(get_eq_some_iff.mp hget).1, by rw [hget]; rfl⟩
    · rintro ⟨rfl, hget⟩
      obtain ⟨⟨k'', e'⟩, hslot, rfl⟩ := Option.map_eq_some_iff.mp hget
      rwa [(get_eq_some_iff.mp hslot).1] at hslot
  apply Option.ext
  rintro ⟨k', e⟩
  rw [hslot, hslot, h]

theorem mem_handlers_congr (h : ∀ k, r.get k = r'.get k) {slot : String × HandlerEntry U S} :
    slot ∈ r.handlers ↔ slot ∈ r'.handlers := by
  obtain ⟨k, e⟩ := slot
  have hslot : r.get k = some (k, e) ↔ (k, e) ∈ r.handlers := by simp [get_eq_some_iff]
  rw [← hslot, h k, get_eq_some_iff, and_iff_right rfl]

theorem mem_keys_congr (h : ∀ k, r.get k = r'.get k) {k : String} : k ∈ r.keys ↔ k ∈ r'.keys := by
  simp only [mem_keys_iff, mem_handlers_congr h]

theorem lookupSlot_congr (h : ∀ k, r.get k = r'.get k) (name : String) :
    r.lookupSlot name = r'.lookupSlot name := by
  have hcand : ∀ p k, k ∈ r.candidates p ↔ k ∈ r'.candidates p := by
    intro p k
    simp only [candidates, List.mem_filter, mem_keys_congr h]
  cases hp : MethodName.parse name with
  | none => simp only [lookupSlot, h, hp]
  | some p =>
      cases hv : p.version with
      | some v => rw [lookupSlot_pinned hp hv, lookupSlot_pinned hp hv, h]
      | none =>
          apply Option.ext
          rintro ⟨k, e⟩
          rw [lookupSlot_omitted_iff hp hv, lookupSlot_omitted_iff hp hv, mem_handlers_congr h]
          simp only [hcand]

theorem lookup_congr (h : ∀ k, r.get k = r'.get k) (name : String) :
    r.lookup name = r'.lookup name ∧ r.lookupStreaming name = r'.lookupStreaming name := by
  have hentry : r.lookupEntry name = r'.lookupEntry name := congrArg _ (lookupSlot_congr h name)
  unfold lookup lookupStreaming
  rw [hentry]
  exact ⟨rfl, rfl⟩

end congr

theorem lookup_eq_some_iff {name : String} {h : U} :
    r.lookup name = some h ↔ r.lookupEntry name = some (.unary h) := by
  unfold lookup
  split <;> simp_all

theorem lookupStreaming_eq_some_iff {name : String} {h : S} :
    r.lookupStreaming name = some h ↔ r.lookupEntry name = some (.streaming h) := by
  unfold lookupStreaming
  split <;> simp_all

/-- What is registered resolves, as the one kind or the other. -/
theorem lookup_xor {name : String} (hname : name ∈ r.keys) :
    (r.lookup name).isSome ≠ (r.lookupStreaming name).isSome := by
  obtain ⟨q, v, hq, hv⟩ := parse_key hname
  have hget : r.lookupEntry name = (r.get name).map Prod.snd := by
    rw [lookupEntry, lookupSlot_pinned hq hv]
  cases hslot : r.get name with
  | none => exact absurd hname (get_eq_none_iff.mp hslot)
  | some slot =>
      obtain ⟨k, e⟩ := slot
      rw [hslot] at hget
      cases e <;> simp [lookup, lookupStreaming, hget]

@[simp] theorem mem_methodNames_iff {name : String} : name ∈ r.methodNames ↔ name ∈ r.keys := by
  simp [methodNames]

theorem pairwise_methodNames : r.methodNames.Pairwise (· < ·) := by
  have hnodup : r.methodNames.Nodup := (List.mergeSort_perm _ _).nodup_iff.mpr r.nodup
  have hle : r.methodNames.Pairwise (· ≤ ·) := by
    refine List.Pairwise.imp of_decide_eq_true (List.pairwise_mergeSort ?_ ?_ r.keys)
    · simpa using fun a b c => le_trans
    · simpa using le_total
  exact hle.imp₂ (fun a b h hne => lt_of_le_of_ne h hne) hnodup

theorem methodNames_congr {r' : MethodRegistry U S} (h : ∀ k, r.get k = r'.get k) :
    r.methodNames = r'.methodNames := by
  refine List.Perm.eq_of_pairwise ?_ pairwise_methodNames pairwise_methodNames ?_
  · intro a b _ _ hab hba
    exact absurd hba (lt_asymm hab)
  · refine (List.perm_ext_iff_of_nodup ?_ ?_).mpr ?_
    · exact pairwise_methodNames.imp ne_of_lt
    · exact pairwise_methodNames.imp ne_of_lt
    · simp only [mem_methodNames_iff, mem_keys_congr h, implies_true]

end MethodRegistry

end NerwRpc
