import NerwRpc.KeyedHistory
import NerwRpc.Server
import NerwRpc.Reference

/-! # Registration histories and the schema method

A registry is what its registrations have left under each name.  `get_registryOf` says that this is
the last registration under the name, whatever was registered under other names and in whatever
order; `registry_history` draws the consequences for the lookups and for `schema_get`, the built-in
method that lists the registered names.

The schema handler holds a weak pointer to the registry, which is an address here; what it upgrades
to is up to whoever calls the handler. -/

namespace NerwRpc

open KeyedHistory

/-- The address that a weak pointer to a registry holds. -/
abbrev Weak := ℕ

structure SchemaHandler where
  registry : Weak
deriving DecidableEq, Repr

/-- The unary handlers of a registry: those of the application and the built-in one. -/
inductive UnaryHandler where
  | application (handler : MethodHandler)
  | schema (handler : SchemaHandler)

def methodSchemaGet : String := "nerw:schema@1.0.0/schema/get"

theorem validateCanonical_methodSchemaGet : validateCanonical methodSchemaGet = true := by decide

structure SchemaResponse where
  methods : List String
deriving DecidableEq, Repr

variable {S : Type}

def SchemaHandler.handle (codec : PostcardCodec SchemaResponse)
    (upgrade : Weak → Option (MethodRegistry UnaryHandler S)) (handler : SchemaHandler)
    (_ctx : RpcContext) (_request : Bytes) : RpcResult Bytes :=
  match upgrade handler.registry with
  | none => .error (.handler "method registry has been dropped")
  | some r => match codec.toAllocvec ⟨r.methodNames⟩ with
    | .error e => .error (.codec e)
    | .ok bytes => .ok bytes

def UnaryHandler.handle (codec : PostcardCodec SchemaResponse)
    (upgrade : Weak → Option (MethodRegistry UnaryHandler S)) : UnaryHandler → MethodHandler
  | application handler => handler
  | schema handler => handler.handle codec upgrade

def registerSchemaMethod (registry : MethodRegistry UnaryHandler S) (weak : Weak) :
    Option (MethodRegistry UnaryHandler S) :=
  registry.register methodSchemaGet (.schema ⟨weak⟩)

/-! ### Histories -/

/-- One call of a `register` entry point. -/
inductive Registration (S : Type) where
  | register (canonicalName : String) (handler : MethodHandler)
  | registerStreaming (canonicalName : String) (handler : S)
  | registerSchemaMethod (weak : Weak)

namespace Registration

def name : Registration S → String
  | register canonicalName _ | registerStreaming canonicalName _ => canonicalName
  | registerSchemaMethod _ => methodSchemaGet

def entry : Registration S → HandlerEntry UnaryHandler S
  | register _ handler => .unary (.application handler)
  | registerStreaming _ handler => .streaming handler
  | registerSchemaMethod weak => .unary (.schema ⟨weak⟩)

/-- A call that panics leaves the registry as it is. -/
def apply (r : MethodRegistry UnaryHandler S) : Registration S → MethodRegistry UnaryHandler S
  | register canonicalName handler => (r.register canonicalName (.application handler)).getD r
  | registerStreaming canonicalName handler => (r.registerStreaming canonicalName handler).getD r
  | registerSchemaMethod weak => (NerwRpc.registerSchemaMethod r weak).getD r

def touch (e : Registration S) (k : String) : Touch (HandlerEntry UnaryHandler S) :=
  if k = e.name ∧ validateCanonical e.name = true then .put e.entry else .leave

theorem apply_eq (r : MethodRegistry UnaryHandler S) (e : Registration S) :
    apply r e = if h : validateCanonical e.name = true then r.insert e.name e.entry h else r := by
  have hcall : apply r e = (if h : validateCanonical e.name = true then
      some (r.insert e.name e.entry h) else none).getD r := by
    cases e <;> rfl
  rw [hcall]
  by_cases h : validateCanonical e.name = true
  · rw [dif_pos h, dif_pos h]
    rfl
  · rw [dif_neg h, dif_neg h]
    rfl

theorem get_apply (r : MethodRegistry UnaryHandler S) (e : Registration S) (k : String) :
    ((apply r e).get k).map Prod.snd = (touch e k).apply ((r.get k).map Prod.snd) := by
  rw [apply_eq, touch]
  by_cases h : validateCanonical e.name = true
  · rw [dif_pos h, MethodRegistry.get_insert]
    by_cases hk : k = e.name <;> simp [hk, h, Touch.apply]
  · rw [dif_neg h, if_neg (fun hcon => h hcon.2)]
    rfl

end Registration

/-- The registry that a history leaves. -/
def registryOf (hist : List (Registration S)) : MethodRegistry UnaryHandler S :=
  hist.foldl Registration.apply .empty

/-- **A slot holds the last registration under its name.** -/
theorem get_registryOf (hist : List (Registration S)) (k : String) :
    ((registryOf hist).get k).map Prod.snd = last Registration.touch k hist := by
  induction hist using List.reverseRecOn with
  | nil => rfl
  | append_singleton hist e ih =>
      have hstep : registryOf (hist ++ [e]) = Registration.apply (registryOf hist) e := by
        simp [registryOf]
      rw [hstep, Registration.get_apply, ih, last_append_singleton]

/-- `r` holds what the history leaves, in whatever order its map iterates. -/
def Holds (r : MethodRegistry UnaryHandler S) (hist : List (Registration S)) : Prop :=
  r.handlers.Perm (registryOf hist).handlers

section holds

variable {r r' : MethodRegistry UnaryHandler S} {hist hist' : List (Registration S)} {name : String}

theorem Registration.touch_ne_drop (e : Registration S) (k : String) : e.touch k ≠ .drop := by
  unfold touch
  split <;> simp

theorem Registration.touch_eq_leave_iff {e : Registration S} {k : String} :
    e.touch k = .leave ↔ ¬ (e.name = k ∧ validateCanonical k = true) := by
  unfold touch
  split <;> rename_i h
  · obtain ⟨rfl, hv⟩ := h
    simp [hv]
  · simp only [true_iff]
    rintro ⟨rfl, hv⟩
    exact h ⟨rfl, hv⟩

theorem Holds.get (h : Holds r hist) (k : String) :
    (r.get k).map Prod.snd = last Registration.touch k hist := by
  rw [MethodRegistry.get_congr h, get_registryOf]

theorem Holds.lookupEntry (h : Holds r hist) (hname : validateCanonical name = true) :
    r.lookupEntry name = last Registration.touch name hist := by
  obtain ⟨p, v, hp, hv⟩ := validateCanonical_iff.mp hname
  rw [MethodRegistry.lookupEntry, MethodRegistry.lookupSlot_pinned hp hv, h.get]

/-- The keys are the names registered. -/
theorem Holds.mem_keys_iff (h : Holds r hist) : name ∈ r.keys ↔
    (∃ e ∈ hist, e.name = name) ∧ validateCanonical name = true := by
  have hnone : r.get name = none ↔ last Registration.touch name hist = none := by
    rw [← h.get, Option.map_eq_none_iff]
  rw [← not_iff_not, ← MethodRegistry.get_eq_none_iff, hnone,
    last_eq_none_iff fun e => e.touch_ne_drop name]
  simp only [Registration.touch_eq_leave_iff, not_and, forall_exists_index, and_imp]

theorem Holds.lookup_iff (h : Holds r hist) (hname : validateCanonical name = true)
    {handler : UnaryHandler} : r.lookup name = some handler ↔
      LastPut Registration.touch name (.unary handler) hist := by
  rw [MethodRegistry.lookup_eq_some_iff, h.lookupEntry hname, last_eq_some_iff]

theorem Holds.lookupStreaming_iff (h : Holds r hist) (hname : validateCanonical name = true)
    {handler : S} : r.lookupStreaming name = some handler ↔
      LastPut Registration.touch name (.streaming handler) hist := by
  rw [MethodRegistry.lookupStreaming_eq_some_iff, h.lookupEntry hname, last_eq_some_iff]

theorem Holds.lookup_never (h : Holds r hist) (hname : validateCanonical name = true)
    (hnever : ∀ e ∈ hist, e.name ≠ name) :
    r.lookup name = none ∧ r.lookupStreaming name = none := by
  have hnone : r.lookupEntry name = none := by
    rw [h.lookupEntry hname, last_eq_none_iff fun e => e.touch_ne_drop name]
    intro e he
    exact Registration.touch_eq_leave_iff.mpr fun hcon => hnever e he hcon.1
  unfold MethodRegistry.lookup MethodRegistry.lookupStreaming
  rw [hnone]
  exact ⟨rfl, rfl⟩

/-- The slots are those of any history with the same last registrations. -/
theorem Holds.get_eq (h : Holds r hist) (h' : Holds r' hist')
    (hlast : ∀ k, last Registration.touch k hist = last Registration.touch k hist') (k : String) :
    r.get k = r'.get k := by
  apply MethodRegistry.get_ext
  intro k
  rw [h.get, h'.get, hlast]

theorem Holds.lookup_schemaGet {before after : List (Registration S)} {weak : Weak}
    (h : Holds r (before ++ .registerSchemaMethod weak :: after))
    (hafter : ∀ e ∈ after, e.name ≠ methodSchemaGet) :
    r.lookup methodSchemaGet = some (.schema ⟨weak⟩) := by
  rw [h.lookup_iff validateCanonical_methodSchemaGet]
  refine ⟨before, .registerSchemaMethod weak, after, rfl, ?_, ?_⟩
  · exact if_pos ⟨rfl, validateCanonical_methodSchemaGet⟩
  · intro e he
    exact Registration.touch_eq_leave_iff.mpr fun hcon => hafter e he hcon.1

end holds

/-- The response lists the registered names, ascending, and each of them resolves. -/
def Lists (r : MethodRegistry UnaryHandler S) (hist : List (Registration S))
    (methods : List String) : Prop :=
  methods.Pairwise (· < ·) ∧
    (∀ name, name ∈ methods ↔
      (∃ e ∈ hist, e.name = name) ∧ validateCanonical name = true) ∧
    ∀ name ∈ methods, (r.lookup name).isSome ≠ (r.lookupStreaming name).isSome

theorem Holds.lists_methodNames {r : MethodRegistry UnaryHandler S}
    {hist : List (Registration S)} (h : Holds r hist) : Lists r hist r.methodNames := by
  refine ⟨MethodRegistry.pairwise_methodNames, ?_, ?_⟩
  · intro name
    rw [MethodRegistry.mem_methodNames_iff, h.mem_keys_iff]
  · intro name hname
    exact MethodRegistry.lookup_xor (MethodRegistry.mem_methodNames_iff.mp hname)

/-- **The registry over any registration history**, and what `schema_get` tells of it. -/
theorem registry_history {codec : PostcardCodec SchemaResponse} (hcodec : codec.RoundTrips)
    (htotal : codec.Total) {r : MethodRegistry UnaryHandler S} {hist : List (Registration S)}
    (hr : Holds r hist) :
    (∀ k ∈ r.keys, ∃ q v, MethodName.parse k = some q ∧ q.version = some v) ∧
    (∀ name q v, MethodName.parse name = some q → q.version = some v →
      (∀ handler, r.lookup name = some handler ↔
        LastPut Registration.touch name (.unary handler) hist) ∧
      (∀ handler, r.lookupStreaming name = some handler ↔
        LastPut Registration.touch name (.streaming handler) hist) ∧
      ((∀ e ∈ hist, e.name ≠ name) → r.lookup name = none ∧ r.lookupStreaming name = none)) ∧
    (∀ (r' : MethodRegistry UnaryHandler S) (hist' : List (Registration S)), Holds r' hist' →
      (∀ k, last Registration.touch k hist = last Registration.touch k hist') →
      (∀ name, r.lookup name = r'.lookup name ∧ r.lookupStreaming name = r'.lookupStreaming name) ∧
        r.methodNames = r'.methodNames) ∧
    (∀ before weak after upgrade ctx request,
      hist = before ++ .registerSchemaMethod weak :: after →
      (∀ e ∈ after, e.name ≠ methodSchemaGet) → upgrade weak = some r →
      ∃ handler bytes methods, r.lookup methodSchemaGet = some handler ∧
        handler.handle codec upgrade ctx request = .ok bytes ∧
        codec.fromBytes bytes = .ok ⟨methods⟩ ∧ Lists r hist methods) := by
  refine ⟨fun k hk => MethodRegistry.parse_key hk, ?_, ?_, ?_⟩
  · intro name q v hq hv
    have hname : validateCanonical name = true := validateCanonical_iff.mpr ⟨q, v, hq, hv⟩
    exact ⟨fun _ => hr.lookup_iff hname, fun _ => hr.lookupStreaming_iff hname,
      hr.lookup_never hname⟩
  · intro r' hist' hr' hlast
    have hslot := hr.get_eq hr' hlast
    refine ⟨fun name => ?_, MethodRegistry.methodNames_congr hslot⟩
    exact MethodRegistry.lookup_congr hslot name
  · rintro before weak after upgrade ctx request rfl hafter hup
    obtain ⟨bytes, hbytes⟩ := htotal ⟨r.methodNames⟩
    refine ⟨_, bytes, r.methodNames, hr.lookup_schemaGet hafter, ?_, hcodec _ _ hbytes,
      hr.lists_methodNames⟩
    simp only [UnaryHandler.handle, SchemaHandler.handle, hup, hbytes]

def SchemaResponse.postcard : Postcard.Codec SchemaResponse :=
  (Postcard.Codec.vec .str).map (fun l => ⟨l⟩) methods fun _ => rfl

/-- One name is taken over by the other kind of handler, one is refused. -/
def takeover : List (Registration ℕ) :=
  [.register "a@1/b/c" fun _ request => .ok request, .registerSchemaMethod 7,
    .registerStreaming "a@1/b/c" 5, .registerStreaming "a/b/c" 6]

theorem registry_history_takeover :
    (registryOf takeover).lookupStreaming "a@1/b/c" = some 5 ∧
      (registryOf takeover).lookup "a@2/b/c" = none ∧
      ∃ handler bytes methods, (registryOf takeover).lookup methodSchemaGet = some handler ∧
        handler.handle (.ofCodec SchemaResponse.postcard) (fun _ => some (registryOf takeover))
          (buildInboundContext anyInbound) [] = .ok bytes ∧
        (PostcardCodec.ofCodec SchemaResponse.postcard).fromBytes bytes = .ok ⟨methods⟩ ∧
        Lists (registryOf takeover) takeover methods := by
  obtain ⟨-, hlookup, -, hschema⟩ := registry_history
    (ofCodec_roundTrips SchemaResponse.postcard) (ofCodec_total SchemaResponse.postcard)
    (show Holds (registryOf takeover) takeover from List.Perm.refl _)
  refine ⟨?_, ?_, hschema [_] 7 [_, _] _ _ _ rfl (by decide) rfl⟩
  · obtain ⟨-, hstreaming, -⟩ := hlookup "a@1/b/c" ⟨"a", some "1", "b", "c"⟩ "1" (by decide) rfl
    refine (hstreaming 5).mpr ⟨[_, _], .registerStreaming "a@1/b/c" 5, [_], rfl, rfl, ?_⟩
    exact List.forall_mem_singleton.mpr rfl
  · obtain ⟨-, -, hnever⟩ := hlookup "a@2/b/c" ⟨"a", some "2", "b", "c"⟩ "2" (by decide) rfl
    exact (hnever (by decide)).1

end NerwRpc
