import NerwRpc.Client
import NerwRpc.ResponseFlow

/-! # The two ways of a handler error to the client

On the unary path an error crosses the wire as a `WireError`; on the streaming path its `Display`
text crosses as a `StreamingError`.  `errorPaths_agree_iff` says for which errors the two callers
observe the same, and `unaryEnvelope_stable` what survives the unary path and any number of
relays. -/

namespace NerwRpc

open ByteStream FramePump ResponseFlow

theorem stripPrefix_handler {q : String} (hq : q.toList.head? ≠ some 'h') (hne : q.toList ≠ [])
    (s : String) : stripPrefix "handler error: " (q ++ s) = none := by
  obtain ⟨c, cs, hcs⟩ := List.exists_cons_of_ne_nil hne
  have hc : ¬ 'h' = c := fun h => hq (by rw [hcs, ← h]; rfl)
  have hh : "handler error: ".toList = 'h' :: "andler error: ".toList := by decide
  rw [stripPrefix, String.toList_append, hcs, hh]
  simp [List.isPrefixOf?, hc]

/-- Two errors that a caller cannot tell apart by variant or text. -/
def SameError [StrDebug] (e e' : RpcError) : Prop :=
  e.variant = e'.variant ∧ e.display = e'.display

/-- The errors that both paths wrap into a handler error with the server-side text: those of the
transport, of the datagram layer and of a server that is already running. -/
def Wrapped : RpcError → Prop
  | .transportOpenSubstream _ _ | .transportRegisterAlpn _ _ | .transportRead _
  | .transportWrite _ | .datagramStreamIdCollision _ | .datagramStreamIdUnknown _
  | .datagramTooShort _ | .alreadyServing => True
  | _ => False

section paths

variable [Deps]

theorem display_wrapped {e : RpcError} (h : Wrapped e) :
    ∃ q s, q.toList.head? ≠ some 'h' ∧ q.toList ≠ [] ∧ e.display = q ++ s := by
  cases e with
  | transportOpenSubstream nodeId reason =>
      exact ⟨"transport: failed to open substream to peer ", nodeId ++ (": " ++ reason), by decide,
        by decide, by rw [← String.append_assoc, ← String.append_assoc]; rfl⟩
  | transportRegisterAlpn alpn reason =>
      exact ⟨"transport: failed to register ALPN handler '", alpn ++ ("': " ++ reason), by decide,
        by decide, by rw [← String.append_assoc, ← String.append_assoc]; rfl⟩
  | transportRead reason => exact ⟨"transport: read failed: ", reason, by decide, by decide, rfl⟩
  | transportWrite reason => exact ⟨"transport: write failed: ", reason, by decide, by decide, rfl⟩
  | datagramStreamIdCollision streamId =>
      exact ⟨"datagram: stream-id ", toString streamId.toNat ++ " already registered", by decide,
        by decide, by rw [← String.append_assoc]; rfl⟩
  | datagramStreamIdUnknown streamId =>
      exact ⟨"datagram: stream-id ", toString streamId.toNat ++ " not registered", by decide,
        by decide, by rw [← String.append_assoc]; rfl⟩
  | datagramTooShort len =>
      exact ⟨"datagram: too short (", toString len ++
        " bytes), need at least 1 byte for varint stream-id prefix", by decide, by decide,
        by rw [← String.append_assoc]; rfl⟩
  | alreadyServing =>
      exact ⟨"RpcServer::serve() called twice — accept loop already running", "", by decide,
        by decide, (String.append_empty).symm⟩
  | _ => exact h.elim

theorem stripPrefix_wrapped {e : RpcError} (h : Wrapped e) :
    stripPrefix "handler error: " e.display = none := by
  obtain ⟨q, s, hhead, hne, heq⟩ := display_wrapped h
  rw [heq]
  exact stripPrefix_handler hhead hne s

/-- What the client makes of an error that crossed the wire as a `WireError`. -/
def unaryError (e : RpcError) : RpcError := (WireError.fromRpcError e).intoRpcError

theorem unaryError_wrapped {e : RpcError} (h : Wrapped e) : unaryError e = .handler e.display := by
  have hwire : WireError.fromRpcError e = .handlerError e.display := by
    cases e with
    | transportOpenSubstream nodeId reason => rfl
    | transportRegisterAlpn alpn reason => rfl
    | transportRead reason => rfl
    | transportWrite reason => rfl
    | datagramStreamIdCollision streamId => rfl
    | datagramStreamIdUnknown streamId => rfl
    | datagramTooShort len => rfl
    | alreadyServing => rfl
    | _ => exact h.elim
  rw [unaryError, hwire, WireError.intoRpcError, stripPrefix_wrapped h]
  rfl

theorem unaryError_handler (source : String) : unaryError (.handler source) = .handler source := by
  show RpcError.handler ((stripPrefix "handler error: " ("handler error: " ++ source)).getD _) = _
  rw [stripPrefix_append]
  rfl

/-- What the client makes of an error that crossed the wire as a `StreamingError`. -/
def streamedError (e : RpcError) : RpcError := .handler e.display

/-- The two paths agree on the errors that both of them wrap, and on no others. -/
theorem sameError_iff (e : RpcError) :
    SameError (unaryError e) (streamedError e) ↔ Wrapped e := by
  constructor
  · rintro ⟨hvariant, hdisplay⟩
    cases e with
    | unknownMethod name => cases hvariant
    | versionMismatch requested available => cases hvariant
    | invalidMethodName input => cases hvariant
    | malformedFrame reason => cases hvariant
    | codec e =>
        have hlen : ("handler error: " ++ ("server codec error: " ++ e.display)).length =
            ("handler error: " ++ ("codec error: " ++ e.display)).length :=
          congrArg String.length hdisplay
        have h20 : "server codec error: ".length = 20 := by decide
        have h13 : "codec error: ".length = 13 := by decide
        simp only [String.length_append, h20, h13] at hlen
        omega
    | handler source =>
        rw [unaryError_handler] at hdisplay
        have hlen : ("handler error: " ++ source).length =
            ("handler error: " ++ ("handler error: " ++ source)).length :=
          congrArg String.length hdisplay
        have h15 : "handler error: ".length = 15 := by decide
        simp only [String.length_append, h15] at hlen
        omega
    | _ => trivial
  · intro h
    rw [unaryError_wrapped h]
    exact ⟨rfl, rfl⟩

/-! ### Over the wire -/

theorem writeError_ok {e : RpcError} {body : Bytes}
    (hbody : wireErrorCodec.toAllocvec (.fromRpcError e) = .ok body) :
    ∃ sent, writeError (SendStream.fresh none) e = (.ok (), sent) ∧
      sent.wire = opcodeUnaryError :: body := by
  have hwrite : writeError (SendStream.fresh none) e =
      (.ok (), ((SendStream.fresh none).writeAll (opcodeUnaryError :: body)).2.finish) := by
    simp only [writeError, hbody, writeBuf, SendStream.writeAll, SendStream.fresh]
  refine ⟨_, hwrite, ?_⟩
  simp [SendStream.wire, SendStream.writeAll, SendStream.fresh]

/-- **When a unary and a streaming caller observe the same error**: exactly when it is one of
those that both paths wrap. -/
theorem errorPaths_agree_iff (hw : wireErrorCodec.RoundTrips)
    (hs : streamingErrorCodec.RoundTrips) {e : RpcError} {body : Bytes}
    (hbody : wireErrorCodec.toAllocvec (.fromRpcError e) = .ok body)
    (hfits : BodyFits (.error (handlerErrToTerminal e))) :
    ∃ sent unary streamed, writeError (SendStream.fresh none) e = (.ok (), sent) ∧
      decodeResponseFrame sent.wire = .error unary ∧
      (∀ f, f = itemFrame (.error e) ∨ f = closingFrame (.returned (.error e)) →
        pumpInboundResponses.forwards (frame f) = [.error streamed]) ∧
      (SameError unary streamed ↔ Wrapped e) := by
  obtain ⟨sent, hsent, hwire⟩ := writeError_ok hbody
  refine ⟨sent, unaryError e, streamedError e, hsent, ?_, ?_, sameError_iff e⟩
  · rw [hwire, decodeResponseFrame, if_neg (by decide), if_pos rfl, hw _ _ hbody]
    rfl
  · have hread := (frameBytes_eq_frame hs hfits (.inl ⟨.error e, rfl⟩)).2
    rintro f (rfl | rfl)
    · exact forwards_error hread
    · exact forwards_error hread

/-! ### Relaying -/

/-- An error through the unary envelope: encoded, decoded and reconstructed. -/
def relay (e : RpcError) : Except PostcardError RpcError := do
  let body ← wireErrorCodec.toAllocvec (.fromRpcError e)
  let wire ← wireErrorCodec.fromBytes body
  return wire.intoRpcError

/-- An error through `n` servers, each of which answers with what it has received. -/
def relays : ℕ → RpcError → Except PostcardError RpcError
  | 0, e => .ok e
  | n + 1, e => do relays n (← relay e)

/-- The errors that have a variant of their own on both sides of the wire. -/
def Typed : RpcError → Prop
  | .unknownMethod _ | .versionMismatch _ _ | .invalidMethodName _ | .malformedFrame _ => True
  | _ => False

theorem unaryError_typed {e : RpcError} (h : Typed e) : unaryError e = e := by
  cases e with
  | unknownMethod name => rfl
  | versionMismatch requested available => rfl
  | invalidMethodName input => rfl
  | malformedFrame reason => rfl
  | _ => exact h.elim

theorem unaryError_untyped {e : RpcError} (h : ¬ Typed e) :
    ∃ source, unaryError e = .handler source := by
  cases e with
  | unknownMethod name => exact absurd trivial h
  | versionMismatch requested available => exact absurd trivial h
  | invalidMethodName input => exact absurd trivial h
  | malformedFrame reason => exact absurd trivial h
  | codec e => exact ⟨_, rfl⟩
  | handler source => exact ⟨source, unaryError_handler source⟩
  | _ => exact ⟨_, unaryError_wrapped trivial⟩

/-- A second hop changes nothing: what the first one reconstructs is typed or a handler error,
and of a handler error just the prefix that `Display` puts on is stripped. -/
theorem unaryError_idem (e : RpcError) : unaryError (unaryError e) = unaryError e := by
  by_cases h : Typed e
  · rw [unaryError_typed h, unaryError_typed h]
  · obtain ⟨source, hsource⟩ := unaryError_untyped h
    rw [hsource, unaryError_handler]

section relay

variable (hr : wireErrorCodec.RoundTrips) (ht : wireErrorCodec.Total)
include hr ht

theorem relay_eq (e : RpcError) : relay e = .ok (unaryError e) := by
  obtain ⟨body, hbody⟩ := ht (.fromRpcError e)
  have hdec := hr _ _ hbody
  unfold relay
  rw [hbody]
  show (wireErrorCodec.fromBytes body >>= fun wire => pure wire.intoRpcError) = _
  rw [hdec]
  rfl

theorem relays_succ (n : ℕ) (e : RpcError) : relays (n + 1) e = .ok (unaryError e) := by
  induction n generalizing e with
  | zero =>
      unfold relays
      rw [relay_eq hr ht e]
      rfl
  | succ n ih =>
      unfold relays
      rw [relay_eq hr ht e]
      show relays (n + 1) (unaryError e) = _
      rw [ih, unaryError_idem]

/-- **The unary envelope preserves the class of an error and is stable over any number of hops**:
the four typed errors arrive as they are, a handler error with its `Display`, every other error
as a handler error, and every further hop changes neither variant nor `Display`. -/
theorem unaryEnvelope_stable (e : RpcError) :
    ∃ e', relay e = .ok e' ∧
      decodeResponseFrame (writeError (SendStream.fresh none) e).2.wire = .error e' ∧
      (Typed e → e' = e) ∧
      (∀ inner, e = .handler inner → e'.variant = .handler ∧ e'.display = e.display) ∧
      (¬ Typed e → e'.variant = .handler) ∧
      (∃ e'', relay e' = .ok e'' ∧ SameError e'' e') ∧
      ∀ n, 1 ≤ n → ∃ en, relays n e = .ok en ∧ SameError en e' := by
  refine ⟨unaryError e, relay_eq hr ht e, ?_, unaryError_typed, ?_, ?_, ?_, ?_⟩
  · obtain ⟨body, hbody⟩ := ht (.fromRpcError e)
    obtain ⟨sent, hsent, hwire⟩ := writeError_ok hbody
    rw [hsent, hwire, decodeResponseFrame, if_neg (by decide), if_pos rfl, hr _ _ hbody]
    rfl
  · rintro inner rfl
    rw [unaryError_handler]
    exact ⟨rfl, rfl⟩
  · intro h
    obtain ⟨source, hsource⟩ := unaryError_untyped h
    rw [hsource]
    rfl
  · exact ⟨_, relay_eq hr ht _, by rw [unaryError_idem]; exact ⟨rfl, rfl⟩⟩
  · intro n hn
    obtain ⟨m, rfl⟩ : ∃ m, n = m + 1 := ⟨n - 1, by omega⟩
    exact ⟨_, relays_succ hr ht m e, rfl, rfl⟩

end relay

end paths

section reference

attribute [local instance] reference

theorem errorPaths_agree_alreadyServing :
    ∃ sent unary streamed, writeError (SendStream.fresh none) .alreadyServing = (.ok (), sent) ∧
      decodeResponseFrame sent.wire = .error unary ∧
      pumpInboundResponses.forwards (frame (itemFrame (.error .alreadyServing))) =
        [.error streamed] ∧ SameError unary streamed := by
  obtain ⟨sent, unary, streamed, hsent, hunary, hstreamed, hsame⟩ :=
    errorPaths_agree_iff (e := .alreadyServing) (ofCodec_roundTrips WireError.postcard)
      (ofCodec_roundTrips StreamingError.postcard) rfl ⟨_, rfl, by decide⟩
  exact ⟨sent, unary, streamed, hsent, hunary, hstreamed _ (.inl rfl), hsame.mpr trivial⟩

/-- A handler error whose text begins like its own prefix, through three servers. -/
theorem unaryEnvelope_stable_nested :
    ∃ e', relay (.handler "handler error: x") = .ok e' ∧ e'.variant = .handler ∧
      e'.display = "handler error: handler error: x" ∧
      ∃ e₃, relays 3 (.handler "handler error: x") = .ok e₃ ∧ SameError e₃ e' := by
  obtain ⟨e', hrelay, -, -, hhandler, -, -, hhops⟩ :=
    unaryEnvelope_stable (ofCodec_roundTrips WireError.postcard) (ofCodec_total WireError.postcard)
      (.handler "handler error: x")
  obtain ⟨hvariant, hdisplay⟩ := hhandler _ rfl
  exact ⟨e', hrelay, hvariant, hdisplay.trans (by decide), hhops 3 (by decide)⟩

/-- A handler error arrives with its prefix doubled on the streaming path. -/
theorem errorPaths_differ_handler :
    ¬ ∀ (e : RpcError) (sent : SendStream) (unary streamed : RpcError),
      writeError (SendStream.fresh none) e = (.ok (), sent) →
      decodeResponseFrame sent.wire = .error unary →
      pumpInboundResponses.forwards (frame (itemFrame (.error e))) = [.error streamed] →
      SameError unary streamed := by
  intro h
  have hsame := h (.handler "x") _ (.handler "x") (.handler "handler error: x") rfl
    (by decide +kernel) (by decide +kernel)
  exact absurd hsame.2 (by decide)

end reference

end NerwRpc
