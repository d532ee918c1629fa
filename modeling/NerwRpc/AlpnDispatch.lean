import NerwRpc.AcceptLoop

/-! # Which handler a connection gets

Every connection task looks its ALPN up once, in the table as it is at that instant.

* `Dispatching.step`: the table is what the trace has put there last, and what a task does is what
  its lookup has found.
* `connection_dispatch`: so a connection runs the handler that was put under its ALPN last before
  it looked, and is closed only on an ALPN that nobody had registered; never on that of the RPC
  wire protocol, since the loop is spawned behind its insertion.
* `connectionIds`: the wire-protocol handler numbers its connections from one. -/

namespace NerwRpc

open KeyedHistory Transition

namespace RpcServer

variable {H : Type} {s s' : RpcServer H}

/-! ### What a lookup finds -/

/-- The events in which connection `i` looks its handler up. -/
def lookups (i : ℕ) (trace : List (AlpnEvent H)) : List (AlpnEvent H) :=
  trace.filter (AlpnEvent.looksUp i)

/-- What the task has found is what it runs, or why it has closed its connection. -/
def Looked (i : ℕ) (trace : List (AlpnEvent H)) : ConnectionDispatch H → Prop
  | .accepting | .negotiating | .handshaking _ | .established _ => lookups i trace = []
  | .entering alpn j | .numbered alpn j _ =>
      lookups i trace = [.lookedUp i alpn (some (.wireDispatch j))]
  | .handling alpn handler => lookups i trace = [.lookedUp i alpn (some (.application handler))]
  | .closed alpn code reason => lookups i trace = [.lookedUp i alpn none] ∧
      code = closeNoHandler ∧ reason = "no-handler-registered"
  | .ended => (lookups i trace).length ≤ 1

/-- A lookup finds what was put under the ALPN last, and a wire-protocol handler is in place. -/
def FoundLast (before : List (AlpnEvent H)) (e : AlpnEvent H) : Prop :=
  ∀ i alpn found, e = .lookedUp i alpn found → found = last AlpnEvent.touch alpn before ∧
    ∃ j, AlpnEvent.put alpnNerwRpc (.wireDispatch j) ∈ before

structure Dispatching (s : RpcServer H) : Prop where
  table : ∀ alpn, s.alpnHandlers.lookup alpn = last AlpnEvent.touch alpn s.trace
  found : Each FoundLast s.trace
  tasks : ∀ i c, s.connections[i]? = some c → Looked i s.trace c
  fresh : ∀ i, s.connections.length ≤ i → lookups i s.trace = []
  spawned : s.connections ≠ [] → s.loops ≠ []
  installed : ∀ i, placedAt s.serves i = true →
    AlpnEvent.put alpnNerwRpc (.wireDispatch i) ∈ s.trace
  wire : s.loops ≠ [] → ∃ j, AlpnEvent.put alpnNerwRpc (.wireDispatch j) ∈ s.trace

theorem dispatching_new : Dispatching (new : RpcServer H) where
  table _ := rfl
  found := each_nil
  tasks i c h := by cases h
  fresh _ _ := rfl
  spawned h := absurd rfl h
  installed i h := by cases h
  wire h := absurd rfl h

theorem lookups_append_other {i : ℕ} {e : AlpnEvent H} (h : e.looksUp i = false)
    (trace : List (AlpnEvent H)) : lookups i (trace ++ [e]) = lookups i trace := by
  simp [lookups, h]

theorem lookups_append_self {i : ℕ} {e : AlpnEvent H} (h : e.looksUp i = true)
    (trace : List (AlpnEvent H)) : lookups i (trace ++ [e]) = lookups i trace ++ [e] := by
  simp [lookups, h]

theorem Looked.of_lookups {i : ℕ} {trace trace' : List (AlpnEvent H)} {c : ConnectionDispatch H}
    (h : Looked i trace c) (hsame : lookups i trace' = lookups i trace) : Looked i trace' c := by
  cases c <;> simpa only [Looked, hsame] using h

theorem Looked.early {i : ℕ} {trace : List (AlpnEvent H)} {c : ConnectionDispatch H}
    (h : Looked i trace c) (hearly : c.early = true) : lookups i trace = [] := by
  cases c with
  | accepting => exact h
  | negotiating => exact h
  | handshaking alpn => exact h
  | established alpn => exact h
  | _ => cases hearly

theorem looked_of_early {i : ℕ} {trace : List (AlpnEvent H)} {c : ConnectionDispatch H}
    (h : lookups i trace = []) (hearly : c.early = true) : Looked i trace c := by
  cases c with
  | accepting => exact h
  | negotiating => exact h
  | handshaking alpn => exact h
  | established alpn => exact h
  | _ => cases hearly

theorem Looked.length_le {i : ℕ} {trace : List (AlpnEvent H)} {c : ConnectionDispatch H}
    (h : Looked i trace c) : (lookups i trace).length ≤ 1 := by
  cases c with
  | closed alpn code reason => rw [h.1]; exact le_refl 1
  | ended => exact h
  | _ =>
      have : lookups i trace = _ := h
      rw [this]
      simp

theorem Looked.runs {i : ℕ} {trace : List (AlpnEvent H)} {c : ConnectionDispatch H} {alpn : Bytes}
    {handler : AlpnHandler H} (h : Looked i trace c) (hruns : c.runs = some (alpn, handler)) :
    lookups i trace = [.lookedUp i alpn (some handler)] := by
  cases c with
  | entering alpn j => cases hruns; exact h
  | numbered alpn j connectionId => cases hruns; exact h
  | handling alpn handler => cases hruns; exact h
  | _ => cases hruns

theorem looked_dispatched {i : ℕ} {trace : List (AlpnEvent H)} {alpn : Bytes}
    {found : Option (AlpnHandler H)} (h : lookups i trace = [.lookedUp i alpn found]) :
    Looked i trace (dispatched alpn found) := by
  obtain _ | (j | handler) := found
  · exact ⟨h, rfl, rfl⟩
  · exact h
  · exact h

/-! ### Every step keeps it -/

theorem Dispatching.put (hd : Dispatching s) (alpn : Bytes) (handler : AlpnHandler H) :
    (∀ k, (s.insert alpn handler).alpnHandlers.lookup k =
      last AlpnEvent.touch k (s.trace ++ [.put alpn handler])) ∧
    Each FoundLast (s.trace ++ [.put alpn handler]) ∧
    (∀ i c, s.connections[i]? = some c → Looked i (s.trace ++ [.put alpn handler]) c) ∧
    ∀ i, s.connections.length ≤ i → lookups i (s.trace ++ [.put alpn handler]) = [] := by
  have hother : ∀ i, lookups i (s.trace ++ [.put alpn handler]) = lookups i s.trace :=
    fun i => lookups_append_other rfl s.trace
  refine ⟨fun k => ?_, hd.found.append_singleton nofun, fun i c hc => ?_, fun i hi => ?_⟩
  · rw [last_append_singleton, ← hd.table k]
    by_cases hk : k = alpn
    · subst hk
      simp [insert, AlpnEvent.touch, Touch.apply]
    · simp [insert, AlpnEvent.touch, Touch.apply, hk, AList.lookup_insert_ne hk]
  · exact (hd.tasks i c hc).of_lookups (hother i)
  · rw [hother i]
    exact hd.fresh i hi

theorem Dispatching.move (hd : Dispatching s) {i : ℕ} {c c' : ConnectionDispatch H}
    (hc : s.connections[i]? = some c) (hlooked : Looked i s.trace c') :
    Dispatching { s with connections := s.connections.set i c' } := by
  have hlt : i < s.connections.length := (List.getElem?_eq_some_iff.mp hc).1
  refine { hd with tasks := fun k d hk => ?_, fresh := fun k hk => ?_, spawned := fun _ => ?_ }
  · have hk' : (s.connections.set i c')[k]? = some d := hk
    by_cases hki : k = i
    · subst hki
      rw [List.getElem?_set_self hlt] at hk'
      cases hk'
      exact hlooked
    · rw [List.getElem?_set_ne (fun h => hki h.symm)] at hk'
      exact hd.tasks k d hk'
  · apply hd.fresh k
    simpa using hk
  · apply hd.spawned
    intro hnil
    rw [hnil] at hc
    cases hc

theorem Dispatching.event (hd : Dispatching s) {i : ℕ} {c c' : ConnectionDispatch H}
    (hc : s.connections[i]? = some c) {e : AlpnEvent H} (hput : ∀ k, e.touch k = .leave)
    (hother : ∀ k, k ≠ i → e.looksUp k = false) (hfound : FoundLast s.trace e)
    (hlooked : Looked i (s.trace ++ [e]) c') (counters : ℕ → UInt64) :
    Dispatching { s with
      connections := s.connections.set i c', counters := counters, trace := s.trace ++ [e] } := by
  have hlt : i < s.connections.length := (List.getElem?_eq_some_iff.mp hc).1
  refine ⟨fun alpn => ?_, hd.found.append_singleton hfound, fun k d hk => ?_, fun k hk => ?_,
    fun _ => ?_, fun j hj => ?_, fun hne => ?_⟩
  · rw [last_append_leave (hput alpn)]
    exact hd.table alpn
  · have hk' : (s.connections.set i c')[k]? = some d := hk
    by_cases hki : k = i
    · subst hki
      rw [List.getElem?_set_self hlt] at hk'
      cases hk'
      exact hlooked
    · rw [List.getElem?_set_ne (fun h => hki h.symm)] at hk'
      exact (hd.tasks k d hk').of_lookups (lookups_append_other (hother k hki) s.trace)
  · have hk' : s.connections.length ≤ k := by simpa using hk
    rw [lookups_append_other (hother k (by omega)) s.trace]
    exact hd.fresh k hk'
  · apply hd.spawned
    intro hnil
    rw [hnil] at hc
    cases hc
  · exact List.mem_append_left _ (hd.installed j hj)
  · obtain ⟨j, hj⟩ := hd.wire hne
    exact ⟨j, List.mem_append_left _ hj⟩

theorem Dispatching.call (hd : Dispatching s) {serves : List ServeCall}
    (hsame : ∀ j, placedAt serves j = placedAt s.serves j) :
    ∀ j, placedAt serves j = true → AlpnEvent.put alpnNerwRpc (.wireDispatch j) ∈ s.trace :=
  fun j hj => hd.installed j ((hsame j).symm.trans hj)

theorem placedAt_set_same {serves : List ServeCall} {i : ℕ} {c c' : ServeCall}
    (hc : serves[i]? = some c) (hsame : c'.placed = c.placed) (j : ℕ) :
    placedAt (serves.set i c') j = placedAt serves j := by
  rw [placedAt_set hc]
  by_cases hj : j = i
  · rw [if_pos hj, hj, placedAt, hc]
    exact hsame
  · rw [if_neg hj]

theorem Dispatching.step (hd : Dispatching s) (h : Steps s s') : Dispatching s' := by
  cases h with
  | register alpn handler =>
      obtain ⟨htable, hfound, htasks, hfresh⟩ := hd.put alpn (.application handler)
      refine ⟨htable, hfound, htasks, hfresh, hd.spawned, fun j hj => ?_, fun hne => ?_⟩
      · exact List.mem_append_left _ (hd.installed j hj)
      · obtain ⟨j, hj⟩ := hd.wire hne
        exact ⟨j, List.mem_append_left _ hj⟩
  | serve _ =>
      exact { hd with installed := hd.call (placedAt_append s.serves) }
  | refuse hc _ =>
      exact { hd with installed := hd.call (placedAt_set_same hc rfl) }
  | reserve hc _ _ =>
      exact { hd with installed := hd.call (placedAt_set_same hc rfl) }
  | install hc =>
      rename_i i
      obtain ⟨htable, hfound, htasks, hfresh⟩ := hd.put alpnNerwRpc (.wireDispatch i)
      refine ⟨htable, hfound, htasks, hfresh, hd.spawned, fun j hj => ?_, fun _ => ?_⟩
      · have hj' : placedAt (s.serves.set i .installed) j = true := hj
        rw [placedAt_set hc] at hj'
        split at hj'
        · rename_i hji
          rw [hji]
          exact List.mem_append_right _ List.mem_cons_self
        · exact List.mem_append_left _ (hd.installed j hj')
      · exact ⟨i, List.mem_append_right _ List.mem_cons_self⟩
  | spawn hc =>
      rename_i i
      have hin : AlpnEvent.put alpnNerwRpc (.wireDispatch i) ∈ s.trace := by
        apply hd.installed i
        simp [placedAt, hc, ServeCall.placed]
      exact { hd with
        installed := hd.call (placedAt_set_same hc rfl)
        spawned := fun _ => by simp
        wire := fun _ => ⟨i, hin⟩ }
  | drop _ _ hlen =>
      exact { hd with
        spawned := fun hne => ne_nil_of_length hlen (hd.spawned hne)
        wire := fun hne => hd.wire (ne_nil_of_length hlen.symm hne) }
  | endpoint => exact { hd with }
  | loop hlen =>
      exact { hd with
        spawned := fun hne => ne_nil_of_length hlen (hd.spawned hne)
        wire := fun hne => hd.wire (ne_nil_of_length hlen.symm hne) }
  | incoming hne =>
      refine { hd with tasks := fun i c hc => ?_, fresh := fun i hi => ?_, spawned := fun _ => hne }
      · obtain hlt | hge := Nat.lt_or_ge i s.connections.length
        · exact hd.tasks i c (by rwa [List.getElem?_append_left hlt] at hc)
        · rw [List.getElem?_append_right hge] at hc
          obtain ⟨hk, rfl⟩ : i - s.connections.length = 0 ∧ .accepting = c := by
            cases hk : i - s.connections.length with
            | zero => rw [hk] at hc; exact ⟨rfl, Option.some.inj hc⟩
            | succ k => rw [hk] at hc; cases hc
          exact hd.fresh i hge
      · have : s.connections.length + 1 ≤ i := by simpa using hi
        exact hd.fresh i (by omega)
  | early hc hearly hnext =>
      have hnone := (hd.tasks _ _ hc).early hearly
      refine hd.move hc ?_
      obtain hnext | rfl := hnext
      · exact looked_of_early hnone hnext
      · simp [Looked, hnone]
  | lookup hc =>
      rename_i i alpn
      have hnone := (hd.tasks _ _ hc).early rfl
      have hne : s.connections ≠ [] := by
        intro hnil
        rw [hnil] at hc
        cases hc
      refine hd.event hc (fun _ => rfl) (fun k hk => ?_) ?_ ?_ s.counters
      · simpa [AlpnEvent.looksUp] using fun h => hk h.symm
      · rintro k alpn' found ⟨⟩
        exact ⟨hd.table alpn, hd.wire (hd.spawned hne)⟩
      · apply looked_dispatched
        rw [lookups_append_self (by simp [AlpnEvent.looksUp]), hnone]
        rfl
  | fetchId hc =>
      refine hd.event (e := .gaveId _ _ _) hc (fun _ => rfl) (fun _ _ => rfl) ?_ ?_ _
      · rintro k alpn' found ⟨⟩
      · exact (hd.tasks _ _ hc).of_lookups (lookups_append_other rfl s.trace)
  | returns hc hruns => exact hd.move hc (hd.tasks _ _ hc).length_le

theorem dispatching_of_run {as : List (RpcServerAct H)}
    (hrun : run RpcServer.step as new = some s) : Dispatching s :=
  (runs_any_iff.mpr hrun).invariant (fun _ _ _ _ hi h => hi.step (steps_of_step h))
    dispatching_new

theorem eq_put_of_touch {e : AlpnEvent H} {alpn : Bytes} {handler : AlpnHandler H}
    (h : e.touch alpn = .put handler) : e = .put alpn handler := by
  cases e with
  | put k handler' =>
      by_cases hk : alpn = k
      · simp only [AlpnEvent.touch, if_pos hk, Touch.put.injEq] at h
        rw [hk, h]
      · simp [AlpnEvent.touch, hk] at h
  | _ => simp [AlpnEvent.touch] at h

/-- Nothing is ever taken off the table. -/
theorem touch_ne_drop (e : AlpnEvent H) (alpn : Bytes) : e.touch alpn ≠ .drop := by
  cases e with
  | put k handler =>
      unfold AlpnEvent.touch
      by_cases hk : alpn = k
      · simp [hk]
      · simp [hk]
  | _ => simp [AlpnEvent.touch]

theorem mem_of_lookups {i : ℕ} {trace : List (AlpnEvent H)} {e : AlpnEvent H}
    (h : lookups i trace = [e]) : e ∈ trace := by
  have hmem : e ∈ lookups i trace := by
    rw [h]
    exact List.mem_cons_self
  exact (List.mem_filter.mp hmem).1

/-- **A connection is dispatched once, to the handler that was registered last under its ALPN
before it looked**, in any interleaving of registrations, calls of `serve` and other connections;
it is closed only on an ALPN under which nothing had been registered, and so never on that of the
RPC wire protocol. -/
theorem connection_dispatch {as : List (RpcServerAct H)} (hrun : run RpcServer.step as new = some s)
    {i : ℕ} {c : ConnectionDispatch H} (hc : s.connections[i]? = some c) :
    (lookups i s.trace).length ≤ 1 ∧
      (∀ alpn handler, c.runs = some (alpn, handler) → ∃ before after,
        s.trace = before ++ .lookedUp i alpn (some handler) :: after ∧
          LastPut AlpnEvent.touch alpn handler before) ∧
      ∀ alpn code reason, c = .closed alpn code reason →
        code = closeNoHandler ∧ reason = "no-handler-registered" ∧ alpn ≠ alpnNerwRpc ∧
          ∃ before after, s.trace = before ++ .lookedUp i alpn none :: after ∧
            ∀ e ∈ before, e.touch alpn = .leave := by
  have hd := dispatching_of_run hrun
  have hlooked := hd.tasks i c hc
  refine ⟨hlooked.length_le, fun alpn handler hruns => ?_, fun alpn code reason hclosed => ?_⟩
  · obtain ⟨before, after, htrace⟩ :=
      List.append_of_mem (mem_of_lookups (hlooked.runs hruns))
    obtain ⟨hlast, -⟩ := hd.found before _ after htrace i alpn (some handler) rfl
    exact ⟨before, after, htrace, last_eq_some_iff.mp hlast.symm⟩
  · subst hclosed
    obtain ⟨hlookups, hcode, hreason⟩ := hlooked
    obtain ⟨before, after, htrace⟩ := List.append_of_mem (mem_of_lookups hlookups)
    obtain ⟨hlast, j, hj⟩ := hd.found before _ after htrace i alpn none rfl
    have hleave := (last_eq_none_iff fun e => touch_ne_drop e alpn).mp hlast.symm
    refine ⟨hcode, hreason, fun halpn => ?_, before, after, htrace, hleave⟩
    have := hleave _ hj
    rw [halpn] at this
    simp [AlpnEvent.touch] at this

/-! ### Connection ids -/

/-- The ids given out by the wire-protocol handler of call `j`. -/
def idsOf (j : ℕ) (trace : List (AlpnEvent H)) : List UInt64 :=
  trace.filterMap (AlpnEvent.idOf j)

/-- The first ids of a counter that starts at one. -/
def firstIds (n : ℕ) : List UInt64 := (List.range n).map fun k => UInt64.ofNat (k + 1)

theorem firstIds_succ (n : ℕ) : firstIds (n + 1) = firstIds n ++ [UInt64.ofNat (n + 1)] := by
  simp [firstIds, List.range_succ]

/-- A counter gives out the ids from one, each connection is given at most one, and only by a
handler it has found. -/
structure Numbered (s : RpcServer H) : Prop where
  counter : ∀ j, s.counters j = UInt64.ofNat ((idsOf j s.trace).length + 1)
  ids : ∀ j, idsOf j s.trace = firstIds (idsOf j s.trace).length
  once : (s.trace.filterMap AlpnEvent.givenTo).Nodup
  late : ∀ i ∈ s.trace.filterMap AlpnEvent.givenTo, ∃ c, s.connections[i]? = some c ∧
    c.late = true
  source : ∀ i j connectionId, AlpnEvent.gaveId i j connectionId ∈ s.trace →
    placedAt s.serves j = true
  numbered : ∀ i alpn j connectionId, s.connections[i]? = some (.numbered alpn j connectionId) →
    AlpnEvent.gaveId i j connectionId ∈ s.trace

theorem late_of_early {c : ConnectionDispatch H} (h : c.early = true) : c.late = false := by
  cases c with
  | numbered alpn j connectionId => cases h
  | ended => cases h
  | _ => rfl

theorem numbered_new : Numbered (new : RpcServer H) where
  counter _ := rfl
  ids _ := rfl
  once := List.nodup_nil
  late i h := by cases h
  source i j connectionId h := by cases h
  numbered i alpn j connectionId h := by cases h

theorem Numbered.event (hn : Numbered s) {e : AlpnEvent H} (hgiven : e.givenTo = none)
    (hid : ∀ j, e.idOf j = none) {connections : List (ConnectionDispatch H)}
    (hconnections : connections = s.connections ∨ ∃ (i : ℕ) (c c' : ConnectionDispatch H),
      s.connections[i]? = some c ∧ c.late = false ∧
      (∀ alpn j connectionId, c' ≠ .numbered alpn j connectionId) ∧
      connections = s.connections.set i c') :
    Numbered { s with connections := connections, trace := s.trace ++ [e] } := by
  have hids : ∀ j, idsOf j (s.trace ++ [e]) = idsOf j s.trace := by
    intro j
    simp [idsOf, hid j]
  have hgives : (s.trace ++ [e]).filterMap AlpnEvent.givenTo =
      s.trace.filterMap AlpnEvent.givenTo := by simp [hgiven]
  have hmem : ∀ i j connectionId, AlpnEvent.gaveId i j connectionId ∈ s.trace ++ [e] →
      AlpnEvent.gaveId i j connectionId ∈ s.trace := by
    intro i j connectionId h
    obtain h | h := List.mem_append.mp h
    · exact h
    · rw [← List.mem_singleton.mp h] at hgiven
      cases hgiven
  refine ⟨fun j => ?_, fun j => ?_, ?_, fun i hi => ?_, fun i j connectionId h => ?_,
    fun i alpn j connectionId h => ?_⟩
  · rw [hids j]
    exact hn.counter j
  · rw [hids j]
    exact hn.ids j
  · rw [hgives]
    exact hn.once
  · rw [hgives] at hi
    obtain ⟨d, hd, hlate⟩ := hn.late i hi
    obtain rfl | ⟨k, c, c', hc, hearly, -, rfl⟩ := hconnections
    · exact ⟨d, hd, hlate⟩
    · have hki : k ≠ i := by
        rintro rfl
        rw [hc] at hd
        cases hd
        rw [hearly] at hlate
        cases hlate
      exact ⟨d, by rwa [List.getElem?_set_ne hki], hlate⟩
  · exact hn.source i j connectionId (hmem i j connectionId h)
  · apply List.mem_append_left
    obtain rfl | ⟨k, c, c', hc, -, hnot, rfl⟩ := hconnections
    · exact hn.numbered i alpn j connectionId h
    · have h' : (s.connections.set k c')[i]? = some (.numbered alpn j connectionId) := h
      have hlt : k < s.connections.length := (List.getElem?_eq_some_iff.mp hc).1
      by_cases hki : k = i
      · subst hki
        rw [List.getElem?_set_self hlt] at h'
        exact absurd (Option.some.inj h') (hnot _ _ _)
      · rw [List.getElem?_set_ne hki] at h'
        exact hn.numbered i alpn j connectionId h'

theorem Numbered.move (hn : Numbered s) {i : ℕ} {c c' : ConnectionDispatch H}
    (hc : s.connections[i]? = some c) (hlate : c.late = true → c'.late = true)
    (hnot : ∀ alpn j connectionId, c' ≠ .numbered alpn j connectionId) :
    Numbered { s with connections := s.connections.set i c' } := by
  have hlt : i < s.connections.length := (List.getElem?_eq_some_iff.mp hc).1
  refine { hn with late := fun k hk => ?_, numbered := fun k alpn j connectionId h => ?_ }
  · obtain ⟨d, hd, hdlate⟩ := hn.late k hk
    by_cases hik : i = k
    · subst hik
      rw [hc] at hd
      cases hd
      exact ⟨c', List.getElem?_set_self hlt, hlate hdlate⟩
    · exact ⟨d, by rwa [List.getElem?_set_ne hik], hdlate⟩
  · have h' : (s.connections.set i c')[k]? = some (.numbered alpn j connectionId) := h
    by_cases hik : i = k
    · subst hik
      rw [List.getElem?_set_self hlt] at h'
      exact absurd (Option.some.inj h') (hnot _ _ _)
    · rw [List.getElem?_set_ne hik] at h'
      exact hn.numbered k alpn j connectionId h'

theorem Numbered.fetchId (hn : Numbered s) {i : ℕ} {alpn : Bytes} {j : ℕ}
    (hc : s.connections[i]? = some (.entering alpn j)) (hplaced : placedAt s.serves j = true) :
    Numbered { s with
      connections := s.connections.set i (.numbered alpn j (s.counters j))
      counters := Function.update s.counters j (s.counters j + 1)
      trace := s.trace ++ [.gaveId i j (s.counters j)] } := by
  have hlt : i < s.connections.length := (List.getElem?_eq_some_iff.mp hc).1
  have hself : idsOf j (s.trace ++ [.gaveId i j (s.counters j)]) =
      idsOf j s.trace ++ [s.counters j] := by simp [idsOf, AlpnEvent.idOf]
  have hother : ∀ k, k ≠ j →
      idsOf k (s.trace ++ [.gaveId i j (s.counters j)]) = idsOf k s.trace := by
    intro k hk
    have hjk : ¬ j = k := fun h => hk h.symm
    simp [idsOf, AlpnEvent.idOf, hjk]
  refine ⟨fun k => ?_, fun k => ?_, ?_, fun k hk => ?_, fun k l connectionId h => ?_,
    fun k alpn' l connectionId h => ?_⟩
  · by_cases hk : k = j
    · subst hk
      rw [hself, List.length_append]
      have hnext : Function.update s.counters k (s.counters k + 1) k =
          UInt64.ofNat ((idsOf k s.trace).length + 1 + 1) := by
        rw [Function.update_self, hn.counter k]
        simp
      exact hnext
    · rw [hother k hk]
      have hsame : Function.update s.counters j (s.counters j + 1) k = s.counters k :=
        Function.update_of_ne hk _ _
      exact hsame.trans (hn.counter k)
  · by_cases hk : k = j
    · subst hk
      rw [hself, List.length_append, List.length_singleton, firstIds_succ, ← hn.ids k,
        ← hn.counter k]
    · rw [hother k hk]
      exact hn.ids k
  · rw [List.filterMap_append]
    refine List.nodup_append.mpr ⟨hn.once, List.nodup_singleton _, fun k hk l hl => ?_⟩
    obtain rfl : l = i := by simpa [AlpnEvent.givenTo] using hl
    rintro rfl
    obtain ⟨d, hd, hlate⟩ := hn.late k hk
    rw [hc] at hd
    cases hd
    cases hlate
  · by_cases hik : i = k
    · subst hik
      exact ⟨_, List.getElem?_set_self hlt, rfl⟩
    · rw [List.filterMap_append] at hk
      obtain hk | hk := List.mem_append.mp hk
      · obtain ⟨d, hd, hlate⟩ := hn.late k hk
        exact ⟨d, by rwa [List.getElem?_set_ne hik], hlate⟩
      · exact absurd (by simpa [AlpnEvent.givenTo] using hk) fun h : k = i => hik h.symm
  · obtain h | h := List.mem_append.mp h
    · exact hn.source k l connectionId h
    · cases List.mem_singleton.mp h
      exact hplaced
  · have h' : (s.connections.set i (.numbered alpn j (s.counters j)))[k]? =
        some (.numbered alpn' l connectionId) := h
    by_cases hik : i = k
    · subst hik
      rw [List.getElem?_set_self hlt] at h'
      cases h'
      exact List.mem_append_right _ List.mem_cons_self
    · rw [List.getElem?_set_ne hik] at h'
      exact List.mem_append_left _ (hn.numbered k alpn' l connectionId h')

/-- A wire-protocol handler that a connection has found was placed by its call. -/
theorem placedAt_of_entering (hp : Placed s) (hd : Dispatching s) {i : ℕ} {alpn : Bytes} {j : ℕ}
    (hc : s.connections[i]? = some (.entering alpn j)) : placedAt s.serves j = true := by
  have hlookups : lookups i s.trace = [.lookedUp i alpn (some (.wireDispatch j))] := hd.tasks _ _ hc
  obtain ⟨before, after, htrace⟩ := List.append_of_mem (mem_of_lookups hlookups)
  obtain ⟨hlast, -⟩ := hd.found before _ after htrace i alpn _ rfl
  obtain ⟨front, e, back, rfl, hput, -⟩ := last_eq_some_iff.mp hlast.symm
  have hplaced : e.placedBy j = true := by
    rw [eq_put_of_touch hput]
    simp [AlpnEvent.placedBy]
  have hpos : 0 < s.trace.countP (AlpnEvent.placedBy j) :=
    List.countP_pos_iff.mpr ⟨e, by rw [htrace]; simp, hplaced⟩
  rw [hp.count j] at hpos
  cases hat : placedAt s.serves j with
  | true => rfl
  | false =>
      rw [hat] at hpos
      cases hpos

theorem Numbered.call (hn : Numbered s) {serves : List ServeCall}
    (hsame : ∀ j, placedAt serves j = placedAt s.serves j) :
    ∀ i j connectionId, AlpnEvent.gaveId i j connectionId ∈ s.trace → placedAt serves j = true :=
  fun i j connectionId h => (hsame j).trans (hn.source i j connectionId h)

theorem Numbered.step (hp : Placed s) (hd : Dispatching s) (hn : Numbered s) (h : Steps s s') :
    Numbered s' := by
  cases h with
  | register alpn handler =>
      exact { hn.event (e := .put alpn (.application handler)) rfl (fun _ => rfl) (.inl rfl) with }
  | serve _ => exact { hn with source := hn.call (placedAt_append s.serves) }
  | refuse hc _ => exact { hn with source := hn.call (placedAt_set_same hc rfl) }
  | reserve hc _ _ => exact { hn with source := hn.call (placedAt_set_same hc rfl) }
  | install hc =>
      rename_i k
      have hn' := hn.event (e := .put alpnNerwRpc (.wireDispatch k)) rfl (fun _ => rfl) (.inl rfl)
      refine { hn' with
        source := fun i j connectionId h => (placedAt_set hc .installed j).trans ?_ }
      by_cases hj : j = k
      · rw [if_pos hj]
        rfl
      · rw [if_neg hj]
        exact hn'.source i j connectionId h
  | spawn hc => exact { hn with source := hn.call (placedAt_set_same hc rfl) }
  | drop _ _ _ => exact { hn with }
  | endpoint => exact { hn with }
  | loop _ => exact { hn with }
  | incoming _ =>
      refine { hn with late := fun i hi => ?_, numbered := fun i alpn j connectionId h => ?_ }
      · obtain ⟨c, hc, hlate⟩ := hn.late i hi
        exact ⟨c, by rwa [List.getElem?_append_left (List.getElem?_eq_some_iff.mp hc).1], hlate⟩
      · obtain hlt | hge := Nat.lt_or_ge i s.connections.length
        · exact hn.numbered i alpn j connectionId (by rwa [List.getElem?_append_left hlt] at h)
        · rw [List.getElem?_append_right hge] at h
          cases hk : i - s.connections.length with
          | zero => rw [hk] at h; cases h
          | succ k => rw [hk] at h; cases h
  | early hc hearly hnext =>
      rename_i c c'
      refine hn.move hc (fun hlate => ?_) ?_
      · rw [late_of_early hearly] at hlate
        cases hlate
      · rintro alpn j connectionId rfl
        obtain hnext | hnext := hnext
        · cases hnext
        · cases hnext
  | lookup hc =>
      rename_i i alpn
      refine hn.event (e := .lookedUp i alpn _) rfl (fun _ => rfl)
        (.inr ⟨i, _, _, hc, rfl, ?_, rfl⟩)
      intro alpn' j connectionId
      unfold dispatched
      split <;> nofun
  | fetchId hc => exact hn.fetchId hc (placedAt_of_entering hp hd hc)
  | returns hc _ => exact hn.move hc (fun _ => rfl) nofun

theorem eq_of_nodup_filterMap {α β : Type} {f : α → Option β} {l : List α}
    (h : (l.filterMap f).Nodup) {x y : α} {b : β} (hx : x ∈ l) (hy : y ∈ l) (hfx : f x = some b)
    (hfy : f y = some b) : x = y := by
  induction l with
  | nil => cases hx
  | cons z l ih =>
      have hmem : ∀ {w}, w ∈ l → f w = some b → b ∈ l.filterMap f :=
        fun hw hfw => List.mem_filterMap.mpr ⟨_, hw, hfw⟩
      cases hz : f z with
      | none =>
          rw [List.filterMap_cons_none hz] at h
          have hne : ∀ {w}, f w = some b → w ≠ z := by
            rintro w hw rfl
            rw [hz] at hw
            cases hw
          exact ih h ((List.mem_cons.mp hx).resolve_left (hne hfx))
            ((List.mem_cons.mp hy).resolve_left (hne hfy))
      | some c =>
          rw [List.filterMap_cons_some hz, List.nodup_cons] at h
          obtain ⟨hnot, hnodup⟩ := h
          have hne : ∀ {w}, w ∈ l → f w = some b → c ≠ b := by
            rintro w hw hfw rfl
            exact hnot (hmem hw hfw)
          obtain hxz | hx := List.mem_cons.mp hx
          · obtain hyz | hy := List.mem_cons.mp hy
            · rw [hxz, hyz]
            · rw [hxz, hz] at hfx
              exact absurd (Option.some.inj hfx) (hne hy hfy)
          · obtain hyz | hy := List.mem_cons.mp hy
            · rw [hyz, hz] at hfy
              exact absurd (Option.some.inj hfy) (hne hx hfx)
            · exact ih hnodup hx hy

theorem nodup_firstIds {n : ℕ} (h : n < 2 ^ 64) : (firstIds n).Nodup := by
  refine List.Nodup.map_on ?_ List.nodup_range
  intro k hk l hl heq
  have hk' := List.mem_range.mp hk
  have hl' := List.mem_range.mp hl
  have := congrArg UInt64.toNat heq
  rw [UInt64.toNat_ofNat', UInt64.toNat_ofNat', Nat.mod_eq_of_lt (by omega),
    Nat.mod_eq_of_lt (by omega)] at this
  omega

theorem length_given (trace : List (AlpnEvent H)) :
    (trace.filterMap AlpnEvent.given).length = (trace.filterMap AlpnEvent.givenTo).length := by
  induction trace with
  | nil => rfl
  | cons e trace ih =>
      cases e with
      | gaveId i j connectionId =>
          have hgiven : (AlpnEvent.gaveId i j connectionId : AlpnEvent H).given =
            some connectionId := rfl
          have hto : (AlpnEvent.gaveId i j connectionId : AlpnEvent H).givenTo = some i := rfl
          rw [List.filterMap_cons_some hgiven, List.filterMap_cons_some hto, List.length_cons,
            List.length_cons, ih]
      | put k handler => exact ih
      | lookedUp i alpn found => exact ih

theorem given_eq_idsOf {j : ℕ} {trace : List (AlpnEvent H)}
    (h : ∀ i k connectionId, AlpnEvent.gaveId i k connectionId ∈ trace → k = j) :
    trace.filterMap AlpnEvent.given = idsOf j trace := by
  unfold idsOf
  apply List.filterMap_congr
  intro e he
  cases e with
  | gaveId i k connectionId =>
      obtain rfl := h i k connectionId he
      simp [AlpnEvent.given, AlpnEvent.idOf]
  | _ => rfl

theorem numbered_of_run {as : List (RpcServerAct H)} (hrun : run RpcServer.step as new = some s) :
    Serving s ∧ Numbered s := by
  have hall : (fun s : RpcServer H => (Serving s ∧ Placed s) ∧ Dispatching s ∧ Numbered s) s := by
    apply (runs_any_iff.mpr hrun).invariant
    · intro a s s' _ hi hs
      have h := steps_of_step hs
      exact ⟨⟨hi.1.1.step h, hi.1.2.step hi.1.1 h⟩, hi.2.1.step h, hi.2.2.step hi.1.2 hi.2.1 h⟩
    · exact ⟨⟨serving_new, placed_new⟩, dispatching_new, numbered_new⟩
  exact ⟨hall.1.1, hall.2.2⟩

/-- **The connections of a server are numbered from one in the order in which they come to the
wire-protocol handler**, however many threads call `serve`; so as long as there are fewer than
`2 ^ 64` of them, no two have the same id. -/
theorem connectionIds {as : List (RpcServerAct H)} (hrun : run RpcServer.step as new = some s) :
    (∃ n, n ≤ s.connections.length ∧ s.trace.filterMap AlpnEvent.given = firstIds n) ∧
      (s.connections.length < 2 ^ 64 → ∀ (i i' : ℕ) (alpn alpn' : Bytes) (j j' : ℕ)
        (connectionId : UInt64), s.connections[i]? = some (.numbered alpn j connectionId) →
          s.connections[i']? = some (.numbered alpn' j' connectionId) → i = i') := by
  obtain ⟨hi, hn⟩ := numbered_of_run hrun
  have hle : (s.trace.filterMap AlpnEvent.given).length ≤ s.connections.length := by
    rw [length_given]
    have hsub : s.trace.filterMap AlpnEvent.givenTo ⊆ List.range s.connections.length := by
      intro i hmem
      obtain ⟨c, hc, -⟩ := hn.late i hmem
      exact List.mem_range.mpr (List.getElem?_eq_some_iff.mp hc).1
    have := (List.subperm_of_subset hn.once hsub).length_le
    rwa [List.length_range] at this
  have hids : s.trace.filterMap AlpnEvent.given =
      firstIds (s.trace.filterMap AlpnEvent.given).length := by
    by_cases hgiven : ∃ i j connectionId, AlpnEvent.gaveId i j connectionId ∈ s.trace
    · obtain ⟨i, j, connectionId, hmem⟩ := hgiven
      have hone : s.trace.filterMap AlpnEvent.given = idsOf j s.trace :=
        given_eq_idsOf fun i' k connectionId' hmem' =>
          hi.placed_unique (hn.source _ _ _ hmem') (hn.source _ _ _ hmem)
      rw [hone]
      exact hn.ids j
    · have hnil : s.trace.filterMap AlpnEvent.given = [] := by
        rw [List.filterMap_eq_nil_iff]
        intro e he
        cases e with
        | gaveId i j connectionId => exact absurd ⟨i, j, connectionId, he⟩ hgiven
        | _ => rfl
      rw [hnil]
      rfl
  refine ⟨⟨_, hle, hids⟩, fun hlt i i' alpn alpn' j j' connectionId hc hc' => ?_⟩
  have hnodup : (s.trace.filterMap AlpnEvent.given).Nodup := by
    rw [hids]
    exact nodup_firstIds (by omega)
  have := eq_of_nodup_filterMap hnodup (hn.numbered _ _ _ _ hc) (hn.numbered _ _ _ _ hc') rfl rfl
  cases this
  rfl

/-- A connection that comes before anything is registered under its ALPN, and two on that of the
wire protocol, the first of them overtaken. -/
def threeConnections : List (RpcServerAct String) :=
  [.serve, .lock 0, .install 0, .spawn 0, .incoming 0, .incoming 0, .incoming 0,
    .connection 0 (.accept true), .connection 0 (.alpn (some [1])), .connection 0 (.handshake true),
    .connection 0 .lookup, .registerAlpnHandler [1] "late",
    .connection 1 (.accept true), .connection 1 (.alpn (some alpnNerwRpc)),
    .connection 1 (.handshake true), .connection 1 .lookup,
    .connection 2 (.accept true), .connection 2 (.alpn (some alpnNerwRpc)),
    .connection 2 (.handshake true), .connection 2 .lookup,
    .connection 2 .fetchId, .connection 1 .fetchId]

theorem connections_three : (run RpcServer.step threeConnections (new : RpcServer String)).map
    RpcServer.connections = some [.closed [1] closeNoHandler "no-handler-registered",
      .numbered alpnNerwRpc 0 2, .numbered alpnNerwRpc 0 1] := by
  decide

theorem connection_dispatch_three :
    ∃ s : RpcServer String, run RpcServer.step threeConnections new = some s ∧
      (lookups 0 s.trace).length ≤ 1 := by
  obtain ⟨s, hs, hc⟩ := Option.map_eq_some_iff.mp connections_three
  have hfirst : s.connections[0]? = some (.closed [1] closeNoHandler "no-handler-registered") := by
    rw [hc]
    rfl
  exact ⟨s, hs, (connection_dispatch hs hfirst).1⟩

theorem connectionIds_three :
    ∃ s : RpcServer String, run RpcServer.step threeConnections new = some s ∧
      ∃ n, n ≤ s.connections.length ∧ s.trace.filterMap AlpnEvent.given = firstIds n := by
  obtain ⟨s, hs, -⟩ := Option.map_eq_some_iff.mp connections_three
  exact ⟨s, hs, (connectionIds hs).1⟩

end RpcServer

end NerwRpc
