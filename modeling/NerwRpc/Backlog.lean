import NerwRpc.FramePump

/-! # How far a sender gets ahead of its consumer

A `Leg` holds what its sender has pushed and its consumer has not read.  When the pump takes no byte
behind the frame it reads (`Thrifty`), that is what its channel holds, the item in its hand or the
frame in its buffer, and what is in flight.

* `Whole`: what is asked of the frames; the pump goes on behind them or stops for good.
* `Behind n part l`: `n` whole frames and `part` of another have been pushed.  The rules are
  `Behind.push_part`, `Behind.push_whole` and `Behind.step`.
* `Behind.lag`: so the consumer is behind by no more than the channel, one item and the bytes in
  flight can hold. -/

namespace FramePump

open ByteStream Transition

variable {ε φ ι : Type} (P : Pump ε φ ι) (cap : ℕ)

/-- A frame of two bytes or more that the reader answers to when it has all of it, and takes from no
fewer bytes; the pump does not go on behind it once its channel is closed. -/
structure Whole (bs : List UInt8) : Prop where
  long : 2 ≤ bs.length
  answers : ∀ more, P.read ⟨bs ++ more, .live⟩ ≠ .pending
  early : ∀ p q f s', p ++ q = bs → q ≠ [] → P.read ⟨p, .live⟩ ≠ .ready (.ok (some f, s'))
  takesAll : ∀ f s', P.read ⟨bs, .live⟩ = .ready (.ok (some f, s')) → s'.buf = []
  closes : ∀ f s' item, P.read ⟨bs, .live⟩ = .ready (.ok (some f, s')) →
    P.onFrame f ≠ .send item .always

variable {P} in
theorem whole_of_exact {bs : List UInt8} {f : φ} {Q : ε → Prop} (h : ExactFrame P.read bs f Q)
    (hlong : 2 ≤ bs.length) (hcloses : ∀ item, P.onFrame f ≠ .send item .always) :
    Whole P bs := by
  have hread := h.reads [] .live
  rw [List.append_nil] at hread
  refine ⟨hlong, ?_, ?_, ?_, ?_⟩
  · intro more hwait
    rw [h.reads more .live] at hwait
    cases hwait
  · intro p q g s hpq hq hok
    rw [h.waits p q hpq hq] at hok
    cases hok
  · intro g s hok
    rw [hread] at hok
    cases hok
    rfl
  · intro g s item hok
    rw [hread] at hok
    cases hok
    exact hcloses item

variable {P} in
/-- A frame that is refused, at the latest at its end. -/
theorem whole_of_refused {bs : List UInt8} (hlong : 2 ≤ bs.length)
    (h : ∀ more, ∃ e, P.read ⟨bs ++ more, .live⟩ = .ready (.error e)) : Whole P bs := by
  have hnot : ∀ p q f s, p ++ q = bs → P.read ⟨p, .live⟩ ≠ .ready (.ok (some f, s)) := by
    rintro p q f s rfl hok
    obtain ⟨e, he⟩ := h []
    have hall := (P.regular.stable p q .live _ hok).1
    rw [List.append_nil, hall] at he
    cases he
  refine ⟨hlong, ?_, fun p q f s hpq _ => hnot p q f s hpq, ?_, ?_⟩
  · intro more hwait
    obtain ⟨e, he⟩ := h more
    rw [hwait] at he
    cases he
  · exact fun f s hok => absurd hok (hnot bs [] f s (List.append_nil bs))
  · exact fun f s item hok => absurd hok (hnot bs [] f s (List.append_nil bs))

namespace Leg

/-- The pump takes no byte behind the frame it reads: with the bytes before the last one it takes,
it is waiting. -/
def Thrifty : LegAct → Leg ι → Prop
  | .deliver k, l => P.read ⟨l.recv.buf ++ l.inflight.take (k - 1), l.recv.tail⟩ = .pending
  | _, _ => True

instance (a : LegAct) (l : Leg ι) : Decidable (Thrifty P a l) :=
  match a with
  | .deliver k =>
      match h : P.read ⟨l.recv.buf ++ l.inflight.take (k - 1), l.recv.tail⟩ with
      | .pending => isTrue h
      | .ready _ => isFalse fun hwait => by cases h.symm.trans hwait
  | .deliverFin | .read | .send | .take | .takeNone | .dropReceiver | .abort => isTrue trivial

/-- What the channel has taken and the consumer has not read; a dropped channel has taken no more
than its capacity. -/
def kept (l : Leg ι) : ℕ := if l.dropped = true then cap else l.queue.length

/-- The item in the hand of the pump. -/
def inHand : PumpState ι → ℕ
  | .sending _ _ => 1
  | _ => 0

/-- The bytes that have been pushed and not read are whole frames and `part` of one more, and the
pump has got no further than the first of them. -/
structure Unread (n : ℕ) (frames : List (List UInt8)) (part : List UInt8) (l : Leg ι) :
    Prop where
  live : l.recv.tail = .live
  opened : l.closed = false
  whole : ∀ f ∈ frames, Whole P f
  written : part = [] ∨ ∃ left, left ≠ [] ∧ Whole P (part ++ left)
  bytes : l.recv.buf ++ l.inflight = frames.flatten ++ part
  first : ∀ f fs, frames = f :: fs → l.recv.buf.length ≤ f.length
  pump : l.pump = .reading ∨ l.recv.buf = [] ∧ ∃ item, l.pump = .sending item .whileOpen
  count : n ≤ l.got.length + kept cap l + inHand l.pump + frames.length

/-- The sender is ahead by the channel, one frame or item and the bytes in flight. -/
def Lag (n : ℕ) (part : List UInt8) (l : Leg ι) : Prop :=
  n ≤ l.got.length + cap ∨
    2 * n + part.length ≤ 2 * (l.got.length + (cap + 1)) + l.inflight.length

/-- `n` whole frames and `part` of another have been pushed; the pump reads them, or will not read
any more. -/
structure Behind (n : ℕ) (part : List UInt8) (l : Leg ι) : Prop where
  room : l.queue.length ≤ cap
  pushed : (∃ frames, Unread P cap n frames part l) ∨ l.Sealed ∧ Lag cap n part l

variable {P cap} {n : ℕ} {frames : List (List UInt8)} {part : List UInt8} {l l' : Leg ι}

theorem length_flatten_whole (h : ∀ f ∈ frames, Whole P f) :
    2 * frames.length ≤ frames.flatten.length := by
  induction frames with
  | nil => exact Nat.le_refl _
  | cons f fs ih =>
      have hf := (h f List.mem_cons_self).long
      have hfs := ih fun g hg => h g (List.mem_cons_of_mem f hg)
      simp only [List.length_cons, List.flatten_cons, List.length_append]
      omega

/-- All frames but the first are in flight. -/
theorem Unread.lag (hroom : l.queue.length ≤ cap) (h : Unread P cap n frames part l) :
    Lag cap n part l := by
  have hlength := congrArg List.length h.bytes
  have hwhole := length_flatten_whole h.whole
  have hcount := h.count
  have hkept : kept cap l ≤ cap := by
    unfold kept
    split
    · exact Nat.le_refl cap
    · exact hroom
  simp only [List.length_append] at hlength
  unfold Lag
  obtain hp | ⟨hbuf, item, hp⟩ := h.pump
  · have hhand : inHand l.pump = 0 := by
      rw [hp]
      rfl
    cases hframes : frames with
    | nil =>
        rw [hframes, List.length_nil] at hcount
        exact .inl (by omega)
    | cons f fs =>
        have hfirst := h.first f fs hframes
        have hrest : ∀ g ∈ fs, Whole P g := fun g hg =>
          h.whole g (by rw [hframes]; exact List.mem_cons_of_mem f hg)
        have hfs := length_flatten_whole hrest
        rw [hframes, List.flatten_cons, List.length_append] at hlength
        rw [hframes, List.length_cons] at hcount
        exact .inr (by omega)
  · have hhand : inHand l.pump = 1 := by
      rw [hp]
      rfl
    rw [hbuf, List.length_nil] at hlength
    exact .inr (by omega)

theorem Behind.lag (h : Behind P cap n part l) : Lag cap n part l := by
  obtain ⟨frames, hunread⟩ | ⟨-, hlag⟩ := h.pushed
  · exact hunread.lag h.room
  · exact hlag

theorem behind_start : Behind P cap 0 [] (start : Leg ι) := by
  refine ⟨Nat.zero_le cap, .inl ⟨[], rfl, rfl, ?_, .inl rfl, rfl, ?_, .inl rfl, Nat.zero_le _⟩⟩
  · intro f hf
    cases hf
  · intro f fs hnil
    cases hnil

/-! ### What the sender pushes -/

theorem Behind.push_part {more left : List UInt8} (h : Behind P cap n part l)
    (hleft : left ≠ []) (hw : Whole P (part ++ more ++ left)) :
    Behind P cap n (part ++ more) (l.push more) := by
  refine ⟨h.room, ?_⟩
  obtain ⟨frames, hu⟩ | ⟨hs, hlag⟩ := h.pushed
  · refine .inl ⟨frames, { hu with written := .inr ⟨left, hleft, hw⟩, bytes := ?_ }⟩
    unfold push
    rw [← List.append_assoc, hu.bytes, List.append_assoc]
  · refine .inr ⟨hs, ?_⟩
    unfold Lag push at *
    simp only [List.length_append]
    omega

theorem Behind.push_whole {left : List UInt8} (h : Behind P cap n part l)
    (hw : Whole P (part ++ left)) : Behind P cap (n + 1) [] (l.push left) := by
  refine ⟨h.room, ?_⟩
  obtain ⟨frames, hu⟩ | ⟨hs, hlag⟩ := h.pushed
  · have hcount := hu.count
    have hbytes : l.recv.buf ++ (l.inflight ++ left) = (frames ++ [part ++ left]).flatten := by
      rw [← List.append_assoc, hu.bytes]
      simp
    refine .inl ⟨frames ++ [part ++ left], hu.live, hu.opened, ?_, .inl rfl, ?_, ?_, hu.pump, ?_⟩
    · intro f hf
      obtain hf | hf := List.mem_append.mp hf
      · exact hu.whole f hf
      · rw [List.mem_singleton.mp hf]
        exact hw
    · rw [List.append_nil]
      exact hbytes
    · intro f fs hframes
      cases frames with
      | nil =>
          obtain ⟨rfl, -⟩ : part ++ left = f ∧ [] = fs := by simpa using hframes
          have hlength := congrArg List.length hu.bytes
          simp only [push, List.length_append, List.flatten_nil, List.nil_append] at hlength ⊢
          omega
      | cons g gs =>
          obtain ⟨rfl, -⟩ : g = f ∧ gs ++ [part ++ left] = fs := by simpa using hframes
          exact hu.first g gs rfl
    · rw [List.length_append, List.length_singleton]
      exact Nat.succ_le_succ hcount
  · refine .inr ⟨hs, ?_⟩
    have hlong := hw.long
    unfold Lag push at *
    simp only [List.length_append, List.length_nil] at *
    omega

/-! ### What the pump and the consumer do -/

/-- The frame a read takes is the first one, and it has been taken off the transport alone. -/
theorem Unread.read (h : Unread P cap n frames part l) {f : φ} {s : RecvStream}
    (hr : P.read l.recv = .ready (.ok (some f, s))) :
    ∃ bs rest, frames = bs :: rest ∧ l.recv.buf = bs ∧ s.buf = [] ∧ s.tail = .live := by
  obtain ⟨_, -, htail⟩ := P.regular.suffix _ _ _ hr
  have hrecv : l.recv = ⟨l.recv.buf, .live⟩ := by rw [← h.live]
  have hlive : P.read ⟨l.recv.buf, .live⟩ = .ready (.ok (some f, s)) := hrecv ▸ hr
  cases hframes : frames with
  | nil =>
      exfalso
      have hbytes := h.bytes
      rw [hframes, List.flatten_nil, List.nil_append] at hbytes
      obtain hnil | ⟨left, hleft, hw⟩ := h.written
      · have hshort := P.shortens _ _ _ hlive
        rw [hnil] at hbytes
        simp [(List.append_eq_nil_iff.mp hbytes).1] at hshort
      · refine hw.early l.recv.buf (l.inflight ++ left) f s ?_ ?_ hlive
        · rw [← List.append_assoc, hbytes]
        · exact fun hnil => hleft (List.append_eq_nil_iff.mp hnil).2
  | cons bs rest =>
      refine ⟨bs, rest, rfl, ?_⟩
      have hw := h.whole bs (by rw [hframes]; exact List.mem_cons_self)
      have hbytes := h.bytes
      rw [hframes, List.flatten_cons, List.append_assoc] at hbytes
      obtain ⟨q, hq⟩ : l.recv.buf <+: bs :=
        List.prefix_of_prefix_length_le ⟨_, hbytes⟩ (List.prefix_append _ _)
          (h.first bs rest hframes)
      by_cases hnil : q = []
      · rw [hnil, List.append_nil] at hq
        rw [hq] at hlive
        exact ⟨hq, hw.takesAll f s hlive, htail.trans h.live⟩
      · exact absurd hlive (hw.early _ q f s hq hnil)

theorem Behind.sealed (h : Behind P cap n part l) {pump : PumpState ι} {recv : RecvStream}
    (hs : ({ l with pump := pump, recv := recv } : Leg ι).Sealed) :
    Behind P cap n part { l with pump := pump, recv := recv } :=
  ⟨h.room, .inr ⟨hs, h.lag⟩⟩

theorem Sealed.not_reading (h : l.Sealed) : l.pump ≠ .reading := by
  rintro hp
  obtain hd | ⟨item, hd⟩ := h <;> cases hd.symm.trans hp

/-- A thrifty pump does not get past the first frame. -/
theorem Unread.deliver (h : Unread P cap n frames part l) {k : ℕ} (hp : l.pump = .reading)
    (hpos : 0 < k) (hk : k ≤ l.inflight.length) (ht : Thrifty P (.deliver k) l) :
    Unread P cap n frames part
      { l with inflight := l.inflight.drop k
               recv := ⟨l.recv.buf ++ l.inflight.take k, l.recv.tail⟩ } := by
  refine ⟨h.live, h.opened, h.whole, h.written, ?_, ?_, .inl hp, h.count⟩
  · simpa using h.bytes
  · intro bs rest hframes
    have hw := h.whole bs (by rw [hframes]; exact List.mem_cons_self)
    have hbytes := h.bytes
    rw [hframes, List.flatten_cons, List.append_assoc] at hbytes
    by_contra hlong
    have hlength : bs.length ≤ (l.recv.buf ++ l.inflight.take (k - 1)).length := by
      simp only [List.length_append, List.length_take] at hlong ⊢
      omega
    have hpre : l.recv.buf ++ l.inflight.take (k - 1) <+: bs ++ (rest.flatten ++ part) := by
      rw [← hbytes]
      exact List.prefix_append_right_inj _ |>.mpr (List.take_prefix _ _)
    obtain ⟨more, hmore⟩ := List.prefix_of_prefix_length_le (List.prefix_append _ _) hpre hlength
    have hwait : P.read ⟨l.recv.buf ++ l.inflight.take (k - 1), l.recv.tail⟩ = .pending := ht
    rw [h.live, ← hmore] at hwait
    exact hw.answers more hwait

theorem Behind.read_frame (h : Behind P cap n part l) (hp : l.pump = .reading)
    (hu : Unread P cap n frames part l) {f : φ} {s : RecvStream}
    (hr : P.read l.recv = .ready (.ok (some f, s))) :
    Behind P cap n part { l with recv := s, pump := P.afterRead (.ok (some f, s)) } := by
  obtain ⟨bs, rest, rfl, hbuf, hnil, htail⟩ := hu.read hr
  have hlive : P.read ⟨bs, .live⟩ = .ready (.ok (some f, s)) := by
    rw [← hbuf, ← hu.live]
    exact hr
  have hw := hu.whole bs List.mem_cons_self
  cases harm : P.onFrame f with
  | stop => exact h.sealed (.inl (by simp only [Pump.afterRead, harm]))
  | send item next =>
      cases next with
      | last => exact h.sealed (.inr ⟨item, by simp only [Pump.afterRead, harm]⟩)
      | always => exact absurd harm (hw.closes f s item hlive)
      | whileOpen =>
          refine ⟨h.room, .inl ⟨rest, htail, hu.opened, ?_, hu.written, ?_, ?_, ?_, ?_⟩⟩
          · exact fun g hg => hu.whole g (List.mem_cons_of_mem bs hg)
          · have hbytes := hu.bytes
            rw [hbuf, List.flatten_cons, List.append_assoc] at hbytes
            simpa [hnil] using List.append_cancel_left hbytes
          · intro g gs _
            simp [hnil]
          · exact .inr ⟨hnil, item, by simp only [Pump.afterRead, harm]⟩
          · have hcount := hu.count
            rw [hp] at hcount
            simp only [inHand, List.length_cons, Pump.afterRead, harm, kept] at hcount ⊢
            omega

theorem step_inflight_le {a : LegAct} (hs : Leg.step P cap a l = some l') :
    l'.inflight.length ≤ l.inflight.length := by
  cases a with
  | deliver k =>
      obtain ⟨-, -, -, rfl⟩ := step_deliver_iff.mp hs
      simp
  | deliverFin =>
      obtain ⟨-, -, -, -, rfl⟩ := step_deliverFin_iff.mp hs
      exact Nat.le_refl _
  | read =>
      obtain ⟨-, r, -, rfl⟩ := step_read_iff.mp hs
      exact Nat.le_refl _
  | send =>
      obtain ⟨item, next, -, ⟨-, rfl⟩ | ⟨-, -, rfl⟩⟩ := step_send_iff.mp hs
      all_goals exact Nat.le_refl _
  | take =>
      obtain ⟨item, queue, -, rfl⟩ := step_take_iff.mp hs
      exact Nat.le_refl _
  | takeNone =>
      obtain ⟨-, -, -, -, rfl⟩ := step_takeNone_iff.mp hs
      exact Nat.le_refl _
  | dropReceiver =>
      obtain ⟨-, rfl⟩ := step_dropReceiver_iff.mp hs
      exact Nat.le_refl _
  | abort =>
      rw [step_abort_iff.mp hs]

theorem step_got_le {a : LegAct} (hs : Leg.step P cap a l = some l') :
    l.got.length ≤ l'.got.length := by
  by_cases ha : a = .take
  · subst ha
    obtain ⟨item, queue, -, rfl⟩ := step_take_iff.mp hs
    simp
  · rw [step_got_of_ne hs ha]

/-- **The consumer does not fall further behind** by what the pump and the consumer do. -/
theorem Behind.step (h : Behind P cap n part l) {a : LegAct} (ht : Thrifty P a l)
    (hs : Leg.step P cap a l = some l') : Behind P cap n part l' := by
  have hlag := h.lag
  have hroom := h.room
  cases a with
  | deliver k =>
      obtain ⟨hp, hpos, hk, rfl⟩ := step_deliver_iff.mp hs
      obtain ⟨frames, hu⟩ | ⟨hsealed, -⟩ := h.pushed
      · exact ⟨hroom, .inl ⟨frames, hu.deliver hp hpos hk ht⟩⟩
      · exact absurd hp hsealed.not_reading
  | deliverFin =>
      obtain ⟨hp, hc, -, -, rfl⟩ := step_deliverFin_iff.mp hs
      obtain ⟨frames, hu⟩ | ⟨hsealed, -⟩ := h.pushed
      · rw [hu.opened] at hc
        cases hc
      · exact absurd hp hsealed.not_reading
  | read =>
      obtain ⟨hp, r, hr, rfl⟩ := step_read_iff.mp hs
      obtain ⟨frames, hu⟩ | ⟨hsealed, -⟩ := h.pushed
      · obtain e | ⟨_ | f, s⟩ := r
        · exact h.sealed (.inr ⟨_, rfl⟩)
        · exact h.sealed (.inl rfl)
        · exact h.read_frame hp hu hr
      · exact absurd hp hsealed.not_reading
  | send =>
      obtain ⟨item, next, hp, ⟨hd, rfl⟩ | ⟨hd, hfree, rfl⟩⟩ := step_send_iff.mp hs
      · have hnext : next ≠ .always := by
          rintro rfl
          obtain ⟨frames, hu⟩ | ⟨hdone | ⟨_, hlast⟩, -⟩ := h.pushed
          · obtain hr | ⟨-, _, hw⟩ := hu.pump
            · cases hp.symm.trans hr
            · cases hp.symm.trans hw
          · cases hp.symm.trans hdone
          · cases hp.symm.trans hlast
        rw [if_neg hnext]
        exact h.sealed (.inl rfl)
      · have hroom' : (l.queue ++ [item]).length ≤ cap := by
          simp only [List.length_append, List.length_singleton]
          omega
        refine ⟨hroom', ?_⟩
        obtain ⟨frames, hu⟩ | ⟨hdone | ⟨_, hlast⟩, -⟩ := h.pushed
        · obtain hr | ⟨hbuf, _, hw⟩ := hu.pump
          · cases hp.symm.trans hr
          · cases hp.symm.trans hw
            refine .inl ⟨frames, { hu with first := ?_, pump := .inl rfl, count := ?_ }⟩
            · intro bs rest _
              rw [hbuf]
              exact Nat.zero_le _
            · have hcount := hu.count
              unfold kept at *
              rw [hp, hd] at hcount
              simp only [inHand, Bool.false_eq_true, if_false, hd, List.length_append,
                List.length_singleton, reduceCtorEq] at hcount ⊢
              omega
        · cases hp.symm.trans hdone
        · cases hp.symm.trans hlast
          exact .inr ⟨.inl rfl, hlag⟩
  | take =>
      obtain ⟨item, queue, hq, rfl⟩ := step_take_iff.mp hs
      rw [hq, List.length_cons] at hroom
      refine ⟨by dsimp only; omega, ?_⟩
      obtain ⟨frames, hu⟩ | ⟨hsealed, -⟩ := h.pushed
      · refine .inl ⟨frames, { hu with count := ?_ }⟩
        have hcount := hu.count
        unfold kept at *
        rw [hq] at hcount
        simp only [List.length_append, List.length_cons, List.length_nil] at hcount ⊢
        split_ifs at * <;> omega
      · refine .inr ⟨hsealed, ?_⟩
        unfold Lag at *
        simp only [List.length_append, List.length_cons, List.length_nil] at *
        omega
  | takeNone =>
      obtain ⟨-, hp, -, -, rfl⟩ := step_takeNone_iff.mp hs
      exact ⟨hroom, .inr ⟨.inl hp, hlag⟩⟩
  | dropReceiver =>
      obtain ⟨hd, rfl⟩ := step_dropReceiver_iff.mp hs
      refine ⟨Nat.zero_le cap, ?_⟩
      obtain ⟨frames, hu⟩ | ⟨hsealed, -⟩ := h.pushed
      · refine .inl ⟨frames, { hu with count := ?_ }⟩
        have hcount := hu.count
        unfold kept at *
        rw [hd] at hcount
        simp only [Bool.false_eq_true, if_false, if_true] at hcount ⊢
        omega
      · exact .inr ⟨hsealed, hlag⟩
  | abort =>
      rw [step_abort_iff.mp hs]
      exact h.sealed (.inl rfl)

end Leg

end FramePump
