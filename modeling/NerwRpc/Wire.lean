import NerwRpc.Envelope
import NerwRpc.Postcard

/-! # Method names and stream ids on the wire

`[varint(len) | UTF-8 name | rest]` and `[varint(stream-id) | rest]`.

* `decodeMethodNameSlices_eq`: the reader of a name indexes within its input.
* `decodeMethodName_sound`, `decodeMethodName_complete`: what it accepts.
* `decodeMethodName_encode`: a name that fits the limit is read back with the bytes behind it. -/

namespace NerwRpc

variable [Deps]

/-- Append the length-prefixed name to `buf`. -/
def encodeMethodName (name : String) (buf : Bytes) : RpcResult Bytes :=
  let bytes := Utf8.bytes name
  if bytes.length < 2 ^ 64 then .ok (buf ++ leb128.write bytes.length ++ bytes)
  else .error (.malformedFrame ("method-name length overflow: " ++ tryFromIntError))

def decodeMethodName (input : Bytes) : RpcResult (String × Bytes) :=
  match leb128.read input with
  | .error e => .error (.malformedFrame ("leb128 read: " ++ e))
  | .ok (nameLen, behind) =>
      if usizeMax < nameLen then
        .error (.malformedFrame ("name-length overflow: " ++ tryFromIntError))
      else if maxMethodNameLen < nameLen then
        .error (.malformedFrame ("method-name length " ++ toString nameLen ++
          " exceeds maximum " ++ toString maxMethodNameLen))
      else
        let consumed := input.length - behind.length
        let nameEnd := consumed + nameLen
        if nameEnd ≤ usizeMax ∧ nameEnd ≤ input.length then
          match Utf8.decode ((input.take nameEnd).drop consumed) with
          | some name => .ok (name, input.drop nameEnd)
          | none => .error (.malformedFrame
              ("non-UTF-8 method-name: " ++ utf8Error ((input.take nameEnd).drop consumed)))
        else .error (.malformedFrame "method-name length exceeds buffer")

/-- The slice `input[start..stop]`; `none` is the panic of an index out of bounds. -/
def sliceRange (input : Bytes) (start stop : ℕ) : Option Bytes :=
  if start ≤ stop ∧ stop ≤ input.length then some ((input.take stop).drop start) else none

/-- `decodeMethodName` with its two conversions of a length and its two slices as the code has
them; `none` when a slice is out of bounds. -/
def decodeMethodNameSlices (input : Bytes) : Option (RpcResult (String × Bytes)) :=
  match leb128.read input with
  | .error e => some (.error (.malformedFrame ("leb128 read: " ++ e)))
  | .ok (nameLen, behind) =>
      let position := input.length - behind.length
      if usizeMax < nameLen then
        some (.error (.malformedFrame ("name-length overflow: " ++ tryFromIntError)))
      else if maxMethodNameLen < nameLen then
        some (.error (.malformedFrame ("method-name length " ++ toString nameLen ++
          " exceeds maximum " ++ toString maxMethodNameLen)))
      else if usizeMax < position then
        some (.error (.malformedFrame ("cursor overflow: " ++ tryFromIntError)))
      else
        let nameEnd := position + nameLen
        if nameEnd ≤ usizeMax ∧ nameEnd ≤ input.length then do
          let name ← sliceRange input position nameEnd
          match Utf8.decode name with
          | some name => return .ok (name, ← sliceRange input nameEnd input.length)
          | none => return .error (.malformedFrame ("non-UTF-8 method-name: " ++ utf8Error name))
        else some (.error (.malformedFrame "method-name length exceeds buffer"))

def encodeStreamId (streamId : UInt64) (buf : Bytes) : Bytes :=
  buf ++ leb128.write streamId.toNat

def decodeStreamId (input : Bytes) : RpcResult (ℕ × Bytes) :=
  match leb128.read input with
  | .error e => .error (.malformedFrame ("leb128 read stream-id: " ++ e))
  | .ok (streamId, behind) => .ok (streamId, input.drop (input.length - behind.length))

theorem leb128_read_encode {n : ℕ} (hn : n < 2 ^ 64) (rest : Bytes) :
    leb128.read (Leb128.encode n ++ rest) = .ok (n, rest) := by
  have h := leb128.read_ok (Leb128.encode n ++ rest)
  rw [Leb128.readUnsigned_encode hn] at h
  cases hr : leb128.read (Leb128.encode n ++ rest) with
  | error e => rw [hr] at h; cases h
  | ok p => rw [hr] at h; cases h; rfl

theorem leb128_read_ok_iff {input rest : Bytes} {n : ℕ} :
    leb128.read input = .ok (n, rest) ↔ Leb128.readUnsigned input = some (n, rest) := by
  rw [← leb128.read_ok]
  cases leb128.read input with
  | error e => simp [Except.toOption]
  | ok p => simp [Except.toOption]

/-- What the crate accepts is at most ten bytes off the front of the input, and it accepts them
on their own. -/
theorem leb128_read_split {input rest : Bytes} {n : ℕ} : leb128.read input = .ok (n, rest) ↔
    ∃ used, input = used ++ rest ∧ used.length ≤ 10 ∧ leb128.read used = .ok (n, []) := by
  simp only [leb128_read_ok_iff, Leb128.readUnsigned_eq_some_iff]
  constructor
  · rintro ⟨hdec, hlen, hn⟩
    obtain ⟨used, rfl, hused, -⟩ := Leb128.decode_eq_some_iff.mp hdec
    simp only [List.length_append] at hlen
    exact ⟨used, rfl, by omega, hused, by simp only [List.length_nil]; omega, hn⟩
  · rintro ⟨used, rfl, hlen, hused, -, hn⟩
    obtain ⟨used', happ, -, hsum⟩ := Leb128.decode_eq_some_iff.mp hused
    obtain rfl : used = used' := by simpa using happ
    refine ⟨Leb128.decode_eq_some_iff.mpr ⟨used, rfl, hused, hsum⟩, ?_, hn⟩
    simp only [List.length_append]
    omega

/-- The slices are in bounds and the position of the cursor fits. -/
theorem decodeMethodNameSlices_eq (input : Bytes) :
    decodeMethodNameSlices input = some (decodeMethodName input) := by
  unfold decodeMethodNameSlices decodeMethodName
  cases hread : leb128.read input with
  | error e => rfl
  | ok p =>
      obtain ⟨nameLen, behind⟩ := p
      obtain ⟨used, rfl, hused, -⟩ := leb128_read_split.mp hread
      have hposition : (used ++ behind).length - behind.length = used.length := by
        simp only [List.length_append]
        omega
      have husize := usizeMax_ge
      dsimp only
      rw [hposition, if_neg (show ¬ usizeMax < used.length by omega)]
      split_ifs with hover hmax hend
      · rfl
      · rfl
      · have hname : sliceRange (used ++ behind) used.length (used.length + nameLen) =
            some (((used ++ behind).take (used.length + nameLen)).drop used.length) :=
          if_pos ⟨by omega, hend.2⟩
        have hrest : sliceRange (used ++ behind) (used.length + nameLen) (used ++ behind).length =
            some ((used ++ behind).drop (used.length + nameLen)) := by
          rw [sliceRange, if_pos ⟨hend.2, le_refl _⟩, List.take_length]
        rw [hname, hrest]
        dsimp only [Option.bind_eq_bind, Option.bind_some]
        cases Utf8.decode _ <;> rfl
      · rfl

theorem encodeMethodName_ok {name : String} (h : (Utf8.bytes name).length < 2 ^ 64)
    (buf : Bytes) : encodeMethodName name buf =
      .ok (buf ++ Leb128.encode (Utf8.bytes name).length ++ Utf8.bytes name) := by
  simp only [encodeMethodName, if_pos h, leb128.write_eq _ h]

/-- What is read is a length within the limit, that many bytes of UTF-8 and the rest. -/
theorem decodeMethodName_sound {input rest : Bytes} {name : String}
    (h : decodeMethodName input = .ok (name, rest)) :
    ∃ used, input = used ++ (Utf8.bytes name ++ rest) ∧
      leb128.read used = .ok ((Utf8.bytes name).length, []) ∧
      (Utf8.bytes name).length ≤ maxMethodNameLen := by
  unfold decodeMethodName at h
  split at h
  · cases h
  · rename_i nameLen behind hread
    obtain ⟨used, rfl, -, hused⟩ := leb128_read_split.mp hread
    have hposition : (used ++ behind).length - behind.length = used.length := by
      simp only [List.length_append]
      omega
    dsimp only at h
    rw [hposition, List.take_length_add_append, List.drop_left, List.drop_length_add_append] at h
    split_ifs at h with hover hmax hend
    split at h
    · rename_i s hname
      obtain ⟨rfl, rfl⟩ : s = name ∧ behind.drop nameLen = rest := by simpa using h
      have hbytes := Utf8.decode_eq_some_iff.mp hname
      have hlen : (Utf8.bytes s).length = nameLen := by
        simp only [List.length_append] at hend
        rw [hbytes, List.length_take]
        omega
      refine ⟨used, ?_, by rw [hlen, hused], by omega⟩
      rw [hbytes, List.take_append_drop]
    · cases h

theorem decodeMethodName_complete {used rest : Bytes} {name : String}
    (hused : leb128.read used = .ok ((Utf8.bytes name).length, []))
    (hmax : (Utf8.bytes name).length ≤ maxMethodNameLen) :
    decodeMethodName (used ++ (Utf8.bytes name ++ rest)) = .ok (name, rest) := by
  obtain ⟨used', happ, hten, -⟩ := leb128_read_split.mp hused
  obtain rfl : used = used' := by simpa using happ
  have hread : leb128.read (used ++ (Utf8.bytes name ++ rest)) =
      .ok ((Utf8.bytes name).length, Utf8.bytes name ++ rest) :=
    leb128_read_split.mpr ⟨used, rfl, hten, hused⟩
  have husize := usizeMax_ge
  have hcap : maxMethodNameLen = 4096 := rfl
  have hposition : (used ++ (Utf8.bytes name ++ rest)).length - (Utf8.bytes name ++ rest).length =
      used.length := by
    simp only [List.length_append]
    omega
  have hend : used.length + (Utf8.bytes name).length ≤ usizeMax ∧
      used.length + (Utf8.bytes name).length ≤ (used ++ (Utf8.bytes name ++ rest)).length := by
    simp only [List.length_append]
    omega
  rw [decodeMethodName, hread]
  dsimp only
  rw [if_neg (by omega), if_neg (by omega), hposition, if_pos hend, List.take_length_add_append,
    List.drop_left, List.drop_length_add_append, List.take_left, List.drop_left,
    Utf8.decode_bytes]

/-- **A name within the limit is read back**, with the bytes behind it. -/
theorem decodeMethodName_encode {name : String} (h : (Utf8.bytes name).length ≤ maxMethodNameLen)
    (rest : Bytes) :
    decodeMethodName (Leb128.encode (Utf8.bytes name).length ++ (Utf8.bytes name ++ rest)) =
      .ok (name, rest) := by
  refine decodeMethodName_complete ?_ h
  have hlt := lt_of_le_usizeMax (h.trans maxMethodNameLen_le_usizeMax)
  simpa using leb128_read_encode hlt []

theorem decodeMethodName_error {input : Bytes} {e : RpcError}
    (h : decodeMethodName input = .error e) : ∃ reason, e = .malformedFrame reason := by
  unfold decodeMethodName at h
  split at h
  · cases h
    exact ⟨_, rfl⟩
  · dsimp only at h
    split_ifs at h
    · cases h
      exact ⟨_, rfl⟩
    · cases h
      exact ⟨_, rfl⟩
    · split at h
      · cases h
      · cases h
        exact ⟨_, rfl⟩
    · cases h
      exact ⟨_, rfl⟩

end NerwRpc
