import Dag.ByteArray.RoundTrip

/-!
# The byte array: strings and the length in front of them

A string reader is the reader of its length and a `read` of that many bytes. The length is the next
bytes, taken in the width of the format or up to the end of a varint, whoever has written them; a
string writer puts there what is left of the length in the type of the prefix. Of the empty string
the second read asks for 0 bytes, and it dereferences the current node all the same.

## Main definitions

* `StringFormat`, with its writer, its reader and its encoding
* `StringFormat.encodeLength`, `StringFormat.readLength`: the encoding and the reader of a length
* `StringFormat.span`, `StringFormat.length`: the bytes that a length takes, and the length they
  stand for

## Main results

* `emits_stringWrite_mod`: the string writers, on strings of any length
* `readLength_eq`, `decodes_readLength`: the readers of a length, on any bytes and on an encoding
* `stringRead_eq`: the string readers, in two steps
* `stringRead_iff`: which strings are read as they have been written
-/

namespace Dag

open Foundation

/-- The formats of strings, by their prefix. -/
inductive StringFormat
  | f16
  | f32
  | f64
  | vint
  deriving DecidableEq, Repr

namespace StringFormat

/-- The bits of the type that holds the length. -/
def bits : StringFormat → ℕ
  | .f16 => 16
  | .f32 => 32
  | .f64 => 64
  | .vint => 64

/-- A string, as a value of this format. -/
def value : StringFormat → List UInt8 → Value
  | .f16 => .stringF16
  | .f32 => .stringF32
  | .f64 => .stringF64
  | .vint => .stringVint

/-- The bytes that the prefix of the empty string takes. -/
def emptyPrefix : StringFormat → ℕ
  | .f16 => 2
  | .f32 => 4
  | .f64 => 8
  | .vint => 1

/-- The reference encoding of a length in front of a string. -/
def encodeLength (e : Endian) : StringFormat → ℕ → List UInt8
  | .f16 => e.image 2
  | .f32 => e.image 4
  | .f64 => e.image 8
  | .vint => leb128

variable (π : Platform)

def write : StringFormat → List UInt8 → ByteArray.Op Unit
  | .f16 => ByteArray.writeStringF16 π
  | .f32 => ByteArray.writeStringF32 π
  | .f64 => ByteArray.writeStringF64 π
  | .vint => ByteArray.writeStringVint π

def read : StringFormat → ByteArray.Op (List UInt8)
  | .f16 => ByteArray.readStringF16 π
  | .f32 => ByteArray.readStringF32 π
  | .f64 => ByteArray.readStringF64 π
  | .vint => ByteArray.readStringVint π

/-- The reader of the length. -/
def readLength : StringFormat → ByteArray.Op ℕ
  | .f16 => BitVec.toNat <$> ByteArray.readFuint16 π
  | .f32 => BitVec.toNat <$> ByteArray.readFuint32 π
  | .f64 => BitVec.toNat <$> ByteArray.readFuint64 π
  | .vint => BitVec.toNat <$> ByteArray.readUint64 π

/-- The number of bytes that the length takes of those that can be read; `none` when they run out
before it ends. -/
def span : StringFormat → List UInt8 → Option ℕ
  | .f16, bytes => if 2 ≤ bytes.length then some 2 else none
  | .f32, bytes => if 4 ≤ bytes.length then some 4 else none
  | .f64, bytes => if 8 ≤ bytes.length then some 8 else none
  | .vint, bytes => leb128Span (ByteArray.varintPasses 64) bytes

/-- The length that bytes stand for. -/
def length (e : Endian) : StringFormat → List UInt8 → ℕ
  | .f16, bytes => e.value bytes
  | .f32, bytes => e.value bytes
  | .f64, bytes => e.value bytes
  | .vint, bytes => leb128Value bytes % 2 ^ 64

theorem span_bounds {f : StringFormat} {bytes : List UInt8} {k : ℕ} (h : f.span bytes = some k) :
    0 < k ∧ k ≤ bytes.length := by
  cases f with
  | vint => exact ⟨leb128Span_pos h, (leb128Span_le h).1⟩
  | _ =>
    rw [span] at h
    split_ifs at h with hle
    obtain rfl := Option.some.inj h
    exact ⟨by decide, hle⟩

end StringFormat

namespace ByteArray

variable (π : Platform) {s : ByteArray} {e : Endian} {f : StringFormat} {value : List UInt8}

/-! ## Values that are strings -/

/-- A value is a string in one of the formats, or it fits. -/
theorem value_cases (v : Value) :
    (∃ g u, v = StringFormat.value g u) ∨ (v.Fits ∧ ∀ g u, v ≠ StringFormat.value g u) := by
  cases v with
  | stringF16 u => exact .inl ⟨.f16, u, rfl⟩
  | stringF32 u => exact .inl ⟨.f32, u, rfl⟩
  | stringF64 u => exact .inl ⟨.f64, u, rfl⟩
  | stringVint u => exact .inl ⟨.vint, u, rfl⟩
  | _ =>
    refine .inr ⟨trivial, ?_⟩
    intro g u hv
    cases g <;> cases hv

theorem value_inj {g g' : StringFormat} {u u' : List UInt8} (h : g.value u = g'.value u') :
    g = g' ∧ u = u' := by
  cases g <;> cases g' <;> cases h <;> exact ⟨rfl, rfl⟩

/-! ## Writing -/

theorem writeValue_value (f : StringFormat) (u : List UInt8) :
    writeValue π (f.value u) = f.write π u := by
  cases f <;> rfl

theorem encode_value (e : Endian) (f : StringFormat) (value : List UInt8) :
    encode e (f.value value) = f.encodeLength e value.length ++ value := by
  cases f <;> rfl

theorem length_encodeLength_zero (e : Endian) (f : StringFormat) :
    (f.encodeLength e 0).length = f.emptyPrefix := by
  cases f with
  | vint => simp [StringFormat.encodeLength, StringFormat.emptyPrefix, leb128_of_lt]
  | _ => simp [StringFormat.encodeLength, StringFormat.emptyPrefix]

/-- **The string writers**, on strings of any length. -/
theorem emits_stringWrite_mod (e : Endian) (f : StringFormat) (value : List UInt8) :
    Emits e (f.write π value) (f.encodeLength e (value.length % 2 ^ f.bits) ++ value) := by
  cases f with
  | f16 => exact emits_writeString_mod π value (e.image 2) (emits_writeFixed π e 2)
  | f32 => exact emits_writeString_mod π value (e.image 4) (emits_writeFixed π e 4)
  | f64 => exact emits_writeString_mod π value (e.image 8) (emits_writeFixed π e 8)
  | vint => exact emits_writeString_mod π value leb128 (emits_writeUint64 π e)

theorem emits_stringWrite (e : Endian) (hfit : value.length < 2 ^ f.bits) :
    Emits e (f.write π value) (encode e (f.value value)) := by
  have h := emits_stringWrite_mod π e f value
  rwa [Nat.mod_eq_of_lt hfit, ← encode_value] at h

/-! ## Reading the length -/

theorem Decodes.toNat {w n : ℕ} {x : Op (BitVec w)} (pre : ℕ → List UInt8)
    (hx : ∀ v : BitVec w, Decodes e x (pre v.toNat) v) (hn : n < 2 ^ w) :
    Decodes e (BitVec.toNat <$> x) (pre n) n := by
  have hv : (BitVec.ofNat w n).toNat = n := by
    rw [BitVec.toNat_ofNat, Nat.mod_eq_of_lt hn]
  have h := (hx (BitVec.ofNat w n)).map BitVec.toNat
  rwa [hv] at h

theorem decodes_readLength (e : Endian) (f : StringFormat) {n : ℕ} (hn : n < 2 ^ f.bits) :
    Decodes e (f.readLength π) (f.encodeLength e n) n := by
  cases f with
  | f16 => exact Decodes.toNat (e.image 2) (decodes_readFixed π e (n := 2) (by decide)) hn
  | f32 => exact Decodes.toNat (e.image 4) (decodes_readFixed π e (n := 4) (by decide)) hn
  | f64 => exact Decodes.toNat (e.image 8) (decodes_readFixed π e (n := 8) (by decide)) hn
  | vint => exact Decodes.toNat leb128 (decodes_readUint64 π e) hn

/-- Where a reader of a length stops when the bytes run out: the fixed-width ones take nothing, the
varint takes all of them. -/
def stopped (f : StringFormat) (s : ByteArray) : ByteArray :=
  if f = .vint then s.movedTo s.size else s

theorem readLength_fixed (h : s.WellFormed) {n : ℕ} (hn : n ≠ 0) :
    (BitVec.toNat <$> readFixed π n : Op ℕ) s =
      match if n ≤ s.unread.length then some n else none with
      | some k => .ok (s.endian.value (s.unread.take k)) (s.movedTo (s.position + k))
      | none => .throw ⟨"not enough len"⟩ s := by
  split_ifs with hle
  · have hlength : (s.unread.take n).length = n := by rw [List.length_take, Nat.min_eq_left hle]
    have hlt := value_lt s.endian (s.unread.take n)
    rw [hlength, ← two_pow_eight_mul] at hlt
    simp only [Prog.map_apply, readFixed_eq π h hn hle, BitVec.toNat_ofNat, Nat.mod_eq_of_lt hlt]
  · simp only [Prog.map_apply, readFixed_throw π h (Nat.lt_of_not_le hle)]

/-- **The reader of a length**, on any bytes. -/
theorem readLength_eq (h : s.WellFormed) (f : StringFormat) :
    f.readLength π s = match f.span s.unread with
      | some k => .ok (f.length s.endian (s.unread.take k)) (s.movedTo (s.position + k))
      | none => .throw ⟨"not enough len"⟩ (stopped f s) := by
  cases f with
  | f16 => exact readLength_fixed π h (n := 2) (by decide)
  | f32 => exact readLength_fixed π h (n := 4) (by decide)
  | f64 => exact readLength_fixed π h (n := 8) (by decide)
  | vint =>
    have hloop := readVarintLoop_eq π 64 (varintPasses 64) 0 0 h
    simp only [StringFormat.readLength, readUint64, Prog.map_apply, hloop, StringFormat.span]
    cases leb128Span (varintPasses 64) s.unread with
    | none => rfl
    | some k =>
      simp [StringFormat.length]

/-! ## Reading a string -/

theorem readValue_value (f : StringFormat) (u : List UInt8) :
    readValue π (f.value u).format = f.value <$> f.read π := by
  cases f <;> rfl

theorem readString_eq {w : ℕ} (prefixReader : Op (BitVec w)) :
    readString prefixReader = (BitVec.toNat <$> prefixReader) >>= read := by
  funext s
  rw [readString, Prog.bind_apply, Prog.bind_apply, Prog.map_apply]
  cases prefixReader s <;> rfl

/-- **The string readers** read the length and then that many bytes. -/
theorem stringRead_eq (f : StringFormat) : f.read π = f.readLength π >>= read := by
  cases f with
  | f16 => exact readString_eq (readFuint16 π)
  | f32 => exact readString_eq (readFuint32 π)
  | f64 => exact readString_eq (readFuint64 π)
  | vint => exact readString_eq (readUint64 π)

theorem decodes_stringRead (e : Endian) (hne : value ≠ []) (hfit : value.length < 2 ^ f.bits) :
    Decodes e (f.read π) (encode e (f.value value)) value := by
  rw [stringRead_eq, encode_value]
  exact (decodes_readLength π e f hfit).bind (decodes_read e hne)

/-- A string that the prefix holds is read, the empty string where there is a node behind its
prefix. -/
theorem stringRead_ok (hs : s.WellFormed) (he : s.endian = e) (hfit : value.length < 2 ^ f.bits)
    (hroom : value = [] → s.position + f.emptyPrefix < s.capacity)
    (h : encode e (f.value value) <+: s.unread) :
    f.read π s = .ok value (s.movedTo (s.position + (encode e (f.value value)).length)) := by
  by_cases hne : value = []
  · subst hne
    rw [encode_value, List.append_nil, List.length_nil] at h ⊢
    have hmoved := hs.movedTo_of_prefix h
    have hlt : s.position + (f.encodeLength e 0).length < s.capacity := by
      rw [length_encodeLength_zero]
      exact hroom rfl
    rw [stringRead_eq, Prog.bind_ok (decodes_readLength π e f hfit s hs he h), List.length_nil,
      read_zero hmoved]
    exact if_pos hlt
  · exact decodes_stringRead π e hne hfit s hs he h

/-- **A string of any length is read** when the prefix holds the length, and there is a node behind
the prefix of the empty string. -/
theorem stringRead_iff (hs : s.WellFormed) (he : s.endian = e)
    (h : f.encodeLength e (value.length % 2 ^ f.bits) ++ value <+: s.unread) :
    (∃ t, f.read π s = .ok value t) ↔
      value.length < 2 ^ f.bits ∧ (value = [] → s.position + f.emptyPrefix < s.capacity) := by
  constructor
  · rintro ⟨t, ht⟩
    have hmod : value.length % 2 ^ f.bits < 2 ^ f.bits := Nat.mod_lt _ (Nat.pow_pos (by decide))
    have hprefix := (List.prefix_append _ value).trans h
    have hmoved := hs.movedTo_of_prefix hprefix
    rw [stringRead_eq, Prog.bind_ok (decodes_readLength π e f hmod s hs he hprefix)] at ht
    refine ⟨length_of_read hmoved ht ▸ hmod, ?_⟩
    rintro rfl
    rw [List.length_nil, Nat.zero_mod, length_encodeLength_zero] at ht hmoved
    exact room_of_read_zero hmoved ht
  · rintro ⟨hfit, hroom⟩
    rw [Nat.mod_eq_of_lt hfit, ← encode_value] at h
    exact ⟨_, stringRead_ok π hs he hfit hroom h⟩

end ByteArray

end Dag
