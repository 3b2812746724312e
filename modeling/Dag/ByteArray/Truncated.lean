import Dag.ByteArray.Lengths

/-!
# The byte array: truncated input

When the bytes that can be read are the beginning of an encoding and not the whole of it, the
matching reader throws, wherever the encoding has been cut: a fixed-width number needs all of its
bytes, a varint without its last byte has no end, and a string whose length can be read still asks
for more bytes than there are. It never asks for 0 bytes, so no node behind the last block is
dereferenced.

## Main definitions

* `Value.FitsPrefix`: the prefix holds the length, where the value is a string

## Main results

* `readValue_truncated_of_wellFormed`: a truncated encoding of any value, where there is room for the
  buffer of a string
-/

namespace Dag

open Foundation

/-- The prefix holds the length of a string. -/
def Value.FitsPrefix : Value → Prop
  | .stringF16 s => s.length < 2 ^ 16
  | .stringF32 s => s.length < 2 ^ 32
  | .stringF64 s => s.length < 2 ^ 64
  | .stringVint s => s.length < 2 ^ 64
  | _ => True

namespace ByteArray

variable (π : Platform) {s : ByteArray}

/-- The bytes that can be read are the beginning of `enc` and not the whole of it. -/
def Truncates (s : ByteArray) (enc : List UInt8) : Prop := s.unread <+: enc ∧ s.unread ≠ enc

/-- The reader throws `std::out_of_range`. -/
def Throws {α : Type} (x : Op α) (s : ByteArray) : Prop :=
  ∃ t, x s = .throw ⟨"not enough len"⟩ t

section Throws

variable {α β : Type} {x : Op α}

theorem Throws.bind (h : Throws x s) (f : α → Op β) : Throws (x >>= f) s := by
  obtain ⟨t, ht⟩ := h
  exact ⟨t, by rw [Prog.bind_apply, ht]⟩

theorem Throws.map (h : Throws x s) (g : α → β) : Throws (g <$> x) s := h.bind fun a => pure (g a)

theorem Throws.of_bind_ok {t : ByteArray} {a : α} {f : α → Op β} (hx : x s = .ok a t)
    (h : Throws (f a) t) : Throws (x >>= f) s := by
  obtain ⟨u, hu⟩ := h
  exact ⟨u, by rw [Prog.bind_ok hx, hu]⟩

end Throws

/-! ## Numbers -/

theorem Truncates.length_lt {enc : List UInt8} (h : Truncates s enc) :
    s.unread.length < enc.length := by
  by_contra hle
  exact h.2 (h.1.eq_of_length_le (Nat.not_lt.mp hle))

theorem readFixed_truncated (hs : s.WellFormed) {e : Endian} {n v : ℕ}
    (h : Truncates s (e.image n v)) : Throws (readFixed π n) s := by
  have hlt := h.length_lt
  rw [length_image] at hlt
  exact ⟨s, readFixed_throw π hs hlt⟩

theorem readFuint8_truncated (hs : s.WellFormed) {e : Endian} {v : ℕ}
    (h : Truncates s (e.image 1 v)) : Throws (readFuint8 π) s := by
  have hlt := h.length_lt
  rw [length_image, Nat.lt_one_iff, List.length_eq_zero_iff] at hlt
  exact ⟨s, readFuint8_nil π hs hlt⟩

theorem readVarint_truncated (hs : s.WellFormed) (w count : ℕ) {m : ℕ}
    (hm : m < 128 ^ (count + 1)) (h : Truncates s (leb128 m)) :
    Throws (readVarintLoop π w (count + 1) 0 0) s := by
  refine ⟨s.movedTo s.size, ?_⟩
  rw [readVarintLoop_eq π w (count + 1) 0 0 hs, leb128Span_of_strict hm h.1 h.2]

theorem readUint32_truncated (hs : s.WellFormed) (v : BitVec 32)
    (h : Truncates s (leb128 v.toNat)) : Throws (readUint32 π) s :=
  readVarint_truncated π hs 32 4 (Nat.lt_of_lt_of_le v.isLt (by decide)) h

theorem readUint64_truncated (hs : s.WellFormed) (v : BitVec 64)
    (h : Truncates s (leb128 v.toNat)) : Throws (readUint64 π) s :=
  readVarint_truncated π hs 64 9 (Nat.lt_of_lt_of_le v.isLt (by decide)) h

/-! ## Strings -/

theorem readLength_truncated (hs : s.WellFormed) (e : Endian) (f : StringFormat) {n : ℕ}
    (hn : n < 2 ^ f.bits) (h : Truncates s (f.encodeLength e n)) : Throws (f.readLength π) s := by
  cases f with
  | f16 => exact (readFixed_truncated π hs h).map _
  | f32 => exact (readFixed_truncated π hs h).map _
  | f64 => exact (readFixed_truncated π hs h).map _
  | vint =>
    have hm : n < 128 ^ (9 + 1) := Nat.lt_of_lt_of_le hn (by decide)
    exact (readVarint_truncated π hs 64 9 hm h).map _

/-- What is cut somewhere is cut in its first part or behind it. -/
theorem Truncates.append {enc body : List UInt8} (h : Truncates s (enc ++ body)) :
    Truncates s enc ∨ enc <+: s.unread := by
  have hprefix := List.prefix_append enc body
  rcases Nat.lt_or_ge s.unread.length enc.length with hcut | hle
  · refine .inl ⟨List.prefix_of_prefix_length_le h.1 hprefix (Nat.le_of_lt hcut), ?_⟩
    exact fun heq => Nat.ne_of_lt hcut (congrArg List.length heq)
  · exact .inr (List.prefix_of_prefix_length_le hprefix h.1 hle)

/-- A string is cut in its length, or in its bytes, of which there are then fewer than the length
says. -/
theorem stringRead_truncated (hs : s.WellFormed) (f : StringFormat) {value : List UInt8}
    (hfit : value.length < 2 ^ f.bits) (h : Truncates s (encode s.endian (f.value value))) :
    Throws (f.read π) s := by
  rw [encode_value] at h
  rw [stringRead_eq]
  rcases h.append with hcut | hlength
  · exact (readLength_truncated π hs s.endian f hfit hcut).bind _
  · have hlt := h.length_lt
    refine Throws.of_bind_ok (decodes_readLength π s.endian f hfit s hs rfl hlength) ?_
    refine ⟨_, read_unread_throw (hs.movedTo_of_prefix hlength) ?_⟩
    rw [unread_movedTo, List.length_drop]
    rw [List.length_append] at hlt
    have hle := hlength.length_le
    omega

/-- The length that is read of a truncated string is that of the string, and the whole of it is
there. -/
theorem length_of_truncated (hs : s.WellFormed) {f : StringFormat} {value : List UInt8}
    (hfit : value.length < 2 ^ f.bits) (h : Truncates s (encode s.endian (f.value value))) {len : ℕ}
    {t : ByteArray} (hrun : f.readLength π s = .ok len t) :
    f.encodeLength s.endian value.length <+: s.unread ∧ len = value.length := by
  rw [encode_value] at h
  rcases h.append with hcut | hlength
  · obtain ⟨u, hu⟩ := readLength_truncated π hs s.endian f hfit hcut
    rw [hu] at hrun
    cases hrun
  · rw [decodes_readLength π s.endian f hfit s hs rfl hlength] at hrun
    cases hrun
    exact ⟨hlength, rfl⟩

/-! ## Every value -/

/-- **A truncated value**, where there is room for the buffer of a string. -/
theorem readValue_truncated_of_wellFormed (hs : s.WellFormed) {v : Value} (hv : v.FitsPrefix)
    (h : Truncates s (encode s.endian v)) : Throws (readValue π v.format) s := by
  cases v with
  | fint8 v => exact (readFuint8_truncated π hs h).map Value.fint8
  | fuint8 v => exact (readFuint8_truncated π hs h).map Value.fuint8
  | fint16 v => exact (readFixed_truncated π hs h).map Value.fint16
  | fuint16 v => exact (readFixed_truncated π hs h).map Value.fuint16
  | fint32 v => exact (readFixed_truncated π hs h).map Value.fint32
  | fuint32 v => exact (readFixed_truncated π hs h).map Value.fuint32
  | float v => exact (readFixed_truncated π hs h).map Value.float
  | fint64 v => exact (readFixed_truncated π hs h).map Value.fint64
  | fuint64 v => exact (readFixed_truncated π hs h).map Value.fuint64
  | double v => exact (readFixed_truncated π hs h).map Value.double
  | uint32 v => exact (readUint32_truncated π hs v h).map Value.uint32
  | uint64 v => exact (readUint64_truncated π hs v h).map Value.uint64
  | int32 v =>
    have hzigzag : Truncates s (leb128 (encodeZigzag v).toNat) := by
      rwa [toNat_encodeZigzag (by decide)]
    exact ((readUint32_truncated π hs _ hzigzag).map decodeZigzag).map Value.int32
  | int64 v =>
    have hzigzag : Truncates s (leb128 (encodeZigzag v).toNat) := by
      rwa [toNat_encodeZigzag (by decide)]
    exact ((readUint64_truncated π hs _ hzigzag).map decodeZigzag).map Value.int64
  | stringF16 u => exact (stringRead_truncated π hs .f16 hv h).map Value.stringF16
  | stringF32 u => exact (stringRead_truncated π hs .f32 hv h).map Value.stringF32
  | stringF64 u => exact (stringRead_truncated π hs .f64 hv h).map Value.stringF64
  | stringVint u => exact (stringRead_truncated π hs .vint hv h).map Value.stringVint

end ByteArray

end Dag
