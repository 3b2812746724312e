import Dag.ByteArray.Typed

/-!
# The byte array: conversions against the reference encodings

What the typed operations compute on numbers — byte swaps, memory images, the varint loop and the
zigzag maps on two's complement — is the reference encoding of the number, on a host of either
byte order.

## Main definitions

* `encode e v`: the reference encoding of a value, in the byte order `e` where it has one
* `Value.Fits`: strings that are not empty and whose length fits the prefix

## Main results

* `image_swapped`, `value_swapped`: writing and reading a fixed-width number does not depend on the
  host
* `getLsbD_byteswap`: the bits of a swapped number
* `varintBytes_eq`: the varint loop emits LEB128
* `toNat_encodeZigzag`, `decodeZigzag_encodeZigzag`: zigzag on two's complement
-/

namespace Dag

open Foundation

/-- The byte order that `setIsLittleEndian(little)` asks for. -/
def orderOf (little : Bool) : Endian := if little then .little else .big

/-- **The reference encoding** of a value: fixed width in the byte order `e`, LEB128, LEB128 of the
zigzag number, or the length and then the bytes. -/
def encode (e : Endian) : Value → List UInt8
  | .fint8 v | .fuint8 v => e.image 1 v.toNat
  | .fint16 v | .fuint16 v => e.image 2 v.toNat
  | .fint32 v | .fuint32 v | .float v => e.image 4 v.toNat
  | .fint64 v | .fuint64 v | .double v => e.image 8 v.toNat
  | .uint32 v => leb128 v.toNat
  | .uint64 v => leb128 v.toNat
  | .int32 v => leb128 (zigzag v.toInt)
  | .int64 v => leb128 (zigzag v.toInt)
  | .stringF16 s => e.image 2 s.length ++ s
  | .stringF32 s => e.image 4 s.length ++ s
  | .stringF64 s => e.image 8 s.length ++ s
  | .stringVint s => leb128 s.length ++ s

/-- Strings are not empty, and their length fits the prefix. -/
def Value.Fits : Value → Prop
  | .stringF16 s => s ≠ [] ∧ s.length < 2 ^ 16
  | .stringF32 s => s ≠ [] ∧ s.length < 2 ^ 32
  | .stringF64 s => s ≠ [] ∧ s.length < 2 ^ 64
  | .stringVint s => s ≠ [] ∧ s.length < 2 ^ 64
  | _ => True

/-! ## Fixed width -/

section Fixed

variable {n : ℕ} {e host : Endian}

@[simp] theorem length_image (e : Endian) (n v : ℕ) : (e.image n v).length = n := by
  cases e <;> simp [Endian.image]

/-- One byte has no byte order. -/
theorem image_one (e e' : Endian) (v : ℕ) : e.image 1 v = e'.image 1 v := by
  cases e <;> cases e' <;> rfl

theorem value_image (e : Endian) (n v : ℕ) : e.value (e.image n v) = v % 256 ^ n := by
  cases e <;> simp [Endian.image, Endian.value, leValue_leBytes]

theorem two_pow_eight_mul (n : ℕ) : 2 ^ (8 * n) = 256 ^ n := by
  rw [pow_mul]
  rfl

theorem ofNat_value_image (e : Endian) (v : BitVec (8 * n)) :
    BitVec.ofNat (8 * n) (e.value (e.image n v.toNat)) = v := by
  rw [value_image, ← two_pow_eight_mul, Nat.mod_eq_of_lt v.isLt, BitVec.ofNat_toNat,
    BitVec.setWidth_eq]

/-- The bytes of a swapped number. -/
theorem leBytes_byteswap (v : BitVec (8 * n)) :
    leBytes n (byteswap v).toNat = (leBytes n v.toNat).reverse := by
  have hlen : (leBytes n v.toNat).reverse.length = n := by simp
  have hlt := leValue_lt (leBytes n v.toNat).reverse
  rw [hlen, ← two_pow_eight_mul] at hlt
  -- reversed bytes are those of a number of the same width, so that nothing is cut off
  have h := leBytes_leValue (leBytes n v.toNat).reverse
  rw [hlen] at h
  rw [byteswap, BitVec.toNat_ofNat, Nat.mod_eq_of_lt hlt, h]

/-- A number is known by its bytes. -/
theorem eq_of_leBytes_eq {v u : BitVec (8 * n)} (h : leBytes n v.toNat = leBytes n u.toNat) :
    v = u := by
  have h' := congrArg leValue h
  rw [leValue_leBytes, leValue_leBytes, ← two_pow_eight_mul, Nat.mod_eq_of_lt v.isLt,
    Nat.mod_eq_of_lt u.isLt] at h'
  exact BitVec.eq_of_toNat_eq h'

theorem byteswap_byteswap (v : BitVec (8 * n)) : byteswap (byteswap v) = v := by
  apply eq_of_leBytes_eq
  rw [leBytes_byteswap, leBytes_byteswap, List.reverse_reverse]

/-- **The bits of a swapped number**: the bytes are reversed, and the bits of each stay. -/
theorem getLsbD_byteswap (v : BitVec (8 * n)) {k j : ℕ} (hk : k < n) (hj : j < 8) :
    (byteswap v).getLsbD (8 * k + j) = v.getLsbD (8 * (n - 1 - k) + j) := by
  have hbytes := congrArg (·[k]?) (leBytes_byteswap v)
  rw [List.getElem?_reverse (by simpa using hk), length_leBytes, getElem?_leBytes hk,
    getElem?_leBytes (by omega)] at hbytes
  have hbit := congrArg (·.toNat.testBit j) (Option.some.inj hbytes)
  rwa [testBit_ofNat_div _ _ hj, testBit_ofNat_div _ _ hj] at hbit

/-- A swapped number is known by its bits. -/
theorem byteswap_eq_of_bits {v u : BitVec (8 * n)}
    (h : ∀ k < n, ∀ j < 8, u.getLsbD (8 * k + j) = v.getLsbD (8 * (n - 1 - k) + j)) :
    byteswap v = u := by
  apply BitVec.eq_of_getLsbD_eq
  intro i hi
  have hk : i / 8 < n := by omega
  have hj : i % 8 < 8 := Nat.mod_lt i (by decide)
  rw [← Nat.div_add_mod i 8, getLsbD_byteswap v hk hj, h _ hk _ hj]

theorem byteswap_and (v u : BitVec (8 * n)) :
    byteswap (v &&& u) = byteswap v &&& byteswap u := by
  apply byteswap_eq_of_bits
  intro k hk j hj
  rw [BitVec.getLsbD_and, BitVec.getLsbD_and, getLsbD_byteswap v hk hj, getLsbD_byteswap u hk hj]

theorem byteswap_not (v : BitVec (8 * n)) : byteswap (~~~v) = ~~~byteswap v := by
  apply byteswap_eq_of_bits
  intro k hk j hj
  rw [BitVec.getLsbD_not, BitVec.getLsbD_not, getLsbD_byteswap v hk hj]
  congr 1
  simp only [decide_eq_decide]
  omega

/-- The image of the swapped number is the image in the other byte order. -/
theorem image_byteswap (h : e ≠ host) (v : BitVec (8 * n)) :
    host.image n (byteswap v).toNat = e.image n v.toNat := by
  cases e <;> cases host
  · exact absurd rfl h
  · rw [Endian.image, Endian.image, leBytes_byteswap, List.reverse_reverse]
  · rw [Endian.image, Endian.image, leBytes_byteswap]
  · exact absurd rfl h

/-- **What a fixed-width writer copies** is the number in the array's byte order, whatever the byte
order of the host is. -/
theorem image_swapped (e host : Endian) (v : BitVec (8 * n)) :
    host.image n (if e ≠ host then byteswap v else v).toNat = e.image n v.toNat := by
  by_cases h : e = host
  · rw [if_neg (not_not.mpr h), h]
  · rw [if_pos h, image_byteswap h]

/-- **What a fixed-width reader returns** is the number that was written. -/
theorem value_swapped (e host : Endian) (v : BitVec (8 * n)) :
    (if e = host then BitVec.ofNat (8 * n) (host.value (e.image n v.toNat))
      else byteswap (BitVec.ofNat (8 * n) (host.value (e.image n v.toNat)))) = v := by
  by_cases h : e = host
  · rw [if_pos h, h, ofNat_value_image]
  · rw [if_neg h, ← image_byteswap h, ofNat_value_image, byteswap_byteswap]

end Fixed

/-! ## Varints -/

section Varint

variable {w : ℕ}

/-- Seven bits of a number and the continuation bit. -/
theorem toNat_and_or (hw : 8 ≤ w) (v : BitVec w) :
    ((v &&& 0x7F) ||| 0x80).toNat = v.toNat % 128 + 128 := by
  have hbig : 256 ≤ 2 ^ w := Nat.pow_le_pow_right (n := 2) (by omega) hw
  have h7f : (0x7F : BitVec w).toNat = 2 ^ 7 - 1 :=
    (BitVec.toNat_ofNat 127 w).trans (Nat.mod_eq_of_lt (by omega))
  have h80 : (0x80 : BitVec w).toNat = 2 ^ 7 * 1 :=
    (BitVec.toNat_ofNat 128 w).trans (Nat.mod_eq_of_lt (by omega))
  -- the continuation bit is above the seven bits, and is added by `|||`
  rw [BitVec.toNat_or, BitVec.toNat_and, h7f, h80, Nat.and_two_pow_sub_one_eq_mod, Nat.or_comm,
    ← Nat.two_pow_add_eq_or_of_lt (Nat.mod_lt _ (by decide))]
  omega

/-- **The loop of the varint writers** emits LEB128. -/
theorem varintBytes_eq (hw : 8 ≤ w) (v : BitVec w) : varintBytes v = leb128 v.toNat := by
  -- on the number: every pass leaves it seven bits shorter
  induction hv : v.toNat using Nat.strong_induction_on generalizing v with
  | _ m ih =>
    subst hv
    rw [varintBytes]
    split_ifs with h
    · have hshift : (v >>> 7).toNat = v.toNat / 128 := by
        rw [BitVec.toNat_ushiftRight, Nat.shiftRight_eq_div_pow]
      rw [leb128_of_ge h, toNat_and_or hw,
        ih _ (by rw [hshift]; omega) (v >>> 7) rfl, hshift]
    · rw [leb128_of_lt (by omega)]

/-- The low seven bits of a number and the others make it up. -/
theorem ofNat_or_shiftLeft (w m : ℕ) :
    BitVec.ofNat w (m % 128) ||| (BitVec.ofNat w (m / 128) <<< 7) = BitVec.ofNat w m := by
  have hm : (m % 128) ||| (m / 128) <<< 7 = m := by
    rw [Nat.or_comm, Nat.shiftLeft_eq, Nat.mul_comm,
      ← Nat.two_pow_add_eq_or_of_lt (Nat.mod_lt _ (by decide))]
    exact Nat.div_add_mod m 128
  -- bit by bit: below bit 7 the first part counts, from there on the second
  apply BitVec.eq_of_getLsbD_eq
  intro i hi
  conv_rhs => rw [← hm]
  simp only [BitVec.getLsbD_or, BitVec.getLsbD_shiftLeft, BitVec.getLsbD_ofNat, Nat.testBit_or,
    Nat.testBit_shiftLeft, hi, decide_true, Bool.true_and]
  by_cases h7 : i < 7
  · simp [h7]
  · have hlt : i - 7 < w := by omega
    simp [h7, hlt, Nat.not_lt.mp h7]

end Varint

/-! ## Zigzag -/

section Zigzag

variable {w : ℕ}

/-- Two's complement: the negative numbers are the bit vectors of the upper half. -/
theorem toInt_cases (v : BitVec w) :
    (v.toInt < 0 ∧ 2 ^ w ≤ 2 * v.toNat ∧ v.toInt = (v.toNat : ℤ) - (2 ^ w : ℕ)) ∨
      (0 ≤ v.toInt ∧ 2 * v.toNat < 2 ^ w ∧ v.toInt = v.toNat) := by
  have hlt := v.isLt
  have hint := BitVec.toInt_eq_toNat_cond v
  split_ifs at hint with hhalf
  · right
    omega
  · left
    omega

/-- **The zigzag encoders** compute zigzag on two's complement. -/
theorem toNat_encodeZigzag (hw : 2 ≤ w) (v : BitVec w) :
    (encodeZigzag v).toNat = zigzag v.toInt := by
  have hlt := v.isLt
  have hfour : 4 ≤ 2 ^ w := Nat.pow_le_pow_right (n := 2) (by omega) hw
  have htwo : (2 : BitVec w).toNat = 2 :=
    (BitVec.toNat_ofNat 2 w).trans (Nat.mod_eq_of_lt (by omega))
  have hone : (1 : BitVec w).toNat = 1 :=
    (BitVec.toNat_ofNat 1 w).trans (Nat.mod_eq_of_lt (by omega))
  have hzero : (0 : BitVec w).toInt = 0 := BitVec.toInt_zero
  rcases toInt_cases v with ⟨hneg, hhalf, hint⟩ | ⟨hnonneg, hhalf, hint⟩
  · have hslt : v.slt 0 = true := by simpa [BitVec.slt, hzero] using hneg
    have hz := zigzag_of_neg hneg
    rw [encodeZigzag, if_pos hslt, BitVec.toNat_sub, BitVec.toNat_mul, BitVec.toNat_neg, hone,
      htwo]
    generalize 2 ^ w = N at *
    -- doubling wraps for the least number only, whose zigzag number is the greatest
    have hmul : (N - v.toNat) % N * 2 % N = if 2 * v.toNat = N then 0 else 2 * (N - v.toNat) := by
      rw [Nat.mod_eq_of_lt (show N - v.toNat < N by omega)]
      split_ifs with heq
      · rw [show (N - v.toNat) * 2 = N by omega, Nat.mod_self]
      · exact (Nat.mod_eq_of_lt (by omega)).trans (Nat.mul_comm ..)
    rw [hmul]
    split_ifs with heq
    · rw [Nat.add_zero, Nat.mod_eq_of_lt (by omega)]
      omega
    · rw [show N - 1 + 2 * (N - v.toNat) = (2 * (N - v.toNat) - 1) + N by omega,
        Nat.add_mod_right, Nat.mod_eq_of_lt (by omega)]
      omega
  · have hslt : ¬ v.slt 0 = true := by simpa [BitVec.slt, hzero] using hnonneg
    have hz := zigzag_of_nonneg hnonneg
    rw [encodeZigzag, if_neg hslt, BitVec.toNat_mul, htwo, Nat.mod_eq_of_lt (by omega)]
    omega

/-- What the zigzag decoders compute: half the number, or the complement of that when the number is
odd. -/
theorem toNat_decodeZigzag (hw : 2 ≤ w) (u : BitVec w) :
    (decodeZigzag u).toNat =
      if u.toNat % 2 = 0 then u.toNat / 2 else 2 ^ w - 1 - u.toNat / 2 := by
  have hfour : 4 ≤ 2 ^ w := Nat.pow_le_pow_right (n := 2) (by omega) hw
  have hone : (1 : BitVec w).toNat = 1 :=
    (BitVec.toNat_ofNat 1 w).trans (Nat.mod_eq_of_lt (by omega))
  have hlow : (u &&& 1).toNat = u.toNat % 2 := by
    rw [BitVec.toNat_and, hone, Nat.and_one_is_mod]
  have hshift : (u >>> 1).toNat = u.toNat / 2 := by
    rw [BitVec.toNat_ushiftRight, Nat.shiftRight_eq_div_pow]
  rw [decodeZigzag]
  -- the mask `-(v & 1)` has no bit set, or all of them
  split_ifs with heven
  · have hzero : u &&& 1 = 0#w := BitVec.eq_of_toNat_eq (by rw [hlow, heven, BitVec.toNat_zero])
    rw [hzero, BitVec.neg_zero, BitVec.xor_zero, hshift]
  · have hodd : u &&& 1 = 1#w := by
      have h : (u &&& 1).toNat = 1 := by omega
      exact BitVec.eq_of_toNat_eq (h.trans hone.symm)
    rw [hodd, BitVec.neg_one_eq_allOnes, BitVec.xor_allOnes, BitVec.toNat_not, hshift]

/-- **The zigzag decoders** undo the encoders. -/
theorem decodeZigzag_encodeZigzag (hw : 2 ≤ w) (v : BitVec w) :
    decodeZigzag (encodeZigzag v) = v := by
  have hlt := v.isLt
  apply BitVec.eq_of_toNat_eq
  rw [toNat_decodeZigzag hw, toNat_encodeZigzag hw]
  rcases toInt_cases v with ⟨hneg, hhalf, hint⟩ | ⟨hnonneg, hhalf, hint⟩
  · have hz := zigzag_of_neg hneg
    rw [if_neg (by omega)]
    omega
  · have hz := zigzag_of_nonneg hnonneg
    rw [if_pos (by omega)]
    omega

end Zigzag

end Dag
