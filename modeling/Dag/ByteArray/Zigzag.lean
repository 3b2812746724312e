import Dag.ByteArray.Typed
import Dag.Foundation.Signed

/-!
# The byte array: where zigzag encoding is defined

`EncodeZigzag32` and `EncodeZigzag64` negate a negative number as a signed one, and go on with the
unsigned one that it is converted to; a number that is not negative they double as a signed one.
Neither operation is defined for all the numbers that `writeInt32` and `writeInt64` pass on.

## Main definitions

* `encodeZigzag32`, `encodeZigzag64`: the encoders, with the operations that may be undefined

## Main results

* `encodeZigzagChecked_of_defined`: where they are defined, they compute zigzag on two's complement
* `encodeZigzag_defined_iff`: they are defined for the lower half of the numbers that are not
  negative, and for all negative ones but the least
-/

namespace Dag

open Foundation

/-- `EncodeZigzag32(v)` and `EncodeZigzag64(v)`, as far as they are defined. -/
def encodeZigzagChecked {w : ℕ} (v : BitVec w) : Except Undefined (BitVec w) :=
  if v.slt 0 then do
    let n ← Signed.neg v
    -- `n` is converted, so that this product and difference are unsigned
    return n * 2 - 1
  else Signed.mul v 2

def encodeZigzag32 (v : BitVec 32) : Except Undefined (BitVec 32) := encodeZigzagChecked v
def encodeZigzag64 (v : BitVec 64) : Except Undefined (BitVec 64) := encodeZigzagChecked v

section Zigzag

variable {w : ℕ} {v : BitVec w}

theorem encodeZigzagChecked_of_neg (h : v.slt 0 = true) :
    encodeZigzagChecked v = (Signed.neg v).map fun n => n * 2 - 1 := by
  rw [encodeZigzagChecked, if_pos h]
  cases Signed.neg v <;> rfl

theorem encodeZigzagChecked_of_nonneg (h : ¬ v.slt 0 = true) :
    encodeZigzagChecked v = Signed.mul v 2 := by
  rw [encodeZigzagChecked, if_neg h]

/-- Where the encoders are defined, they compute zigzag on two's complement. -/
theorem encodeZigzagChecked_of_defined (h : Defined (encodeZigzagChecked v)) :
    encodeZigzagChecked v = .ok (encodeZigzag v) := by
  obtain ⟨u, hu⟩ := h
  rw [hu, encodeZigzag]
  split_ifs with hneg
  · rw [encodeZigzagChecked_of_neg hneg] at hu
    cases hn : Signed.neg v with
    | ok n =>
      rw [hn] at hu
      obtain ⟨-, rfl⟩ := Signed.checked_eq_ok_iff.mp hn
      exact hu.symm
    | error e =>
      rw [hn] at hu
      cases hu
  · rw [encodeZigzagChecked_of_nonneg hneg] at hu
    obtain ⟨-, rfl⟩ := Signed.checked_eq_ok_iff.mp hu
    rfl

/-- The encoders are undefined for the least number, and for those whose double is out of range. -/
theorem defined_encodeZigzagChecked_iff (hw : 3 ≤ w) :
    Defined (encodeZigzagChecked v) ↔ -2 ^ (w - 1) < v.toInt ∧ v.toInt < 2 ^ (w - 2) := by
  have hleast : -2 ^ (w - 1) ≤ v.toInt := BitVec.le_toInt v
  have hpow : (2 : ℤ) ^ (w - 1) = 2 * 2 ^ (w - 2) := by
    rw [show w - 1 = w - 2 + 1 by omega, Int.pow_succ, Int.mul_comm]
  have hpos : (0 : ℤ) < 2 ^ (w - 2) := Int.pow_pos (by decide)
  have hslt : v.slt 0 = true ↔ v.toInt < 0 := by simp [BitVec.slt]
  by_cases hneg : v.slt 0 = true
  · have hlt := hslt.mp hneg
    rw [encodeZigzagChecked_of_neg hneg, defined_map_iff, Signed.defined_neg_iff]
    omega
  · have hge : 0 ≤ v.toInt := Int.not_lt.mp (mt hslt.mpr hneg)
    have height : 2 ^ 3 ≤ 2 ^ w := Nat.pow_le_pow_right (by decide) hw
    have htwo : (2 : BitVec w).toInt = 2 := Signed.toInt_ofNat_of_lt (n := 2) (by omega)
    rw [encodeZigzagChecked_of_nonneg hneg, Signed.defined_mul_iff, htwo]
    omega

/-- **No signed operation of the zigzag encoders overflows** exactly for the numbers from the least
but one on, below a quarter of the range of the unsigned type: the negation of the least one does,
and so do the products of the upper half of the positive ones. -/
theorem encodeZigzag_defined_iff (v : BitVec 32) (u : BitVec 64) :
    (Defined (encodeZigzag32 v) ↔ -2 ^ 31 < v.toInt ∧ v.toInt < 2 ^ 30) ∧
      (Defined (encodeZigzag64 u) ↔ -2 ^ 63 < u.toInt ∧ u.toInt < 2 ^ 62) := by
  constructor
  · exact defined_encodeZigzagChecked_iff (by decide)
  · exact defined_encodeZigzagChecked_iff (by decide)

/-- The product for 2³⁰ overflows. -/
theorem encodeZigzag_overflows : ¬ ((∀ v : BitVec 32, Defined (encodeZigzag32 v)) ∧
    ∀ v : BitVec 64, Defined (encodeZigzag64 v)) := by
  rintro ⟨h, -⟩
  have hdefined := h (BitVec.ofNat 32 (2 ^ 30))
  revert hdefined
  decide

end Zigzag

end Dag
