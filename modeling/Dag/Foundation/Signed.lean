import Mathlib.Algebra.Order.Ring.Nat

/-!
# Signed integer arithmetic with undefined results

In C and C++ an operation on signed integers is undefined where its result leaves the range of the
type, and a shift where it moves by the width or more. Here such operations are partial, on two's
complement: they return the result, or say why there is none.

The shift to the left is the one of C++17: of a number that is not negative, where what comes out
fits into the unsigned type of the same width.

## Main definitions

* `Undefined`: why there is no result
* `Defined`: there is one
* `Signed.neg`, `Signed.sub`, `Signed.mul`, `Signed.shl`: the operations

## Main results

* `Signed.defined_neg_iff`, `Signed.defined_sub_iff`, `Signed.defined_mul_iff`: there is a result
  where it stays in the range of its type
-/

namespace Foundation

/-- Why an operation on signed integers is undefined. -/
inductive Undefined
  /-- the result leaves the range of the type -/
  | overflow
  /-- a shift by the width of the type or more -/
  | shift
  deriving DecidableEq, Repr

section Defined

variable {α β : Type*}

/-- The computation has a result: nothing in it is undefined. -/
def Defined (x : Except Undefined α) : Prop := ∃ a, x = .ok a

instance (x : Except Undefined α) : Decidable (Defined x) :=
  match x with
  | .ok a => isTrue ⟨a, rfl⟩
  | .error _ => isFalse fun ⟨_, h⟩ => Except.noConfusion rfl rfl (heq_of_eq h)

@[simp] theorem defined_ok (a : α) : Defined (.ok a) := ⟨a, rfl⟩

@[simp] theorem not_defined_error (e : Undefined) : ¬ Defined (.error e : Except Undefined α) := by
  rintro ⟨a, ha⟩
  cases ha

@[simp] theorem defined_map_iff (x : Except Undefined α) (f : α → β) :
    Defined (x.map f) ↔ Defined x := by
  cases x <;> simp [Except.map]

end Defined

namespace Signed

variable {α : Type*} {w : ℕ}

/-- The result `a`, unless there is an overflow. -/
def checked (overflows : Bool) (a : α) : Except Undefined α :=
  if overflows then .error .overflow else .ok a

/-- `-x` -/
def neg (x : BitVec w) : Except Undefined (BitVec w) := checked x.negOverflow (-x)

/-- `x - y` -/
def sub (x y : BitVec w) : Except Undefined (BitVec w) := checked (x.ssubOverflow y) (x - y)

/-- `x * y` -/
def mul (x y : BitVec w) : Except Undefined (BitVec w) := checked (x.smulOverflow y) (x * y)

/-- `x << n` -/
def shl (x : BitVec w) (n : ℕ) : Except Undefined (BitVec w) :=
  if w ≤ n then .error .shift
  else checked (decide (x.toInt < 0 ∨ 2 ^ w ≤ x.toNat * 2 ^ n)) (x <<< n)

variable {x y : BitVec w}

theorem checked_eq_ok_iff {overflows : Bool} {a b : α} :
    checked overflows a = .ok b ↔ overflows = false ∧ a = b := by
  cases overflows <;> simp [checked]

theorem defined_checked_iff {overflows : Bool} {a : α} :
    Defined (checked overflows a) ↔ overflows = false := by
  simp [Defined, checked_eq_ok_iff]

/-- A negation is undefined for the least number only. -/
theorem defined_neg_iff : Defined (neg x) ↔ x.toInt ≠ -2 ^ (w - 1) := by
  rw [neg, defined_checked_iff, BitVec.negOverflow, beq_eq_false_iff_ne]

theorem defined_sub_iff :
    Defined (sub x y) ↔ -2 ^ (w - 1) ≤ x.toInt - y.toInt ∧ x.toInt - y.toInt < 2 ^ (w - 1) := by
  rw [sub, defined_checked_iff, BitVec.ssubOverflow, Bool.or_eq_false_iff, decide_eq_false_iff_not,
    decide_eq_false_iff_not]
  omega

theorem sub_eq (hlow : -2 ^ (w - 1) ≤ x.toInt - y.toInt) (hhigh : x.toInt - y.toInt < 2 ^ (w - 1)) :
    sub x y = .ok (x - y) := by
  obtain ⟨a, ha⟩ := defined_sub_iff.mpr ⟨hlow, hhigh⟩
  rw [ha, (checked_eq_ok_iff.mp ha).2]

theorem defined_mul_iff :
    Defined (mul x y) ↔ -2 ^ (w - 1) ≤ x.toInt * y.toInt ∧ x.toInt * y.toInt < 2 ^ (w - 1) := by
  rw [mul, defined_checked_iff, BitVec.smulOverflow, Bool.or_eq_false_iff, decide_eq_false_iff_not,
    decide_eq_false_iff_not]
  omega

theorem toInt_ofNat_of_lt {n : ℕ} (hn : 2 * n < 2 ^ w) : (BitVec.ofNat w n).toInt = n := by
  have hnat : (BitVec.ofNat w n).toNat = n :=
    (BitVec.toNat_ofNat n w).trans (Nat.mod_eq_of_lt (by omega))
  rw [BitVec.toInt_eq_toNat_of_lt (by omega), hnat]

/-- A shift of 1 by less than the width is defined. -/
theorem shl_one (hw : 2 ≤ w) {n : ℕ} (hn : n < w) :
    shl (1 : BitVec w) n = .ok ((1 : BitVec w) <<< n) := by
  have hone : (1 : BitVec w).toNat = 1 :=
    (BitVec.toNat_ofNat 1 w).trans (Nat.mod_eq_of_lt (Nat.one_lt_two_pow (by omega)))
  have hpow : 2 ^ n < 2 ^ w := Nat.pow_lt_pow_right (by decide) hn
  have hfour : 2 ^ 2 ≤ 2 ^ w := Nat.pow_le_pow_right (by decide) hw
  have hint : (1 : BitVec w).toInt = 1 := toInt_ofNat_of_lt (n := 1) (by omega)
  rw [shl, if_neg (by omega), checked_eq_ok_iff, decide_eq_false_iff_not, hone, one_mul]
  exact ⟨by omega, rfl⟩

end Signed

end Foundation
