import Dag.Stream.Transfer

/-!
# What fixed-size transfers return

`Stream::readFixSize` and `Stream::writeFixSize` are loops around `read` and `write`: on a raw
buffer, with an offset into it, or on a byte array, which has a position of its own. Here `read` and
`write` are given by what their calls return, one after the other.

## Main definitions

* `FixSize.finish`, `BufferFixSize.finish`: the loops, up to the return
* `Stream.Form`, `Stream.Form.transfer`: the four functions
* `PartialResults`: what the calls of `read` or `write` may return
* `Stream.Reports`: the returned number says how the transfer has ended

## Main results

* `BufferFixSize.finish_eq`: the offset does not change what is returned
* `FixSize.finish_call`: the transfer is complete, or a call has failed before that
* `Stream.reports_iff`: the lengths for which the returned number says so
-/

namespace Dag

open Foundation

/-! ## On a byte array -/

namespace FixSize

/-- What the loop has yet to do. -/
def toGo (c : FixSize) : ℕ := if c.result = none then c.left.toNat + 1 else 0

theorem toGo_next_lt {c : FixSize} (hc : c.result = none) (len : ℤ) :
    (c.next len).toGo < c.toGo := by
  rw [toGo, toGo, if_pos hc, next]
  split_ifs with hlen hnone hnone
  · cases hnone
  · exact Nat.succ_pos _
  · rw [test] at hnone ⊢
    split_ifs at hnone with hleft
    dsimp only at hleft ⊢
    omega
  · exact Nat.succ_pos _

/-- The loop from its `k`-th pass on, where the calls return `results`: the number that the function
returns, and the calls made until then. -/
def finish (results : ℕ → ℤ) (c : FixSize) (k : ℕ) : ℤ × ℕ :=
  match hc : c.result with
  | some r => (r, k)
  | none => finish results (c.next (results k)) (k + 1)
termination_by c.toGo
decreasing_by exact toGo_next_lt hc _

theorem finish_of_some {results : ℕ → ℤ} {c : FixSize} {r : ℤ} (hc : c.result = some r) (k : ℕ) :
    c.finish results k = (r, k) := by
  rw [finish]
  split
  · next r' hr => rw [Option.some.inj (hc.symm.trans hr)]
  · next hr => cases hc.symm.trans hr

theorem finish_of_none {results : ℕ → ℤ} {c : FixSize} (hc : c.result = none) (k : ℕ) :
    c.finish results k = (c.next (results k)).finish results (k + 1) := by
  rw [finish]
  split
  · next r hr => cases hc.symm.trans hr
  · rfl

end FixSize

/-! ## On a raw buffer -/

/-- A call on a raw buffer under way: it also has the `offset` at which the next byte goes. -/
structure BufferFixSize extends FixSize where
  offset : BitVec 64
  deriving DecidableEq, Repr

namespace BufferFixSize

/-- The call, up to the first test of the loop. -/
def call (length : ℕ) : BufferFixSize := ⟨FixSize.call length, 0⟩

/-- The body of the loop, and the next test, when `read` or `write` has returned `len`. -/
def next (c : BufferFixSize) (len : ℤ) : BufferFixSize :=
  if len ≤ 0 then { c with result := some len }
  else ⟨FixSize.test { c.toFixSize with left := c.left - len }, c.offset + BitVec.ofInt 64 len⟩

theorem toFixSize_next (c : BufferFixSize) (len : ℤ) :
    (c.next len).toFixSize = c.toFixSize.next len := by
  rw [next, FixSize.next]
  split_ifs <;> rfl

/-- The loop from its `k`-th pass on. -/
def finish (results : ℕ → ℤ) (c : BufferFixSize) (k : ℕ) : ℤ × ℕ :=
  match hc : c.result with
  | some r => (r, k)
  | none => finish results (c.next (results k)) (k + 1)
termination_by c.toGo
decreasing_by
  rw [toFixSize_next]
  exact FixSize.toGo_next_lt hc _

/-- **The offset** does not change what is returned. -/
theorem finish_eq (results : ℕ → ℤ) (c : BufferFixSize) (k : ℕ) :
    c.finish results k = c.toFixSize.finish results k := by
  induction c, k using finish.induct results with
  | case1 c k r hc =>
    rw [FixSize.finish_of_some hc, finish]
    split
    · next r' hr => rw [Option.some.inj (hr.symm.trans hc)]
    · next hr => cases hr.symm.trans hc
  | case2 c k hc ih =>
    rw [FixSize.finish_of_none hc, ← toFixSize_next, ← ih, finish]
    split
    · next r hr => cases hr.symm.trans hc
    · rfl

end BufferFixSize

/-! ## The functions -/

namespace Stream

/-- `readFixSize(void* buffer, size_t length)`, where the calls of `read` return `read`. -/
def readFixSizeBuffer (read : ℕ → ℤ) (length : ℕ) : ℤ × ℕ :=
  (BufferFixSize.call length).finish read 0

/-- `readFixSize(ByteArray::ptr ba, size_t length)` -/
def readFixSize (read : ℕ → ℤ) (length : ℕ) : ℤ × ℕ := (FixSize.call length).finish read 0

/-- `writeFixSize(const void* buffer, size_t length)` -/
def writeFixSizeBuffer (write : ℕ → ℤ) (length : ℕ) : ℤ × ℕ :=
  (BufferFixSize.call length).finish write 0

/-- `writeFixSize(ByteArray::ptr ba, size_t length)` -/
def writeFixSize (write : ℕ → ℤ) (length : ℕ) : ℤ × ℕ := (FixSize.call length).finish write 0

/-- The forms of the fixed-size transfers. -/
inductive Form
  | readBuffer
  | readByteArray
  | writeBuffer
  | writeByteArray
  deriving DecidableEq, Repr

/-- The function of each form. -/
def Form.transfer : Form → (ℕ → ℤ) → ℕ → ℤ × ℕ
  | .readBuffer => readFixSizeBuffer
  | .readByteArray => readFixSize
  | .writeBuffer => writeFixSizeBuffer
  | .writeByteArray => writeFixSize

theorem Form.transfer_eq (f : Form) (results : ℕ → ℤ) (length : ℕ) :
    f.transfer results length = (FixSize.call length).finish results 0 := by
  cases f with
  | readBuffer => exact BufferFixSize.finish_eq ..
  | readByteArray => rfl
  | writeBuffer => exact BufferFixSize.finish_eq ..
  | writeByteArray => rfl

end Stream

/-! ## What has been moved -/

/-- The bytes that the first `k` calls have moved. -/
def moved (results : ℕ → ℤ) (k : ℕ) : ℤ := ∑ i ∈ Finset.range k, max 0 (results i)

section Moved

variable {results : ℕ → ℤ} {j k : ℕ}

@[simp] theorem moved_zero : moved results 0 = 0 := rfl

theorem moved_succ : moved results (k + 1) = moved results k + max 0 (results k) :=
  Finset.sum_range_succ ..

theorem moved_mono (h : j ≤ k) : moved results j ≤ moved results k := by
  induction k, h using Nat.le_induction with
  | base => exact le_rfl
  | succ k _ ih =>
    rw [moved_succ]
    omega

end Moved

/-- What the calls return: an `int` each, and while the loop goes on no more than it asks for. -/
structure PartialResults (length : ℕ) where
  result : ℕ → ℤ
  isInt : ∀ k, -2 ^ 31 ≤ result k ∧ result k < 2 ^ 31
  atMost : ∀ k, (∀ i < k, 0 < result i) → moved result k < length →
    result k ≤ length - moved result k

namespace PartialResults

variable {length : ℕ} (p : PartialResults length)

/-- The call `j` is the first one to fail, and there are bytes left. -/
structure FailsAt (j : ℕ) : Prop where
  failed : p.result j ≤ 0
  first : ∀ i < j, 0 < p.result i
  left : moved p.result j < length

/-- All bytes have been moved by `k` calls, none of which has failed. -/
structure CompleteAt (k : ℕ) : Prop where
  all : moved p.result k = length
  positive : ∀ i < k, 0 < p.result i

variable {p}

/-- A transfer that is complete has not failed. -/
theorem CompleteAt.not_failsAt {k j : ℕ} (h : p.CompleteAt k) : ¬ p.FailsAt j := by
  intro hj
  rcases Nat.lt_or_ge j k with hlt | hge
  · have hpos := h.positive j hlt
    have hneg := hj.failed
    omega
  · have hmono : moved p.result k ≤ moved p.result j := moved_mono hge
    have hall := h.all
    have hleft := hj.left
    omega

end PartialResults

/-! ## One pass, and all of them -/

namespace FixSize

variable {length : ℕ} {p : PartialResults length} {k : ℕ} {c : FixSize}

/-- The loop is at its `k`-th pass: no call has failed, and `left` bytes are left. -/
structure Running (p : PartialResults length) (k : ℕ) (c : FixSize) : Prop where
  length_eq : c.length = length
  result_eq : c.result = none
  left_eq : c.left = length - moved p.result k
  left_pos : 0 < c.left
  positive : ∀ i < k, 0 < p.result i

/-- How the loop ends: at the first call that fails, or when there is nothing left. -/
inductive Ended (p : PartialResults length) : ℤ × ℕ → Prop
  | failed {j : ℕ} (h : p.FailsAt j) : Ended p (p.result j, j + 1)
  | complete {k : ℕ} (h : p.CompleteAt k) : Ended p (toInt32 length, k)

/-- One pass. -/
theorem Running.next (h : Running p k c) :
    Running p (k + 1) (c.next (p.result k)) ∨
      ∃ r, (c.next (p.result k)).result = some r ∧ Ended p (r, k + 1) := by
  have hleft := h.left_eq
  have hlast := h.left_pos
  by_cases hlen : p.result k ≤ 0
  · refine Or.inr ⟨p.result k, ?_, .failed ⟨hlen, h.positive, by omega⟩⟩
    rw [FixSize.next, if_pos hlen]
  have hmoved : moved p.result (k + 1) = moved p.result k + p.result k := by
    rw [moved_succ]
    omega
  have hmost := p.atMost k h.positive (by omega)
  have hpositive : ∀ i < k + 1, 0 < p.result i := by
    intro i hi
    rcases Nat.lt_succ_iff_lt_or_eq.mp hi with hlt | rfl
    · exact h.positive i hlt
    · omega
  -- the call leaves something to do, or has moved the last of the bytes
  by_cases hmore : 0 < c.left - p.result k
  · left
    rw [FixSize.next, if_neg hlen, test, if_pos hmore]
    refine ⟨h.length_eq, rfl, ?_, hmore, hpositive⟩
    change c.left - p.result k = _
    omega
  · right
    have hall : moved p.result (k + 1) = length := by omega
    refine ⟨toInt32 length, ?_, .complete ⟨hall, hpositive⟩⟩
    rw [FixSize.next, if_neg hlen, test, if_neg hmore, h.length_eq]

/-- **The loop** ends, with all bytes moved or at the first call that fails. -/
theorem Running.finish (h : Running p k c) : Ended p (c.finish p.result k) := by
  induction c, k using FixSize.finish.induct p.result with
  | case1 c k r hc => cases h.result_eq.symm.trans hc
  | case2 c k hc ih =>
    rw [finish_of_none hc]
    rcases h.next with hrunning | ⟨r, hr, hended⟩
    · exact ih hrunning
    · rw [finish_of_some hr]
      exact hended

/-- A call of any length that `int64_t` can count. -/
theorem finish_call (p : PartialResults length) (hpos : 1 ≤ length) (hlt : length < 2 ^ 63) :
    Ended p ((call length).finish p.result 0) := by
  have hleft : toInt64 length = length := toInt64_of_lt hlt
  apply Running.finish
  have hlen : 0 < (length : ℤ) := Int.natCast_pos.mpr hpos
  rw [call, test, hleft, if_pos hlen]
  refine ⟨rfl, rfl, ?_, hlen, ?_⟩
  · rw [moved_zero, Int.sub_zero]
  · intro i hi
    cases hi

/-- A longer one does nothing: its counter is negative from the start. -/
theorem finish_call_of_le (results : ℕ → ℤ) (hle : 2 ^ 63 ≤ length) (hlt : length < 2 ^ 64) :
    (call length).finish results 0 = (toInt32 length, 0) := by
  have hleft : ¬ 0 < toInt64 length := by
    rw [toInt64, Int.bmod]
    omega
  apply finish_of_some
  rw [call, test, if_neg hleft]

end FixSize

/-! ## What is returned -/

namespace Stream

/-- The number that is returned **says how the transfer has ended**: it is positive just if the
whole length has been moved, and otherwise it is the first result that is not. -/
structure Reports {length : ℕ} (p : PartialResults length) (out : ℤ × ℕ) : Prop where
  pos_iff : 0 < out.1 ↔ moved p.result out.2 = length
  failed : moved p.result out.2 ≠ length →
    ∃ j, out = (p.result j, j + 1) ∧ p.result j ≤ 0 ∧ ∀ i < j, 0 < p.result i

variable {length : ℕ} {p : PartialResults length}

/-- A failed call is reported. -/
theorem reports_of_failsAt {j : ℕ} (h : p.FailsAt j) : Reports p (p.result j, j + 1) := by
  have hfailed := h.failed
  have hleft := h.left
  have hmoved : moved p.result (j + 1) = moved p.result j := by
    rw [moved_succ]
    omega
  constructor
  · dsimp only
    omega
  · intro _
    exact ⟨j, rfl, hfailed, h.first⟩

/-- A transfer that is complete is reported by a positive number only. -/
theorem reports_iff_of_completeAt {k : ℕ} (h : p.CompleteAt k) (r : ℤ) :
    Reports p (r, k) ↔ 0 < r := by
  constructor
  · intro hreports
    exact hreports.pos_iff.mpr h.all
  · intro hr
    refine ⟨iff_of_true hr h.all, ?_⟩
    intro hleft
    exact absurd h.all hleft

/-- **The result codes** of the fixed-size transfers, in each form. The returned number says how the
transfer has ended just if the counter can hold the length, and the length is still positive as an
`int` or is not returned because a call fails before. -/
theorem reports_iff (f : Form) (hpos : 1 ≤ length) (hlt : length < 2 ^ 64)
    (p : PartialResults length) :
    Reports p (f.transfer p.result length) ↔ length < 2 ^ 63 ∧
      ((∃ j, p.FailsAt j) ∨ 0 < length % 2 ^ 32 ∧ length % 2 ^ 32 < 2 ^ 31) := by
  rw [f.transfer_eq, ← toInt32_pos_iff]
  -- whether the counter, an `int64_t`, can hold the length
  rcases Nat.lt_or_ge length (2 ^ 63) with hcount | hover
  · have hended := FixSize.finish_call p hpos hcount
    generalize (FixSize.call length).finish p.result 0 = out at hended ⊢
    cases hended with
    | failed hfails =>
      exact iff_of_true (reports_of_failsAt hfails) ⟨hcount, Or.inl ⟨_, hfails⟩⟩
    | complete hcomplete =>
      rw [reports_iff_of_completeAt hcomplete]
      constructor
      · intro hint
        exact ⟨hcount, Or.inr hint⟩
      · rintro ⟨-, ⟨j, hfails⟩ | hint⟩
        · exact absurd hfails hcomplete.not_failsAt
        · exact hint
  · rw [FixSize.finish_call_of_le p.result hover hlt]
    constructor
    · intro hreports
      obtain ⟨j, hj, -, -⟩ := hreports.failed (by rw [moved_zero]; omega)
      cases congrArg Prod.snd hj
    · rintro ⟨hcount, -⟩
      omega

/-- A call that moves two of three bytes, and one that moves the last. -/
def twoAndOne : PartialResults 3 where
  result k := if k = 0 then 2 else 1
  isInt k := by
    split_ifs <;> simp
  atMost k _ hleft := by
    cases k with
    | zero => simp
    | succ k =>
      simp only [Nat.succ_ne_zero, if_false]
      omega

theorem reports_iff_three : Reports twoAndOne (readFixSize twoAndOne.result 3) :=
  (reports_iff .readByteArray (by decide) (by decide) twoAndOne).mpr ⟨by decide, Or.inr (by decide)⟩

/-- A call that moves as much as an `int` can say, and one that moves the byte that is left. -/
def allButOne : PartialResults (2 ^ 31) where
  result k := if k = 0 then 2147483647 else if k = 1 then 1 else 0
  isInt k := by
    split_ifs <;> simp
  atMost k _ hleft := by
    split_ifs with hzero hone
    · simp [hzero]
    · omega
    · omega

/-- No call moves anything. -/
def closed (length : ℕ) : PartialResults length where
  result _ := 0
  isInt _ := by simp
  atMost _ _ hleft := Int.sub_nonneg_of_le (Int.le_of_lt hleft)

/-- All of `2 ^ 31` bytes are read, and what is returned looks like a failure; none of `2 ^ 63`
bytes are read, without any call. -/
theorem readFixSize_large :
    readFixSizeBuffer allButOne.result (2 ^ 31) = (-2 ^ 31, 2) ∧
    ¬ Reports allButOne (readFixSizeBuffer allButOne.result (2 ^ 31)) ∧
    readFixSizeBuffer (closed (2 ^ 63)).result (2 ^ 63) = (0, 0) ∧
    ¬ Reports (closed (2 ^ 63)) (readFixSizeBuffer (closed (2 ^ 63)).result (2 ^ 63)) := by
  have hread : readFixSizeBuffer allButOne.result (2 ^ 31) = (-2 ^ 31, 2) := by
    rw [readFixSizeBuffer, BufferFixSize.finish_eq, FixSize.finish_of_none (by decide),
      FixSize.finish_of_none (by decide)]
    exact FixSize.finish_of_some (by decide) 2
  have hskip : readFixSizeBuffer (closed (2 ^ 63)).result (2 ^ 63) = (0, 0) := by
    rw [readFixSizeBuffer, BufferFixSize.finish_eq]
    exact FixSize.finish_of_some (by decide) 0
  have hmoved : moved allButOne.result 2 = (2 ^ 31 : ℕ) := by
    simp [moved, Finset.sum_range_succ, allButOne]
  refine ⟨hread, ?_, hskip, ?_⟩
  · rw [hread]
    intro hreports
    exact absurd (hreports.pos_iff.mpr hmoved) (by decide)
  · rw [hskip]
    intro hreports
    obtain ⟨j, hj, -, -⟩ := hreports.failed (by decide)
    cases congrArg Prod.snd hj

end Stream

end Dag
