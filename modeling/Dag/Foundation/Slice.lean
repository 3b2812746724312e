import Mathlib.Data.List.Basic
import Mathlib.Tactic.Common

/-!
# Slices of a list, and lists cut into blocks

A memory is a list of cells. `slice l i n` reads `n` cells from address `i` on, `splice l i d`
overwrites the cells from `i` on by `d`. A memory cut into blocks of one length `b` is a list of
blocks; its cells in order are the blocks' cells one after another, and address `b * i + o` is
the cell `o` of block `i`.

## Main definitions

* `slice l i n`, `splice l i d`: read and overwrite a stretch of a list

## Main results

* `slice_add`, `slice_append_left`, `slice_append_right`: a read in two pieces, and reads of a
  memory in two parts
* `splice_append_left`, `splice_append_right`, `splice_across`: an overwrite of a memory in two
  parts, on one side of the cut or across it
* `take_splice`: an overwrite seen through a prefix
* `splice_splice`: two overwrites in a row
* `length_flatMap_of_uniform`, `flatMap_take_append_drop`: memories cut into blocks
-/

namespace Foundation

variable {α β : Type*}

/-- The `n` cells from address `i` on. -/
def slice (l : List α) (i n : ℕ) : List α := (l.drop i).take n

/-- The list with the cells from address `i` on overwritten by `d`. -/
def splice (l : List α) (i : ℕ) (d : List α) : List α := l.take i ++ d ++ l.drop (i + d.length)

/-! ## Reads -/

theorem slice_add (l : List α) (i m n : ℕ) :
    slice l i (m + n) = slice l i m ++ slice l (i + m) n := by
  simp [slice, List.take_add, List.drop_drop]

theorem length_slice {l : List α} {i n : ℕ} (h : i + n ≤ l.length) : (slice l i n).length = n := by
  simp [slice]; omega

/-- The start of a read. -/
theorem take_slice {l : List α} {i k n : ℕ} (h : k ≤ n) : (slice l i n).take k = slice l i k := by
  rw [slice, List.take_take, Nat.min_eq_left h, slice]

theorem slice_append_left {l : List α} {i n : ℕ} (h : i + n ≤ l.length) (k : List α) :
    slice (l ++ k) i n = slice l i n := by
  unfold slice
  rw [List.drop_append_of_le_length (by omega), List.take_append_of_le_length (by simp; omega)]

theorem slice_append_right (l k : List α) (i n : ℕ) :
    slice (l ++ k) (l.length + i) n = slice k i n := by
  unfold slice
  rw [List.drop_append, List.drop_eq_nil_of_le (Nat.le_add_right ..)]
  simp

/-- A read across the cut of a memory in two parts. -/
theorem slice_across {l : List α} {i n : ℕ} (hi : i ≤ l.length) (hn : l.length ≤ i + n)
    (k : List α) :
    slice (l ++ k) i n = slice l i (l.length - i) ++ slice k 0 (n - (l.length - i)) := by
  obtain ⟨m, rfl⟩ : ∃ m, n = (l.length - i) + m := ⟨n - (l.length - i), by omega⟩
  rw [slice_add, slice_append_left (by omega), show i + (l.length - i) = l.length + 0 by omega,
    slice_append_right]
  simp

theorem slice_take {l : List α} {i n s : ℕ} (h : i + n ≤ s) :
    slice (l.take s) i n = slice l i n := by
  unfold slice
  rw [List.drop_take, List.take_take, Nat.min_eq_left (by omega)]

/-- A read of what starts at `i` with `d`. -/
theorem slice_of_prefix {l d : List α} {i : ℕ} (h : d <+: l.drop i) : slice l i d.length = d := by
  obtain ⟨k, hk⟩ := h
  rw [slice, ← hk, List.take_left]

/-! ## Overwrites -/

theorem length_splice {l d : List α} {i : ℕ} (h : i + d.length ≤ l.length) :
    (splice l i d).length = l.length := by
  simp [splice]; omega

@[simp] theorem splice_nil (l : List α) (i : ℕ) : splice l i [] = l := by simp [splice]

theorem splice_append_left {l d : List α} {i : ℕ} (h : i + d.length ≤ l.length) (k : List α) :
    splice (l ++ k) i d = splice l i d ++ k := by
  unfold splice
  rw [List.take_append_of_le_length (by omega), List.drop_append_of_le_length (by omega)]
  simp

theorem splice_append_right (l k d : List α) (i : ℕ) :
    splice (l ++ k) (l.length + i) d = l ++ splice k i d := by
  unfold splice
  rw [List.take_append, List.drop_append, List.drop_eq_nil_of_le (by omega),
    List.take_of_length_le (Nat.le_add_right ..)]
  simp [Nat.add_assoc]

/-- An overwrite across the cut of a memory in two parts. -/
theorem splice_across {l d : List α} {i : ℕ} (hi : i ≤ l.length) (hd : l.length ≤ i + d.length)
    (k : List α) :
    splice (l ++ k) i d =
      splice l i (d.take (l.length - i)) ++ splice k 0 (d.drop (l.length - i)) := by
  unfold splice
  have hlen : (d.take (l.length - i)).length = l.length - i := by simp; omega
  rw [List.take_append_of_le_length hi, hlen, List.drop_append,
    List.drop_eq_nil_of_le hd, List.drop_eq_nil_of_le (show l.length ≤ i + (l.length - i) by omega)]
  simp only [List.nil_append, List.append_nil, List.take_zero, List.length_drop, Nat.zero_add,
    List.append_assoc]
  rw [← List.append_assoc (d.take _), List.take_append_drop,
    show i + d.length - l.length = d.length - (l.length - i) by omega]

/-- A cell of an overwritten list. -/
theorem getElem?_splice {l d : List α} {i : ℕ} (hi : i ≤ l.length) (j : ℕ) :
    (splice l i d)[j]? =
      if j < i then l[j]? else if j < i + d.length then d[j - i]? else l[j]? := by
  unfold splice
  rw [List.append_assoc, List.getElem?_append]
  simp only [List.length_take, Nat.min_eq_left hi]
  split_ifs with h₁ h₂
  · rw [List.getElem?_take_of_lt h₁]
  · rw [List.getElem?_append_left (by omega)]
  · rw [List.getElem?_append_right (by omega), List.getElem?_drop]
    congr 1
    omega

/-- **An overwrite seen through a prefix**: of a memory of which only the first `s` cells count,
the overwrite at `i ≤ s` leaves the first `max s (i + d.length)` cells to count, and these do not
depend on the others. -/
theorem take_splice {l d : List α} {i s : ℕ} (hi : i ≤ s) (hs : s ≤ l.length) :
    (splice l i d).take (max s (i + d.length)) = splice (l.take s) i d := by
  -- cell by cell: before `i`, in the overwrite, and behind it
  refine List.ext_getElem? fun j => ?_
  rw [List.getElem?_take, getElem?_splice (Nat.le_trans hi hs),
    getElem?_splice (show i ≤ (l.take s).length by simp; omega), List.getElem?_take]
  split_ifs <;> first | rfl | omega

/-- Two overwrites, the second where the first ends, are one. -/
theorem splice_splice {l : List α} {i : ℕ} (hi : i ≤ l.length) (d e : List α) :
    splice (splice l i d) (i + d.length) e = splice l i (d ++ e) := by
  have hlen : (l.take i ++ d).length = i + d.length := by simp [Nat.min_eq_left hi]
  unfold splice
  rw [List.take_left' hlen, ← hlen, List.drop_append, List.drop_eq_nil_of_le (by omega), hlen,
    List.drop_drop, List.length_append]
  simp only [List.append_assoc, List.nil_append]
  congr 4
  omega

/-! ## Memories cut into blocks -/

section Blocks

variable {f : β → List α} {b : ℕ}

theorem length_flatMap_of_uniform :
    ∀ {bs : List β}, (∀ x ∈ bs, (f x).length = b) → (bs.flatMap f).length = b * bs.length := by
  intro bs
  induction bs with
  | nil => simp
  | cons x bs ih =>
    intro h
    rw [List.flatMap_cons, List.length_append, h x (by simp),
      ih fun y hy => h y (List.mem_cons_of_mem _ hy), List.length_cons, Nat.mul_succ, Nat.add_comm]

/-- The cells before block `i`, and those from block `i` on. -/
theorem flatMap_take_append_drop (bs : List β) (i : ℕ) :
    (bs.take i).flatMap f ++ (bs.drop i).flatMap f = bs.flatMap f := by
  rw [← List.flatMap_append, List.take_append_drop]

theorem length_flatMap_take {bs : List β} (h : ∀ x ∈ bs, (f x).length = b) {i : ℕ}
    (hi : i ≤ bs.length) : ((bs.take i).flatMap f).length = b * i := by
  rw [length_flatMap_of_uniform fun x hx => h x (List.mem_of_mem_take hx), List.length_take,
    Nat.min_eq_left hi]

/-- A read from cell `o` of block `i` on reads the blocks from `i` on. -/
theorem slice_flatMap {bs : List β} (h : ∀ x ∈ bs, (f x).length = b) {i : ℕ}
    (hi : i ≤ bs.length) (o n : ℕ) :
    slice (bs.flatMap f) (b * i + o) n = slice ((bs.drop i).flatMap f) o n := by
  rw [← flatMap_take_append_drop bs i, ← length_flatMap_take h hi, slice_append_right]

/-- An overwrite from cell `o` of block `i` on overwrites the blocks from `i` on. -/
theorem splice_flatMap {bs : List β} (h : ∀ x ∈ bs, (f x).length = b) {i : ℕ}
    (hi : i ≤ bs.length) (o : ℕ) (d : List α) :
    splice (bs.flatMap f) (b * i + o) d =
      (bs.take i).flatMap f ++ splice ((bs.drop i).flatMap f) o d := by
  rw [← flatMap_take_append_drop bs i, ← length_flatMap_take h hi, splice_append_right]

end Blocks

end Foundation
