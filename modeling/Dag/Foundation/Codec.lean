import Mathlib.Algebra.BigOperators.Fin
import Mathlib.Data.Nat.Bitwise
import Mathlib.Algebra.Order.Ring.Nat
import Mathlib.Tactic.Ring

/-!
# Reference encodings of numbers as bytes

The encodings that wire formats are described with, on natural numbers and integers: fixed width
in either byte order, LEB128, and zigzag.

## Main definitions

* `leBytes n v`: the `n` bytes of `v`, least significant first; reversed, the big-endian form
* `leValue`: the number that little-endian bytes stand for
* `leb128 v`: seven bits a byte, least significant first, with bit 7 set on all bytes but the last
* `leb128Value`, `leb128Span`: the number that bytes carry, and where it ends
* `Leb128Taken`: the bytes that a reader takes
* `zigzag`: integers as natural numbers, `0, -1, 1, -2, 2, …`

## Main results

* `leValue_leBytes`, `leBytes_leValue`: fixed width is a bijection
* `testBit_ofNat_div`: the bits of the bytes are those of the number
* `leb128_of_lt`, `leb128_of_ge`: the bytes of LEB128, one by one
* `leb128_read`, `leb128Span_of_strict`: LEB128 is read as the number, and has no end when it is cut
  short
* `leb128_form`, `lt_pow_length_leb128`: the continuation bits, and the number of bytes
-/

namespace Foundation

/-! ## Fixed width -/

/-- The number that bytes stand for, least significant first. -/
def leValue : List UInt8 → ℕ
  | [] => 0
  | b :: bs => b.toNat + 256 * leValue bs

/-- The `n` bytes of `v`, least significant first. -/
def leBytes : ℕ → ℕ → List UInt8
  | 0, _ => []
  | n + 1, v => UInt8.ofNat v :: leBytes n (v / 256)

@[simp] theorem length_leBytes (n v : ℕ) : (leBytes n v).length = n := by
  induction n generalizing v with
  | zero => rfl
  | succ n ih => simp [leBytes, ih]

theorem leValue_leBytes (n v : ℕ) : leValue (leBytes n v) = v % 256 ^ n := by
  induction n generalizing v with
  | zero => simp [leBytes, leValue, Nat.mod_one]
  | succ n ih =>
    have hb : (UInt8.ofNat v).toNat = v % 256 := UInt8.toNat_ofNat'
    rw [leBytes, leValue, ih, hb, pow_succ, Nat.mul_comm _ 256, Nat.mod_mul]

theorem leValue_lt (bs : List UInt8) : leValue bs < 256 ^ bs.length := by
  induction bs with
  | nil => simp [leValue]
  | cons b bs ih =>
    have hb := b.toNat_lt
    rw [leValue, List.length_cons, pow_succ]
    omega

theorem leBytes_leValue (bs : List UInt8) : leBytes bs.length (leValue bs) = bs := by
  induction bs with
  | nil => rfl
  | cons b bs ih =>
    have hb := b.toNat_lt
    have hdiv : (b.toNat + 256 * leValue bs) / 256 = leValue bs := by omega
    rw [List.length_cons, leValue, leBytes, hdiv, ih]
    congr 1
    apply UInt8.toNat_inj.mp
    rw [UInt8.toNat_ofNat']
    omega

theorem getElem?_leBytes {n k : ℕ} (hk : k < n) (v : ℕ) :
    (leBytes n v)[k]? = some (UInt8.ofNat (v / 256 ^ k)) := by
  induction n generalizing k v with
  | zero => cases hk
  | succ n ih =>
    cases k with
    | zero => simp [leBytes]
    | succ k =>
      rw [leBytes, List.getElem?_cons_succ, ih (Nat.lt_of_succ_lt_succ hk), Nat.div_div_eq_div_mul,
        pow_succ, Nat.mul_comm 256]

/-- The bits of a byte are bits of the number. -/
theorem testBit_ofNat_div (v k : ℕ) {j : ℕ} (hj : j < 8) :
    (UInt8.ofNat (v / 256 ^ k)).toNat.testBit j = v.testBit (8 * k + j) := by
  have hbyte : (UInt8.ofNat (v / 256 ^ k)).toNat = v / 2 ^ (8 * k) % 2 ^ 8 := by
    rw [pow_mul]
    rfl
  rw [hbyte, Nat.testBit_mod_two_pow, Nat.testBit_div_two_pow, decide_eq_true hj, Bool.true_and,
    Nat.add_comm j]

/-! ## LEB128 -/

/-- LEB128: seven bits a byte, least significant first, with bit 7 set on all bytes but the
last. -/
def leb128 (v : ℕ) : List UInt8 :=
  if v < 128 then [UInt8.ofNat v] else UInt8.ofNat (v % 128 + 128) :: leb128 (v / 128)
termination_by v
decreasing_by omega

theorem leb128_of_lt {v : ℕ} (h : v < 128) : leb128 v = [UInt8.ofNat v] := by
  rw [leb128, if_pos h]

theorem leb128_of_ge {v : ℕ} (h : 128 ≤ v) :
    leb128 v = UInt8.ofNat (v % 128 + 128) :: leb128 (v / 128) := by
  rw [leb128, if_neg (by omega)]

/-! ### Reading LEB128 -/

/-- The number that bytes carry, seven bits each, least significant first. -/
def leb128Value : List UInt8 → ℕ
  | [] => 0
  | b :: bs => b.toNat % 128 + 128 * leb128Value bs

/-- The number of bytes up to the first one whose bit 7 is clear, looking at no more than `n`;
`none` when the bytes run out before. -/
def leb128Span : (n : ℕ) → List UInt8 → Option ℕ
  | 0, _ => some 0
  | _ + 1, [] => none
  | n + 1, b :: bs => if b < 128 then some 1 else (leb128Span n bs).map (· + 1)

theorem leb128Span_of_lt {n : ℕ} {b : UInt8} {bs : List UInt8} (h : b < 128) :
    leb128Span (n + 1) (b :: bs) = some 1 := if_pos h

theorem leb128Span_of_ge {n : ℕ} {b : UInt8} {bs : List UInt8} (h : ¬ b < 128) :
    leb128Span (n + 1) (b :: bs) = (leb128Span n bs).map (· + 1) := if_neg h

theorem leb128Span_le {n : ℕ} : ∀ {bs : List UInt8} {k : ℕ}, leb128Span n bs = some k →
    k ≤ bs.length ∧ k ≤ n := by
  induction n with
  | zero =>
    intro bs k h
    obtain rfl := Option.some.inj h
    exact ⟨Nat.zero_le _, Nat.le_refl _⟩
  | succ n ih =>
    intro bs k h
    cases bs with
    | nil => cases h
    | cons b bs =>
      by_cases hb : b < 128
      · rw [leb128Span_of_lt hb] at h
        obtain rfl := Option.some.inj h
        exact ⟨by simp, by omega⟩
      · rw [leb128Span_of_ge hb] at h
        obtain ⟨j, hj, rfl⟩ := Option.map_eq_some_iff.mp h
        obtain ⟨hlength, hn⟩ := ih hj
        exact ⟨by simpa using hlength, by omega⟩

theorem leb128Span_pos {n k : ℕ} {bs : List UInt8} (h : leb128Span (n + 1) bs = some k) :
    0 < k := by
  cases bs with
  | nil => cases h
  | cons b bs =>
    by_cases hb : b < 128
    · rw [leb128Span_of_lt hb] at h
      obtain rfl := Option.some.inj h
      exact Nat.one_pos
    · rw [leb128Span_of_ge hb] at h
      obtain ⟨j, -, rfl⟩ := Option.map_eq_some_iff.mp h
      exact Nat.succ_pos j

/-- What follows the bytes does not count. -/
theorem leb128Span_append {n : ℕ} : ∀ {bs : List UInt8} {k : ℕ}, leb128Span n bs = some k →
    ∀ rest, leb128Span n (bs ++ rest) = some k := by
  induction n with
  | zero => exact fun h _ => h
  | succ n ih =>
    intro bs k h rest
    cases bs with
    | nil => cases h
    | cons b bs =>
      rw [List.cons_append]
      by_cases hb : b < 128
      · rw [leb128Span_of_lt hb] at h ⊢
        exact h
      · rw [leb128Span_of_ge hb] at h ⊢
        obtain ⟨j, hj, rfl⟩ := Option.map_eq_some_iff.mp h
        rw [ih hj rest, Option.map_some]

theorem leb128_read_of_lt (n : ℕ) {m : ℕ} (hm : m < 128) :
    leb128Value (leb128 m) = m ∧ leb128Span (n + 1) (leb128 m) = some (leb128 m).length := by
  have hb : (UInt8.ofNat m).toNat = m := by
    rw [UInt8.toNat_ofNat', Nat.mod_eq_of_lt (by omega)]
  rw [leb128_of_lt hm]
  refine ⟨?_, leb128Span_of_lt ?_⟩
  · rw [leb128Value, hb, leb128Value]
    omega
  · rw [UInt8.lt_iff_toNat_lt, hb]
    exact hm

/-- LEB128 carries the number, and its last byte is the first whose bit 7 is clear. -/
theorem leb128_read {n : ℕ} : ∀ {m : ℕ}, m < 128 ^ (n + 1) →
    leb128Value (leb128 m) = m ∧ leb128Span (n + 1) (leb128 m) = some (leb128 m).length := by
  -- on the bytes looked at: a number of that many groups of seven bits ends in time
  induction n with
  | zero =>
    intro m hm
    exact leb128_read_of_lt 0 (by rwa [Nat.zero_add, pow_one] at hm)
  | succ n ih =>
    intro m hm
    rcases Nat.lt_or_ge m 128 with hlast | hmore
    · exact leb128_read_of_lt (n + 1) hlast
    · have hb : (UInt8.ofNat (m % 128 + 128)).toNat = m % 128 + 128 := by
        rw [UInt8.toNat_ofNat', Nat.mod_eq_of_lt (by omega)]
      have hge : ¬ UInt8.ofNat (m % 128 + 128) < 128 := by
        rw [UInt8.lt_iff_toNat_lt, hb, Nat.not_lt]
        exact Nat.le_add_left ..
      obtain ⟨hvalue, hspan⟩ := ih (m := m / 128) (by
        rw [pow_succ] at hm
        exact Nat.div_lt_of_lt_mul (by rwa [Nat.mul_comm] at hm))
      rw [leb128_of_ge hmore]
      constructor
      · rw [leb128Value, hb, hvalue]
        omega
      · rw [leb128Span_of_ge hge, hspan, Option.map_some, List.length_cons]

/-- **Cut short**, LEB128 has no end. -/
theorem leb128Span_of_strict {n m : ℕ} (hm : m < 128 ^ (n + 1)) {bs : List UInt8}
    (hbs : bs <+: leb128 m) (hne : bs ≠ leb128 m) : leb128Span (n + 1) bs = none := by
  obtain ⟨rest, hrest⟩ := hbs
  cases hspan : leb128Span (n + 1) bs with
  | none => rfl
  | some k =>
    have hwhole := leb128Span_append hspan rest
    rw [hrest, (leb128_read hm).2] at hwhole
    have hk := (leb128Span_le hspan).1
    have hlength := congrArg List.length hrest
    rw [List.length_append, Option.some.inj hwhole] at hlength
    have hnil : rest = [] := List.eq_nil_of_length_eq_zero (by omega)
    rw [hnil, List.append_nil] at hrest
    exact absurd hrest hne

/-! ### The form of LEB128 -/

/-- The bytes carry the sum of their seven bits each, shifted by seven for each place. -/
theorem leb128Value_eq_sum (bs : List UInt8) :
    leb128Value bs = ∑ i : Fin bs.length, ((bs.get i).toNat % 128) * 2 ^ (7 * i.val) := by
  induction bs with
  | nil => rfl
  | cons b bs ih =>
    have hshift : 128 * leb128Value bs =
        ∑ i : Fin bs.length, ((bs.get i).toNat % 128) * 2 ^ (7 * (i.val + 1)) := by
      rw [ih, Finset.mul_sum]
      apply Finset.sum_congr rfl
      intro i _
      rw [Nat.mul_add, pow_add]
      ring
    rw [leb128Value, hshift]
    simp [Fin.sum_univ_succ]

/-- The continuation bit is set on all bytes but the last. -/
theorem leb128_form (m : ℕ) : ∃ init last, leb128 m = init ++ [last] ∧
    (∀ b ∈ init, 128 ≤ b) ∧ last < 128 := by
  -- on the number: what is left of it has this form behind the first byte
  induction m using Nat.strong_induction_on with
  | _ m ih =>
    rcases Nat.lt_or_ge m 128 with hlast | hmore
    · refine ⟨[], UInt8.ofNat m, leb128_of_lt hlast, by simp, ?_⟩
      rw [UInt8.lt_iff_toNat_lt, UInt8.toNat_ofNat', Nat.mod_eq_of_lt (by omega)]
      exact hlast
    · obtain ⟨init, last, hform, hinit, hlast⟩ := ih (m / 128) (by omega)
      refine ⟨UInt8.ofNat (m % 128 + 128) :: init, last, ?_, ?_, hlast⟩
      · rw [leb128_of_ge hmore, hform, List.cons_append]
      · intro b hb
        rcases List.mem_cons.mp hb with rfl | hb
        · rw [UInt8.le_iff_toNat_le, UInt8.toNat_ofNat', Nat.mod_eq_of_lt (by omega)]
          exact Nat.le_add_left ..
        · exact hinit b hb

/-- A number of `n + 1` groups of seven bits needs no more bytes. -/
theorem length_leb128_le {n m : ℕ} (hm : m < 128 ^ (n + 1)) : (leb128 m).length ≤ n + 1 :=
  (leb128Span_le (leb128_read hm).2).2

/-- The bytes are as many groups of seven bits as the number has. -/
theorem lt_pow_length_leb128 (m : ℕ) : m < 128 ^ (leb128 m).length := by
  induction m using Nat.strong_induction_on with
  | _ m ih =>
    rcases Nat.lt_or_ge m 128 with hlast | hmore
    · rw [leb128_of_lt hlast]
      simpa using hlast
    · have hlt := ih (m / 128) (by omega)
      rw [leb128_of_ge hmore, List.length_cons, pow_succ]
      omega

/-- What a reader of at most `n` bytes takes: the bytes up to the first one whose bit 7 is clear, or
`n` bytes of which there is none. -/
def Leb128Taken (n : ℕ) (used : List UInt8) : Prop :=
  (used.length ≤ n ∧ ∃ init last, used = init ++ [last] ∧ (∀ b ∈ init, 128 ≤ b) ∧ last < 128) ∨
    (used.length = n ∧ ∀ b ∈ used, 128 ≤ b)

theorem leb128Span_concat {init : List UInt8} {last : UInt8} (hlast : last < 128) :
    ∀ {n : ℕ}, init.length < n → (∀ b ∈ init, 128 ≤ b) →
      leb128Span n (init ++ [last]) = some (init.length + 1) := by
  induction init with
  | nil =>
    intro n hn _
    obtain ⟨n, rfl⟩ := Nat.exists_eq_add_one_of_ne_zero (Nat.ne_of_gt hn)
    exact leb128Span_of_lt hlast
  | cons b init ih =>
    intro n hn hinit
    obtain ⟨n, rfl⟩ := Nat.exists_eq_add_one_of_ne_zero (Nat.ne_zero_of_lt hn)
    obtain ⟨hb, hinit⟩ := List.forall_mem_cons.mp hinit
    rw [List.cons_append, leb128Span_of_ge (UInt8.not_lt.mpr hb), ih (by simpa using hn) hinit,
      Option.map_some, List.length_cons]

theorem leb128Span_of_forall {used : List UInt8} (hused : ∀ b ∈ used, 128 ≤ b) :
    leb128Span used.length used = some used.length := by
  induction used with
  | nil => rfl
  | cons b used ih =>
    obtain ⟨hb, hused⟩ := List.forall_mem_cons.mp hused
    rw [List.length_cons, leb128Span_of_ge (UInt8.not_lt.mpr hb), ih hused, Option.map_some]

/-- What is taken is what `leb128Span` counts, whatever follows. -/
theorem leb128Span_of_taken {n : ℕ} {used bs : List UInt8} (h : Leb128Taken n used)
    (hbs : used <+: bs) : leb128Span n bs = some used.length := by
  obtain ⟨rest, rfl⟩ := hbs
  refine leb128Span_append ?_ rest
  rcases h with ⟨hle, init, last, rfl, hinit, hlast⟩ | ⟨rfl, hused⟩
  · rw [List.length_append, List.length_singleton] at hle ⊢
    exact leb128Span_concat hlast hle hinit
  · exact leb128Span_of_forall hused

/-! ## Zigzag -/

/-- Integers as natural numbers, in the order `0, -1, 1, -2, 2, …`. -/
def zigzag (v : ℤ) : ℕ := if v < 0 then (-2 * v - 1).toNat else (2 * v).toNat

theorem zigzag_of_neg {v : ℤ} (h : v < 0) : (zigzag v : ℤ) = -2 * v - 1 := by
  rw [zigzag, if_pos h]
  omega

theorem zigzag_of_nonneg {v : ℤ} (h : 0 ≤ v) : (zigzag v : ℤ) = 2 * v := by
  rw [zigzag, if_neg (by omega)]
  omega

end Foundation
