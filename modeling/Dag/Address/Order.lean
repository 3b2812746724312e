import Dag.Address.Text

/-!
# The order of addresses

`Address::operator<` compares the memory of two `sockaddr`s with `memcmp`, as far as both go, and
their lengths then; `operator==` compares the lengths and the memory. The numbers in a `sockaddr_in`
are in network order, with the first byte the highest one, and that makes the order of the memory the
order of the numbers on every host.

## Main definitions

* `memcmp`, `Addresses.less`, `Addresses.equal`: the functions, on the bytes of the addresses
* `Sockaddr.getAddr`: the bytes of a `sockaddr_in`

## Main results

* `Addresses.less_iff`: `operator<` is the lexicographic order of the bytes
* `Addresses.ordered`: one of two addresses is less, or they are equal
* `Addresses.ipv4_ordered`: addresses of one family are ordered by their ports, and their numbers
-/

namespace Dag

open Foundation

/-! ## Bytes in the order of the network -/

section Lexicographic

variable {xs ys s t : List UInt8} {n v u : ℕ}

/-- Lists of one length decide, and what is behind them only when they are equal. -/
theorem append_lt_append_iff (h : xs.length = ys.length) :
    xs ++ s < ys ++ t ↔ xs < ys ∨ xs = ys ∧ s < t := by
  induction xs generalizing ys with
  | nil =>
    obtain rfl := List.eq_nil_of_length_eq_zero h.symm
    simp [List.lt_irrefl]
  | cons x xs ih =>
    obtain ⟨y, ys, rfl⟩ := List.exists_cons_of_length_eq_add_one h.symm
    rw [List.cons_append, List.cons_append, List.cons_lt_cons_iff, List.cons_lt_cons_iff,
      ih (Nat.succ.inj h), List.cons.injEq]
    constructor
    · rintro (hlt | ⟨rfl, hlt | ⟨rfl, hlt⟩⟩)
      · exact .inl (.inl hlt)
      · exact .inl (.inr ⟨rfl, hlt⟩)
      · exact .inr ⟨⟨rfl, rfl⟩, hlt⟩
    · rintro ((hlt | ⟨rfl, hlt⟩) | ⟨⟨rfl, rfl⟩, hlt⟩)
      · exact .inl hlt
      · exact .inr ⟨rfl, .inl hlt⟩
      · exact .inr ⟨rfl, .inr ⟨rfl, hlt⟩⟩

theorem image_big_succ (n v : ℕ) :
    Endian.big.image (n + 1) v = Endian.big.image n (v / 256) ++ [UInt8.ofNat v] := by
  rw [Endian.image, leBytes, List.reverse_cons]
  rfl

theorem image_inj (e : Endian) (hv : v < 256 ^ n) (hu : u < 256 ^ n) :
    e.image n v = e.image n u ↔ v = u := by
  constructor
  · intro h
    have hvalue := congrArg e.value h
    rwa [value_image, value_image, Nat.mod_eq_of_lt hv, Nat.mod_eq_of_lt hu] at hvalue
  · rintro rfl
    rfl

/-- The bytes of a number, the highest one first, are ordered as the numbers are. -/
theorem image_big_lt_iff (hv : v < 256 ^ n) (hu : u < 256 ^ n) :
    Endian.big.image n v < Endian.big.image n u ↔ v < u := by
  induction n generalizing v u with
  | zero =>
    rw [pow_zero, Nat.lt_one_iff] at hv hu
    rw [hv, hu]
    exact iff_of_false (List.lt_irrefl _) (Nat.lt_irrefl 0)
  | succ n ih =>
    have hdiv : ∀ {x}, x < 256 ^ (n + 1) → x / 256 < 256 ^ n := by
      intro x hx
      rw [pow_succ] at hx
      exact Nat.div_lt_of_lt_mul (by rwa [Nat.mul_comm])
    have hlast : [UInt8.ofNat v] < [UInt8.ofNat u] ↔ v % 256 < u % 256 := by
      rw [List.cons_lt_cons_iff, UInt8.lt_iff_toNat_lt, UInt8.toNat_ofNat', UInt8.toNat_ofNat']
      simp [List.lt_irrefl]
    rw [image_big_succ, image_big_succ, append_lt_append_iff (by simp only [length_image]),
      ih (hdiv hv) (hdiv hu), image_inj .big (hdiv hv) (hdiv hu), hlast]
    -- the higher bytes decide, and the last one only when they are equal
    omega

end Lexicographic

/-! ## The source -/

/-- `memcmp(s, t, n)`: the difference of the first bytes that differ. -/
def memcmp : List UInt8 → List UInt8 → ℕ → ℤ
  | x :: s, y :: t, n + 1 => if x = y then memcmp s t n else (x.toNat : ℤ) - y.toNat
  | _, _, _ => 0

namespace Addresses

/-- `operator<`, for addresses with these bytes. -/
def less (a b : List UInt8) : Bool :=
  let minlen := min a.length b.length
  let result := memcmp a b minlen
  if result < 0 then true
  else if 0 < result then false
  else if a.length < b.length then true
  else false

/-- `operator==`. -/
def equal (a b : List UInt8) : Bool := a.length = b.length && memcmp a b a.length = 0

end Addresses

/-- `getAddr()`, as many bytes as `getAddrLen()` says. -/
def Sockaddr.getAddr (host : Endian) (a : Sockaddr) : List UInt8 :=
  host.image 2 a.sin_family.toNat ++ (host.image 2 a.sin_port.toNat ++
    (host.image 4 a.s_addr.toNat ++ Endian.big.image 8 a.sin_zero.toNat))

namespace Addresses

/-! ## The order of the bytes -/

section Bytes

variable {a b c s t : List UInt8} {x y : UInt8}

theorem sub_toNat_neg_iff : (x.toNat : ℤ) - y.toNat < 0 ↔ x < y := by
  rw [UInt8.lt_iff_toNat_lt]
  omega

/-- The first bytes decide, if they differ. -/
theorem less_cons : less (x :: s) (y :: t) = true ↔ x < y ∨ x = y ∧ less s t = true := by
  have hmin : min (x :: s).length (y :: t).length = min s.length t.length + 1 :=
    Nat.succ_min_succ ..
  by_cases hxy : x = y
  · subst hxy
    have hirrefl : ¬ x < x := UInt8.lt_irrefl x
    have hmemcmp : memcmp (x :: s) (x :: t) (min (x :: s).length (x :: t).length) =
        memcmp s t (min s.length t.length) := by
      rw [hmin, memcmp, if_pos rfl]
    rw [less, hmemcmp]
    simp only [less, List.length_cons, Nat.add_lt_add_iff_right, hirrefl, true_and, false_or]
  · have hne : (x.toNat : ℤ) - y.toNat ≠ 0 := by
      intro h
      apply hxy
      apply UInt8.toNat_inj.mp
      omega
    rw [less, hmin, memcmp, if_neg hxy]
    by_cases hneg : (x.toNat : ℤ) - y.toNat < 0
    · rw [if_pos hneg]
      exact iff_of_true rfl (.inl (sub_toNat_neg_iff.mp hneg))
    · rw [if_neg hneg, if_pos (by omega)]
      simp [hxy, ← sub_toNat_neg_iff, hneg]

/-- **`operator<`** is the lexicographic order of the bytes. -/
theorem less_iff : less a b = true ↔ a < b := by
  induction a generalizing b with
  | nil =>
    cases b with
    | nil => exact iff_of_false (by decide) (List.lt_irrefl _)
    | cons y t => exact iff_of_true (by simp [less, memcmp]) (List.nil_lt_cons y t)
  | cons x s ih =>
    cases b with
    | nil => exact iff_of_false (by simp [less, memcmp]) (List.not_lt_nil _)
    | cons y t => rw [less_cons, ih, List.cons_lt_cons_iff]

theorem memcmp_eq_zero_iff (h : a.length = b.length) : memcmp a b a.length = 0 ↔ a = b := by
  induction a generalizing b with
  | nil =>
    rw [List.eq_nil_of_length_eq_zero h.symm]
    exact iff_of_true rfl rfl
  | cons x s ih =>
    obtain ⟨y, t, rfl⟩ := List.exists_cons_of_length_eq_add_one h.symm
    rw [List.length_cons, memcmp, List.cons.injEq]
    by_cases hxy : x = y
    · rw [if_pos hxy, ih (Nat.succ.inj h)]
      simp [hxy]
    · rw [if_neg hxy]
      refine iff_of_false ?_ fun heq => hxy heq.1
      intro hzero
      apply hxy
      apply UInt8.toNat_inj.mp
      omega

/-- `operator==` compares all bytes. -/
theorem equal_iff : equal a b = true ↔ a = b := by
  rw [equal, Bool.and_eq_true, decide_eq_true_iff, decide_eq_true_iff]
  constructor
  · rintro ⟨hlength, hzero⟩
    exact (memcmp_eq_zero_iff hlength).mp hzero
  · rintro rfl
    exact ⟨rfl, (memcmp_eq_zero_iff rfl).mpr rfl⟩

end Bytes

/-! ## The order of the numbers -/

section Numbers

variable {host : Endian} {a b : Sockaddr}

theorem lt_pow_image {n : ℕ} (v : BitVec (8 * n)) : v.toNat < 256 ^ n := by
  rw [← two_pow_eight_mul]
  exact v.isLt

/-- A number in network order is in memory with the highest byte first, on every host. -/
theorem image_network (host : Endian) {n : ℕ} (v : BitVec (8 * n)) :
    host.image n v.toNat = Endian.big.image n (byteswapOnLittleEndian host v).toNat := by
  cases host with
  | little =>
    have hne : Endian.little ≠ Endian.big := by decide
    rw [byteswapOnLittleEndian, image_byteswap hne]
  | big => rfl

/-- The bytes of an address, of its family and of the numbers in the order of the host. -/
theorem getAddr_eq (host : Endian) (a : Sockaddr) : a.getAddr host =
    host.image 2 a.sin_family.toNat ++ (Endian.big.image 2 (a.getPort host).toNat ++
      (Endian.big.image 4 (a.addr host).toNat ++ Endian.big.image 8 a.sin_zero.toNat)) := by
  rw [Sockaddr.getAddr, image_network host (n := 2) a.sin_port, image_network host (n := 4) a.s_addr]
  rfl

/-- **Addresses of one family** are ordered by their ports, and then by their numbers. -/
theorem ipv4_less_iff (h : a.sin_family = b.sin_family) :
    less (a.getAddr host) (b.getAddr host) = true ↔
      a.getPort host < b.getPort host ∨ a.getPort host = b.getPort host ∧
        (a.addr host < b.addr host ∨ a.addr host = b.addr host ∧ a.sin_zero < b.sin_zero) := by
  have hlt : ∀ {n : ℕ} {v u : BitVec (8 * n)},
      Endian.big.image n v.toNat < Endian.big.image n u.toNat ↔ v < u :=
    fun {n v u} => image_big_lt_iff (lt_pow_image v) (lt_pow_image u)
  have heq : ∀ {n : ℕ} {v u : BitVec (8 * n)},
      Endian.big.image n v.toNat = Endian.big.image n u.toNat ↔ v = u :=
    fun {n v u} => (image_inj .big (lt_pow_image v) (lt_pow_image u)).trans BitVec.toNat_inj
  rw [less_iff, getAddr_eq, getAddr_eq, h, append_lt_append_iff rfl,
    append_lt_append_iff (by simp only [length_image]),
    append_lt_append_iff (by simp only [length_image]), hlt (n := 2), heq (n := 2), hlt (n := 4),
    heq (n := 4), hlt (n := 8)]
  simp [List.lt_irrefl]

/-- **The order of addresses.** `operator<` is a strict total order that goes with `operator==`, and
on the addresses of one family it is the order of the ports, and of the numbers for one port. -/
theorem ordered (host : Endian) :
    (∀ a, less a a = false) ∧
    (∀ a b c, less a b = true → less b c = true → less a c = true) ∧
    (∀ a b, less a b = true ∨ equal a b = true ∨ less b a = true) ∧
    (∀ a b, equal a b = true ↔ a = b) ∧
    ∀ a b : Sockaddr, a.sin_family = b.sin_family →
      (less (a.getAddr host) (b.getAddr host) = true ↔
        a.getPort host < b.getPort host ∨ a.getPort host = b.getPort host ∧
          (a.addr host < b.addr host ∨ a.addr host = b.addr host ∧ a.sin_zero < b.sin_zero)) := by
  refine ⟨?_, ?_, ?_, fun _ _ => equal_iff, fun _ _ => ipv4_less_iff⟩
  · intro a
    rw [Bool.eq_false_iff, ne_eq, less_iff]
    exact List.lt_irrefl a
  · intro a b c
    rw [less_iff, less_iff, less_iff]
    exact List.lt_trans
  · intro a b
    rw [less_iff, equal_iff, less_iff]
    by_contra hnot
    obtain ⟨hab, hne, hba⟩ := by simpa only [not_or] using hnot
    exact hne (List.le_antisymm hba hab)

/-- `10.0.0.1:80` comes before `10.0.0.2:80`, and both before `10.0.0.1:81`. -/
example :
    let a (address : BitVec 32) (port : BitVec 16) : Sockaddr :=
      ⟨IPv4Address.construct .little address port, 0⟩
    less ((a 0x0A000001 80).getAddr .little) ((a 0x0A000002 80).getAddr .little) = true ∧
      less ((a 0x0A000002 80).getAddr .little) ((a 0x0A000001 81).getAddr .little) = true := by
  decide

end Numbers

end Addresses

end Dag
