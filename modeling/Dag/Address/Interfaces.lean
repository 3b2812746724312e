import Dag.Address.Text
import Mathlib.Algebra.Order.Group.Nat
import Mathlib.Data.Nat.Factorization.Basic
import Mathlib.Order.Interval.Finset.Nat

/-!
# The addresses of the interfaces

`Address::GetInterfaceAddresses` goes through what `getifaddrs` reports, takes the IPv4 addresses, and
counts the bits of their netmasks with `CountBytes`, which removes the lowest bit until there is none.
For a netmask as `subnetMask` makes it that is the length of the prefix.

`getifaddrs` also reports interfaces without an address, by a null pointer in `ifa_addr`, which is
read through before anything else.

## Main definitions

* `countBytes`: the loop
* `Addresses.getInterfaceAddresses`, `Addresses.getInterfaceAddressesOf`: the functions, for all
  interfaces and for one

## Main results

* `countBytes_eq`: the loop counts the bits
* `countBytes_subnetMask`: the bits of a netmask are as many as its prefix is long
* `Addresses.getInterfaceAddressesOf_eq`: an interface is reported with its addresses and prefixes,
  unless there is one without an address
-/

namespace Dag

open Foundation

/-! ## Counting bits -/

/-- The lowest bit of a number: without it, there are the others. -/
theorem exists_lowest_bit {v : ℕ} (hv : v ≠ 0) : ∃ k, v.testBit k = true ∧
    ∀ j, (v &&& (v - 1)).testBit j = (v.testBit j && decide (j ≠ k)) := by
  obtain ⟨k, m, ⟨m, rfl⟩, rfl⟩ := Nat.exists_eq_two_pow_mul_odd hv
  have hpos : 0 < 2 ^ k := Nat.two_pow_pos k
  have hlt : 2 ^ k < 2 ^ (k + 1) := Nat.pow_lt_pow_succ (by decide)
  have hv : 2 ^ k * (2 * m + 1) = 2 ^ (k + 1) * m + 2 ^ k := by ring
  have hpred : 2 ^ k * (2 * m + 1) - 1 = 2 ^ (k + 1) * m + (2 ^ k - 1) := by omega
  have hbits : ∀ j, (2 ^ k * (2 * m + 1)).testBit j =
      if j < k + 1 then decide (k = j) else m.testBit (j - (k + 1)) := by
    intro j
    rw [hv, Nat.testBit_two_pow_mul_add m hlt, Nat.testBit_two_pow]
  refine ⟨k, ?_, ?_⟩
  · rw [hbits, if_pos (Nat.lt_succ_self k), decide_eq_true rfl]
  · intro j
    rw [Nat.testBit_and, hpred, Nat.testBit_two_pow_mul_add m (by omega), hbits,
      Nat.testBit_two_pow_sub_one]
    by_cases hj : j < k + 1
    · simp only [if_pos hj]
      by_cases hjk : j = k
      · simp [hjk]
      · simp [Ne.symm hjk]
    · have hne : j ≠ k := by omega
      simp [hj, hne]

section Bits

variable {w : ℕ} {value : BitVec w}

theorem toNat_sub_one (h : value ≠ 0) : (value - 1).toNat = value.toNat - 1 := by
  have hw : 0 < w := by
    rw [Nat.pos_iff_ne_zero]
    rintro rfl
    exact h BitVec.of_length_zero
  have hpos : value.toNat ≠ 0 := fun hzero => h (BitVec.eq_of_toNat_eq hzero)
  have hone : (1 : BitVec w).toNat = 1 := BitVec.toNat_one hw
  rw [BitVec.toNat_sub_of_le, hone]
  rw [BitVec.le_def, hone]
  omega

theorem toNat_and_sub_one_lt (h : value ≠ 0) : (value &&& (value - 1)).toNat < value.toNat := by
  have hpos : value.toNat ≠ 0 := fun hzero => h (BitVec.eq_of_toNat_eq hzero)
  have hle : (value &&& (value - 1)).toNat ≤ value.toNat - 1 := by
    rw [BitVec.toNat_and, toNat_sub_one h]
    exact Nat.and_le_right
  omega

end Bits

/-- `CountBytes(value)`, from `result` on. -/
def countBytes {w : ℕ} (value : BitVec w) (result : BitVec 32) : BitVec 32 :=
  if value = 0 then result else countBytes (value &&& (value - 1)) (result + 1)
termination_by value.toNat
decreasing_by exact toNat_and_sub_one_lt ‹_›

/-- The bits of a number. -/
def bitsOf {w : ℕ} (v : BitVec w) : Finset ℕ := {i ∈ Finset.range w | v.getLsbD i}

section Count

variable {w : ℕ} {v : BitVec w} {i : ℕ}

@[simp] theorem mem_bitsOf : i ∈ bitsOf v ↔ v.getLsbD i = true := by
  rw [bitsOf, Finset.mem_filter, Finset.mem_range]
  exact and_iff_right_of_imp BitVec.lt_of_getLsbD

/-- A round of the loop takes one bit away. -/
theorem card_bitsOf_and_sub_one (h : v ≠ 0) :
    (bitsOf (v &&& (v - 1))).card + 1 = (bitsOf v).card := by
  have hpos : v.toNat ≠ 0 := fun hzero => h (BitVec.eq_of_toNat_eq hzero)
  obtain ⟨k, hk, hbits⟩ := exists_lowest_bit hpos
  have herase : bitsOf (v &&& (v - 1)) = (bitsOf v).erase k := by
    ext i
    rw [Finset.mem_erase, mem_bitsOf, mem_bitsOf, ← BitVec.testBit_toNat, BitVec.toNat_and,
      toNat_sub_one h, hbits, BitVec.testBit_toNat, Bool.and_eq_true, decide_eq_true_iff, and_comm]
  rw [herase]
  apply Finset.card_erase_add_one
  rw [mem_bitsOf, ← BitVec.testBit_toNat]
  exact hk

/-- **The loop counts the bits.** -/
theorem countBytes_eq (v : BitVec w) (result : BitVec 32) :
    countBytes v result = result + BitVec.ofNat 32 (bitsOf v).card := by
  induction v, result using countBytes.induct with
  | case1 result =>
    have hnone : bitsOf (0 : BitVec w) = ∅ := by
      ext i
      simp
    rw [countBytes, if_pos rfl, hnone]
    simp
  | case2 v result hv ih =>
    rw [countBytes, if_neg hv, ih, ← card_bitsOf_and_sub_one hv, Nat.add_comm,
      BitVec.ofNat_add, ← BitVec.add_assoc]
    rfl

theorem bitsOf_not (v : BitVec w) : bitsOf (~~~v) = Finset.range w \ bitsOf v := by
  ext i
  rw [Finset.mem_sdiff, mem_bitsOf, mem_bitsOf, Finset.mem_range, BitVec.getLsbD_not]
  simp

/-- Swapping the bytes moves the bits. -/
theorem card_bitsOf_byteswap {n : ℕ} (v : BitVec (8 * n)) :
    (bitsOf (byteswap v)).card = (bitsOf v).card := by
  have hmoved : ∀ u : BitVec (8 * n), ∀ i ∈ bitsOf u,
      8 * (n - 1 - i / 8) + i % 8 ∈ bitsOf (byteswap u) := by
    intro u i hi
    rw [mem_bitsOf] at hi ⊢
    have hlt := BitVec.lt_of_getLsbD hi
    have hback : 8 * (n - 1 - (n - 1 - i / 8)) + i % 8 = i := by omega
    rw [getLsbD_byteswap u (by omega) (Nat.mod_lt _ (by decide)), hback]
    exact hi
  have htwice : ∀ u : BitVec (8 * n), ∀ i ∈ bitsOf u,
      8 * (n - 1 - (8 * (n - 1 - i / 8) + i % 8) / 8) + (8 * (n - 1 - i / 8) + i % 8) % 8 = i := by
    intro u i hi
    rw [mem_bitsOf] at hi
    have hlt := BitVec.lt_of_getLsbD hi
    omega
  refine Finset.card_bij' (fun i _ => 8 * (n - 1 - i / 8) + i % 8)
    (fun i _ => 8 * (n - 1 - i / 8) + i % 8) ?_ ?_ (htwice _) (htwice _)
  · intro i hi
    have hmem := hmoved _ i hi
    rwa [byteswap_byteswap] at hmem
  · exact hmoved v

theorem card_bitsOf_network (host : Endian) {n : ℕ} (v : BitVec (8 * n)) :
    (bitsOf (byteswapOnLittleEndian host v)).card = (bitsOf v).card := by
  cases host with
  | little => exact card_bitsOf_byteswap v
  | big => rfl

theorem bitsOf_lowBits {k : ℕ} (hk : k < 32) : bitsOf (lowBits k) = Finset.range k := by
  ext i
  rw [mem_bitsOf, getLsbD_lowBits hk, decide_eq_true_iff, Finset.mem_range]

end Count

/-- **The prefix is counted**: a netmask that `subnetMask` has made has as many bits as its prefix is
long. -/
theorem countBytes_subnetMask {host : Endian} {p : BitVec 32} {m : IPv4Address}
    (hle : p.toNat ≤ 32) (hm : IPv4Address.subnetMask host p = .ok m) : countBytes m.s_addr 0 = p := by
  have htwo := IPv4Address.two_le_of_subnetMask host hle hm
  rw [IPv4Address.subnetMask_eq host htwo hle] at hm
  obtain rfl := Except.ok.inj hm
  have hcard : (bitsOf (IPv4Address.netMask host p)).card = 32 - p.toNat := by
    rw [IPv4Address.netMask, card_bitsOf_network host (n := 4), bitsOf_lowBits (by omega),
      Finset.card_range]
  have hsub : bitsOf (IPv4Address.netMask host p) ⊆ Finset.range 32 := Finset.filter_subset _ _
  rw [countBytes_eq, bitsOf_not, Finset.card_sdiff_of_subset hsub, hcard, Finset.card_range]
  have hzero : (0 : BitVec 32).toNat = 0 := rfl
  apply BitVec.eq_of_toNat_eq
  simp only [BitVec.toNat_add, BitVec.toNat_ofNat, hzero]
  omega

/-! ## The interfaces -/

/-- An entry of `getifaddrs`; a pointer may be null. -/
structure IfAddrs where
  ifa_name : Text
  ifa_addr : Option Sockaddr
  ifa_netmask : Option Sockaddr
  deriving DecidableEq, Repr

namespace Addresses

/-- An address, and the length of its prefix. -/
abbrev Prefixed := Option Created × BitVec 32

/-- What one entry adds to the result; `none` is undefined, a null pointer is read through. -/
def ofEntry (family : ℤ) (next : IfAddrs) : Option (List (Text × Prefixed)) :=
  match next.ifa_addr with
  | none => none
  | some addr =>
    if family ≠ AF_UNSPEC ∧ family ≠ addr.sin_family.toNat then some []
    else if addr.sin_family = IPv4Address.AF_INET then
      next.ifa_netmask.map fun netmask =>
        [(next.ifa_name, create (some addr), countBytes netmask.s_addr 0)]
    else some []

/-- `GetInterfaceAddresses(result, family)`; `getifaddrs` may fail. A multimap is the list of its
pairs as they have been inserted. -/
def getInterfaceAddresses (getifaddrs : Option (List IfAddrs)) (result : List (Text × Prefixed))
    (family : ℤ) : Option (Bool × List (Text × Prefixed)) :=
  match getifaddrs with
  | none => some (false, result)
  | some results => do
    let added ← results.mapM (ofEntry family)
    let result := result ++ added.flatten
    return (!result.isEmpty, result)

/-- `GetInterfaceAddresses(result, iface, family)`. -/
def getInterfaceAddressesOf (host : Endian) (getifaddrs : Option (List IfAddrs))
    (result : List Prefixed) (iface : Text) (family : ℤ) : Option (Bool × List Prefixed) :=
  if iface = [] ∨ iface = ['*'] then
    let any : Prefixed := (some (.ipv4 (IPv4Address.construct host 0 0)), 0)
    if family = IPv4Address.AF_INET.toNat ∨ family = AF_UNSPEC then some (true, result ++ [any])
    else some (true, result)
  else do
    let (found, results) ← getInterfaceAddresses getifaddrs [] family
    if found then
      -- the range of the equal keys, in the order in which they have been inserted
      let result := result ++ (results.filter (·.1 = iface)).map Prod.snd
      return (!result.isEmpty, result)
    else return (false, result)

/-- The family is one for which IPv4 addresses are taken. -/
def TakesIPv4 (family : ℤ) : Prop := family = IPv4Address.AF_INET.toNat ∨ family = AF_UNSPEC

instance : DecidablePred TakesIPv4 := fun _ => inferInstanceAs (Decidable (_ ∨ _))

/-- An entry of `getifaddrs` as a system reports it: an IPv4 address with the netmask of its prefix,
an address of another family, or an interface without an address. -/
inductive Entry
  | ipv4 (name : Text) (address : Sockaddr) (p : BitVec 32)
  | other (name : Text) (address : Sockaddr) (netmask : Option Sockaddr)
  | unassigned (name : Text)
  deriving DecidableEq, Repr

namespace Entry

/-- The families are these, and the prefix is one that has a netmask. -/
def Proper : Entry → Prop
  | ipv4 _ address p =>
    address.sin_family = IPv4Address.AF_INET ∧ 2 ≤ p.toNat ∧ p.toNat ≤ 32
  | other _ address _ => address.sin_family ≠ IPv4Address.AF_INET
  | unassigned _ => True

/-- There is an address. -/
def hasAddress : Entry → Bool
  | unassigned _ => false
  | _ => true

/-- The netmask is that of `subnetMask`. -/
def netmask (host : Endian) (p : BitVec 32) : Sockaddr :=
  match IPv4Address.subnetMask host p with
  | .ok m => ⟨m, 0⟩
  | .error _ => ⟨⟨0, 0, 0⟩, 0⟩

def toIfAddrs (host : Endian) : Entry → IfAddrs
  | ipv4 name address p => ⟨name, some address, some (netmask host p)⟩
  | other name address netmask => ⟨name, some address, netmask⟩
  | unassigned name => ⟨name, none, none⟩

/-- What is to be reported of interface `iface` for a family: an IPv4 address of it, with the
prefix. -/
def reported (family : ℤ) (iface : Text) : Entry → Option Prefixed
  | ipv4 name address p =>
    if TakesIPv4 family ∧ name = iface then some (some (.ipv4 address.toIPv4Address), p) else none
  | _ => none

end Entry

section Reported

variable {host : Endian} {family : ℤ} {entry : Entry} {entries : List Entry} {iface : Text}

theorem countBytes_netmask {p : BitVec 32} (htwo : 2 ≤ p.toNat) (hle : p.toNat ≤ 32) :
    countBytes (Entry.netmask host p).s_addr 0 = p := by
  have hm := IPv4Address.subnetMask_eq host htwo hle
  rw [Entry.netmask, hm]
  exact countBytes_subnetMask hle hm

/-- The pairs that the entry adds to the multimap. -/
def pairsOf (family : ℤ) : Entry → List (Text × Prefixed)
  | .ipv4 name address p =>
    if TakesIPv4 family then [(name, some (.ipv4 address.toIPv4Address), p)] else []
  | _ => []

theorem ofEntry_eq (hproper : entry.Proper) (haddress : entry.hasAddress = true) :
    ofEntry family (entry.toIfAddrs host) = some (pairsOf family entry) := by
  cases entry with
  | ipv4 name address p =>
    obtain ⟨hinet, htwo, hle⟩ := hproper
    simp only [ofEntry, Entry.toIfAddrs, pairsOf, hinet]
    by_cases hfamily : TakesIPv4 family
    · have hpass : ¬ (family ≠ AF_UNSPEC ∧ family ≠ IPv4Address.AF_INET.toNat) :=
        fun hne => hfamily.elim hne.2 hne.1
      simp only [if_neg hpass, if_true, Option.map_some, create_of_inet hinet,
        countBytes_netmask htwo hle, if_pos hfamily]
    · have hskip : family ≠ AF_UNSPEC ∧ family ≠ IPv4Address.AF_INET.toNat :=
        ⟨fun h => hfamily (.inr h), fun h => hfamily (.inl h)⟩
      rw [if_pos hskip, if_neg hfamily]
  | other name address netmask =>
    simp only [ofEntry, Entry.toIfAddrs, if_neg hproper, ite_self, pairsOf]
  | unassigned name => cases haddress

theorem filter_pairsOf (entries : List Entry) :
    ((entries.map (pairsOf family)).flatten.filter (·.1 = iface)).map Prod.snd =
      entries.filterMap (Entry.reported family iface) := by
  induction entries with
  | nil => rfl
  | cons entry entries ih =>
    rw [List.map_cons, List.flatten_cons, List.filter_append, List.map_append, ih]
    cases entry with
    | ipv4 name address p =>
      by_cases hfamily : TakesIPv4 family
      · by_cases hname : name = iface
        · simp [pairsOf, Entry.reported, hfamily, hname]
        · simp [pairsOf, Entry.reported, hfamily, hname]
      · simp [pairsOf, Entry.reported, hfamily]
    | other name address netmask => rfl
    | unassigned name => rfl

/-- The loop goes to its end, unless it comes to an interface without an address. -/
theorem mapM_ofEntry (hproper : ∀ entry ∈ entries, entry.Proper) :
    (entries.map (Entry.toIfAddrs host)).mapM (ofEntry family) =
      if entries.all Entry.hasAddress then some (entries.map (pairsOf family)) else none := by
  induction entries with
  | nil => rfl
  | cons entry entries ih =>
    have hrest := ih fun e he => hproper e (List.mem_cons_of_mem _ he)
    rw [List.map_cons, List.mapM_cons, hrest, List.all_cons]
    by_cases haddress : entry.hasAddress = true
    · rw [ofEntry_eq (hproper entry List.mem_cons_self) haddress, haddress, Bool.true_and]
      split_ifs <;> rfl
    · obtain ⟨name, rfl⟩ : ∃ name, entry = .unassigned name := by
        cases entry with
        | unassigned name => exact ⟨name, rfl⟩
        | _ => exact absurd rfl haddress
      rfl

/-- **The addresses of an interface** are reported with the lengths of their prefixes, in the order
of `getifaddrs`, if the family takes IPv4 addresses, and nothing is reported of other interfaces and
other families. If some interface has no address, a null pointer is read through. -/
theorem getInterfaceAddressesOf_eq (hproper : ∀ entry ∈ entries, entry.Proper)
    (hempty : iface ≠ []) (hany : iface ≠ ['*']) :
    getInterfaceAddressesOf host (some (entries.map (Entry.toIfAddrs host))) [] iface family =
      if entries.all Entry.hasAddress then
        some (!(entries.filterMap (Entry.reported family iface)).isEmpty,
          entries.filterMap (Entry.reported family iface))
      else none := by
  have hall : getInterfaceAddresses (some (entries.map (Entry.toIfAddrs host))) [] family =
      if entries.all Entry.hasAddress then
        some (!(entries.map (pairsOf family)).flatten.isEmpty, (entries.map (pairsOf family)).flatten)
      else none := by
    rw [getInterfaceAddresses, mapM_ofEntry hproper]
    split_ifs <;> rfl
  have hreported :
      ((entries.map (pairsOf family)).flatten.filter (·.1 = iface)).map Prod.snd =
        entries.filterMap (Entry.reported family iface) := filter_pairsOf entries
  rw [getInterfaceAddressesOf, if_neg (not_or_intro hempty hany), hall]
  split_ifs with haddress
  · by_cases hnone : (entries.map (pairsOf family)).flatten = []
    · rw [hnone] at hreported ⊢
      rw [← hreported]
      rfl
    · have hfound : (!(entries.map (pairsOf family)).flatten.isEmpty) = true := by
        simpa [List.isEmpty_iff] using hnone
      simp only [hfound, Option.bind_eq_bind, Option.bind_some, if_true, List.nil_append, hreported]
      rfl
  · rfl

/-- Two interfaces, of which one has an address with a prefix of 24 bits; and a third one without an
address. -/
theorem getInterfaceAddressesOf_eq_eth0 :
    getInterfaceAddressesOf .little (some
      [⟨['l', 'o'], some ⟨⟨10, 0, 0⟩, 0⟩, none⟩,
        ⟨['e', 't', 'h', '0'], some ⟨IPv4Address.construct .little 0xC0A80001 0, 0⟩,
          some (Entry.netmask .little 24)⟩]) [] ['e', 't', 'h', '0'] 2 =
      some (true, [(some (.ipv4 (IPv4Address.construct .little 0xC0A80001 0)), 24)]) ∧
    getInterfaceAddressesOf .little (some
      [⟨['e', 't', 'h', '0'], some ⟨IPv4Address.construct .little 0xC0A80001 0, 0⟩,
          some (Entry.netmask .little 24)⟩,
        ⟨['t', 'u', 'n', '0'], none, none⟩]) [] ['e', 't', 'h', '0'] 2 = none :=
  ⟨@getInterfaceAddressesOf_eq .little 2
    [.other ['l', 'o'] ⟨⟨10, 0, 0⟩, 0⟩ none,
      .ipv4 ['e', 't', 'h', '0'] ⟨IPv4Address.construct .little 0xC0A80001 0, 0⟩ 24]
    ['e', 't', 'h', '0'] (by simp [Entry.Proper, IPv4Address.AF_INET, IPv4Address.construct])
    (by decide) (by decide),
  @getInterfaceAddressesOf_eq .little 2
    [.ipv4 ['e', 't', 'h', '0'] ⟨IPv4Address.construct .little 0xC0A80001 0, 0⟩ 24,
      .unassigned ['t', 'u', 'n', '0']]
    ['e', 't', 'h', '0'] (by simp [Entry.Proper, IPv4Address.AF_INET, IPv4Address.construct])
    (by decide) (by decide)⟩

end Reported

end Addresses

end Dag
