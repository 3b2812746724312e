import Dag.ByteArray.Encoding
import Dag.Foundation.Signed

/-!
# Network addresses, broadcast addresses and subnet masks

`IPv4Address` holds a `sockaddr_in`, whose number is in network order. From the length of a prefix
`CreateMask` computes the mask of the other bits, on a signed `int`; the address of the network, the
broadcast address and the subnet mask are computed from this mask, turned into network order.

## Main definitions

* `createMask`, `IPv4Address.broadcastAddress`, `IPv4Address.networdAddress`,
  `IPv4Address.subnetMask`: the functions
* `IPv4Address.NetworkLaw`, `IPv4Address.BroadcastLaw`: how their results go together

## Main results

* `createMask_eq`, `defined_createMask_iff`: the mask, and where it is undefined
* `IPv4Address.addr_networdAddress`: the address of the network is that of the host in it
* `IPv4Address.networkLaw_iff`: the law of network addresses, for one address and one prefix only
* `IPv4Address.broadcastLaw_iff`: the law of broadcast addresses, for the prefixes from 2 on
-/

namespace Dag

open Foundation

/-! ## The mask -/

/-- `CreateMask<uint32_t>(bits)`. The width of the shift is a `size_t`, what is shifted an `int`. -/
def createMask (bits : BitVec 32) : Except Undefined (BitVec 32) := do
  let n : BitVec 64 := 32 - bits.setWidth 64
  let x ← Signed.shl (1 : BitVec 32) n.toNat
  Signed.sub x 1

section Mask

variable {p : BitVec 32}

/-- The lowest `k` of 32 bits. -/
def lowBits (k : ℕ) : BitVec 32 := (1 : BitVec 32) <<< k - 1

theorem toNat_one_shl {k : ℕ} (hk : k < 32) : ((1 : BitVec 32) <<< k).toNat = 2 ^ k := by
  have hlt : 2 ^ k < 2 ^ 32 := Nat.pow_lt_pow_right (by decide) hk
  rw [BitVec.toNat_shiftLeft, Nat.shiftLeft_eq]
  exact (congrArg (· % 2 ^ 32) (Nat.one_mul _)).trans (Nat.mod_eq_of_lt hlt)

theorem getLsbD_lowBits {k : ℕ} (hk : k < 32) (i : ℕ) :
    (lowBits k).getLsbD i = decide (i < k) := by
  have hone : (1 : BitVec 32) ≤ (1 : BitVec 32) <<< k := by
    rw [BitVec.le_def, toNat_one_shl hk]
    exact Nat.two_pow_pos k
  rw [← BitVec.testBit_toNat, lowBits, BitVec.toNat_sub_of_le hone, toNat_one_shl hk]
  exact Nat.testBit_two_pow_sub_one k i

/-- **The mask** of a prefix, where the shift does not reach the sign. -/
theorem createMask_eq (htwo : 2 ≤ p.toNat) (hle : p.toNat ≤ 32) :
    createMask p = .ok (lowBits (32 - p.toNat)) := by
  have hn : (32 - p.setWidth 64 : BitVec 64).toNat = 32 - p.toNat := by
    bv_omega
  have hk : 32 - p.toNat < 32 := by omega
  have hlt : 2 ^ (32 - p.toNat) < 2 ^ 31 := Nat.pow_lt_pow_right (by decide) (by omega)
  have hpos : 0 < 2 ^ (32 - p.toNat) := Nat.two_pow_pos _
  have hint : ((1 : BitVec 32) <<< (32 - p.toNat)).toInt = (2 ^ (32 - p.toNat) : ℕ) := by
    rw [BitVec.toInt_eq_toNat_of_lt, toNat_one_shl hk]
    rw [toNat_one_shl hk]
    omega
  -- the bit is below the sign, so that one less is in the range of `int`
  have hone : (1 : BitVec 32).toInt = 1 := rfl
  have hsub : Signed.sub ((1 : BitVec 32) <<< (32 - p.toNat)) 1 = .ok (lowBits (32 - p.toNat)) := by
    apply Signed.sub_eq
    · rw [hint, hone]
      omega
    · rw [hint, hone]
      omega
  rw [createMask, hn, Signed.shl_one (by decide) hk]
  exact hsub

/-- The mask of the empty prefix takes a shift by the whole width. -/
theorem createMask_zero : createMask 0 = .error .shift := rfl

/-- The mask of a prefix of one bit takes the least `int`, and one less. -/
theorem createMask_one : createMask 1 = .error .overflow := rfl

theorem defined_createMask_iff (hle : p.toNat ≤ 32) : Defined (createMask p) ↔ 2 ≤ p.toNat := by
  constructor
  · intro hdefined
    by_contra htwo
    rcases (by omega : p.toNat = 0 ∨ p.toNat = 1) with hzero | hone
    · rw [BitVec.eq_of_toNat_eq (y := 0) hzero, createMask_zero] at hdefined
      exact not_defined_error _ hdefined
    · rw [BitVec.eq_of_toNat_eq (y := 1) hone, createMask_one] at hdefined
      exact not_defined_error _ hdefined
  · intro htwo
    exact ⟨_, createMask_eq htwo hle⟩

end Mask

/-! ## The byte order of the network -/

/-- `byteswapOnLittleEndian(t)`. -/
def byteswapOnLittleEndian (host : Endian) {n : ℕ} (t : BitVec (8 * n)) : BitVec (8 * n) :=
  match host with
  | .little => byteswap t
  | .big => t

section Swap

variable (host : Endian) {n : ℕ}

@[simp] theorem byteswapOnLittleEndian_twice (x : BitVec (8 * n)) :
    byteswapOnLittleEndian host (byteswapOnLittleEndian host x) = x := by
  cases host with
  | little => exact byteswap_byteswap x
  | big => rfl

theorem byteswapOnLittleEndian_and (x y : BitVec (8 * n)) :
    byteswapOnLittleEndian host (x &&& y) =
      byteswapOnLittleEndian host x &&& byteswapOnLittleEndian host y := by
  cases host with
  | little => exact byteswap_and x y
  | big => rfl

theorem byteswapOnLittleEndian_not (x : BitVec (8 * n)) :
    byteswapOnLittleEndian host (~~~x) = ~~~byteswapOnLittleEndian host x := by
  cases host with
  | little => exact byteswap_not x
  | big => rfl

end Swap

/-! ## Addresses -/

/-- The fields of the `sockaddr_in` that the functions use, the port and the number in network
order. -/
structure IPv4Address where
  sin_family : BitVec 16
  sin_port : BitVec 16
  s_addr : BitVec 32
  deriving DecidableEq, Repr

namespace IPv4Address

/-- `AF_INET` -/
def AF_INET : BitVec 16 := 2

/-- `IPv4Address(address, port)` -/
def construct (host : Endian) (address : BitVec 32) (port : BitVec 16) : IPv4Address where
  sin_family := AF_INET
  sin_port := byteswapOnLittleEndian host (n := 2) port
  s_addr := byteswapOnLittleEndian host (n := 4) address

/-- The number in the order of the host, as `insert` prints it. -/
def addr (host : Endian) (a : IPv4Address) : BitVec 32 :=
  byteswapOnLittleEndian host (n := 4) a.s_addr

/-- What the next two share: the number of the address with that of the mask in network order. There
is no address, or what comes out is undefined, or it is `nullptr`. -/
def withMask (host : Endian) (op : BitVec 32 → BitVec 32 → BitVec 32) (a : IPv4Address)
    (prefix_len : BitVec 32) : Except Undefined (Option IPv4Address) :=
  if 32 < prefix_len.toNat then .ok none
  else do
    let mask ← createMask prefix_len
    return some { a with s_addr := op a.s_addr (byteswapOnLittleEndian host (n := 4) mask) }

/-- `broadcastAddress(prefix_len)` -/
def broadcastAddress (host : Endian) (a : IPv4Address) (prefix_len : BitVec 32) :
    Except Undefined (Option IPv4Address) :=
  withMask host (· ||| ·) a prefix_len

/-- `networdAddress(prefix_len)`. The mask is not complemented. -/
def networdAddress (host : Endian) (a : IPv4Address) (prefix_len : BitVec 32) :
    Except Undefined (Option IPv4Address) :=
  withMask host (· &&& ·) a prefix_len

/-- `subnetMask(prefix_len)`, of any length. -/
def subnetMask (host : Endian) (prefix_len : BitVec 32) : Except Undefined IPv4Address := do
  let mask ← createMask prefix_len
  return ⟨AF_INET, 0, ~~~byteswapOnLittleEndian host (n := 4) mask⟩

section Values

variable (host : Endian) (a : IPv4Address) {p : BitVec 32}

/-- The mask in network order. -/
def netMask (p : BitVec 32) : BitVec 32 :=
  byteswapOnLittleEndian host (n := 4) (lowBits (32 - p.toNat))

theorem withMask_eq (op : BitVec 32 → BitVec 32 → BitVec 32) (htwo : 2 ≤ p.toNat)
    (hle : p.toNat ≤ 32) :
    withMask host op a p = .ok (some { a with s_addr := op a.s_addr (netMask host p) }) := by
  rw [withMask, if_neg (Nat.not_lt.mpr hle), createMask_eq htwo hle]
  rfl

theorem broadcastAddress_eq (htwo : 2 ≤ p.toNat) (hle : p.toNat ≤ 32) :
    a.broadcastAddress host p = .ok (some { a with s_addr := a.s_addr ||| netMask host p }) :=
  withMask_eq host a _ htwo hle

theorem networdAddress_eq (htwo : 2 ≤ p.toNat) (hle : p.toNat ≤ 32) :
    a.networdAddress host p = .ok (some { a with s_addr := a.s_addr &&& netMask host p }) :=
  withMask_eq host a _ htwo hle

theorem subnetMask_eq (htwo : 2 ≤ p.toNat) (hle : p.toNat ≤ 32) :
    subnetMask host p = .ok ⟨AF_INET, 0, ~~~netMask host p⟩ := by
  rw [subnetMask, createMask_eq htwo hle]
  rfl

variable {host a} in
/-- Of a longer prefix there is neither. -/
theorem le_of_withMask {op : BitVec 32 → BitVec 32 → BitVec 32} {b : IPv4Address}
    (hb : withMask host op a p = .ok (some b)) : p.toNat ≤ 32 := by
  by_contra hgt
  rw [withMask, if_pos (Nat.not_le.mp hgt)] at hb
  cases hb

/-- A subnet mask is defined where its mask is. -/
theorem two_le_of_subnetMask (hle : p.toNat ≤ 32) {m : IPv4Address}
    (hm : subnetMask host p = .ok m) : 2 ≤ p.toNat := by
  apply (defined_createMask_iff hle).mp
  cases hmask : createMask p with
  | ok mask => exact defined_ok mask
  | error e =>
    rw [subnetMask, hmask] at hm
    cases hm

/-- In the order of the host, the mask is that of the lower bits. -/
theorem swap_netMask (p : BitVec 32) :
    byteswapOnLittleEndian host (n := 4) (netMask host p) = lowBits (32 - p.toNat) :=
  byteswapOnLittleEndian_twice host (n := 4) _

theorem swap_zero : byteswapOnLittleEndian host (n := 4) 0#32 = 0#32 := by
  cases host <;> rfl

theorem netMask_eq_zero_iff (htwo : 2 ≤ p.toNat) (hle : p.toNat ≤ 32) :
    netMask host p = 0#32 ↔ p.toNat = 32 := by
  constructor
  · intro hzero
    have hlow := swap_netMask host p
    rw [hzero, swap_zero] at hlow
    have hbit := getLsbD_lowBits (k := 32 - p.toNat) (by omega) 0
    rw [← hlow, BitVec.getLsbD_zero, eq_comm, decide_eq_false_iff_not] at hbit
    omega
  · intro hp
    rw [netMask, hp]
    exact swap_zero host

/-- A number that a mask and its complement cut to the same has no bits. -/
theorem eq_zero_of_and_eq {x y : BitVec 32} (h : x &&& y = x &&& ~~~y) : x = 0#32 := by
  apply BitVec.eq_of_getLsbD_eq
  intro i hi
  have hbit := congrArg (·.getLsbD i) h
  simp only [BitVec.getLsbD_and, BitVec.getLsbD_not, decide_eq_true hi, Bool.true_and] at hbit
  cases hx : x.getLsbD i with
  | false => exact BitVec.getLsbD_zero.symm
  | true => simp [hx] at hbit

end Values

/-! ## The law of broadcast addresses -/

section Broadcast

variable {host : Endian} {a : IPv4Address} {p : BitVec 32}

/-- **The law of broadcast addresses**, for the results `b` and `m` of `broadcastAddress` and
`subnetMask`: `b` is the address with the complement of the mask, and the mask has the bits of the
prefix, in the order of the host. -/
structure BroadcastLaw (host : Endian) (p : BitVec 32) (a b m : IPv4Address) : Prop where
  broadcast : b = { a with s_addr := a.s_addr ||| ~~~m.s_addr }
  mask : ∀ i < 32, (m.addr host).getLsbD i = decide (32 - p.toNat ≤ i)

theorem getLsbD_addr_subnetMask (htwo : 2 ≤ p.toNat) (i : ℕ) (hi : i < 32) :
    (addr host ⟨AF_INET, 0, ~~~netMask host p⟩).getLsbD i = decide (32 - p.toNat ≤ i) := by
  have hlow := getLsbD_lowBits (k := 32 - p.toNat) (by omega) i
  rw [addr, byteswapOnLittleEndian_not, swap_netMask, BitVec.getLsbD_not, hlow, decide_eq_true hi,
    Bool.true_and, ← decide_not, decide_eq_decide]
  exact Nat.not_lt

/-- **Broadcast addresses.** Both results are there and defined and the law holds just for the
prefixes of at least two bits. -/
theorem broadcastLaw_iff (host : Endian) (a : IPv4Address) (p : BitVec 32) :
    (∃ b m, a.broadcastAddress host p = .ok (some b) ∧ subnetMask host p = .ok m ∧
      BroadcastLaw host p a b m) ↔ 2 ≤ p.toNat ∧ p.toNat ≤ 32 := by
  constructor
  · rintro ⟨b, m, hb, hm, -⟩
    have hle := le_of_withMask hb
    exact ⟨two_le_of_subnetMask host hle hm, hle⟩
  · rintro ⟨htwo, hle⟩
    refine ⟨_, _, a.broadcastAddress_eq host htwo hle, subnetMask_eq host htwo hle, ?_, ?_⟩
    · rw [BitVec.not_not]
    · exact getLsbD_addr_subnetMask htwo

/-- For the empty prefix both take a shift by 32 bits, and for the prefix of one bit an overflow. -/
theorem broadcastAddress_undefined :
    (construct .little 0xC0A80105 80).broadcastAddress .little 0 = .error .shift ∧
    subnetMask .little 0 = .error .shift ∧
    (construct .little 0xC0A80105 80).broadcastAddress .little 1 = .error .overflow ∧
    subnetMask .little 1 = .error .overflow ∧
    ¬ ∃ b m, (construct .little 0xC0A80105 80).broadcastAddress .little 0 = .ok (some b) ∧
      subnetMask .little 0 = .ok m ∧
      BroadcastLaw .little 0 (construct .little 0xC0A80105 80) b m := by
  refine ⟨rfl, rfl, rfl, rfl, ?_⟩
  rintro ⟨b, m, -, hm, -⟩
  exact absurd (two_le_of_subnetMask .little (by decide) hm) (by decide)

end Broadcast

/-! ## The law of network addresses -/

section Network

variable {host : Endian} {a : IPv4Address} {p : BitVec 32}

/-- **What `networdAddress` computes** is the part of the address behind the prefix. -/
theorem addr_networdAddress (htwo : 2 ≤ p.toNat) (hle : p.toNat ≤ 32) {n : IPv4Address}
    (hn : a.networdAddress host p = .ok (some n)) :
    n.addr host = a.addr host &&& lowBits (32 - p.toNat) := by
  rw [networdAddress_eq host a htwo hle] at hn
  obtain rfl := Option.some.inj (Except.ok.inj hn)
  rw [addr, byteswapOnLittleEndian_and, swap_netMask]
  rfl

/-- The numbers agree on the bits of a prefix of length `k`. -/
def AgreeTop (k : ℕ) (x y : BitVec 32) : Prop := ∀ i, 32 - k ≤ i → x.getLsbD i = y.getLsbD i

/-- **The law of network addresses**, for the results `n` and `m` of `networdAddress` and
`subnetMask`. -/
structure NetworkLaw (host : Endian) (p : BitVec 32) (a n m : IPv4Address) : Prop where
  /-- the network is the address under the mask; port and family are kept -/
  masked : n = { a with s_addr := a.s_addr &&& m.s_addr }
  /-- it has the bits of the prefix -/
  top : AgreeTop p.toNat (n.addr host) (a.addr host)
  /-- and no others -/
  low : ∀ i < 32 - p.toNat, (n.addr host).getLsbD i = false
  /-- every address with the same prefix has the same network -/
  same : ∀ b : IPv4Address, AgreeTop p.toNat (b.addr host) (a.addr host) →
    b.networdAddress host p = .ok (some { b with s_addr := n.s_addr })
  /-- which is its own -/
  again : n.networdAddress host p = .ok (some n)

/-- Under the mask of the other bits the law leaves no bit of the address, and none of the mask. -/
theorem NetworkLaw.eq_zero (htwo : 2 ≤ p.toNat) (hle : p.toNat ≤ 32) {n m : IPv4Address}
    (hn : a.networdAddress host p = .ok (some n)) (hm : subnetMask host p = .ok m)
    (h : NetworkLaw host p a n m) : a.s_addr = 0#32 ∧ p.toNat = 32 := by
  rw [networdAddress_eq host a htwo hle] at hn
  rw [subnetMask_eq host htwo hle] at hm
  obtain rfl := Option.some.inj (Except.ok.inj hn)
  obtain rfl := Except.ok.inj hm
  have hzero : a.s_addr = 0#32 := eq_zero_of_and_eq (congrArg s_addr h.masked)
  refine ⟨hzero, ?_⟩
  have hagree : AgreeTop p.toNat (addr host { a with s_addr := netMask host p }) (a.addr host) := by
    intro i hi
    have hlow := getLsbD_lowBits (k := 32 - p.toNat) (by omega) i
    rw [addr, addr, swap_netMask, hzero, swap_zero, hlow, decide_eq_false (Nat.not_lt.mpr hi)]
    exact BitVec.getLsbD_zero.symm
  have hsame := h.same _ hagree
  rw [networdAddress_eq host _ htwo hle] at hsame
  have hmask : netMask host p &&& netMask host p = a.s_addr &&& netMask host p :=
    congrArg s_addr (Option.some.inj (Except.ok.inj hsame))
  rw [BitVec.and_self, hzero, BitVec.zero_and] at hmask
  exact (netMask_eq_zero_iff host htwo hle).mp hmask

/-- The whole of the address `0.0.0.0` is the prefix, and the mask of the other bits is empty. -/
theorem networkLaw_of_eq_zero (hzero : a.s_addr = 0#32) (hp : p.toNat = 32) :
    ∃ n m, a.networdAddress host p = .ok (some n) ∧ subnetMask host p = .ok m ∧
      NetworkLaw host p a n m := by
  have htwo : 2 ≤ p.toNat := by omega
  have hmask : netMask host p = 0#32 := (netMask_eq_zero_iff host htwo hp.le).mpr hp
  have hnetwork : ∀ b : IPv4Address,
      b.networdAddress host p = .ok (some { b with s_addr := 0#32 }) := by
    intro b
    rw [networdAddress_eq host b htwo hp.le, hmask, BitVec.and_zero]
  refine ⟨{ a with s_addr := 0#32 }, _, hnetwork a, subnetMask_eq host htwo hp.le, ?_⟩
  constructor
  · rw [hzero, BitVec.zero_and]
  · intro i _
    rw [addr, addr, hzero]
  · intro i hi
    omega
  · intro b _
    exact hnetwork b
  · exact hnetwork _

/-- **Network addresses.** Both results are defined and the law holds for the address `0.0.0.0` and
its whole length only. -/
theorem networkLaw_iff (host : Endian) (a : IPv4Address) (p : BitVec 32) :
    (∃ n m, a.networdAddress host p = .ok (some n) ∧ subnetMask host p = .ok m ∧
      NetworkLaw host p a n m) ↔ a.s_addr = 0#32 ∧ p.toNat = 32 := by
  constructor
  · rintro ⟨n, m, hn, hm, h⟩
    have hle := le_of_withMask hn
    exact h.eq_zero (two_le_of_subnetMask host hle hm) hle hn hm
  · rintro ⟨hzero, hp⟩
    exact networkLaw_of_eq_zero hzero hp

/-- The network of `192.168.1.5/24` is computed as `0.0.0.5`. -/
theorem networdAddress_host_part :
    (construct .little 0xC0A80105 80).networdAddress .little 24 =
      .ok (some (construct .little 0x00000005 80)) ∧
    ¬ ∃ n m, (construct .little 0xC0A80105 80).networdAddress .little 24 = .ok (some n) ∧
      subnetMask .little 24 = .ok m ∧
      NetworkLaw .little 24 (construct .little 0xC0A80105 80) n m := by
  refine ⟨rfl, ?_⟩
  rintro ⟨n, m, hn, hm, h⟩
  have hp := (h.eq_zero (by decide) (by decide) hn hm).2
  exact absurd hp (by decide)

end Network

end IPv4Address

end Dag
