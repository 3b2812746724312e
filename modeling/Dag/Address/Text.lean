import Dag.Address.IPv4
import Dag.Address.Lookup

/-!
# Addresses as text

`IPv4Address::insert` writes the number of an address as four decimal numbers with dots between
them, in the order of the host, a colon, and the port. `Address::Lookup` takes such a text apart
again, has `getaddrinfo` look the parts up, and makes an address from each `sockaddr` that it gets.

What `getaddrinfo` answers is not known here. For a number with dots and a decimal port it needs no
name service, and answers with that address, once for each type of socket that it is asked for.

## Main definitions

* `IPv4Address.toString`: the text
* `Addresses.lookup`, `Addresses.lookupAny`, `Addresses.lookupAnyIPAddress`: the addresses of a text
* `Addresses.Numeric`: the answers of `getaddrinfo` for numbers with dots

## Main results

* `IPv4Address.toString_inj`: the text determines the number and the port
* `Addresses.read_back`: what is looked up for the text of an address is that address
-/

namespace Dag

/-! ## Decimal numbers -/

section Decimal

variable {w : ℕ} {u v : BitVec w}

/-- A decimal number is read back. -/
theorem ofNat_ofDigitChars (v : BitVec w) :
    BitVec.ofNat w (Nat.ofDigitChars 10 (decimal v) 0) = v := by
  rw [decimal, Nat.ofDigitChars_ten_toDigits, BitVec.ofNat_toNat, BitVec.setWidth_eq]

theorem decimal_inj : decimal u = decimal v ↔ u = v := by
  constructor
  · intro h
    rw [← ofNat_ofDigitChars u, h, ofNat_ofDigitChars]
  · rintro rfl
    rfl

/-- What is not a digit is not in a decimal number. -/
theorem notMem_decimal {c : Char} (hc : c.isDigit = false) (v : BitVec w) : c ∉ decimal v := by
  intro hmem
  rw [Nat.isDigit_of_mem_toDigits (by decide) (by decide) hmem] at hc
  cases hc

end Decimal

/-- Two lists, each up to the first of a separator. -/
theorem append_cons_inj {α : Type} {c : α} {s t xs ys : List α} (hxs : c ∉ xs) (hys : c ∉ ys) :
    xs ++ c :: s = ys ++ c :: t ↔ xs = ys ∧ s = t := by
  induction xs generalizing ys with
  | nil =>
    cases ys with
    | nil => simp
    | cons y ys =>
      have hne : c ≠ y := List.ne_of_not_mem_cons hys
      simp [hne]
  | cons x xs ih =>
    have hne : c ≠ x := List.ne_of_not_mem_cons hxs
    cases ys with
    | nil => simp [Ne.symm hne]
    | cons y ys =>
      rw [List.cons_append, List.cons_append, List.cons.injEq, List.cons.injEq, and_assoc,
        ih (List.not_mem_of_not_mem_cons hxs) (List.not_mem_of_not_mem_cons hys)]

/-! ## The text of an address -/

/-- `(addr >> 8 * i) & 0xff` -/
def octet (addr : BitVec 32) (i : ℕ) : BitVec 32 := (addr >>> (8 * i)) &&& 0xff

/-- The number of an address, with dots. -/
def dotted (addr : BitVec 32) : Text :=
  decimal (octet addr 3) ++ '.' :: (decimal (octet addr 2) ++ '.' :: (decimal (octet addr 1) ++
    '.' :: decimal (octet addr 0)))

/-- What four numbers with dots between them stand for. -/
def number (t : Text) : BitVec 32 :=
  (t.splitOn '.').foldl (fun x d => x * 256 + BitVec.ofNat 32 (Nat.ofDigitChars 10 d 0)) 0

section Dotted

variable {x y : BitVec 32}

theorem toNat_octet (x : BitVec 32) (i : ℕ) : (octet x i).toNat = x.toNat / 2 ^ (8 * i) % 256 := by
  rw [octet, BitVec.toNat_and, BitVec.toNat_ushiftRight, Nat.shiftRight_eq_div_pow]
  exact Nat.and_two_pow_sub_one_eq_mod _ 8

theorem splitOn_dotted (x : BitVec 32) : (dotted x).splitOn '.' =
    [decimal (octet x 3), decimal (octet x 2), decimal (octet x 1), decimal (octet x 0)] := by
  have hdot : ∀ l ∈ [decimal (octet x 3), decimal (octet x 2), decimal (octet x 1),
      decimal (octet x 0)], '.' ∉ l := by
    intro l hl
    simp only [List.mem_cons, List.not_mem_nil, or_false] at hl
    obtain rfl | rfl | rfl | rfl := hl <;> exact notMem_decimal rfl _
  rw [← List.splitOn_intercalate '.' hdot (List.cons_ne_nil _ _)]
  simp [dotted, List.intercalate]

/-- **The number is read back.** -/
theorem number_dotted (x : BitVec 32) : number (dotted x) = x := by
  rw [number, splitOn_dotted]
  simp only [List.foldl_cons, List.foldl_nil, ofNat_ofDigitChars]
  apply BitVec.eq_of_toNat_eq
  have hlt := x.isLt
  have h256 : (256 : BitVec 32).toNat = 256 := rfl
  have hzero : (0 : BitVec 32).toNat = 0 := rfl
  simp only [BitVec.toNat_add, BitVec.toNat_mul, toNat_octet, h256, hzero]
  omega

theorem dotted_inj : dotted x = dotted y ↔ x = y := by
  constructor
  · intro h
    rw [← number_dotted x, h, number_dotted]
  · rintro rfl
    rfl

/-- A character of the text is a digit or a dot. -/
theorem notMem_dotted {c : Char} (hc : c.isDigit = false) (hdot : c ≠ '.') (x : BitVec 32) :
    c ∉ dotted x := by
  simp [dotted, notMem_decimal hc, hdot]

theorem dotted_ne_nil (x : BitVec 32) : dotted x ≠ [] := by
  simp [dotted]

end Dotted

namespace IPv4Address

/-- `getPort()` -/
def getPort (host : Endian) (a : IPv4Address) : BitVec 16 :=
  byteswapOnLittleEndian host (n := 2) a.sin_port

/-- `setPort(v)` -/
def setPort (host : Endian) (a : IPv4Address) (v : BitVec 16) : IPv4Address :=
  { a with sin_port := byteswapOnLittleEndian host (n := 2) v }

/-- `toString()`, through `insert(os)`. -/
def toString (host : Endian) (a : IPv4Address) : Text :=
  dotted (a.addr host) ++ ':' :: decimal (a.getPort host)

variable {host : Endian} {a b : IPv4Address}

/-- **The text determines the address**, up to the family. -/
theorem toString_inj : toString host a = toString host b ↔
    a.s_addr = b.s_addr ∧ a.sin_port = b.sin_port := by
  have hcolon : ':'.isDigit = false := rfl
  have hne : ':' ≠ '.' := by decide
  have hswap : ∀ {n : ℕ} {x y : BitVec (8 * n)},
      byteswapOnLittleEndian host x = byteswapOnLittleEndian host y ↔ x = y := by
    intro n x y
    constructor
    · intro h
      have htwice := congrArg (byteswapOnLittleEndian host) h
      rwa [byteswapOnLittleEndian_twice, byteswapOnLittleEndian_twice] at htwice
    · rintro rfl
      rfl
  rw [toString, toString, append_cons_inj (notMem_dotted hcolon hne _) (notMem_dotted hcolon hne _),
    dotted_inj, decimal_inj]
  exact and_congr (hswap (n := 4)) (hswap (n := 2))

/-- The text is split at its colon. -/
theorem lookup_toString (host : Endian) (a : IPv4Address) :
    Address.lookup (a.toString host) = (dotted (a.addr host), some (decimal (a.getPort host))) := by
  have hnot : ∀ c : Char, c.isDigit = false → c ≠ '.' → c ∉ dotted (a.addr host) :=
    fun c hc hdot => notMem_dotted hc hdot _
  exact Address.lookup_service
    ⟨dotted (a.addr host), dotted_ne_nil _, hnot ':' rfl (by decide), hnot '[' rfl (by decide),
      hnot ']' rfl (by decide), hnot '\x00' rfl (by decide)⟩
    ⟨decimal (a.getPort host), notMem_decimal rfl _, notMem_decimal rfl _⟩

/-- An address of the family is that of its number and its port. -/
theorem construct_eq (host : Endian) {a : IPv4Address} (ha : a.sin_family = AF_INET) :
    construct host (a.addr host) (a.getPort host) = a := by
  obtain ⟨sin_family, sin_port, s_addr⟩ := a
  have hport : byteswapOnLittleEndian host (n := 2)
      (byteswapOnLittleEndian host (n := 2) sin_port) = sin_port :=
    byteswapOnLittleEndian_twice host (n := 2) sin_port
  have haddr : byteswapOnLittleEndian host (n := 4) (byteswapOnLittleEndian host (n := 4) s_addr) =
      s_addr := byteswapOnLittleEndian_twice host (n := 4) s_addr
  rw [construct, addr, getPort, hport, haddr, ← ha]

end IPv4Address

/-! ## Looking up -/

/-- A `sockaddr`, by the fields of the `sockaddr_in` that it may be. -/
structure Sockaddr extends IPv4Address where
  sin_zero : BitVec 64
  deriving DecidableEq, Repr

/-- What `getaddrinfo` is asked for. -/
structure Hints where
  ai_flags : ℤ
  ai_family : ℤ
  ai_socktype : ℤ
  ai_protocol : ℤ
  deriving DecidableEq, Repr

namespace Addresses

/-- What `Address::Create` makes: an `IPv4Address`, or an `UnknownAddress`. -/
inductive Created
  | ipv4 (a : IPv4Address)
  | unknown (s : Sockaddr)
  deriving DecidableEq, Repr

/-- `AI_NUMERICHOST` -/
def AI_NUMERICHOST : ℤ := 4

/-- `AF_UNSPEC` -/
def AF_UNSPEC : ℤ := 0

/-- `Address::Create(addr, addrlen)`; `none` is a null pointer. -/
def create : Option Sockaddr → Option Created
  | none => none
  | some addr =>
    if addr.sin_family = IPv4Address.AF_INET then some (.ipv4 addr.toIPv4Address)
    else some (.unknown addr)

/-- `dynamic_pointer_cast<IPAddress>` of an address. -/
def toIPAddress : Option Created → Option IPv4Address
  | some (.ipv4 a) => some a
  | _ => none

/-- `getaddrinfo(node, service, hints, results)`: the results, `none` on an error. -/
abbrev GetAddrInfo := Text → Option Text → Hints → Option (List Sockaddr)

variable (getaddrinfo : GetAddrInfo)

/-- `Lookup(result, host, family, type, protocol)`: what it returns, and `result`. -/
def lookup (result : List (Option Created)) (host : Text) (family type protocol : ℤ) :
    Bool × List (Option Created) :=
  let (node, service) := Address.lookup host
  match getaddrinfo node service ⟨0, family, type, protocol⟩ with
  | none => (false, result)
  | some results =>
    let result := result ++ results.map fun next => create (some next)
    (!result.isEmpty, result)

/-- `LookupAny(host, family, type, protocol)` -/
def lookupAny (host : Text) (family type protocol : ℤ) : Option Created :=
  match lookup getaddrinfo [] host family type protocol with
  | (true, result) => result.head?.join
  | (false, _) => none

/-- `LookupAnyIPAddress(host, family, type, protocol)` -/
def lookupAnyIPAddress (host : Text) (family type protocol : ℤ) : Option IPv4Address :=
  match lookup getaddrinfo [] host family type protocol with
  | (true, result) => result.findSome? toIPAddress
  | (false, _) => none

/-- `IPAddress::Create(address, port)` asks for a number, and takes the first result. -/
def createIPAddress (host : Endian) (address : Text) (port : BitVec 16) : Option IPv4Address :=
  match getaddrinfo address none ⟨AI_NUMERICHOST, AF_UNSPEC, 0, 0⟩ with
  | none => none
  | some results => (toIPAddress (create results.head?)).map (·.setPort host port)

/-- **The answers for numbers.** For a number with dots and a decimal port, or none, there are
results, and all of them are that address. -/
def Numeric (host : Endian) (hints : Hints) : Prop :=
  ∀ (address : BitVec 32) (port : Option (BitVec 16)),
    ∃ results, getaddrinfo (dotted address) (port.map decimal) hints = some results ∧ results ≠ [] ∧
      ∀ r ∈ results, r.toIPv4Address = IPv4Address.construct host address (port.getD 0)

section ReadBack

variable {getaddrinfo} {host : Endian} {family type protocol : ℤ} {a : IPv4Address}
  {results : List Sockaddr}

theorem create_of_inet {r : Sockaddr} (h : r.sin_family = IPv4Address.AF_INET) :
    create (some r) = some (.ipv4 r.toIPv4Address) := if_pos h

/-- All results are one address of the family. -/
theorem map_create (ha : a.sin_family = IPv4Address.AF_INET)
    (hall : ∀ r ∈ results, r.toIPv4Address = a) :
    (results.map fun next => create (some next)) =
      List.replicate results.length (some (.ipv4 a)) := by
  rw [List.eq_replicate_iff]
  constructor
  · exact List.length_map ..
  · intro c hc
    obtain ⟨r, hr, rfl⟩ := List.mem_map.mp hc
    have hra := hall r hr
    rw [create_of_inet (by rw [hra, ha]), hra]

/-- `Lookup` adds the address of the text, and nothing else. -/
theorem lookup_toString (hnumeric : Numeric getaddrinfo host ⟨0, family, type, protocol⟩)
    (ha : a.sin_family = IPv4Address.AF_INET) :
    ∃ n, 0 < n ∧ ∀ result, lookup getaddrinfo result (a.toString host) family type protocol =
      (true, result ++ List.replicate n (some (.ipv4 a))) := by
  obtain ⟨results, hget, hne, hall⟩ := hnumeric (a.addr host) (some (a.getPort host))
  rw [Option.getD_some, IPv4Address.construct_eq host ha] at hall
  refine ⟨results.length, List.length_pos_iff.mpr hne, ?_⟩
  intro result
  have hsplit := IPv4Address.lookup_toString host a
  rw [Option.map_some] at hget
  simp only [lookup, hsplit, hget, map_create ha hall]
  refine Prod.ext ?_ rfl
  simp [hne]

/-- `IPAddress::Create` makes the address of a number with dots, with the port. -/
theorem createIPAddress_dotted
    (hnumeric : Numeric getaddrinfo host ⟨AI_NUMERICHOST, AF_UNSPEC, 0, 0⟩) (address : BitVec 32)
    (port : BitVec 16) :
    createIPAddress getaddrinfo host (dotted address) port =
      some (IPv4Address.construct host address port) := by
  obtain ⟨results, hget, hne, hall⟩ := hnumeric address none
  obtain ⟨r, rest, rfl⟩ := List.exists_cons_of_ne_nil hne
  have hr := hall r List.mem_cons_self
  rw [Option.map_none] at hget
  rw [createIPAddress, hget]
  simp only [List.head?_cons, create_of_inet (r := r) (by rw [hr]; rfl), toIPAddress, hr]
  rfl

/-- **What is looked up for the text of an address is that address**, and no other address has that
text. -/
theorem read_back (hnumeric : Numeric getaddrinfo host ⟨0, family, type, protocol⟩)
    (ha : a.sin_family = IPv4Address.AF_INET) :
    lookupAnyIPAddress getaddrinfo (a.toString host) family type protocol = some a ∧
    lookupAny getaddrinfo (a.toString host) family type protocol = some (.ipv4 a) ∧
    (∃ n, 0 < n ∧ ∀ result, lookup getaddrinfo result (a.toString host) family type protocol =
      (true, result ++ List.replicate n (some (.ipv4 a)))) ∧
    ∀ b : IPv4Address, b.sin_family = IPv4Address.AF_INET →
      (b.toString host = a.toString host ↔ b = a) := by
  obtain ⟨n, hn, hlookup⟩ := lookup_toString hnumeric ha
  obtain ⟨m, rfl⟩ : ∃ m, n = m + 1 := ⟨n - 1, by omega⟩
  refine ⟨?_, ?_, ⟨m + 1, hn, hlookup⟩, ?_⟩
  · rw [lookupAnyIPAddress, hlookup, List.nil_append, List.replicate_succ]
    rfl
  · rw [lookupAny, hlookup, List.nil_append, List.replicate_succ]
    rfl
  · intro b hb
    rw [IPv4Address.toString_inj]
    constructor
    · rintro ⟨haddr, hport⟩
      rw [← IPv4Address.construct_eq host ha, ← IPv4Address.construct_eq host hb]
      simp only [IPv4Address.addr, IPv4Address.getPort, haddr, hport]
    · rintro rfl
      exact ⟨rfl, rfl⟩

end ReadBack

/-! ## A resolver without names -/

/-- A `getaddrinfo` that knows no names: a number with dots is that address, for the type of socket
or for three of them. -/
def numbersOnly (host : Endian) : GetAddrInfo := fun node service hints =>
  if dotted (number node) = node then
    let port := service.map fun s => BitVec.ofNat 16 (Nat.ofDigitChars 10 s 0)
    some (List.replicate (if hints.ai_socktype = 0 then 3 else 1)
      ⟨IPv4Address.construct host (number node) (port.getD 0), 0⟩)
  else none

theorem numeric_numbersOnly (host : Endian) (hints : Hints) :
    Numeric (numbersOnly host) host hints := by
  intro address port
  have hport : (port.map decimal).map
      (fun s => BitVec.ofNat 16 (Nat.ofDigitChars 10 s 0)) = port := by
    cases port with
    | none => rfl
    | some p => exact congrArg some (ofNat_ofDigitChars p)
  refine ⟨_, by rw [numbersOnly, if_pos (by rw [number_dotted])], ?_, ?_⟩
  · split_ifs <;> exact List.cons_ne_nil _ _
  · intro r hr
    rw [List.eq_of_mem_replicate hr]
    simp only [hport, number_dotted]


/-- Of `192.168.0.1:8080`, on a host that is little-endian. -/
theorem read_back_numbersOnly :
    let a := IPv4Address.construct .little 0xC0A80001 8080
    a.toString .little = "192.168.0.1:8080".toList ∧
    lookupAnyIPAddress (numbersOnly .little) (a.toString .little) 2 0 0 = some a ∧
    lookupAny (numbersOnly .little) (a.toString .little) 2 0 0 = some (.ipv4 a) ∧
    (∃ n, 0 < n ∧ ∀ result, lookup (numbersOnly .little) result (a.toString .little) 2 0 0 =
      (true, result ++ List.replicate n (some (.ipv4 a)))) ∧
    ∀ b : IPv4Address, b.sin_family = IPv4Address.AF_INET →
      (b.toString .little = a.toString .little ↔ b = a) :=
  ⟨by decide, read_back (numeric_numbersOnly .little _) rfl⟩

end Addresses

end Dag
