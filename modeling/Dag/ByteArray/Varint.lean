import Dag.ByteArray.RoundTrip
import Dag.ByteArray.Runs

/-!
# The byte array: varints of two widths

The writers of 32 and of 64 bits emit the same bytes for the same number, and the readers differ in
how many bytes they take, and in the width that they cut the number to. A number that fits the
narrower width can be written with one width and read with the other, and so can an integer in
zigzag.

## Main definitions

* `VarintWidth`: the two widths, and their writers and readers
* `Shortest`: the bytes of a varint
* `ReadsBack`: a value is read back, whatever follows it

## Main results

* `readUint_taken`: the readers on any bytes
* `varint_widths`: bounds, readers on any bytes, and both widths against each other
-/

namespace Dag

open Foundation

/-- The widths of varints. -/
inductive VarintWidth
  | w32
  | w64
  deriving DecidableEq, Repr

namespace VarintWidth

def bits : VarintWidth → ℕ
  | w32 => 32
  | w64 => 64

/-- The size of `tmp` in the writer; the reader makes as many passes. -/
def maxBytes : VarintWidth → ℕ
  | w32 => 5
  | w64 => 10

variable (π : Platform)

def writeUint : (x : VarintWidth) → BitVec x.bits → ByteArray.Op Unit
  | w32 => ByteArray.writeUint32 π
  | w64 => ByteArray.writeUint64 π

def writeInt : (x : VarintWidth) → BitVec x.bits → ByteArray.Op Unit
  | w32 => ByteArray.writeInt32 π
  | w64 => ByteArray.writeInt64 π

def readUint : (x : VarintWidth) → ByteArray.Op (BitVec x.bits)
  | w32 => ByteArray.readUint32 π
  | w64 => ByteArray.readUint64 π

def readInt : (x : VarintWidth) → ByteArray.Op (BitVec x.bits)
  | w32 => ByteArray.readInt32 π
  | w64 => ByteArray.readInt64 π

theorem two_pow_le (x : VarintWidth) : 2 ^ 32 ≤ 2 ^ x.bits := by
  cases x <;> decide

theorem lt_pow_maxBytes (x : VarintWidth) (v : BitVec x.bits) : v.toNat < 128 ^ x.maxBytes := by
  cases x with
  | w32 => exact Nat.lt_of_lt_of_le v.isLt (by decide)
  | w64 => exact Nat.lt_of_lt_of_le v.isLt (by decide)

theorem two_le_bits (x : VarintWidth) : 2 ≤ x.bits := by
  cases x <;> decide

theorem readUint_eq (x : VarintWidth) :
    x.readUint π = ByteArray.readVarintLoop π x.bits x.maxBytes 0 0 := by
  cases x <;> rfl

theorem writeUint_eq (x : VarintWidth) (v : BitVec x.bits) :
    x.writeUint π v = ByteArray.write π (varintBytes v) := by
  cases x <;> rfl

theorem readInt_eq (x : VarintWidth) : x.readInt π = decodeZigzag <$> x.readUint π := by
  cases x <;> rfl

theorem writeInt_eq (x : VarintWidth) (v : BitVec x.bits) :
    x.writeInt π v = x.writeUint π (encodeZigzag v) := by
  cases x <;> rfl

theorem emits_writeUint (x : VarintWidth) (e : Endian) (v : BitVec x.bits) :
    ByteArray.Emits e (x.writeUint π v) (leb128 v.toNat) := by
  cases x with
  | w32 => exact ByteArray.emits_writeUint32 π e v
  | w64 => exact ByteArray.emits_writeUint64 π e v

theorem decodes_readUint (x : VarintWidth) (e : Endian) (v : BitVec x.bits) :
    ByteArray.Decodes e (x.readUint π) (leb128 v.toNat) v := by
  cases x with
  | w32 => exact ByteArray.decodes_readUint32 π e v
  | w64 => exact ByteArray.decodes_readUint64 π e v

/-! ## The bytes of a varint -/

/-- **The bytes of a number**: no more than the local array holds, the least number of groups of
seven bits that the number has, and all but the last with the continuation bit. -/
structure Shortest (x : VarintWidth) (v : BitVec x.bits) (tmp : List UInt8) : Prop where
  bound : tmp.length ≤ x.maxBytes
  groups : v.toNat < 128 ^ tmp.length
  least : ∀ k, 1 ≤ k → v.toNat < 128 ^ k → tmp.length ≤ k
  continued : ∃ init last, tmp = init ++ [last] ∧ (∀ b ∈ init, 128 ≤ b) ∧ last < 128

theorem shortest_varintBytes (x : VarintWidth) (v : BitVec x.bits) :
    x.Shortest v (varintBytes v) := by
  have hbits : 8 ≤ x.bits := by cases x <;> decide
  have hleast : ∀ k, 1 ≤ k → v.toNat < 128 ^ k → (leb128 v.toNat).length ≤ k := by
    intro k hk hv
    obtain ⟨n, rfl⟩ := Nat.exists_eq_add_of_le' hk
    exact length_leb128_le hv
  rw [varintBytes_eq hbits]
  refine ⟨?_, lt_pow_length_leb128 _, hleast, leb128_form _⟩
  apply hleast
  · cases x <;> decide
  · exact x.lt_pow_maxBytes v

/-! ## The readers on any bytes -/

/-- **The readers** return the sum of the groups of the bytes that they take, cut to their width. -/
theorem readUint_taken (x : VarintWidth) {s : ByteArray} (hs : s.WellFormed) {used : List UInt8}
    (hused : Leb128Taken x.maxBytes used) (hfront : used <+: s.unread) :
    x.readUint π s = .ok
      (BitVec.ofNat x.bits (∑ i : Fin used.length, ((used.get i).toNat % 128) * 2 ^ (7 * i.val)))
      (s.movedTo (s.position + used.length)) := by
  have htake : s.unread.take used.length = used := (List.prefix_iff_eq_take.mp hfront).symm
  have hvalue : ∀ m : ℕ, (0 : BitVec x.bits) ||| (BitVec.ofNat x.bits m <<< 0) =
      BitVec.ofNat x.bits m := by
    intro m
    rw [BitVec.shiftLeft_zero]
    exact BitVec.zero_or
  rw [readUint_eq, ByteArray.readVarintLoop_eq π _ _ 0 0 hs, leb128Span_of_taken hused hfront]
  simp only [htake, hvalue, leb128Value_eq_sum]

/-! ## Across widths -/

/-- A value is written, then anything else; back at its position it is read, and the reader stops
where the writer did. -/
def ReadsBack {α : Type} (writer : ByteArray.Op Unit) (reader : ByteArray.Op α) (a : α)
    (s : ByteArray) : Prop :=
  ∀ d : List UInt8, ∃ t u v v', writer s = .ok () t ∧ ByteArray.write π d t = .ok () u ∧
    ByteArray.setPosition s.position u = .ok () v ∧ reader v = .ok a v' ∧ v'.position = t.position

theorem readsBack_of_emits {α : Type} {writer : ByteArray.Op Unit} {reader : ByteArray.Op α}
    {enc : List UInt8} {a : α} {s : ByteArray} (hs : s.WellFormed)
    (hwriter : ByteArray.Emits s.endian writer enc)
    (hreader : ByteArray.Decodes s.endian reader enc a) : ReadsBack π writer reader a s := by
  intro d
  obtain ⟨t, ht, hput⟩ := hwriter s hs rfl
  obtain ⟨u, hu, hput'⟩ := ByteArray.emits_write π s.endian d t hput.wellFormed hput.endian_eq
  have hall := hput.trans hs hput'
  have hle := hall.position_le_size
  have hback := ByteArray.setPosition_eq hall.wellFormed
    (hle.trans hall.wellFormed.size_le)
  rw [ByteArray.movedTo_max_of_le hle] at hback
  have hfront : enc <+: (u.movedTo s.position).unread :=
    (List.prefix_append enc d).trans (hall.prefix_unread hs)
  have hread := hreader (u.movedTo s.position) (hall.wellFormed.movedTo hle) hall.endian_eq hfront
  refine ⟨t, u, _, _, ht, hu, hback, hread, ?_⟩
  rw [hput.position_eq]
  rfl

/-- A number that fits the narrower width is the same for both. -/
theorem readsBack_uint (x y : VarintWidth) {n : ℕ} (hn : n < 2 ^ 32) {s : ByteArray}
    (hs : s.WellFormed) :
    ReadsBack π (x.writeUint π (BitVec.ofNat _ n)) (y.readUint π) (BitVec.ofNat _ n) s := by
  have hnat : ∀ z : VarintWidth, (BitVec.ofNat z.bits n).toNat = n := by
    intro z
    rw [BitVec.toNat_ofNat, Nat.mod_eq_of_lt (Nat.lt_of_lt_of_le hn z.two_pow_le)]
  have hwriter := x.emits_writeUint π s.endian (BitVec.ofNat _ n)
  have hreader := y.decodes_readUint π s.endian (BitVec.ofNat _ n)
  rw [hnat] at hwriter hreader
  exact readsBack_of_emits π hs hwriter hreader

/-- An integer that fits the narrower width has the same number in zigzag. -/
theorem toNat_encodeZigzag_ofInt (x : VarintWidth) {v : ℤ} (hlow : -2 ^ 31 ≤ v)
    (hhigh : v < 2 ^ 31) :
    (encodeZigzag (BitVec.ofInt x.bits v)).toNat = zigzag v := by
  rw [toNat_encodeZigzag x.two_le_bits, BitVec.toInt_ofInt]
  congr 1
  cases x with
  | w32 => exact Int.bmod_eq_of_le (by simp [bits]; omega) (by simp [bits]; omega)
  | w64 => exact Int.bmod_eq_of_le (by simp [bits]; omega) (by simp [bits]; omega)

theorem readsBack_int (x y : VarintWidth) {v : ℤ} (hlow : -2 ^ 31 ≤ v) (hhigh : v < 2 ^ 31)
    {s : ByteArray} (hs : s.WellFormed) :
    ReadsBack π (x.writeInt π (BitVec.ofInt _ v)) (y.readInt π) (BitVec.ofInt _ v) s := by
  have hwriter := x.emits_writeUint π s.endian (encodeZigzag (BitVec.ofInt _ v))
  have hreader := (y.decodes_readUint π s.endian (encodeZigzag (BitVec.ofInt _ v))).map decodeZigzag
  rw [toNat_encodeZigzag_ofInt x hlow hhigh, ← writeInt_eq] at hwriter
  rw [toNat_encodeZigzag_ofInt y hlow hhigh, decodeZigzag_encodeZigzag y.two_le_bits,
    ← readInt_eq] at hreader
  exact readsBack_of_emits π hs hwriter hreader

/-- **Varints of both widths**: a writer stores no more bytes than its local array holds, as few as
can be, with the continuation bit on all but the last; a reader, on any bytes, takes those up to the
first one below 128 but no more than its passes, and returns the sum of their groups modulo the
width; and what fits 32 bits is read back by either reader, whichever writer has written it. -/
theorem varint_widths {b : ℕ} (hb : 1 ≤ b) {calls : List ByteArray.Call} {s : ByteArray}
    (h : exec (ByteArray.step π) (ByteArray.construct π b) calls = some s) (x : VarintWidth) :
    (∀ v : BitVec x.bits, x.writeUint π v = ByteArray.write π (varintBytes v) ∧
      x.Shortest v (varintBytes v)) ∧
    (∀ used, Leb128Taken x.maxBytes used → used <+: s.unread → x.readUint π s = .ok
      (BitVec.ofNat x.bits (∑ i : Fin used.length, ((used.get i).toNat % 128) * 2 ^ (7 * i.val)))
      (s.movedTo (s.position + used.length))) ∧
    ∀ y : VarintWidth,
      (∀ n < 2 ^ 32, ReadsBack π (x.writeUint π (BitVec.ofNat _ n)) (y.readUint π)
        (BitVec.ofNat _ n) s) ∧
      ∀ v : ℤ, -2 ^ 31 ≤ v → v < 2 ^ 31 → ReadsBack π (x.writeInt π (BitVec.ofInt _ v))
        (y.readInt π) (BitVec.ofInt _ v) s := by
  have hs := (ByteArray.wellFormed_of_exec π hb h).1
  refine ⟨?_, fun used => x.readUint_taken π hs, fun y => ⟨?_, ?_⟩⟩
  · intro v
    exact ⟨x.writeUint_eq π v, x.shortest_varintBytes v⟩
  · intro n hn
    exact readsBack_uint π x y hn hs
  · intro v hlow hhigh
    exact readsBack_int π x y hlow hhigh hs

/-- A number of two groups, written with 32 bits and read with 64. -/
theorem varint_widths_three_hundred :
    ∃ s, exec (ByteArray.step ⟨.little, fun _ _ => 0⟩)
        (ByteArray.construct ⟨.little, fun _ _ => 0⟩ 1) [.write [7], .setPosition 0] = some s ∧
      ReadsBack ⟨.little, fun _ _ => 0⟩ (ByteArray.writeUint32 ⟨.little, fun _ _ => 0⟩ 300)
        (ByteArray.readUint64 ⟨.little, fun _ _ => 0⟩) 300 s := by
  obtain ⟨s, hs⟩ : ∃ s, exec (ByteArray.step ⟨.little, fun _ _ => 0⟩)
      (ByteArray.construct ⟨.little, fun _ _ => 0⟩ 1) [.write [7], .setPosition 0] = some s :=
    ⟨_, rfl⟩
  exact ⟨s, hs, ((varint_widths ⟨.little, fun _ _ => 0⟩ (b := 1) (by decide) hs .w32).2.2 .w64).1
    300 (by decide)⟩

end VarintWidth

end Dag
