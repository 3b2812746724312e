import Dag.ByteArray.Chain
import Dag.Foundation.Codec

/-!
# The byte array: typed writers and readers

The typed writers turn a value into bytes and hand them to `write`; the typed readers take bytes
with `read` and turn them back. The string readers here are those for lengths of which there is room
for the buffer; `readTyped` has the call of `resize` as well, which may throw. An integer type of `n`
bytes is the bit vectors of width `8 * n`, signed and unsigned alike: `value` and `(T)value` have the
same bits. What `write(&value, n)` copies is the memory image of the value, which depends on the byte
order of the host.

## Main definitions

* `toInt32`, `toInt64`: a number converted to `int` and to `int64_t`
* `Endian.image`, `Endian.value`: a number in memory, in a byte order
* `byteswap`, `encodeZigzag`, `decodeZigzag`, `varintBytes`: the conversions
* `writeFint8`, …, `writeStringVint`, `readFint8`, …, `readStringVint`: the typed operations
* `Value`, `Format`: what can be written, and what a reader has to be told to read it
* `writeValue`, `readValue`: the writer of a value, and the reader of a format
-/

namespace Dag

open Foundation

/-! ## Conversions -/

/-- The value of `int` that `x` is converted to. -/
def toInt32 (x : ℤ) : ℤ := x.bmod (2 ^ 32)

/-- The value of `int64_t` that `x` is converted to. -/
def toInt64 (x : ℤ) : ℤ := x.bmod (2 ^ 64)

theorem toInt32_of_le {n : ℕ} (h : n ≤ 2147483647) : toInt32 n = n :=
  Int.bmod_eq_of_le (by omega) (by omega)

theorem toInt32_pos_iff (n : ℕ) : 0 < toInt32 n ↔ 0 < n % 2 ^ 32 ∧ n % 2 ^ 32 < 2 ^ 31 := by
  rw [toInt32, Int.bmod]
  omega

theorem toInt64_of_lt {n : ℕ} (h : n < 2 ^ 63) : toInt64 n = n :=
  Int.bmod_eq_of_le (by omega) (by omega)

/-! ## Numbers in memory -/

/-- The `n` bytes of the number `v` in memory. -/
def Endian.image (e : Endian) (n v : ℕ) : List UInt8 :=
  match e with
  | .little => leBytes n v
  | .big => (leBytes n v).reverse

/-- The number that bytes in memory stand for. -/
def Endian.value (e : Endian) (bytes : List UInt8) : ℕ :=
  match e with
  | .little => leValue bytes
  | .big => leValue bytes.reverse

/-- `byteswap(value)`, that is `bswap_16`, `bswap_32` or `bswap_64`: the bytes in reverse. -/
def byteswap {n : ℕ} (value : BitVec (8 * n)) : BitVec (8 * n) :=
  BitVec.ofNat _ (leValue (leBytes n value.toNat).reverse)

/-- `EncodeZigzag32(v)` and `EncodeZigzag64(v)`, on two's complement. -/
def encodeZigzag {w : ℕ} (v : BitVec w) : BitVec w :=
  if v.slt 0 then -v * 2 - 1 else v * 2

/-- `DecodeZigzag32(v)` and `DecodeZigzag64(v)`. -/
def decodeZigzag {w : ℕ} (v : BitVec w) : BitVec w := (v >>> 1) ^^^ -(v &&& 1)

/-- The bytes that the loop of `writeUint32` and of `writeUint64` stores in `tmp`. -/
def varintBytes {w : ℕ} (value : BitVec w) : List UInt8 :=
  -- `tmp[i++] = (value & 0x7F) | 0x80`
  if 0x80 ≤ value.toNat then
    UInt8.ofNat ((value &&& 0x7F) ||| 0x80).toNat :: varintBytes (value >>> 7)
  else [UInt8.ofNat value.toNat]
termination_by value.toNat
decreasing_by
  rw [BitVec.toNat_ushiftRight, Nat.shiftRight_eq_div_pow]
  omega

namespace ByteArray

variable (π : Platform)

/-! ## Writers -/

/-- `write(&value, n)` after the byte swap that the array's byte order asks for. -/
def writeFixed (n : ℕ) (value : BitVec (8 * n)) : Op Unit := do
  let s ← Prog.get
  let value := if s.endian ≠ π.byteOrder then byteswap value else value
  write π (π.byteOrder.image n value.toNat)

def writeFint8 (value : BitVec 8) : Op Unit := write π (π.byteOrder.image 1 value.toNat)
def writeFuint8 (value : BitVec 8) : Op Unit := write π (π.byteOrder.image 1 value.toNat)
def writeFint16 (value : BitVec 16) : Op Unit := writeFixed π 2 value
def writeFuint16 (value : BitVec 16) : Op Unit := writeFixed π 2 value
def writeFint32 (value : BitVec 32) : Op Unit := writeFixed π 4 value
def writeFuint32 (value : BitVec 32) : Op Unit := writeFixed π 4 value
def writeFint64 (value : BitVec 64) : Op Unit := writeFixed π 8 value
def writeFuint64 (value : BitVec 64) : Op Unit := writeFixed π 8 value

def writeUint32 (value : BitVec 32) : Op Unit := write π (varintBytes value)
def writeInt32 (value : BitVec 32) : Op Unit := writeUint32 π (encodeZigzag value)
def writeUint64 (value : BitVec 64) : Op Unit := write π (varintBytes value)
def writeInt64 (value : BitVec 64) : Op Unit := writeUint64 π (encodeZigzag value)

/-- `writeFloat(value)`, on the bits of the value. -/
def writeFloat (value : BitVec 32) : Op Unit := writeFuint32 π value

/-- `writeDouble(value)`, on the bits of the value. -/
def writeDouble (value : BitVec 64) : Op Unit := writeFuint64 π value

/-- A string writer: the length by `prefixWriter`, which converts it to its own type, then the
bytes. -/
def writeString {w : ℕ} (prefixWriter : BitVec w → Op Unit) (value : List UInt8) : Op Unit := do
  prefixWriter (BitVec.ofNat w value.length)
  write π value

def writeStringF16 : List UInt8 → Op Unit := writeString π (writeFuint16 π)
def writeStringF32 : List UInt8 → Op Unit := writeString π (writeFuint32 π)
def writeStringF64 : List UInt8 → Op Unit := writeString π (writeFuint64 π)
def writeStringVint : List UInt8 → Op Unit := writeString π (writeUint64 π)
def writeStringWithoutLength (value : List UInt8) : Op Unit := write π value

/-! ## Readers -/

/-- `read(&v, n)`, and the byte swap that the array's byte order asks for. -/
def readFixed (n : ℕ) : Op (BitVec (8 * n)) := do
  let bytes ← read n
  let v := BitVec.ofNat (8 * n) (π.byteOrder.value bytes)
  let s ← Prog.get
  return if s.endian = π.byteOrder then v else byteswap v

def readFint8 : Op (BitVec 8) := do return BitVec.ofNat 8 (π.byteOrder.value (← read 1))
def readFuint8 : Op (BitVec 8) := do return BitVec.ofNat 8 (π.byteOrder.value (← read 1))
def readFint16 : Op (BitVec 16) := readFixed π 2
def readFuint16 : Op (BitVec 16) := readFixed π 2
def readFint32 : Op (BitVec 32) := readFixed π 4
def readFuint32 : Op (BitVec 32) := readFixed π 4
def readFint64 : Op (BitVec 64) := readFixed π 8
def readFuint64 : Op (BitVec 64) := readFixed π 8

/-- The loop of `readUint32` and `readUint64`, with `count` of its passes left and `i` the next
shift. -/
def readVarintLoop (w : ℕ) : (count i : ℕ) → (result : BitVec w) → Op (BitVec w)
  | 0, _, result => return result
  | count + 1, i, result => do
    let b ← readFuint8 π
    -- the last byte is not masked: its bit 7 is clear
    if b < 0x80 then return result ||| (b.setWidth w <<< i)
    else readVarintLoop w count (i + 7) (result ||| ((b &&& 0x7F).setWidth w <<< i))

/-- `for(int i = 0; i < w; i += 7)` makes this many passes. -/
def varintPasses (w : ℕ) : ℕ := (w + 6) / 7

def readUint32 : Op (BitVec 32) := readVarintLoop π 32 (varintPasses 32) 0 0
def readInt32 : Op (BitVec 32) := do return decodeZigzag (← readUint32 π)
def readUint64 : Op (BitVec 64) := readVarintLoop π 64 (varintPasses 64) 0 0
def readInt64 : Op (BitVec 64) := do return decodeZigzag (← readUint64 π)

/-- `readFloat()`, on the bits of the value. -/
def readFloat : Op (BitVec 32) := readFuint32 π

/-- `readDouble()`, on the bits of the value. -/
def readDouble : Op (BitVec 64) := readFuint64 π

/-- A string reader: the length by `prefixReader`, then that many bytes. It is the reader of the source
where `buff.resize(len)`, which comes in between, has room for so many; `StringFormat.readResizing` is
the one with that call. -/
def readString {w : ℕ} (prefixReader : Op (BitVec w)) : Op (List UInt8) := do
  let len ← prefixReader
  read len.toNat

def readStringF16 : Op (List UInt8) := readString (readFuint16 π)
def readStringF32 : Op (List UInt8) := readString (readFuint32 π)
def readStringF64 : Op (List UInt8) := readString (readFuint64 π)
def readStringVint : Op (List UInt8) := readString (readUint64 π)

end ByteArray

/-! ## Values and formats -/

/-- A value together with the writer it is meant for. -/
inductive Value
  | fint8 (v : BitVec 8)
  | fuint8 (v : BitVec 8)
  | fint16 (v : BitVec 16)
  | fuint16 (v : BitVec 16)
  | fint32 (v : BitVec 32)
  | fuint32 (v : BitVec 32)
  | fint64 (v : BitVec 64)
  | fuint64 (v : BitVec 64)
  | int32 (v : BitVec 32)
  | uint32 (v : BitVec 32)
  | int64 (v : BitVec 64)
  | uint64 (v : BitVec 64)
  | float (bits : BitVec 32)
  | double (bits : BitVec 64)
  | stringF16 (s : List UInt8)
  | stringF32 (s : List UInt8)
  | stringF64 (s : List UInt8)
  | stringVint (s : List UInt8)
  deriving DecidableEq, Repr

/-- A typed reader. -/
inductive Format
  | fint8 | fuint8 | fint16 | fuint16 | fint32 | fuint32 | fint64 | fuint64
  | int32 | uint32 | int64 | uint64 | float | double
  | stringF16 | stringF32 | stringF64 | stringVint
  deriving DecidableEq, Repr

/-- The reader that matches the writer of a value. -/
def Value.format : Value → Format
  | .fint8 _ => .fint8
  | .fuint8 _ => .fuint8
  | .fint16 _ => .fint16
  | .fuint16 _ => .fuint16
  | .fint32 _ => .fint32
  | .fuint32 _ => .fuint32
  | .fint64 _ => .fint64
  | .fuint64 _ => .fuint64
  | .int32 _ => .int32
  | .uint32 _ => .uint32
  | .int64 _ => .int64
  | .uint64 _ => .uint64
  | .float _ => .float
  | .double _ => .double
  | .stringF16 _ => .stringF16
  | .stringF32 _ => .stringF32
  | .stringF64 _ => .stringF64
  | .stringVint _ => .stringVint

namespace ByteArray

variable (π : Platform)

def writeValue : Value → Op Unit
  | .fint8 v => writeFint8 π v
  | .fuint8 v => writeFuint8 π v
  | .fint16 v => writeFint16 π v
  | .fuint16 v => writeFuint16 π v
  | .fint32 v => writeFint32 π v
  | .fuint32 v => writeFuint32 π v
  | .fint64 v => writeFint64 π v
  | .fuint64 v => writeFuint64 π v
  | .int32 v => writeInt32 π v
  | .uint32 v => writeUint32 π v
  | .int64 v => writeInt64 π v
  | .uint64 v => writeUint64 π v
  | .float v => writeFloat π v
  | .double v => writeDouble π v
  | .stringF16 s => writeStringF16 π s
  | .stringF32 s => writeStringF32 π s
  | .stringF64 s => writeStringF64 π s
  | .stringVint s => writeStringVint π s

/-- The reader of a format. For strings it is the one that has room for the buffer, which `readTyped`
does without. -/
def readValue : Format → Op Value
  | .fint8 => .fint8 <$> readFint8 π
  | .fuint8 => .fuint8 <$> readFuint8 π
  | .fint16 => .fint16 <$> readFint16 π
  | .fuint16 => .fuint16 <$> readFuint16 π
  | .fint32 => .fint32 <$> readFint32 π
  | .fuint32 => .fuint32 <$> readFuint32 π
  | .fint64 => .fint64 <$> readFint64 π
  | .fuint64 => .fuint64 <$> readFuint64 π
  | .int32 => .int32 <$> readInt32 π
  | .uint32 => .uint32 <$> readUint32 π
  | .int64 => .int64 <$> readInt64 π
  | .uint64 => .uint64 <$> readUint64 π
  | .float => .float <$> readFloat π
  | .double => .double <$> readDouble π
  | .stringF16 => .stringF16 <$> readStringF16 π
  | .stringF32 => .stringF32 <$> readStringF32 π
  | .stringF64 => .stringF64 <$> readStringF64 π
  | .stringVint => .stringVint <$> readStringVint π

end ByteArray

end Dag
