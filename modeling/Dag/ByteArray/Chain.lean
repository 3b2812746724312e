import Dag.Foundation.Program
import Dag.Foundation.Slice

/-!
# The byte array: a chain of blocks

`ByteArray` keeps its bytes in a singly linked chain of blocks of one size, so that growing never
copies. Besides the chain it keeps four numbers and a pointer into the chain: the block size, the
logical position of the next byte to be read or written, the capacity, the size of what has been
written, and the node the position is in, which is null when the position is the capacity.

A chain is the list of its nodes from `m_root` on, and a node pointer the index of its node, or
`none` for null; following `next` from a node is going to the rest of the list. Dereferencing a
null pointer and copying past the end of a block are faults. `size_t` is read as `ℕ`: sizes stay
far below `2 ^ 53`, so that `ceil(1.0 * size / m_baseSize)` is the exact ceiling, and the two
differences `m_size - m_position` and `m_capacity - m_position` never wrap because the position is
never beyond the size, nor the size beyond the capacity (`WellFormed`).

## Main definitions

* `Platform`: what the program finds in its environment
* `ByteArray`: the state, `ByteArray.construct`: the state the constructor makes
* `write`, `read`, `setPosition`, `clear`, `getReadBuffers`, `getWriteBuffers`: the operations on
  raw bytes
-/

namespace Dag

open Foundation

/-- The byte orders of `utils/endian.h`, `DAG_LITTLE_ENDIAN` and `DAG_BIG_ENDIAN`. -/
inductive Endian
  | little
  | big
  deriving DecidableEq, Repr

/-- What the program finds in its environment: the byte order of the host, `DAG_BYTE_ORDER`, and
the bytes that the `k`-th block obtained from `new char[s]` happens to hold. -/
structure Platform where
  byteOrder : Endian
  junk : ℕ → ℕ → UInt8

/-- Undefined behaviour of the operations on the chain. -/
inductive Fault
  | nullPointer
  | overrun
  deriving DecidableEq, Repr

/-- `std::out_of_range`, with its message. -/
structure OutOfRange where
  what : String
  deriving DecidableEq, Repr

/-- A node of the chain: a block and its size. The chain itself stands for `next`. -/
structure Node where
  ptr : List UInt8
  size : ℕ
  length_ptr : ptr.length = size
  deriving DecidableEq

namespace Node

/-- `new Node(s)`, with the `k`-th block obtained from the allocator. -/
def alloc (π : Platform) (k s : ℕ) : Node where
  ptr := (List.range s).map (π.junk k)
  size := s
  length_ptr := by simp

/-- `memcpy(ptr + npos, src, n)`, with `n` the length of `src`. -/
def store (node : Node) (npos : ℕ) (src : List UInt8) : Except Fault Node :=
  if h : npos + src.length ≤ node.size then
    .ok ⟨splice node.ptr npos src, node.size, by
      rw [length_splice (by rw [node.length_ptr]; exact h), node.length_ptr]⟩
  else .error .overrun

/-- `memcpy(dst, ptr + npos, n)`: the bytes copied out. -/
def load (node : Node) (npos n : ℕ) : Except Fault (List UInt8) :=
  if npos + n ≤ node.size then .ok (slice node.ptr npos n) else .error .overrun

/-- Dereference the pointer to the first node of `chain`, null when there is none. -/
def deref : List Node → Except Fault Node
  | [] => .error .nullPointer
  | node :: _ => .ok node

end Node

/-- The state of a `ByteArray`. `blocks` counts the blocks obtained from the allocator so far. -/
structure ByteArray where
  baseSize : ℕ
  position : ℕ
  capacity : ℕ
  size : ℕ
  endian : Endian
  root : List Node
  cur : Option ℕ
  blocks : ℕ
  deriving DecidableEq

namespace ByteArray

/-- The operations of a byte array. -/
abbrev Op := Prog OutOfRange Fault ByteArray

/-- `ByteArray(base_size)`. -/
def construct (π : Platform) (baseSize : ℕ) : ByteArray where
  baseSize := baseSize
  position := 0
  capacity := baseSize
  size := 0
  endian := .big
  root := [Node.alloc π 0 baseSize]
  cur := some 0
  blocks := 1

def getReadSize (s : ByteArray) : ℕ := s.size - s.position

def getCapacity (s : ByteArray) : ℕ := s.capacity - s.position

def isLittleEndian (s : ByteArray) : Bool := s.endian = .little

/-- The pointer to the node of index `i`: null past the end of the chain. -/
def nodePtr (s : ByteArray) (i : ℕ) : Option ℕ := if i < s.root.length then some i else none

/-- The chain from the node that the pointer `p` points to. -/
def chainFrom (s : ByteArray) : Option ℕ → List Node
  | none => []
  | some i => s.root.drop i

/-- The chain from `m_root` on, when the nodes from the pointer `p` on have become `chain`. -/
def rootWith (s : ByteArray) (chain : List Node) : Option ℕ → List Node
  | none => s.root
  | some i => s.root.take i ++ chain

/-- The pointer `p` after following `next` `k` times. -/
def advance (s : ByteArray) (p : Option ℕ) (k : ℕ) : Option ℕ := p.bind fun i => s.nodePtr (i + k)

/-! ## Growing -/

/-- The loop of `addCapacity` that appends `count` nodes. -/
def appendNodes (π : Platform) : ℕ → ByteArray → ByteArray
  | 0, s => s
  | count + 1, s => appendNodes π count { s with
      root := s.root ++ [Node.alloc π s.blocks s.baseSize]
      capacity := s.capacity + s.baseSize
      blocks := s.blocks + 1 }

/-- `addCapacity(size)`: make room for `size` bytes from the position on. The first new node
becomes the current one when there was no room at all. -/
def addCapacity (π : Platform) (size : ℕ) : Op Unit := do
  if size = 0 then return
  let s ← Prog.get
  let oldCap := s.getCapacity
  if size ≤ oldCap then return
  let count := (size - oldCap + s.baseSize - 1) / s.baseSize
  -- the first node that the loop appends
  let first := if count = 0 then none else some s.root.length
  let t := appendNodes π count s
  Prog.set (if oldCap = 0 then { t with cur := first } else t)

/-! ## Writing and reading -/

/-- The loop of `write`, on the chain from the current node: the chain with `buf` copied into it,
and how often the current pointer moved on. -/
def writeLoop : List Node → (buf : List UInt8) → (npos ncap : ℕ) →
    Except Fault (List Node × ℕ)
  | [], buf, _, _ => if buf.length = 0 then .ok ([], 0) else .error .nullPointer
  | node :: next, buf, npos, ncap =>
    if buf.length = 0 then .ok (node :: next, 0)
    -- the rest fits: the pointer moves on when it ends on the end of the block
    else if buf.length ≤ ncap then do
      let node' ← node.store npos buf
      return (node' :: next, if node.size = npos + buf.length then 1 else 0)
    -- fill the block, and go on from the start of the next one
    else do
      let node' ← node.store npos (buf.take ncap)
      let ncap' := (← Node.deref next).size
      let (next', k) ← writeLoop next (buf.drop ncap) 0 ncap'
      return (node' :: next', k + 1)

/-- `write(buf, size)`. -/
def write (π : Platform) (buf : List UInt8) : Op Unit := do
  if buf.length = 0 then return
  addCapacity π buf.length
  let s ← Prog.get
  let npos := s.position % s.baseSize
  -- `m_cur` is dereferenced before the loop starts
  let ncap := (← Prog.lift (Node.deref (s.chainFrom s.cur))).size - npos
  let (chain, k) ← Prog.lift (writeLoop (s.chainFrom s.cur) buf npos ncap)
  let position := s.position + buf.length
  Prog.set { s with
    root := s.rootWith chain s.cur
    cur := s.advance s.cur k
    position := position
    size := if s.size < position then position else s.size }

/-- The loop of `read`, on the chain from the current node: the `size` bytes copied out, and how
often the current pointer moved on. -/
def readLoop : List Node → (size npos ncap : ℕ) → Except Fault (List UInt8 × ℕ)
  | [], size, _, _ => if size = 0 then .ok ([], 0) else .error .nullPointer
  | node :: next, size, npos, ncap =>
    if size = 0 then .ok ([], 0)
    else if size ≤ ncap then do
      let out ← node.load npos size
      return (out, if node.size = npos + size then 1 else 0)
    else do
      let out ← node.load npos ncap
      let ncap' := (← Node.deref next).size
      let (rest, k) ← readLoop next (size - ncap) 0 ncap'
      return (out ++ rest, k + 1)

/-- `read(buf, size)`: the bytes that land in `buf`. -/
def read (size : ℕ) : Op (List UInt8) := do
  let s ← Prog.get
  if s.getReadSize < size then Prog.throw ⟨"not enough len"⟩
  else
    let npos := s.position % s.baseSize
    let ncap := (← Prog.lift (Node.deref (s.chainFrom s.cur))).size - npos
    let (out, k) ← Prog.lift (readLoop (s.chainFrom s.cur) size npos ncap)
    Prog.set { s with cur := s.advance s.cur k, position := s.position + size }
    return out

/-! ## Moving the position -/

/-- The loop of `setPosition` and the test after it, from the node of index `i` on: the index of
the node the position is in, which is past the end of the chain when the pointer is null. -/
def seek : List Node → (i v : ℕ) → Except Fault ℕ
  | [], _, _ => .error .nullPointer
  | node :: next, i, v =>
    if node.size < v then seek next (i + 1) (v - node.size)
    -- the test behind the loop: `m_cur = m_cur->next`
    else if v = node.size then .ok (i + 1)
    else .ok i

/-- `setPosition(v)`. -/
def setPosition (v : ℕ) : Op Unit := do
  let s ← Prog.get
  if s.capacity < v then Prog.throw ⟨"set_position out of range"⟩
  else
    let i ← Prog.lift (seek s.root 0 v)
    Prog.set { s with
      position := v
      size := if s.size < v then v else s.size
      cur := s.nodePtr i }

/-- `clear()`: all nodes but the root are deleted. -/
def clear : Op Unit := do
  let s ← Prog.get
  let node ← Prog.lift (Node.deref s.root)
  -- the capacity is that of the root alone
  Prog.set { s with
    position := 0
    size := 0
    capacity := s.baseSize
    root := [node]
    cur := some 0 }

/-- `setIsLittleEndian(val)`. -/
def setIsLittleEndian (val : Bool) : Op Unit := do
  let s ← Prog.get
  Prog.set { s with endian := if val then .little else .big }

/-! ## Scatter and gather -/

/-- An `iovec`: `iov_len` bytes from the byte `npos` of the block of node `node` on. -/
structure Iovec where
  node : ℕ
  npos : ℕ
  len : ℕ
  deriving DecidableEq, Repr

/-- The loop of `getReadBuffers` and of `getWriteBuffers`, on the chain from the node of index
`i`: the `iovec`s pushed. -/
def buffersLoop : List Node → (i len npos ncap : ℕ) → Except Fault (List Iovec)
  | [], _, len, _, _ => if len = 0 then .ok [] else .error .nullPointer
  | _ :: next, i, len, npos, ncap =>
    if len = 0 then .ok []
    else if len ≤ ncap then .ok [⟨i, npos, len⟩]
    else do
      let ncap' := (← Node.deref next).size
      let rest ← buffersLoop next (i + 1) (len - ncap) 0 ncap'
      return ⟨i, npos, ncap⟩ :: rest

/-- The `iovec`s of `len` bytes from the current position on. -/
def buffersAt (s : ByteArray) (len : ℕ) : Except Fault (List Iovec) := do
  let npos := s.position % s.baseSize
  let ncap := (← Node.deref (s.chainFrom s.cur)).size - npos
  buffersLoop (s.chainFrom s.cur) (s.cur.getD 0) len npos ncap

/-- `getReadBuffers(buffers, len)`: the total length returned, and the `iovec`s appended. -/
def getReadBuffers (len : ℕ) : Op (ℕ × List Iovec) := do
  let s ← Prog.get
  let len := if s.getReadSize < len then s.getReadSize else len
  if len = 0 then return (0, [])
  let iovs ← Prog.lift (buffersAt s len)
  return (len, iovs)

/-- `getReadBuffers(buffers, len, position)`. The length is cut to what is readable from the
*current* position. -/
def getReadBuffersFrom (len position : ℕ) : Op (ℕ × List Iovec) := do
  let s ← Prog.get
  let len := if s.getReadSize < len then s.getReadSize else len
  if len = 0 then return (0, [])
  let npos := position % s.baseSize
  let count := position / s.baseSize
  -- `next` has been followed `count` times from the root, which may run off the chain
  let ncap := (← Prog.lift (Node.deref (s.root.drop count))).size - npos
  let iovs ← Prog.lift (buffersLoop (s.root.drop count) count len npos ncap)
  return (len, iovs)

/-- `getWriteBuffers(buffers, len)`. -/
def getWriteBuffers (π : Platform) (len : ℕ) : Op (ℕ × List Iovec) := do
  if len = 0 then return (0, [])
  addCapacity π len
  let s ← Prog.get
  let iovs ← Prog.lift (buffersAt s len)
  return (len, iovs)

end ByteArray

end Dag
