import Dag.ByteArray.Gather
import Dag.ByteArray.Runs

/-!
# The byte array: reads from a position of the caller's choice

`read(buf, size, position)` and `getReadBuffers(buffers, len, position)` do not use the position of
the byte array, and walk the chain from its root. Both still read something that belongs to it: the
first takes the room in the first block from the current node, which is null when the position is
the capacity, and the second cuts the length to what is readable from the current position. The
bound of the first is a difference of unsigned numbers, which wraps for positions behind the size.

## Main definitions

* `sizeSub`: the difference in `size_t`
* `readAt`: `read(buf, size, position)`
* `Agrees`, `Rejects`, `GathersFrom`: what a caller expects of the two operations

## Main results

* `agrees_iff`: the positional read is the sequential one exactly while the current node is not null
* `rejects_iff`: it rejects what is not stored, positions behind the size excepted for which the
  bound has wrapped
* `gathersFrom_iff`: the positional gather is right for the current position, and for lengths that
  are readable from both
-/

namespace Dag

open Foundation

namespace ByteArray

/-- The difference of two values of `size_t`, which wraps below 0. -/
def sizeSub (m n : ℕ) : ℕ := if n ≤ m then m - n else 2 ^ 64 - (n - m)

/-- `cur = cur->next`, `k` times. -/
def walk : List Node → (k : ℕ) → Except Fault (List Node)
  | chain, 0 => .ok chain
  | [], _ + 1 => .error .nullPointer
  | _ :: next, k + 1 => walk next k

/-- `read(buf, size, position)`: the bytes that land in `buf`. The operation is `const`: it works on
a pointer of its own. -/
def readAt (size position : ℕ) : Op (List UInt8) := do
  let s ← Prog.get
  if sizeSub s.size position < size then Prog.throw ⟨"not enough len"⟩
  else
    let cur ← Prog.lift (walk s.root (position / s.baseSize))
    let npos := position % s.baseSize
    -- the room is that of `m_cur`, and not of the node the walk has come to
    let ncap := (← Prog.lift (Node.deref (s.chainFrom s.cur))).size - npos
    let (out, _) ← Prog.lift (readLoop cur size npos ncap)
    return out

/-- The positional read returns what `setPosition(position)` and `read(buf, size)` return on a copy
of the byte array. -/
def Agrees (s : ByteArray) (size position : ℕ) : Prop :=
  ∃ out t u, setPosition position s = .ok () t ∧ read size t = .ok out u ∧
    readAt size position s = .ok out s

/-- The positional read throws exactly when the bytes it is asked for are not all stored, and it
never leaves the chain. -/
def Rejects (s : ByteArray) (size position : ℕ) : Prop :=
  ((∃ e t, readAt size position s = .throw e t) ↔ s.size < position + size) ∧
    ∀ g, readAt size position s ≠ .fault g

/-- The positional gather covers the stored bytes from `position` on, as many as there are and not
more than `len`. -/
def GathersFrom (s : ByteArray) (len position : ℕ) : Prop :=
  ∃ iovs, getReadBuffersFrom len position s = .ok (min len (s.size - position), iovs) s ∧
    gather s.root iovs = .ok (slice s.stored position (min len (s.size - position)))

/-! ## The positional read -/

section Read

variable {s : ByteArray} {size position : ℕ}

theorem walk_eq : ∀ {k : ℕ} {chain : List Node}, k ≤ chain.length →
    walk chain k = .ok (chain.drop k) := by
  intro k
  induction k with
  | zero =>
    intro chain _
    rw [walk, List.drop_zero]
  | succ k ih =>
    intro chain hk
    cases chain with
    | nil => exact absurd hk (Nat.not_succ_le_zero k)
    | cons node next => exact ih (Nat.le_of_succ_le_succ hk)

theorem sizeSub_of_le {m n : ℕ} (h : n ≤ m) : sizeSub m n = m - n := if_pos h

theorem sizeSub_of_lt {m n : ℕ} (h : m < n) : sizeSub m n = 2 ^ 64 - (n - m) :=
  if_neg (Nat.not_le.mpr h)

theorem readAt_throw (h : sizeSub s.size position < size) :
    readAt size position s = .throw ⟨"not enough len"⟩ s := by
  simp [readAt, h]

/-- Nothing is thrown behind the bound. -/
theorem not_throw_of_le (h : size ≤ sizeSub s.size position) (e : OutOfRange) (t : ByteArray) :
    readAt size position s ≠ .throw e t := by
  rw [readAt, Prog.get_bind, if_neg (Nat.not_lt.mpr h)]
  cases walk s.root (position / s.baseSize) with
  | error g => exact nofun
  | ok cur =>
    rw [Prog.lift_bind]
    cases Node.deref (s.chainFrom s.cur) with
    | error g => exact nofun
    | ok node =>
      rw [Prog.lift_bind]
      cases readLoop cur size (position % s.baseSize) (node.size - position % s.baseSize) with
      | error g => exact nofun
      | ok out => exact nofun

/-- **The positional read** of bytes that are stored, while the current node is not null. -/
theorem readAt_eq (h : s.WellFormed) (hp : s.position < s.capacity) (hn : size ≠ 0)
    (hin : position + size ≤ s.size) :
    readAt size position s = .ok (slice s.stored position size) s := by
  have hsc := h.size_le
  have hm : (s.movedTo position).WellFormed := h.movedTo (by omega)
  have hlt : (s.movedTo position).position < (s.movedTo position).capacity := by
    change position < s.capacity
    omega
  have hwalk := walk_eq (Nat.le_of_lt (hm.node_lt hlt))
  have hrun := readLoop_of_room hm hn (by change position + size ≤ s.capacity; omega)
  obtain ⟨node, hderef, hnode⟩ := h.deref_cur hp
  have hthrow : ¬ sizeSub s.size position < size := by
    rw [sizeSub_of_le (by omega)]
    omega
  rw [readAt, Prog.get_bind, if_neg hthrow]
  change walk s.root (position / s.baseSize) = .ok (s.root.drop (position / s.baseSize)) at hwalk
  change readLoop (s.root.drop (position / s.baseSize)) size (position % s.baseSize)
    (s.baseSize - position % s.baseSize) = _ at hrun
  simp only [hwalk, hderef, hnode, hrun, Prog.lift_bind, Prog.pure_apply]
  rw [stored, slice_take hin]
  rfl

/-- Where the position is the capacity the current node is null, and it is dereferenced. -/
theorem readAt_fault (h : s.WellFormed) (hp : ¬ s.position < s.capacity)
    (hin : position + size ≤ s.size) : readAt size position s = .fault .nullPointer := by
  have hsc := h.size_le
  have hcur : s.cur = none := by rw [h.cur_eq, nodeAt, if_neg hp]
  have hthrow : ¬ sizeSub s.size position < size := by
    rw [sizeSub_of_le (by omega)]
    omega
  have hle : position / s.baseSize ≤ s.root.length := by
    apply Nat.div_le_of_le_mul
    rw [← h.capacity_eq]
    omega
  simp only [readAt, Prog.get_bind, if_neg hthrow, walk_eq hle, Prog.lift_bind, hcur, chainFrom,
    Node.deref, Prog.bind_fault (Prog.lift_error _ _)]

/-- **The positional read agrees with the sequential one** in the reachable states whose current
node is not null, and in no others. -/
theorem agrees_iff (π : Platform) {b : ℕ} (hb : 1 ≤ b) {calls : List Call}
    (h : exec (step π) (construct π b) calls = some s) (hsize : 1 ≤ size)
    (hin : position + size ≤ s.size) :
    Agrees s size position ↔ s.position < s.capacity := by
  have hs := (wellFormed_of_exec π hb h).1
  constructor
  · rintro ⟨out, t, u, -, -, hread⟩
    by_contra hp
    rw [readAt_fault hs hp hin] at hread
    cases hread
  · intro hp
    have hsc := hs.size_le
    have hm : (s.movedTo position).WellFormed := hs.movedTo (by omega)
    have hset := setPosition_eq hs (v := position) (by omega)
    rw [movedTo_max_of_le (by omega)] at hset
    have hread := read_eq hm (n := size) (by omega) (Nat.le_sub_of_add_le' hin)
    have hslice : slice (s.movedTo position).mem (s.movedTo position).position size =
        slice s.stored position size := (slice_take hin).symm
    rw [hslice] at hread
    exact ⟨_, _, _, hset, hread, readAt_eq hs hp (by omega) hin⟩

theorem agrees_iff_three_bytes :
    ∃ s, exec (step ⟨.little, fun _ _ => 0⟩) (construct ⟨.little, fun _ _ => 0⟩ 4)
        [.write [1, 2, 3]] = some s ∧ (Agrees s 2 1 ↔ s.position < s.capacity) := by
  obtain ⟨s, hs⟩ : ∃ s, exec (step ⟨.little, fun _ _ => 0⟩) (construct ⟨.little, fun _ _ => 0⟩ 4)
      [.write [1, 2, 3]] = some s := ⟨_, rfl⟩
  refine ⟨s, hs, agrees_iff ⟨.little, fun _ _ => 0⟩ (b := 4) (by decide) hs (by decide) ?_⟩
  obtain rfl := Option.some.inj hs
  decide

/-- One byte fills a chain of one block of one byte. -/
theorem not_agrees_of_full :
    ¬ ∀ (π : Platform) (b : ℕ) (calls : List Call) (s : ByteArray) (size position : ℕ), 1 ≤ b →
      exec (step π) (construct π b) calls = some s → 1 ≤ size → position + size ≤ s.size →
        Agrees s size position := by
  intro h
  obtain ⟨out, t, u, -, -, hread⟩ := h ⟨.little, fun _ _ => 0⟩ 1 [.write [7]] _ 1 0 (by decide) rfl
    (by decide) (by decide)
  cases hread

/-- **What the positional read rejects**, in the reachable states whose current node is not null. -/
theorem rejects_iff (π : Platform) {b : ℕ} (hb : 1 ≤ b) {calls : List Call}
    (h : exec (step π) (construct π b) calls = some s) (hp : s.position < s.capacity)
    (hsize : 1 ≤ size) (hsize' : size < 2 ^ 64) (hposition : position < 2 ^ 64) :
    Rejects s size position ↔ position ≤ s.size ∨ 2 ^ 64 + s.size < position + size := by
  have hs := (wellFormed_of_exec π hb h).1
  rcases Nat.lt_or_ge (sizeSub s.size position) size with hthrow | hreturn
  · -- the bound is exceeded: the difference is not larger than the true one
    have hrun := readAt_throw hthrow
    have hrejects : Rejects s size position ↔ s.size < position + size := by
      rw [Rejects, hrun]
      exact ⟨fun hr => hr.1.mp ⟨_, _, rfl⟩, fun hlt => ⟨iff_of_true ⟨_, _, rfl⟩ hlt, nofun⟩⟩
    rw [hrejects]
    rcases Nat.lt_or_ge s.size position with hlt | hle
    · rw [sizeSub_of_lt hlt] at hthrow
      omega
    · rw [sizeSub_of_le hle] at hthrow
      omega
  · rcases Nat.lt_or_ge s.size position with hlt | hle
    · -- the difference has wrapped, and nothing is thrown
      rw [sizeSub_of_lt hlt] at hreturn
      refine iff_of_false (fun hr => ?_) (by omega)
      obtain ⟨e, t, ht⟩ := hr.1.mpr (by omega)
      exact not_throw_of_le (by rw [sizeSub_of_lt hlt]; exact hreturn) e t ht
    · rw [sizeSub_of_le hle] at hreturn
      have hin : position + size ≤ s.size := by omega
      have hrun := readAt_eq hs hp (by omega) hin
      refine iff_of_true ⟨iff_of_false ?_ (by omega), ?_⟩ (Or.inl hle)
      · rw [hrun]
        exact nofun
      · rw [hrun]
        exact nofun

theorem rejects_iff_one_byte :
    ∃ s, exec (step ⟨.little, fun _ _ => 0⟩) (construct ⟨.little, fun _ _ => 0⟩ 4)
        [.write [1]] = some s ∧
      (Rejects s 1 2 ↔ 2 ≤ s.size ∨ 2 ^ 64 + s.size < 2 + 1) := by
  obtain ⟨s, hs⟩ : ∃ s, exec (step ⟨.little, fun _ _ => 0⟩) (construct ⟨.little, fun _ _ => 0⟩ 4)
      [.write [1]] = some s := ⟨_, rfl⟩
  refine ⟨s, hs, rejects_iff ⟨.little, fun _ _ => 0⟩ (b := 4) (by decide) hs ?_ (by decide)
    (by decide) (by decide)⟩
  obtain rfl := Option.some.inj hs
  decide

/-- One byte is stored, and one is asked for at the position 100. -/
theorem not_rejects_of_behind :
    ¬ ∀ (π : Platform) (b : ℕ) (calls : List Call) (s : ByteArray) (size position : ℕ), 1 ≤ b →
      exec (step π) (construct π b) calls = some s → s.position < s.capacity → 1 ≤ size →
        size < 2 ^ 64 → position < 2 ^ 64 → Rejects s size position := by
  intro h
  have hrejects := h ⟨.little, fun _ _ => 0⟩ 4 [.write [1]] _ 1 100 (by decide) rfl (by decide)
    (by decide) (by decide) (by decide)
  exact hrejects.2 .nullPointer rfl

end Read

/-! ## The positional gather -/

section Gather

variable {s t : ByteArray} {len position k : ℕ} {iovs : List Iovec}

/-- The length is cut to what is readable from the current position. -/
theorem fst_of_getReadBuffersFrom (h : getReadBuffersFrom len position s = .ok (k, iovs) t) :
    k = min len s.getReadSize := by
  have hmin : (if s.getReadSize < len then s.getReadSize else len) = min len s.getReadSize := by
    rw [min_comm, min_def_lt]
  rw [getReadBuffersFrom, Prog.get_bind, hmin] at h
  dsimp only at h
  split_ifs at h with h0
  · cases h
    exact h0.symm
  · obtain ⟨node, u, -, h⟩ := Prog.of_bind_ok h
    obtain ⟨vs, v, -, h⟩ := Prog.of_bind_ok h
    cases h
    rfl

/-- Where the memory has as many bytes from the position asked for on, they are covered. -/
theorem getReadBuffersFrom_eq (h : s.WellFormed)
    (hroom : position + min len s.getReadSize ≤ s.size) :
    ∃ iovs, getReadBuffersFrom len position s = .ok (min len s.getReadSize, iovs) s ∧
      Tiles s.baseSize s.root.length position (min len s.getReadSize) iovs := by
  have hsc := h.size_le
  have hmin : (if s.getReadSize < len then s.getReadSize else len) = min len s.getReadSize := by
    rw [min_comm, min_def_lt]
  by_cases h0 : min len s.getReadSize = 0
  · refine ⟨[], by simp [getReadBuffersFrom, hmin, h0], ?_⟩
    rw [h0]
    exact Tiles.nil _
  · have hm : (s.movedTo position).WellFormed := h.movedTo (by omega)
    have hlt : (s.movedTo position).position < (s.movedTo position).capacity := by
      change position < s.capacity
      omega
    obtain ⟨iovs, hiovs, hcovers⟩ := buffersAt_eq hm h0
      (by change position + _ ≤ s.capacity; omega)
    obtain ⟨node, hderef, -⟩ := hm.deref_cur hlt
    have hchain : (s.movedTo position).chainFrom (s.movedTo position).cur =
        s.root.drop (position / s.baseSize) := by
      rw [hm.cur_of_lt hlt]
      rfl
    have hcur : (s.movedTo position).cur.getD 0 = position / s.baseSize := by
      rw [hm.cur_of_lt hlt]
      rfl
    rw [hchain] at hderef
    simp only [buffersAt, hchain, hderef, hcur, bind, Except.bind] at hiovs
    refine ⟨iovs, ?_, hcovers⟩
    rw [getReadBuffersFrom, Prog.get_bind, hmin]
    simp only [if_neg h0, hderef, Prog.lift_bind]
    change buffersLoop (s.root.drop (position / s.baseSize)) (position / s.baseSize)
      (min len s.getReadSize) (position % s.baseSize) (node.size - position % s.baseSize) = _
      at hiovs
    rw [hiovs]
    rfl

/-- **What the positional gather covers**, in every reachable state: what it should, exactly when
the position is the current one or `len` bytes are readable from both. -/
theorem gathersFrom_iff (π : Platform) {b : ℕ} (hb : 1 ≤ b) {calls : List Call}
    (h : exec (step π) (construct π b) calls = some s) (hposition : position ≤ s.size) :
    GathersFrom s len position ↔
      position = s.position ∨ len ≤ s.size - s.position ∧ len ≤ s.size - position := by
  have hs := (wellFormed_of_exec π hb h).1
  have hps := hs.position_le
  constructor
  · rintro ⟨iovs, hrun, -⟩
    have hfst := fst_of_getReadBuffersFrom hrun
    unfold getReadSize at hfst
    omega
  · intro hcond
    have hcut : min len s.getReadSize = min len (s.size - position) := by
      unfold getReadSize
      omega
    have hroom : position + min len s.getReadSize ≤ s.size := by
      rw [hcut]
      omega
    obtain ⟨iovs, hrun, htiles⟩ := getReadBuffersFrom_eq hs hroom
    rw [hcut] at hrun htiles
    refine ⟨iovs, hrun, ?_⟩
    rw [gather_eq hs.node_size htiles, stored, slice_take (by omega)]
    rfl

theorem gathersFrom_iff_start :
    ∃ s, exec (step ⟨.little, fun _ _ => 0⟩) (construct ⟨.little, fun _ _ => 0⟩ 2)
        [.write [1, 2, 3], .setPosition 1] = some s ∧
      (GathersFrom s 2 0 ↔ 0 = s.position ∨ 2 ≤ s.size - s.position ∧ 2 ≤ s.size - 0) := by
  obtain ⟨s, hs⟩ : ∃ s, exec (step ⟨.little, fun _ _ => 0⟩) (construct ⟨.little, fun _ _ => 0⟩ 2)
      [.write [1, 2, 3], .setPosition 1] = some s := ⟨_, rfl⟩
  exact ⟨s, hs, gathersFrom_iff ⟨.little, fun _ _ => 0⟩ (b := 2) (by decide) hs (Nat.zero_le _)⟩

/-- Three bytes have been written, and are to be gathered from the start without moving the
position back. -/
theorem not_gathersFrom_of_behind :
    ¬ ∀ (π : Platform) (b : ℕ) (calls : List Call) (s : ByteArray) (len position : ℕ), 1 ≤ b →
      exec (step π) (construct π b) calls = some s → position ≤ s.size →
        GathersFrom s len position := by
  intro h
  obtain ⟨iovs, hrun, -⟩ := h ⟨.little, fun _ _ => 0⟩ 10 [.write [1, 2, 3]] _ 3 0 (by decide) rfl
    (by decide)
  cases hrun

end Gather

end ByteArray

end Dag
