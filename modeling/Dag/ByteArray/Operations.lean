import Dag.ByteArray.WellFormed

/-!
# The byte array: the operations on raw bytes

Under the representation invariant every operation on raw bytes is computed exactly, as an
operation on the memory `ByteArray.mem` and the three numbers position, size and capacity, and it
restores the invariant.

## Main definitions

* `growth b c need`: the number of blocks of size `b` that a memory of `c` bytes lacks to hold
  `need` bytes
* `Grows`, `Writes`, `Clears`: what `addCapacity`, `write` and `clear` do

## Main results

* `addCapacity_eq`, `write_eq`, `read_eq`, `setPosition_eq`, `clear_eq`, `getReadBuffers_eq`,
  `getWriteBuffers_eq`: the operations from a well-formed state
* `read_throw`, `setPosition_throw`: the exceptions, which leave the state as it was
-/

namespace Dag

open Foundation

namespace ByteArray

/-! ## Growing -/

/-- The number of blocks of size `b` that a memory of `c` bytes lacks to hold `need` bytes. -/
def growth (b c need : ℕ) : ℕ := (need - c + b - 1) / b

theorem le_add_growth {b : ℕ} (hb : 0 < b) (c need : ℕ) : need ≤ c + b * growth b c need := by
  have h := Nat.lt_div_mul_add hb (a := need - c + b - 1)
  rw [Nat.mul_comm] at h
  unfold growth
  omega

/-- No smaller number of blocks is enough. -/
theorem growth_le {b c need k : ℕ} (hb : 0 < b) (h : need ≤ c + b * k) :
    growth b c need ≤ k := by
  unfold growth
  rw [← Nat.lt_succ_iff, Nat.div_lt_iff_lt_mul hb, Nat.succ_mul, Nat.mul_comm k b]
  omega

theorem growth_eq_zero {b c need : ℕ} (hb : 0 < b) (h : need ≤ c) : growth b c need = 0 :=
  Nat.le_zero.mp (growth_le hb (by omega))

theorem growth_pos {b c need : ℕ} (hb : 0 < b) (h : c < need) : 0 < growth b c need := by
  rcases Nat.eq_zero_or_pos (growth b c need) with h0 | hpos
  · have := le_add_growth hb c need
    rw [h0] at this
    omega
  · exact hpos

/-- What `addCapacity(n)` does: the memory grows at its end, by whole blocks. -/
structure Grows (s : ByteArray) (n : ℕ) (t : ByteArray) : Prop where
  wellFormed : t.WellFormed
  mem_eq : ∃ fill, fill.length = s.baseSize * growth s.baseSize s.capacity (s.position + n) ∧
    t.mem = s.mem ++ fill
  baseSize_eq : t.baseSize = s.baseSize
  position_eq : t.position = s.position
  size_eq : t.size = s.size
  endian_eq : t.endian = s.endian

theorem Grows.capacity_eq {s t : ByteArray} {n : ℕ} (h : s.WellFormed) (hg : Grows s n t) :
    t.capacity = s.capacity + s.baseSize * growth s.baseSize s.capacity (s.position + n) := by
  obtain ⟨fill, hfill, hmem⟩ := hg.mem_eq
  rw [← hg.wellFormed.length_mem, hmem, List.length_append, hfill, h.length_mem]

theorem Grows.room {s t : ByteArray} {n : ℕ} (h : s.WellFormed) (hg : Grows s n t) :
    s.position + n ≤ t.capacity := by
  rw [hg.capacity_eq h]
  exact le_add_growth h.base_pos _ _

theorem appendNodes_eq (π : Platform) : ∀ (count : ℕ) (s : ByteArray), ∃ new : List Node,
    new.length = count ∧ (∀ node ∈ new, node.size = s.baseSize) ∧
      appendNodes π count s = { s with
        root := s.root ++ new
        capacity := s.capacity + s.baseSize * count
        blocks := s.blocks + count } := by
  intro count
  -- on the count: the loop appends one node and goes on from there
  induction count with
  | zero => exact fun s => ⟨[], rfl, by simp, by simp [appendNodes]⟩
  | succ count ih =>
    intro s
    obtain ⟨new, hlength, hsize, heq⟩ := ih { s with
      root := s.root ++ [Node.alloc π s.blocks s.baseSize]
      capacity := s.capacity + s.baseSize
      blocks := s.blocks + 1 }
    refine ⟨Node.alloc π s.blocks s.baseSize :: new, by simp [hlength], ?_, ?_⟩
    · intro node hn
      rcases List.mem_cons.mp hn with rfl | hn
      · rfl
      · exact hsize node hn
    · rw [appendNodes, heq]
      simp only [List.append_assoc, List.singleton_append, mk.injEq, true_and]
      constructor
      · rw [Nat.mul_succ]
        omega
      · omega

theorem addCapacity_eq (π : Platform) {s : ByteArray} (h : s.WellFormed) (n : ℕ) :
    ∃ t, addCapacity π n s = .ok () t ∧ Grows s n t := by
  by_cases hfit : s.position + n ≤ s.capacity
  · refine ⟨s, ?_, h, ⟨[], ?_, by simp⟩, rfl, rfl, rfl, rfl⟩
    · by_cases hn : n = 0
      · simp [addCapacity, hn]
      · have hle : n ≤ s.getCapacity := by unfold getCapacity; omega
        simp [addCapacity, hn, hle]
    · simp [growth_eq_zero h.base_pos hfit]
  · push Not at hfit
    have hpc := h.position_le_capacity
    have hn : n ≠ 0 := by omega
    have hcap : ¬ n ≤ s.getCapacity := by unfold getCapacity; omega
    -- the source rounds up what is missing, from the room that is left
    have hcount : (n - s.getCapacity + s.baseSize - 1) / s.baseSize =
        growth s.baseSize s.capacity (s.position + n) := by
      unfold growth getCapacity
      congr 3
      omega
    have hpos := growth_pos h.base_pos hfit
    obtain ⟨new, hlength, hsize, heq⟩ :=
      appendNodes_eq π (growth s.baseSize s.capacity (s.position + n)) s
    set count := growth s.baseSize s.capacity (s.position + n) with hcountdef
    have hne : count ≠ 0 := by omega
    have hcapacity : s.capacity + s.baseSize * count = s.baseSize * (s.root ++ new).length := by
      rw [List.length_append, hlength, Nat.mul_add, ← h.capacity_eq]
    have hbig : s.capacity < s.capacity + s.baseSize * count :=
      Nat.lt_add_of_pos_right (Nat.mul_pos h.base_pos hpos)
    refine ⟨{ s with
      root := s.root ++ new
      capacity := s.capacity + s.baseSize * count
      cur := nodeAt s.baseSize (s.capacity + s.baseSize * count) s.position
      blocks := s.blocks + count }, ?_, ?_, ⟨new.flatMap Node.ptr, ?_, ?_⟩, rfl, rfl, rfl, rfl⟩
    · simp only [addCapacity, if_neg hn, Prog.get_bind, if_neg hcap, hcount, if_neg hne, heq,
        Prog.set_apply, Outcome.ok.injEq, true_and]
      by_cases hfull : s.getCapacity = 0
      · have hp : s.position = s.capacity := by unfold getCapacity at hfull; omega
        rw [if_pos hfull, nodeAt, if_pos (by omega), hp, h.capacity_eq,
          Nat.mul_div_cancel_left _ h.base_pos]
      · have hp : s.position < s.capacity := by unfold getCapacity at hfull; omega
        rw [if_neg hfull, nodeAt, if_pos (by omega), ← h.cur_of_lt hp]
    · refine ⟨h.base_pos, by simp [h.root_ne_nil], ?_, hcapacity, h.position_le, ?_, rfl⟩
      · intro node hnode
        rcases List.mem_append.mp hnode with hnode | hnode
        · exact h.node_size node hnode
        · exact hsize node hnode
      · exact Nat.le_trans h.size_le (Nat.le_of_lt hbig)
    · rw [length_flatMap_of_uniform (length_ptr_of_size hsize), hlength]
    · simp [mem]

/-! ## Writing -/

/-- What `write(buf)` does: after growing to hold it, the memory is overwritten by `buf` at the
position. -/
structure Writes (s : ByteArray) (buf : List UInt8) (t : ByteArray) : Prop where
  wellFormed : t.WellFormed
  mem_eq : ∃ fill,
    fill.length = s.baseSize * growth s.baseSize s.capacity (s.position + buf.length) ∧
      t.mem = splice (s.mem ++ fill) s.position buf
  baseSize_eq : t.baseSize = s.baseSize
  position_eq : t.position = s.position + buf.length
  size_eq : t.size = max s.size (s.position + buf.length)
  endian_eq : t.endian = s.endian

theorem Writes.capacity_eq {s t : ByteArray} {buf : List UInt8} (h : s.WellFormed)
    (hw : Writes s buf t) : t.capacity =
      s.capacity + s.baseSize * growth s.baseSize s.capacity (s.position + buf.length) := by
  obtain ⟨fill, hfill, hmem⟩ := hw.mem_eq
  have hlength : (s.mem ++ fill).length =
      s.capacity + s.baseSize * growth s.baseSize s.capacity (s.position + buf.length) := by
    rw [List.length_append, h.length_mem, hfill]
  have hroom := le_add_growth h.base_pos s.capacity (s.position + buf.length)
  rw [← hw.wellFormed.length_mem, hmem, length_splice (by rw [hlength]; exact hroom), hlength]

/-- The assignments of `write` after `addCapacity`, in a state with room for `buf`. -/
theorem writeLoop_of_room {s : ByteArray} (h : s.WellFormed) {buf : List UInt8}
    (hbuf : buf.length ≠ 0) (hroom : s.position + buf.length ≤ s.capacity) :
    ∃ chain, writeLoop (s.chainFrom s.cur) buf (s.position % s.baseSize)
          (s.baseSize - s.position % s.baseSize) =
        .ok (chain, (s.position % s.baseSize + buf.length) / s.baseSize) ∧
      (s.rootWith chain s.cur).flatMap Node.ptr = splice s.mem s.position buf ∧
      (s.rootWith chain s.cur).length = s.root.length ∧
      ∀ node ∈ s.rootWith chain s.cur, node.size = s.baseSize := by
  have hp : s.position < s.capacity := by omega
  have hcur := h.cur_of_lt hp
  have hi := h.node_lt hp
  have hdrop : ∀ node ∈ s.root.drop (s.position / s.baseSize), node.size = s.baseSize :=
    fun node hn => h.node_size node (List.mem_of_mem_drop hn)
  obtain ⟨chain, hrun, hmem, hlength, hsize⟩ := writeLoop_eq _ buf (s.position % s.baseSize)
    hdrop h.pos_mod_lt hbuf (by rw [← h.room hp]; omega)
  refine ⟨chain, by rw [hcur]; exact hrun, ?_, ?_, ?_⟩
  · rw [hcur, rootWith, List.flatMap_append, hmem,
      ← splice_flatMap (length_ptr_of_size h.node_size) (Nat.le_of_lt hi), Nat.div_add_mod, mem]
  · rw [hcur, rootWith, List.length_append, hlength, List.length_take, List.length_drop]
    omega
  · intro node hn
    rw [hcur, rootWith] at hn
    rcases List.mem_append.mp hn with hn | hn
    · exact h.node_size node (List.mem_of_mem_take hn)
    · exact hsize node hn

theorem write_eq (π : Platform) {s : ByteArray} (h : s.WellFormed) (buf : List UInt8) :
    ∃ t, write π buf s = .ok () t ∧ Writes s buf t := by
  by_cases hbuf : buf.length = 0
  · obtain rfl := List.length_eq_zero_iff.mp hbuf
    have hgrowth : growth s.baseSize s.capacity s.position = 0 :=
      growth_eq_zero h.base_pos h.position_le_capacity
    refine ⟨s, by simp [write], h, ⟨[], by simp [hgrowth], by simp⟩, rfl, by simp, ?_, rfl⟩
    rw [List.length_nil, Nat.add_zero, Nat.max_eq_left h.position_le]
  · obtain ⟨t, hadd, hg⟩ := addCapacity_eq π h buf.length
    have ht := hg.wellFormed
    have hroom : t.position + buf.length ≤ t.capacity := by
      rw [hg.position_eq]
      exact hg.room h
    have hp : t.position < t.capacity := by omega
    obtain ⟨node, hderef, hnode⟩ := ht.deref_cur hp
    obtain ⟨chain, hrun, hmem, hlength, hsize⟩ := writeLoop_of_room ht hbuf hroom
    refine ⟨{ t with
      root := t.rootWith chain t.cur
      cur := nodeAt t.baseSize t.capacity (t.position + buf.length)
      position := t.position + buf.length
      size := max t.size (t.position + buf.length) }, ?_, ?_, ?_, hg.baseSize_eq, ?_, ?_,
      hg.endian_eq⟩
    · have hmax := (max_def_lt t.size (t.position + buf.length)).symm
      rw [write, if_neg hbuf, Prog.bind_ok hadd]
      simp only [Prog.get_bind, hderef, hnode, hrun, Prog.lift_bind,
        Prog.set_apply, ht.advance_eq hp, hmax]
    · refine ⟨ht.base_pos, ?_, hsize, by rw [hlength]; exact ht.capacity_eq, ?_, ?_, rfl⟩
      · rw [← List.length_pos_iff, hlength, List.length_pos_iff]
        exact ht.root_ne_nil
      · exact Nat.le_max_right ..
      · exact Nat.max_le.mpr ⟨ht.size_le, hroom⟩
    · obtain ⟨fill, hfill, hmemt⟩ := hg.mem_eq
      refine ⟨fill, hfill, ?_⟩
      rw [← hmemt, ← hg.position_eq, ← hmem]
      rfl
    · rw [hg.position_eq]
    · rw [hg.size_eq, hg.position_eq]

/-! ### How much the chain grows -/

/-- The chain has `c` bytes at least, in blocks of `b`, and no more of them than it takes to hold
the position. -/
structure Snug (b c : ℕ) (t : ByteArray) : Prop where
  wellFormed : t.WellFormed
  baseSize_eq : t.baseSize = b
  le_capacity : c ≤ t.capacity
  capacity_le : ∀ n, c ≤ n → b ∣ n → t.position ≤ n → t.capacity ≤ n

section Snug

variable {b c : ℕ} {s t : ByteArray}

theorem WellFormed.snug (h : s.WellFormed) : Snug s.baseSize s.capacity s where
  wellFormed := h
  baseSize_eq := rfl
  le_capacity := Nat.le_refl _
  capacity_le := fun _ hn _ _ => hn

theorem WellFormed.dvd_capacity (h : s.WellFormed) : s.baseSize ∣ s.capacity :=
  ⟨s.root.length, h.capacity_eq⟩

/-- The position ends the chain when it does so in blocks of this size. -/
theorem Snug.position_lt_iff (h : Snug b c t) :
    t.position < t.capacity ↔ ¬ (c ≤ t.position ∧ b ∣ t.position) := by
  constructor
  · rintro hlt ⟨hc, hb⟩
    exact Nat.not_lt.mpr (h.capacity_le _ hc hb (Nat.le_refl _)) hlt
  · intro hends
    by_contra hlt
    have hroom := h.wellFormed.position_le_capacity
    have hcap : t.capacity = t.position := by omega
    apply hends
    rw [← hcap, ← h.baseSize_eq]
    exact ⟨h.le_capacity, h.wellFormed.dvd_capacity⟩

theorem write_snug (π : Platform) (d : List UInt8) : Keeps (Snug b c) (write π d) := by
  intro s h
  have hs := h.wellFormed
  obtain ⟨t, ht, hw⟩ := write_eq π hs d
  have hcapacity := hw.capacity_eq hs
  rw [ht]
  refine ⟨hw.wellFormed, hw.baseSize_eq.trans h.baseSize_eq, ?_, ?_⟩
  · have hc := h.le_capacity
    rw [hcapacity]
    omega
  · intro n hc hb hn
    rw [hw.position_eq] at hn
    have hle := h.capacity_le n hc hb (by omega)
    rw [← h.baseSize_eq] at hb
    -- the blocks there are do not reach `n`, and those that are missing do not go beyond it
    obtain ⟨k, hk⟩ := (Nat.dvd_sub_iff_left hle hs.dvd_capacity).mpr hb
    have hmost : growth s.baseSize s.capacity (s.position + d.length) ≤ k :=
      growth_le hs.base_pos (by omega)
    have hmul := Nat.mul_le_mul_left s.baseSize hmost
    rw [hcapacity]
    omega

end Snug

/-! ## Reading and moving the position -/

/-- The state with the position moved to `p`. -/
def movedTo (s : ByteArray) (p : ℕ) : ByteArray :=
  { s with position := p, cur := nodeAt s.baseSize s.capacity p }

theorem WellFormed.movedTo {s : ByteArray} (h : s.WellFormed) {p : ℕ} (hp : p ≤ s.size) :
    (s.movedTo p).WellFormed :=
  ⟨h.base_pos, h.root_ne_nil, h.node_size, h.capacity_eq, hp, h.size_le, rfl⟩

/-- A move to where the position is changes nothing: the current node is a function of it. -/
theorem WellFormed.movedTo_self {s : ByteArray} (h : s.WellFormed) : s.movedTo s.position = s := by
  rw [ByteArray.movedTo, ← h.cur_eq]

/-- The loop of `read` from the position on, in a state with `n` bytes there. -/
theorem readLoop_of_room {s : ByteArray} (h : s.WellFormed) {n : ℕ} (hn : n ≠ 0)
    (hroom : s.position + n ≤ s.capacity) :
    readLoop (s.root.drop (s.position / s.baseSize)) n (s.position % s.baseSize)
        (s.baseSize - s.position % s.baseSize) =
      .ok (slice s.mem s.position n, (s.position % s.baseSize + n) / s.baseSize) := by
  have hp : s.position < s.capacity := by omega
  have hdrop : ∀ node ∈ s.root.drop (s.position / s.baseSize), node.size = s.baseSize :=
    fun node hn => h.node_size node (List.mem_of_mem_drop hn)
  have hrun := readLoop_eq _ n (s.position % s.baseSize) hdrop h.pos_mod_lt hn
    (by rw [← h.room hp]; omega)
  rwa [← slice_flatMap (length_ptr_of_size h.node_size) (Nat.le_of_lt (h.node_lt hp)),
    Nat.div_add_mod] at hrun

theorem read_eq {s : ByteArray} (h : s.WellFormed) {n : ℕ} (hn : n ≠ 0)
    (hle : n ≤ s.getReadSize) :
    read n s = .ok (slice s.mem s.position n) (s.movedTo (s.position + n)) := by
  have hps := h.position_le
  have hsc := h.size_le
  unfold getReadSize at hle
  have hp : s.position < s.capacity := by omega
  obtain ⟨node, hderef, hnode⟩ := h.deref_cur hp
  have hrun := readLoop_of_room h hn (by omega)
  have hchain : s.chainFrom s.cur = s.root.drop (s.position / s.baseSize) := by
    rw [h.cur_of_lt hp, chainFrom]
  rw [hchain] at hderef
  have hread : ¬ s.getReadSize < n := by unfold getReadSize; omega
  simp only [read, Prog.get_bind, if_neg hread, hchain, hderef, hnode, hrun,
    Prog.lift_bind, Prog.set_bind, Prog.pure_apply, h.advance_eq hp, ByteArray.movedTo]

/-- A read of 0 bytes dereferences the current node for nothing. -/
theorem read_zero {s : ByteArray} (h : s.WellFormed) :
    read 0 s = if s.position < s.capacity then .ok [] s else .fault .nullPointer := by
  split_ifs with hp
  · obtain ⟨node, hderef, hnode⟩ := h.deref_cur hp
    have hadv := h.advance_eq hp 0
    rw [Nat.add_zero, Nat.div_eq_of_lt h.pos_mod_lt, Nat.add_zero, ← h.cur_eq] at hadv
    have hloop : readLoop (s.chainFrom s.cur) 0 (s.position % s.baseSize)
        (node.size - s.position % s.baseSize) = .ok ([], 0) := by
      cases s.chainFrom s.cur <;> rfl
    simp only [read, Nat.not_lt_zero, if_false, Prog.get_bind, hderef, Prog.lift_bind, hloop,
      Prog.set_bind, Prog.pure_apply, hadv, Nat.add_zero]
  · have hcur : s.cur = none := by rw [h.cur_eq, nodeAt, if_neg hp]
    simp only [read, Nat.not_lt_zero, if_false, Prog.get_bind, hcur, chainFrom, Node.deref,
      Prog.bind_fault (Prog.lift_error _ _)]

theorem read_throw {s : ByteArray} {n : ℕ} (h : s.getReadSize < n) :
    read n s = .throw ⟨"not enough len"⟩ s := by
  simp [read, h]

theorem seek_eq {b : ℕ} (hb : 0 < b) :
    ∀ (chain : List Node) (i v : ℕ), (∀ node ∈ chain, node.size = b) → chain ≠ [] →
      v ≤ b * chain.length → seek chain i v = .ok (i + v / b) := by
  intro chain
  induction chain with
  | nil => exact fun _ _ _ hne => absurd rfl hne
  | cons node next ih =>
    intro i v hsize _ hv
    have hnode : node.size = b := hsize node (List.mem_cons_self ..)
    rw [seek, hnode]
    rw [List.length_cons, Nat.mul_succ] at hv
    split_ifs with hlt heq
    · have hne : next ≠ [] := by
        rintro rfl
        simp at hv
        omega
      rw [ih (i + 1) (v - b) (fun n hn => hsize n (List.mem_cons_of_mem _ hn)) hne (by omega)]
      have hdiv : v / b = (v - b) / b + 1 := by
        rw [← Nat.add_div_right _ hb, Nat.sub_add_cancel (Nat.le_of_lt hlt)]
      rw [hdiv]
      congr 1
      omega
    · rw [heq, Nat.div_self hb]
    · rw [Nat.div_eq_of_lt (by omega), Nat.add_zero]

theorem setPosition_eq {s : ByteArray} (h : s.WellFormed) {v : ℕ} (hv : v ≤ s.capacity) :
    setPosition v s = .ok () ({ s with size := max s.size v }.movedTo v) := by
  have hseek := seek_eq h.base_pos s.root 0 v h.node_size h.root_ne_nil (h.capacity_eq ▸ hv)
  have hmax := (max_def_lt s.size v).symm
  have hptr : s.nodePtr (0 + v / s.baseSize) = nodeAt s.baseSize s.capacity v := by
    have hlt : v / s.baseSize < s.root.length ↔ v < s.capacity := by
      rw [Nat.div_lt_iff_lt_mul h.base_pos, h.capacity_eq, Nat.mul_comm]
    simp only [nodePtr, nodeAt, Nat.zero_add, hlt]
  simp only [setPosition, Prog.get_bind, if_neg (Nat.not_lt.mpr hv), hseek,
    Prog.lift_bind, Prog.set_apply, hmax, hptr, ByteArray.movedTo]

theorem setPosition_throw {s : ByteArray} {v : ℕ} (h : s.capacity < v) :
    setPosition v s = .throw ⟨"set_position out of range"⟩ s := by
  simp [setPosition, h]

theorem WellFormed.setPosition {s : ByteArray} (h : s.WellFormed) {v : ℕ} (hv : v ≤ s.capacity) :
    ({ s with size := max s.size v }.movedTo v).WellFormed :=
  ⟨h.base_pos, h.root_ne_nil, h.node_size, h.capacity_eq, Nat.le_max_right ..,
    Nat.max_le.mpr ⟨h.size_le, hv⟩, rfl⟩

/-- The state with the byte order `e`. -/
def withEndian (s : ByteArray) (e : Endian) : ByteArray := { s with endian := e }

theorem WellFormed.withEndian {s : ByteArray} (h : s.WellFormed) (e : Endian) :
    (s.withEndian e).WellFormed :=
  ⟨h.base_pos, h.root_ne_nil, h.node_size, h.capacity_eq, h.position_le, h.size_le, h.cur_eq⟩

/-! ## Clearing -/

/-- What `clear` does: of the memory the first block stays. -/
structure Clears (s t : ByteArray) : Prop where
  wellFormed : t.WellFormed
  mem_eq : t.mem = s.mem.take s.baseSize
  baseSize_eq : t.baseSize = s.baseSize
  position_eq : t.position = 0
  size_eq : t.size = 0
  capacity_eq : t.capacity = s.baseSize

theorem clear_eq {s : ByteArray} (h : s.WellFormed) : ∃ t, clear s = .ok () t ∧ Clears s t := by
  obtain ⟨node, next, hroot⟩ := List.exists_cons_of_ne_nil h.root_ne_nil
  have hnode : node.size = s.baseSize := h.node_size node (hroot ▸ List.mem_cons_self ..)
  have hderef : Node.deref s.root = .ok node := by rw [hroot]; rfl
  refine ⟨{ s with
    position := 0
    size := 0
    capacity := s.baseSize
    root := [node]
    cur := some 0 }, ?_, ?_, ?_, rfl, rfl, rfl, rfl⟩
  · simp only [clear, Prog.get_bind, hderef, Prog.lift_bind, Prog.set_apply]
  · refine ⟨h.base_pos, by simp, by simp [hnode], by simp, Nat.le_refl _, Nat.zero_le _, ?_⟩
    simp [nodeAt, h.base_pos]
  · simp only [mem, hroot, List.flatMap_cons, List.flatMap_nil, List.append_nil]
    rw [← hnode, ← node.length_ptr, List.take_left]

/-! ## Scatter and gather -/

/-- The `iovec`s cover the `len` bytes from the position on. -/
def Covers (s : ByteArray) (len : ℕ) (iovs : List Iovec) : Prop :=
  Tiles s.baseSize s.root.length s.position len iovs

/-- Where there is room for `len` bytes, the `iovec`s are built without a fault, and cover them. -/
theorem buffersAt_eq {s : ByteArray} (h : s.WellFormed) {len : ℕ} (hlen : len ≠ 0)
    (hroom : s.position + len ≤ s.capacity) :
    ∃ iovs, buffersAt s len = .ok iovs ∧ s.Covers len iovs := by
  have hp : s.position < s.capacity := by omega
  obtain ⟨node, hderef, hnode⟩ := h.deref_cur hp
  have hchain : s.chainFrom s.cur = s.root.drop (s.position / s.baseSize) := by
    rw [h.cur_of_lt hp, chainFrom]
  obtain ⟨iovs, hrun, htiles⟩ := buffersLoop_eq (s.chainFrom s.cur) (s.position / s.baseSize) len
    (s.position % s.baseSize)
    (fun n hn => h.node_size n (List.mem_of_mem_drop (hchain ▸ hn))) h.pos_mod_lt hlen
    (by rw [hchain, ← h.room hp]; omega)
  refine ⟨iovs, ?_, ?_⟩
  · have hcur : s.cur.getD 0 = s.position / s.baseSize := by rw [h.cur_of_lt hp, Option.getD_some]
    simp only [buffersAt, hderef, bind, Except.bind, hnode, hcur, hrun]
  · have hlength : s.position / s.baseSize + (s.chainFrom s.cur).length = s.root.length := by
      rw [hchain, List.length_drop]
      exact Nat.add_sub_cancel' (Nat.le_of_lt (h.node_lt hp))
    rwa [Nat.div_add_mod, hlength] at htiles

theorem getReadBuffers_eq {s : ByteArray} (h : s.WellFormed) (len : ℕ) :
    ∃ iovs, getReadBuffers len s = .ok (min len s.getReadSize, iovs) s ∧
      s.Covers (min len s.getReadSize) iovs := by
  have hps := h.position_le
  have hsc := h.size_le
  have hmin : (if s.getReadSize < len then s.getReadSize else len) = min len s.getReadSize := by
    rw [min_comm, min_def_lt]
  -- when nothing is readable the current node is not dereferenced
  by_cases h0 : min len s.getReadSize = 0
  · refine ⟨[], by simp [getReadBuffers, hmin, h0], ?_⟩
    rw [h0]
    exact Tiles.nil _
  · obtain ⟨iovs, hiovs, hcovers⟩ := buffersAt_eq h h0 (by unfold getReadSize; omega)
    refine ⟨iovs, ?_, hcovers⟩
    simp only [getReadBuffers, Prog.get_bind, hmin, if_neg h0, hiovs,
      Prog.lift_bind, Prog.pure_apply]

theorem getWriteBuffers_eq (π : Platform) {s : ByteArray} (h : s.WellFormed) (len : ℕ) :
    ∃ t iovs, getWriteBuffers π len s = .ok (len, iovs) t ∧ Grows s len t ∧ t.Covers len iovs := by
  by_cases h0 : len = 0
  · subst h0
    refine ⟨s, [], by simp [getWriteBuffers], ⟨h, ⟨[], ?_, by simp⟩, rfl, rfl, rfl, rfl⟩,
      Tiles.nil _⟩
    simp [growth_eq_zero h.base_pos h.position_le_capacity]
  · obtain ⟨t, hadd, hg⟩ := addCapacity_eq π h len
    obtain ⟨iovs, hiovs, hcovers⟩ := buffersAt_eq hg.wellFormed h0
      (by rw [hg.position_eq]; exact hg.room h)
    refine ⟨t, iovs, ?_, hg, hcovers⟩
    rw [getWriteBuffers, if_neg h0, Prog.bind_ok hadd]
    simp only [Prog.get_bind, hiovs, Prog.lift_bind, Prog.pure_apply]

end ByteArray

end Dag
