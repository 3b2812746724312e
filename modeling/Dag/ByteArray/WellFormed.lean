import Dag.ByteArray.Chain
import Mathlib.Tactic.Linarith

/-!
# The byte array: the representation invariant and the block loops

The chain, the capacity, the position and the current node are kept by hand, each by its own
assignments. `WellFormed` is what they have to agree on. In a chain whose nodes all have one size
the block loops of `write` and `read` come out as one overwrite and one read of the chain's bytes
taken as one memory, `ByteArray.mem`.

## Main definitions

* `ByteArray.mem`: the bytes of the chain, block after block
* `WellFormed`: the representation invariant
* `Tiles`: a stretch of the memory, covered by `iovec`s

## Main results

* `WellFormed.deref_cur`, `WellFormed.advance_eq`: the current node, and the one after a move
* `writeLoop_eq`, `readLoop_eq`, `buffersLoop_eq`: the block loops on the chain's memory
-/

namespace Dag

open Foundation

namespace ByteArray

/-- The bytes of the chain, block after block. -/
def mem (s : ByteArray) : List UInt8 := s.root.flatMap Node.ptr

/-- The pointer to the node that the position `p` is in, in a chain of capacity `c`. -/
def nodeAt (b c p : ℕ) : Option ℕ := if p < c then some (p / b) else none

/-- **The representation invariant.** -/
structure WellFormed (s : ByteArray) : Prop where
  base_pos : 0 < s.baseSize
  root_ne_nil : s.root ≠ []
  node_size : ∀ node ∈ s.root, node.size = s.baseSize
  capacity_eq : s.capacity = s.baseSize * s.root.length
  position_le : s.position ≤ s.size
  size_le : s.size ≤ s.capacity
  cur_eq : s.cur = nodeAt s.baseSize s.capacity s.position

theorem length_ptr_of_size {chain : List Node} {b : ℕ} (h : ∀ node ∈ chain, node.size = b) :
    ∀ node ∈ chain, node.ptr.length = b := fun node hn => by rw [node.length_ptr, h node hn]

theorem wellFormed_construct (π : Platform) {b : ℕ} (hb : 1 ≤ b) :
    (construct π b).WellFormed := by
  refine ⟨hb, by simp [construct], by simp [construct, Node.alloc], by simp [construct],
    Nat.le_refl _, Nat.zero_le _, ?_⟩
  simp [construct, nodeAt, Nat.lt_of_lt_of_le Nat.zero_lt_one hb]

/-! ## The current node -/

namespace WellFormed

variable {s : ByteArray}

theorem length_mem (h : s.WellFormed) : s.mem.length = s.capacity := by
  rw [mem, length_flatMap_of_uniform (length_ptr_of_size h.node_size), h.capacity_eq]

theorem position_le_capacity (h : s.WellFormed) : s.position ≤ s.capacity :=
  Nat.le_trans h.position_le h.size_le

theorem cur_of_lt (h : s.WellFormed) (hp : s.position < s.capacity) :
    s.cur = some (s.position / s.baseSize) := by
  rw [h.cur_eq, nodeAt, if_pos hp]

theorem node_lt (h : s.WellFormed) (hp : s.position < s.capacity) :
    s.position / s.baseSize < s.root.length := by
  rw [Nat.div_lt_iff_lt_mul h.base_pos, Nat.mul_comm, ← h.capacity_eq]
  exact hp

/-- Where there is capacity left, the current pointer can be dereferenced. -/
theorem deref_cur (h : s.WellFormed) (hp : s.position < s.capacity) :
    ∃ node, Node.deref (s.chainFrom s.cur) = .ok node ∧ node.size = s.baseSize := by
  rw [h.cur_of_lt hp]
  have hi := h.node_lt hp
  refine ⟨s.root[s.position / s.baseSize], ?_, h.node_size _ (List.getElem_mem hi)⟩
  simp only [chainFrom]
  rw [List.drop_eq_getElem_cons hi]
  rfl

theorem pos_mod_lt (h : s.WellFormed) : s.position % s.baseSize < s.baseSize :=
  Nat.mod_lt _ h.base_pos

/-- The room from the position on, counted in the chain from the current node. -/
theorem room (h : s.WellFormed) (hp : s.position < s.capacity) :
    s.position % s.baseSize + (s.capacity - s.position) =
      s.baseSize * (s.root.drop (s.position / s.baseSize)).length := by
  have hi := h.node_lt hp
  have hdm := Nat.div_add_mod s.position s.baseSize
  have hc := h.capacity_eq
  rw [List.length_drop, Nat.mul_sub]
  omega

/-- The pointer that `k` steps along the chain from the current node lead to, when they are those
of a move of the position by `n`. -/
theorem advance_eq (h : s.WellFormed) (hp : s.position < s.capacity) (n : ℕ) :
    s.advance s.cur ((s.position % s.baseSize + n) / s.baseSize) =
      nodeAt s.baseSize s.capacity (s.position + n) := by
  have hdiv : s.position / s.baseSize + (s.position % s.baseSize + n) / s.baseSize =
      (s.position + n) / s.baseSize := by
    conv_rhs => rw [← Nat.div_add_mod s.position s.baseSize, Nat.add_assoc,
      Nat.mul_add_div h.base_pos]
  have hlt : (s.position + n) / s.baseSize < s.root.length ↔ s.position + n < s.capacity := by
    rw [Nat.div_lt_iff_lt_mul h.base_pos, h.capacity_eq, Nat.mul_comm]
  simp only [h.cur_of_lt hp, advance, Option.bind_some, nodePtr, hdiv, hlt, nodeAt]

end WellFormed

/-! ## One pass of a block loop

A block loop makes its last pass over a node when what is left fits into the rest of the block,
and otherwise fills or empties the block and moves on to the next node. -/

section Passes

variable {node node₂ : Node} {next : List Node} {buf : List UInt8} {size npos ncap b : ℕ}

theorem Node.store_eq (h : npos + buf.length ≤ node.size) :
    ∃ node', node.store npos buf = .ok node' ∧ node'.ptr = splice node.ptr npos buf ∧
      node'.size = node.size := by
  rw [Node.store, dif_pos h]
  exact ⟨_, rfl, rfl, rfl⟩

theorem Node.load_eq (h : npos + size ≤ node.size) :
    node.load npos size = .ok (slice node.ptr npos size) := by
  rw [Node.load, if_pos h]

theorem writeLoop_last {node' : Node} (hbuf : buf.length ≠ 0) (hfit : buf.length ≤ ncap)
    (hstore : node.store npos buf = .ok node') :
    writeLoop (node :: next) buf npos ncap =
      .ok (node' :: next, if node.size = npos + buf.length then 1 else 0) := by
  rw [writeLoop, if_neg hbuf, if_pos hfit, hstore]
  rfl

theorem writeLoop_more {node' : Node} {chain : List Node} {k : ℕ} (hfit : ncap < buf.length)
    (hstore : node.store npos (buf.take ncap) = .ok node') (hnext : node₂.size = b)
    (hrest : writeLoop (node₂ :: next) (buf.drop ncap) 0 b = .ok (chain, k)) :
    writeLoop (node :: node₂ :: next) buf npos ncap = .ok (node' :: chain, k + 1) := by
  subst hnext
  rw [writeLoop, if_neg (by omega), if_neg (by omega), hstore]
  simp only [Node.deref, bind, Except.bind, pure, Except.pure, hrest]

theorem readLoop_last {out : List UInt8} (hsize : size ≠ 0) (hfit : size ≤ ncap)
    (hload : node.load npos size = .ok out) :
    readLoop (node :: next) size npos ncap =
      .ok (out, if node.size = npos + size then 1 else 0) := by
  rw [readLoop, if_neg hsize, if_pos hfit, hload]
  rfl

theorem readLoop_more {out rest : List UInt8} {k : ℕ} (hfit : ncap < size)
    (hload : node.load npos ncap = .ok out) (hnext : node₂.size = b)
    (hrest : readLoop (node₂ :: next) (size - ncap) 0 b = .ok (rest, k)) :
    readLoop (node :: node₂ :: next) size npos ncap = .ok (out ++ rest, k + 1) := by
  subst hnext
  rw [readLoop, if_neg (by omega), if_neg (by omega), hload]
  simp only [Node.deref, bind, Except.bind, pure, Except.pure, hrest]

theorem buffersLoop_last {i : ℕ} (hsize : size ≠ 0) (hfit : size ≤ ncap) :
    buffersLoop (node :: next) i size npos ncap = .ok [⟨i, npos, size⟩] := by
  rw [buffersLoop, if_neg hsize, if_pos hfit]

theorem buffersLoop_more {i : ℕ} {rest : List Iovec} (hfit : ncap < size) (hnext : node₂.size = b)
    (hrest : buffersLoop (node₂ :: next) (i + 1) (size - ncap) 0 b = .ok rest) :
    buffersLoop (node :: node₂ :: next) i size npos ncap = .ok (⟨i, npos, ncap⟩ :: rest) := by
  subst hnext
  rw [buffersLoop, if_neg (by omega), if_neg (by omega)]
  simp only [Node.deref, bind, Except.bind, pure, Except.pure, hrest]

end Passes

/-! ## Stretches of the memory in `iovec`s -/

/-- The `iovec`s cover the `len` bytes from address `a` on, one after another, each of them a
stretch of one of the first `m` blocks that is not empty. -/
inductive Tiles (b m : ℕ) : (a len : ℕ) → List Iovec → Prop
  | nil (a : ℕ) : Tiles b m a 0 []
  | cons {v : Iovec} {len : ℕ} {vs : List Iovec} (hfit : v.npos + v.len ≤ b) (hpos : 0 < v.len)
      (hnode : v.node < m) (hrest : Tiles b m (b * v.node + v.npos + v.len) len vs) :
      Tiles b m (b * v.node + v.npos) (v.len + len) (v :: vs)

/-! ## The block loops -/

section Loops

variable {b : ℕ}

/-- A block that does not take everything is not the last of a chain with room for it. -/
theorem exists_next_of_room {node : Node} {next : List Node} {n npos : ℕ}
    (hn : b - npos < n) (hroom : npos + n ≤ b * (node :: next).length) :
    ∃ node₂ next₂, next = node₂ :: next₂ := by
  apply List.exists_cons_of_ne_nil
  rintro rfl
  simp at hroom
  omega

/-- The pointer moves on after the last pass when it ends on the block's end. -/
theorem ite_end_eq_div {npos n : ℕ} (hb : 0 < b) (h : npos + n ≤ b) :
    (if b = npos + n then 1 else 0) = (npos + n) / b := by
  rcases Nat.lt_or_eq_of_le h with hlt | heq
  · rw [if_neg (Nat.ne_of_gt hlt), Nat.div_eq_of_lt hlt]
  · rw [if_pos heq.symm, heq, Nat.div_self hb]

/-- The pointer moves on once more for the block that has been left. -/
theorem div_rest_add_one {npos n : ℕ} (hpos : npos < b) (hn : b - npos < n) :
    (0 + (n - (b - npos))) / b + 1 = (npos + n) / b := by
  rw [← Nat.add_div_right _ (by omega)]
  congr 1
  omega

/-- **The write loop** overwrites the memory of its chain, block boundaries notwithstanding. -/
theorem writeLoop_eq :
    ∀ (chain : List Node) (buf : List UInt8) (npos : ℕ), (∀ node ∈ chain, node.size = b) →
      npos < b → buf.length ≠ 0 → npos + buf.length ≤ b * chain.length →
      ∃ chain', writeLoop chain buf npos (b - npos) = .ok (chain', (npos + buf.length) / b) ∧
        chain'.flatMap Node.ptr = splice (chain.flatMap Node.ptr) npos buf ∧
        chain'.length = chain.length ∧ ∀ node ∈ chain', node.size = b := by
  intro chain
  -- on the chain, as the loop runs along it: from the second node on, `npos` is 0
  induction chain with
  | nil =>
    intro buf npos _ _ hbuf hroom
    rw [List.length_nil, Nat.mul_zero] at hroom
    omega
  | cons node next ih =>
    intro buf npos hsize hnpos hbuf hroom
    have hnode : node.size = b := hsize node (List.mem_cons_self ..)
    have hptr : node.ptr.length = b := by rw [node.length_ptr, hnode]
    have hnext : ∀ n ∈ next, n.size = b := fun n hn => hsize n (List.mem_cons_of_mem _ hn)
    by_cases hfit : buf.length ≤ b - npos
    · have hle : npos + buf.length ≤ node.size := by omega
      obtain ⟨node', hstore, hptr', hsize'⟩ := Node.store_eq hle
      refine ⟨node' :: next, ?_, ?_, rfl, ?_⟩
      · rw [writeLoop_last hbuf hfit hstore, hnode, ite_end_eq_div (by omega) (by omega)]
      · rw [List.flatMap_cons, List.flatMap_cons, hptr', splice_append_left (by omega)]
      · intro n hn
        rcases List.mem_cons.mp hn with rfl | hn
        · exact hsize'.trans hnode
        · exact hnext n hn
    · push Not at hfit
      obtain ⟨node₂, next₂, rfl⟩ := exists_next_of_room hfit hroom
      have htake : (buf.take (b - npos)).length = b - npos := by simp; omega
      have hdrop : (buf.drop (b - npos)).length = buf.length - (b - npos) := by simp
      have hle : npos + (buf.take (b - npos)).length ≤ node.size := by omega
      obtain ⟨node', hstore, hptr', hsize'⟩ := Node.store_eq hle
      obtain ⟨chain', hrun, hmem, hlength, hsizes⟩ := ih (buf.drop (b - npos)) 0 hnext (by omega)
        (by omega) (by rw [List.length_cons, Nat.mul_succ] at hroom; omega)
      rw [Nat.sub_zero] at hrun
      have hnode₂ := hnext node₂ (List.mem_cons_self ..)
      refine ⟨node' :: chain', ?_, ?_, by simp [hlength], ?_⟩
      · rw [writeLoop_more hfit hstore hnode₂ hrun, hdrop, div_rest_add_one hnpos hfit]
      · rw [List.flatMap_cons, List.flatMap_cons, hmem, hptr',
          splice_across (by omega) (by omega), hptr]
      · intro n hn
        rcases List.mem_cons.mp hn with rfl | hn
        · exact hsize'.trans hnode
        · exact hsizes n hn

/-- **The read loop** reads a slice of the memory of its chain. -/
theorem readLoop_eq :
    ∀ (chain : List Node) (size npos : ℕ), (∀ node ∈ chain, node.size = b) →
      npos < b → size ≠ 0 → npos + size ≤ b * chain.length →
      readLoop chain size npos (b - npos) =
        .ok (slice (chain.flatMap Node.ptr) npos size, (npos + size) / b) := by
  intro chain
  induction chain with
  | nil =>
    intro size npos _ _ hpos hroom
    rw [List.length_nil, Nat.mul_zero] at hroom
    omega
  | cons node next ih =>
    intro size npos hsize hnpos hpos hroom
    have hnode : node.size = b := hsize node (List.mem_cons_self ..)
    have hptr : node.ptr.length = b := by rw [node.length_ptr, hnode]
    have hnext : ∀ n ∈ next, n.size = b := fun n hn => hsize n (List.mem_cons_of_mem _ hn)
    by_cases hfit : size ≤ b - npos
    · rw [readLoop_last hpos hfit (Node.load_eq (by omega)), hnode,
        ite_end_eq_div (by omega) (by omega), List.flatMap_cons, slice_append_left (by omega)]
    · push Not at hfit
      obtain ⟨node₂, next₂, rfl⟩ := exists_next_of_room hfit hroom
      have hrun := ih (size - (b - npos)) 0 hnext (by omega) (by omega)
        (by rw [List.length_cons, Nat.mul_succ] at hroom; omega)
      rw [Nat.sub_zero] at hrun
      have hnode₂ := hnext node₂ (List.mem_cons_self ..)
      have hmem : (node :: node₂ :: next₂).flatMap Node.ptr =
          node.ptr ++ (node₂ :: next₂).flatMap Node.ptr := rfl
      rw [readLoop_more hfit (Node.load_eq (by omega)) hnode₂ hrun, div_rest_add_one hnpos hfit,
        hmem, slice_across (by omega) (by omega), hptr]

/-- **The buffers loop** does not run off a chain with room enough, and tiles the stretch. -/
theorem buffersLoop_eq :
    ∀ (chain : List Node) (i size npos : ℕ), (∀ node ∈ chain, node.size = b) →
      npos < b → size ≠ 0 → npos + size ≤ b * chain.length →
      ∃ iovs, buffersLoop chain i size npos (b - npos) = .ok iovs ∧
        Tiles b (i + chain.length) (b * i + npos) size iovs := by
  intro chain
  induction chain with
  | nil =>
    intro i size npos _ _ hpos hroom
    rw [List.length_nil, Nat.mul_zero] at hroom
    omega
  | cons node next ih =>
    intro i size npos hsize hnpos hpos hroom
    have hnext : ∀ n ∈ next, n.size = b := fun n hn => hsize n (List.mem_cons_of_mem _ hn)
    have hlt : i < i + (node :: next).length := by simp
    -- every pass pushes one `iovec`; only a pass that does not fit asks for the next node
    by_cases hfit : size ≤ b - npos
    · refine ⟨_, buffersLoop_last hpos hfit, ?_⟩
      have hend : npos + size ≤ b := by omega
      exact Tiles.cons (v := ⟨i, npos, size⟩) hend (Nat.pos_of_ne_zero hpos) hlt (Tiles.nil _)
    · push Not at hfit
      obtain ⟨node₂, next₂, rfl⟩ := exists_next_of_room hfit hroom
      obtain ⟨iovs, hrun, htiles⟩ := ih (i + 1) (size - (b - npos)) 0 hnext (by omega) (by omega)
        (by rw [List.length_cons, Nat.mul_succ] at hroom; omega)
      rw [Nat.sub_zero] at hrun
      have hnode₂ := hnext node₂ (List.mem_cons_self ..)
      refine ⟨_, buffersLoop_more hfit hnode₂ hrun, ?_⟩
      have hstart : b * (i + 1) + 0 = b * i + npos + (b - npos) := by
        rw [Nat.mul_succ]
        omega
      have hlength : i + 1 + (node₂ :: next₂).length = i + (node :: node₂ :: next₂).length := by
        simp only [List.length_cons]
        omega
      rw [hstart, hlength] at htiles
      have hend : npos + (b - npos) ≤ b := by omega
      have hcons := Tiles.cons (v := ⟨i, npos, b - npos⟩) hend (Nat.sub_pos_of_lt hnpos) hlt htiles
      rwa [Nat.add_sub_cancel' (Nat.le_of_lt hfit)] at hcons

end Loops

end ByteArray

end Dag
