import Dag.ByteArray.Flat
import Dag.ByteArray.Runs

/-!
# The byte array: bytes moved through `iovec`s

The operating system reads the bytes that `iovec`s cover, and writes bytes over them, block by block
and without the byte array knowing. On `iovec`s that cover a stretch of the memory a gather is one
read of that stretch, and a scatter one overwrite from its start on.

## Main definitions

* `gather`, `scatter`: the bytes taken out through `iovec`s, and the chain after bytes have been put
  in through them
* `Offers`: what a caller has of `iovec`s: their total length, their blocks, that they do not
  overlap

## Main results

* `gather_eq`, `scatter_eq`: both on `iovec`s that tile a stretch of the memory
* `Covers.gather_eq`, `receive_eq`: taking out the bytes from the position on, and the way to put
  bytes in there: `getWriteBuffers`, a scatter, and `setPosition`
* `receive_eq_write`: that way leaves what a `write` leaves, in every reachable state
-/

namespace Dag

open Foundation

namespace ByteArray

/-- The bytes that the `iovec`s cover. -/
def gather (chain : List Node) : List Iovec → Except Fault (List UInt8)
  | [] => .ok []
  | v :: vs => do
    let node ← Node.deref (chain.drop v.node)
    let out ← node.load v.npos v.len
    let rest ← gather chain vs
    return out ++ rest

/-- The chain after the bytes `d` have been stored through the `iovec`s, filling one after
another. -/
def scatter : List Iovec → (d : List UInt8) → List Node → Except Fault (List Node)
  | [], _, chain => .ok chain
  | v :: vs, d, chain => do
    let node ← Node.deref (chain.drop v.node)
    let node' ← node.store v.npos (d.take v.len)
    scatter vs (d.drop v.len) (chain.set v.node node')

/-- The `iovec`s have no byte in common. -/
def Iovec.Disjoint (v w : Iovec) : Prop :=
  v.node = w.node → v.npos + v.len ≤ w.npos ∨ w.npos + w.len ≤ v.npos

/-- **What `iovec`s offer**: `len` bytes from the position on, each byte once, in stretches of
single blocks that are not empty. -/
structure Offers (s : ByteArray) (len : ℕ) (iovs : List Iovec) : Prop where
  total : (iovs.map Iovec.len).sum = len
  nonempty : ∀ v ∈ iovs, 0 < v.len
  within : ∀ v ∈ iovs, v.node < s.root.length ∧ v.npos + v.len ≤ s.baseSize
  disjoint : iovs.Pairwise Iovec.Disjoint
  start : ∀ v ∈ iovs.head?, s.baseSize * v.node + v.npos = s.position

/-! ## On `iovec`s that tile a stretch -/

section Tiles

variable {b a len : ℕ} {chain : List Node} {iovs : List Iovec}

theorem Tiles.len_nil {m : ℕ} (h : Tiles b m a len []) : len = 0 := by
  cases h
  rfl

/-- The lengths add up. -/
theorem Tiles.sum_len {m : ℕ} (h : Tiles b m a len iovs) : (iovs.map Iovec.len).sum = len := by
  induction h with
  | nil a => rfl
  | cons _ _ _ _ ih => rw [List.map_cons, List.sum_cons, ih]

/-- Every `iovec` is a stretch of a block, not empty, and not before the start. -/
theorem Tiles.of_mem {m : ℕ} (h : Tiles b m a len iovs) {v : Iovec} (hv : v ∈ iovs) :
    0 < v.len ∧ v.node < m ∧ v.npos + v.len ≤ b ∧ a ≤ b * v.node + v.npos := by
  induction h with
  | nil a => cases hv
  | @cons u len vs hfit hpos hnode _ ih =>
    rcases List.mem_cons.mp hv with rfl | hv
    · exact ⟨hpos, hnode, hfit, Nat.le_refl _⟩
    · obtain ⟨hpos', hnode', hfit', hle⟩ := ih hv
      exact ⟨hpos', hnode', hfit', by omega⟩

/-- No byte is covered twice: the later `iovec`s start where the first one ends, or behind. -/
theorem Tiles.disjoint {m : ℕ} (h : Tiles b m a len iovs) : iovs.Pairwise Iovec.Disjoint := by
  induction h with
  | nil a => exact List.Pairwise.nil
  | @cons u len vs _ _ _ hrest ih =>
    refine List.pairwise_cons.mpr ⟨fun w hw heq => Or.inl ?_, ih⟩
    obtain ⟨-, -, -, hle⟩ := hrest.of_mem hw
    rw [heq] at hle
    omega

theorem deref_drop {i : ℕ} (hi : i < chain.length) :
    Node.deref (chain.drop i) = .ok chain[i] := by
  rw [List.drop_eq_getElem_cons hi]
  rfl

/-- **A gather is one read**, whatever blocks the stretch lies in. -/
theorem gather_eq (hsize : ∀ node ∈ chain, node.size = b)
    (h : Tiles b chain.length a len iovs) :
    gather chain iovs = .ok (slice (chain.flatMap Node.ptr) a len) := by
  -- on the tiling: the first `iovec` reads the start of the stretch
  induction h with
  | nil a => simp [gather, slice]
  | @cons v len vs hfit hpos hnode _ ih =>
    have hv : chain[v.node].size = b := hsize _ (List.getElem_mem hnode)
    have hload : chain[v.node].load v.npos v.len = .ok (slice chain[v.node].ptr v.npos v.len) :=
      Node.load_eq (by rw [hv]; exact hfit)
    have hblock : slice (chain.flatMap Node.ptr) (b * v.node + v.npos) v.len =
        slice chain[v.node].ptr v.npos v.len := by
      rw [slice_flatMap (length_ptr_of_size hsize) (Nat.le_of_lt hnode),
        List.drop_eq_getElem_cons hnode, List.flatMap_cons, slice_append_left]
      rw [Node.length_ptr, hv]
      exact hfit
    simp only [gather, deref_drop hnode, hload, ih, bind, Except.bind, pure, Except.pure]
    rw [slice_add, hblock]

/-- A chain in which one node has been replaced by one with bytes stored in it. -/
theorem flatMap_set_store (hsize : ∀ node ∈ chain, node.size = b) {i npos : ℕ}
    (hi : i < chain.length) {d : List UInt8} (hfit : npos + d.length ≤ b) {node' : Node}
    (hptr : node'.ptr = splice chain[i].ptr npos d) :
    (chain.set i node').flatMap Node.ptr = splice (chain.flatMap Node.ptr) (b * i + npos) d := by
  have hlength : chain[i].ptr.length = b :=
    length_ptr_of_size hsize _ (List.getElem_mem hi)
  rw [splice_flatMap (length_ptr_of_size hsize) (Nat.le_of_lt hi), List.drop_eq_getElem_cons hi,
    List.flatMap_cons, splice_append_left (by rw [hlength]; exact hfit),
    List.set_eq_take_append_cons_drop, if_pos hi, List.flatMap_append, List.flatMap_cons, hptr]

/-- **A scatter is one overwrite**, whatever blocks the stretch lies in. -/
theorem scatter_eq (h : Tiles b chain.length a len iovs) {d : List UInt8}
    (hsize : ∀ node ∈ chain, node.size = b) (hd : d.length ≤ len) :
    ∃ chain', scatter iovs d chain = .ok chain' ∧
      chain'.flatMap Node.ptr = splice (chain.flatMap Node.ptr) a d ∧
      chain'.length = chain.length ∧ ∀ node ∈ chain', node.size = b := by
  obtain ⟨m, hm⟩ : ∃ m, m = chain.length := ⟨_, rfl⟩
  rw [← hm] at h
  -- on the tiling, for any bytes and any chain of this length
  induction h generalizing d chain with
  | nil a =>
    obtain rfl : d = [] := List.length_eq_zero_iff.mp (Nat.le_zero.mp hd)
    exact ⟨chain, rfl, (splice_nil _ _).symm, rfl, hsize⟩
  | @cons v len vs hfit hpos hnode _ ih =>
    rw [hm] at hnode
    have hv : chain[v.node].size = b := hsize _ (List.getElem_mem hnode)
    have htake : (d.take v.len).length ≤ v.len := by simp
    have hle : v.npos + (d.take v.len).length ≤ chain[v.node].size := by omega
    obtain ⟨node', hstore, hptr, hsize'⟩ := Node.store_eq hle
    have hsizes : ∀ node ∈ chain.set v.node node', node.size = b := by
      intro node hn
      rcases List.mem_or_eq_of_mem_set hn with hn | rfl
      · exact hsize node hn
      · exact hsize'.trans hv
    have hmem := flatMap_set_store hsize hnode (Nat.le_trans (by omega) hfit) hptr
    have hdrop : (d.drop v.len).length ≤ len := by
      rw [List.length_drop]
      omega
    obtain ⟨chain', hrest, hmem', hlength, hsizes'⟩ :=
      ih hsizes hdrop (by rw [List.length_set, hm])
    refine ⟨chain', ?_, ?_, by rw [hlength, List.length_set], hsizes'⟩
    · simp only [scatter, deref_drop hnode, hstore, bind, Except.bind, hrest]
    · rw [hmem', hmem]
      rcases Nat.lt_or_ge v.len d.length with hlt | hle
      · have hlen : (d.take v.len).length = v.len := by simp; omega
        have hin : b * v.node + v.npos ≤ (chain.flatMap Node.ptr).length := by
          rw [length_flatMap_of_uniform (length_ptr_of_size hsize)]
          have := Nat.mul_le_mul_left b (Nat.succ_le_of_lt hnode)
          rw [Nat.mul_succ] at this
          omega
        have hjoin := splice_splice hin (d.take v.len) (d.drop v.len)
        rwa [hlen, List.take_append_drop] at hjoin
      · rw [List.drop_eq_nil_of_le hle, splice_nil, List.take_of_length_le hle]

end Tiles

/-! ## From the position on -/

section Position

variable {s t : ByteArray} {len : ℕ} {iovs : List Iovec}

/-- `iovec`s that cover something are not none. -/
theorem Covers.ne_nil (hc : s.Covers len iovs) (hlen : len ≠ 0) : iovs ≠ [] := by
  rintro rfl
  exact hlen (Tiles.len_nil hc)

/-- Through `iovec`s that cover the bytes from the position on, these bytes are taken out. -/
theorem Covers.gather_eq (h : s.WellFormed) (hc : s.Covers len iovs) :
    gather s.root iovs = .ok (slice s.mem s.position len) :=
  ByteArray.gather_eq h.node_size hc

/-- What covers the bytes from the position on offers them. -/
theorem Covers.offers (hc : s.Covers len iovs) : s.Offers len iovs where
  total := Tiles.sum_len hc
  nonempty := fun _ hv => (Tiles.of_mem hc hv).1
  within := fun _ hv => ⟨(Tiles.of_mem hc hv).2.1, (Tiles.of_mem hc hv).2.2.1⟩
  disjoint := Tiles.disjoint hc
  start := by
    intro v hv
    unfold Covers at hc
    generalize s.position = a at hc ⊢
    cases hc with
    | nil => cases hv
    | cons =>
      obtain rfl := Option.some.inj hv
      rfl

/-- Growing the memory does not touch the written bytes. -/
theorem Grows.stored_eq (h : s.WellFormed) (hg : Grows s len t) : t.stored = s.stored := by
  obtain ⟨fill, -, hmem⟩ := hg.mem_eq
  have hlen : s.size ≤ s.mem.length := by rw [h.length_mem]; exact h.size_le
  rw [stored, hmem, hg.size_eq, List.take_append_of_le_length hlen, stored]

/-- What has happened when the bytes `d` have been received at the position: the written bytes and
the position are those that a `write` of `d` leaves. -/
structure Receives (s : ByteArray) (d : List UInt8) (t : ByteArray) : Prop where
  wellFormed : t.WellFormed
  stored_eq : t.stored = splice s.stored s.position d
  position_eq : t.position = s.position + d.length

/-- Receiving twice is to receive both. -/
theorem Receives.trans {u : ByteArray} {d e : List UInt8} (h : s.WellFormed)
    (hd : Receives s d t) (he : Receives t e u) : Receives s (d ++ e) u where
  wellFormed := he.wellFormed
  stored_eq := by
    have hin : s.position ≤ s.stored.length := by
      rw [h.length_stored]
      exact h.position_le
    rw [he.stored_eq, hd.stored_eq, hd.position_eq, splice_splice hin]
  position_eq := by
    rw [he.position_eq, hd.position_eq, List.length_append, Nat.add_assoc]

/-- What has been received can be read from the old position on. -/
theorem Receives.slice_eq {d : List UInt8} (h : s.WellFormed) (hd : Receives s d t) :
    slice t.stored s.position d.length = d := by
  have hin : s.position ≤ s.stored.length := by
    rw [h.length_stored]
    exact h.position_le
  apply slice_of_prefix
  rw [hd.stored_eq, splice, List.append_assoc, List.drop_left' (by simp [hin])]
  exact List.prefix_append _ _

/-- Bytes scattered from the position on overwrite the memory there, and nothing else changes. -/
theorem scatter_covers (h : s.WellFormed) (hc : s.Covers len iovs) {d : List UInt8}
    (hd : d.length ≤ len) :
    ∃ chain, scatter iovs d s.root = .ok chain ∧
      ({ s with root := chain } : ByteArray).WellFormed ∧
      ({ s with root := chain } : ByteArray).mem = splice s.mem s.position d := by
  obtain ⟨chain, hscatter, hmem, hlength, hsize⟩ := scatter_eq hc h.node_size hd
  refine ⟨chain, hscatter, ?_, hmem⟩
  refine ⟨h.base_pos, ?_, hsize, ?_, h.position_le, h.size_le, h.cur_eq⟩
  · rw [← List.length_pos_iff, hlength, List.length_pos_iff]
    exact h.root_ne_nil
  · change s.capacity = s.baseSize * chain.length
    rw [hlength]
    exact h.capacity_eq

/-- **To receive is to write**: bytes scattered through the `iovec`s of `getWriteBuffers`, and the
position then set behind them. Without bytes there is no need to set it. -/
theorem receive_eq (π : Platform) (h : s.WellFormed) (len : ℕ) :
    ∃ t iovs, getWriteBuffers π len s = .ok (len, iovs) t ∧ t.Covers len iovs ∧
      ∀ d : List UInt8, d.length ≤ len → ∃ chain u, scatter iovs d t.root = .ok chain ∧
        (d = [] → Receives s d { t with root := chain }) ∧
        setPosition (t.position + d.length) { t with root := chain } = .ok () u ∧
          Receives s d u := by
  obtain ⟨t, iovs, hrun, hg, hcovers⟩ := getWriteBuffers_eq π h len
  refine ⟨t, iovs, hrun, hcovers, fun d hd => ?_⟩
  have ht := hg.wellFormed
  obtain ⟨chain, hscatter, hwf, hmem⟩ := scatter_covers ht hcovers hd
  have hroom : t.position + d.length ≤ t.capacity := by
    have hcapacity := hg.room h
    rw [hg.position_eq]
    omega
  refine ⟨chain, _, hscatter, ?_, setPosition_eq hwf hroom, hwf.setPosition hroom, ?_, ?_⟩
  · rintro rfl
    refine ⟨hwf, ?_, hg.position_eq⟩
    rw [stored, hmem, splice_nil, splice_nil]
    exact hg.stored_eq h
  · have hlen : t.size ≤ t.mem.length := by
      rw [ht.length_mem]
      exact ht.size_le
    change (mem { t with root := chain }).take (max t.size (t.position + d.length)) = _
    rw [hmem, take_splice ht.position_le hlen, ← hg.stored_eq h, ← hg.position_eq]
    rfl
  · change t.position + d.length = _
    rw [hg.position_eq]

/-- **To receive is to write**, in every reachable state. `getWriteBuffers` offers `len` bytes from
the position on and leaves the position, the size and the stored bytes as they are; storing `d` in
them and setting the position behind it does what `write(d)` does. -/
theorem receive_eq_write (π : Platform) {b : ℕ} (hb : 1 ≤ b) {calls : List Call}
    (h : exec (step π) (construct π b) calls = some s) {d : List UInt8} (hd : d.length ≤ len) :
    ∃ t iovs, getWriteBuffers π len s = .ok (len, iovs) t ∧ t.Offers len iovs ∧
      (t.position = s.position ∧ t.size = s.size ∧ t.stored = s.stored) ∧
      ∃ chain u v, scatter iovs d t.root = .ok chain ∧
        setPosition (t.position + d.length) { t with root := chain } = .ok () u ∧
        write π d s = .ok () v ∧
        u.position = v.position ∧ u.size = v.size ∧ u.stored = v.stored := by
  have hs := (wellFormed_of_exec π hb h).1
  obtain ⟨t, iovs, hrun, hg, -⟩ := getWriteBuffers_eq π hs len
  obtain ⟨t', iovs', hrun', hcovers, hreceive⟩ := receive_eq π hs len
  obtain ⟨v, hv, hw⟩ := write_eq π hs d
  rw [hrun] at hrun'
  cases hrun'
  obtain ⟨chain, u, hscatter, -, hset, hu⟩ := hreceive d hd
  have hstored : u.stored = v.stored := by rw [hu.stored_eq, hw.stored_eq hs]
  refine ⟨t, iovs, hrun, hcovers.offers, ⟨hg.position_eq, hg.size_eq, hg.stored_eq hs⟩, chain, u, v,
    hscatter, hset, hv, ?_, ?_, hstored⟩
  · rw [hu.position_eq, hw.position_eq]
  · rw [← hu.wellFormed.length_stored, hstored, hw.wellFormed.length_stored]

theorem receive_eq_write_two_blocks :
    ∃ s t, exec (step ⟨.little, fun _ _ => 0⟩) (construct ⟨.little, fun _ _ => 0⟩ 2)
        [.write [1, 2, 3], .setPosition 1] = some s ∧
      ∃ iovs, getWriteBuffers ⟨.little, fun _ _ => 0⟩ 4 s = .ok (4, iovs) t ∧ t.Offers 4 iovs ∧
        ∃ chain u v, scatter iovs [7, 8, 9] t.root = .ok chain ∧
          setPosition (t.position + 3) { t with root := chain } = .ok () u ∧
          write ⟨.little, fun _ _ => 0⟩ [7, 8, 9] s = .ok () v ∧ u.stored = v.stored := by
  obtain ⟨s, hs⟩ : ∃ s, exec (step ⟨.little, fun _ _ => 0⟩) (construct ⟨.little, fun _ _ => 0⟩ 2)
      [.write [1, 2, 3], .setPosition 1] = some s := ⟨_, rfl⟩
  obtain ⟨t, iovs, hrun, hoffers, -, chain, u, v, hscatter, hset, hv, -, -, hstored⟩ :=
    receive_eq_write ⟨.little, fun _ _ => 0⟩ (b := 2) (by decide) hs
      (show [7, 8, 9].length ≤ 4 by decide)
  exact ⟨s, t, hs, iovs, hrun, hoffers, chain, u, v, hscatter, hset, hv, hstored⟩

end Position

end ByteArray

end Dag
