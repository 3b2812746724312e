import Dag.ByteArray.Positional

/-!
# The byte array: taking the contents out, and files

What can be read is taken out as a string, through `iovec`s, by `read`, or into a file, each by a
loop of its own. `writeToFile` computes its offset into a block as an `int`, which holds it when the
base size is at most `INT_MAX`. `readFromFile` reads blocks until the end of the file has been seen,
which is behind the last byte: a file of full blocks takes another read, of nothing.

A file is its bytes. That it cannot be opened is decided from outside; an open stream does not fail.
`int64_t` is read as `ℕ`, as `size_t` is.

## Main definitions

* `toString`: the bytes that can be read
* `writeToFile`, `readFromFile`: what can be read into a file, and a file behind the position
* `IfStream`: a file that is read

## Main results

* `toString_eq`, `writeToFile_eq`: both take out what can be read
* `views_agree`: all ways of taking data out agree, in every reachable state
* `readFromFile_eq`: a file is received as its bytes are
* `file_roundTrip`: a byte array written to a file and read by a fresh one, of any block sizes
-/

namespace Dag

open Foundation

namespace ByteArray

/-- `toString()`. -/
def toString : Op (List UInt8) := do
  let s ← Prog.get
  -- `str.resize(getReadSize())`, and no read into an empty `str`
  if s.getReadSize = 0 then return []
  readAt s.getReadSize s.position

/-! ## Files -/

/-- The loop of `writeToFile`, on the chain from the current node: the bytes that go into the
file. -/
def writeFileLoop (baseSize : ℕ) : List Node → (readSize pos : ℕ) → Except Fault (List UInt8)
  | [], readSize, _ => if readSize = 0 then .ok [] else .error .nullPointer
  | node :: next, readSize, pos =>
    if readSize = 0 then .ok []
    else do
      -- `int diff = pos % m_baseSize`
      let diff := toInt32 (pos % baseSize : ℕ)
      let nodeRemains := (baseSize : ℤ) - diff
      let len := (min nodeRemains readSize).toNat
      -- `cur->ptr + diff`, which is in front of the block when `diff` is negative
      let out ← if diff < 0 then .error .overrun else node.load diff.toNat len
      let rest ← writeFileLoop baseSize next (readSize - len) (pos + len)
      return out ++ rest

/-- `writeToFile(name)`: what the file holds, when it could be opened and `true` is returned. -/
def writeToFile (opens : Bool) : Op (Option (List UInt8)) := do
  if opens = false then return none
  let s ← Prog.get
  let out ← Prog.lift (writeFileLoop s.baseSize (s.chainFrom s.cur) s.getReadSize s.position)
  return some out

/-- A file that is read: the bytes left in it, and `eof()`. -/
structure IfStream where
  rest : List UInt8
  eof : Bool

/-- `ifs.read(buff, n)`: the first `gcount()` bytes of the buffer. The end of the file has been seen
when there are fewer than `n`. -/
def IfStream.read (ifs : IfStream) (n : ℕ) : List UInt8 × IfStream :=
  (ifs.rest.take n, ⟨ifs.rest.drop n, ifs.eof || decide (ifs.rest.length < n)⟩)

/-- The loop of `readFromFile`, with a buffer of `n` bytes; `none` when the fuel does not
suffice. -/
def readFileLoop (π : Platform) (n : ℕ) : (fuel : ℕ) → IfStream → Op (Option Bool)
  | 0, _ => return none
  | fuel + 1, ifs =>
    if ifs.eof then return some true
    else do
      let (buff, ifs) := ifs.read n
      write π buff
      readFileLoop π n fuel ifs

/-- `readFromFile(name)`, of a file that cannot be opened or that has some contents. -/
def readFromFile (π : Platform) (fuel : ℕ) : Option (List UInt8) → Op (Option Bool)
  | none => return some false
  | some contents => do
    let s ← Prog.get
    readFileLoop π s.baseSize fuel ⟨contents, false⟩

/-! ## Taking the contents out -/

section Out

variable {s : ByteArray} {b : ℕ}

/-- Nothing is left of the file to be written. -/
theorem writeFileLoop_zero (chain : List Node) (pos : ℕ) :
    writeFileLoop b chain 0 pos = .ok [] := by
  cases chain <;> rfl

/-- One pass of the loop, with an offset that an `int` holds. -/
theorem writeFileLoop_cons {node : Node} {next : List Node} {readSize pos : ℕ} (hb : 0 < b)
    (hmax : b ≤ 2147483647) (hpos : readSize ≠ 0) :
    writeFileLoop b (node :: next) readSize pos = (do
      let out ← node.load (pos % b) (min (b - pos % b) readSize)
      let rest ← writeFileLoop b next (readSize - min (b - pos % b) readSize)
        (pos + min (b - pos % b) readSize)
      return out ++ rest) := by
  have hlt : pos % b < b := Nat.mod_lt _ hb
  have hint : toInt32 (pos % b : ℕ) = (pos % b : ℕ) := toInt32_of_le (by omega)
  have hlen : (min ((b : ℤ) - (pos % b : ℕ)) readSize).toNat = min (b - pos % b) readSize := by
    omega
  have hnonneg : ¬ ((pos % b : ℕ) : ℤ) < 0 := by omega
  rw [writeFileLoop, if_neg hpos]
  dsimp only
  rw [hint, hlen, if_neg hnonneg, Int.toNat_natCast]

/-- What one pass adds to what the others write. -/
theorem writeFileLoop_pass {node : Node} {next : List Node} {readSize pos : ℕ} (hb : 0 < b)
    (hmax : b ≤ 2147483647) (hnode : node.size = b) (hpos : readSize ≠ 0) {rest : List UInt8}
    (hrest : writeFileLoop b next (readSize - min (b - pos % b) readSize)
      (pos + min (b - pos % b) readSize) = .ok rest) :
    writeFileLoop b (node :: next) readSize pos =
      .ok (slice node.ptr (pos % b) (min (b - pos % b) readSize) ++ rest) := by
  have hlt : pos % b < b := Nat.mod_lt _ hb
  have hload : node.load (pos % b) (min (b - pos % b) readSize) =
      .ok (slice node.ptr (pos % b) (min (b - pos % b) readSize)) := by
    apply Node.load_eq
    omega
  rw [writeFileLoop_cons hb hmax hpos, hload]
  simp only [hrest, bind, Except.bind, pure, Except.pure]

/-- **The file loop** writes a slice of the memory of its chain. -/
theorem writeFileLoop_eq (hb : 0 < b) (hmax : b ≤ 2147483647) :
    ∀ (chain : List Node) (readSize pos : ℕ), (∀ node ∈ chain, node.size = b) →
      pos % b + readSize ≤ b * chain.length → writeFileLoop b chain readSize pos =
        .ok (slice (chain.flatMap Node.ptr) (pos % b) readSize) := by
  intro chain
  induction chain with
  | nil =>
    intro readSize pos _ hroom
    rw [List.length_nil, Nat.mul_zero] at hroom
    rw [show readSize = 0 by omega, writeFileLoop_zero]
    simp [slice]
  | cons node next ih =>
    intro readSize pos hsize hroom
    have hnode : node.size = b := hsize node (List.mem_cons_self ..)
    have hptr : node.ptr.length = b := by rw [node.length_ptr, hnode]
    have hnext : ∀ n ∈ next, n.size = b := fun n hn => hsize n (List.mem_cons_of_mem _ hn)
    have hlt : pos % b < b := Nat.mod_lt _ hb
    rw [List.length_cons, Nat.mul_succ] at hroom
    by_cases h0 : readSize = 0
    · rw [h0, writeFileLoop_zero]
      simp [slice]
    · rcases Nat.lt_or_ge (b - pos % b) readSize with hmore | hfit
      · have hmin : min (b - pos % b) readSize = b - pos % b := Nat.min_eq_left (by omega)
        have hstart : (pos + (b - pos % b)) % b = 0 := by
          have hdm := Nat.div_add_mod pos b
          rw [show pos + (b - pos % b) = b * (pos / b + 1) by rw [Nat.mul_succ]; omega]
          exact Nat.mul_mod_right ..
        have hrest := ih (readSize - (b - pos % b)) (pos + (b - pos % b)) hnext
          (by rw [hstart]; omega)
        rw [hstart] at hrest
        rw [writeFileLoop_pass hb hmax hnode h0 (by rw [hmin]; exact hrest), hmin,
          List.flatMap_cons, slice_across (by omega) (by omega), hptr]
      · have hmin : min (b - pos % b) readSize = readSize := Nat.min_eq_right hfit
        have hrest : writeFileLoop b next (readSize - readSize) (pos + readSize) = .ok [] := by
          rw [Nat.sub_self, writeFileLoop_zero]
        rw [writeFileLoop_pass hb hmax hnode h0 (by rw [hmin]; exact hrest), hmin, List.append_nil,
          List.flatMap_cons, slice_append_left (by omega)]

/-- What can be read, as a slice. -/
theorem slice_unread (s : ByteArray) (h : s.WellFormed) :
    slice s.stored s.position s.getReadSize = s.unread := by
  rw [slice, List.take_of_length_le]
  · rfl
  · rw [← h.length_unread]
    exact Nat.le_refl _

/-- **The string** is what can be read. -/
theorem toString_eq (h : s.WellFormed) : toString s = .ok s.unread s := by
  have hps := h.position_le
  have hsc := h.size_le
  rw [toString, Prog.get_bind]
  split_ifs with h0
  · rw [List.eq_nil_of_length_eq_zero (h.length_unread.trans h0)]
    rfl
  · unfold getReadSize at h0
    rw [readAt_eq h (by omega) (by unfold getReadSize; omega) (by unfold getReadSize; omega),
      slice_unread s h]

/-- **The file** is what can be read. -/
theorem writeToFile_eq (h : s.WellFormed) (hmax : s.baseSize ≤ 2147483647) :
    writeToFile true s = .ok (some s.unread) s := by
  have hps := h.position_le
  have hsc := h.size_le
  have hloop : writeFileLoop s.baseSize (s.chainFrom s.cur) s.getReadSize s.position =
      .ok s.unread := by
    by_cases hp : s.position < s.capacity
    · rw [h.cur_of_lt hp, chainFrom, writeFileLoop_eq h.base_pos hmax _ _ _
        (fun node hn => h.node_size node (List.mem_of_mem_drop hn))
        (by rw [← h.room hp]; unfold getReadSize; omega),
        ← slice_flatMap (length_ptr_of_size h.node_size) (Nat.le_of_lt (h.node_lt hp)),
        Nat.div_add_mod, ← slice_unread s h, stored, slice_take (by unfold getReadSize; omega), mem]
    · have h0 : s.getReadSize = 0 := by unfold getReadSize; omega
      rw [h0, writeFileLoop_zero, List.eq_nil_of_length_eq_zero (h.length_unread.trans h0)]
  rw [writeToFile]
  simp only [Bool.true_eq_false, if_false, Prog.get_bind, hloop, Prog.lift_bind, Prog.pure_apply]

/-- **All ways of taking data out agree**, in every reachable state. The string and the file hold
what can be read, all of it; `iovec`s offer, and a `read` returns, its first `len` bytes. Nothing
but the `read` changes the state. -/
theorem views_agree (π : Platform) {b : ℕ} (hb : 1 ≤ b) (hmax : b ≤ 2147483647) {calls : List Call}
    (h : exec (step π) (construct π b) calls = some s) :
    ∃ out, toString s = .ok out s ∧ writeToFile true s = .ok (some out) s ∧
      out.length = s.getReadSize ∧
      ∀ len, 1 ≤ len → len ≤ s.getReadSize → ∃ iovs t,
        getReadBuffers len s = .ok (len, iovs) s ∧ s.Offers len iovs ∧
        gather s.root iovs = .ok (out.take len) ∧ read len s = .ok (out.take len) t := by
  obtain ⟨hs, hbase, -⟩ := wellFormed_of_exec π hb h
  have hps := hs.position_le
  refine ⟨s.unread, toString_eq hs, writeToFile_eq hs (hbase ▸ hmax), hs.length_unread, ?_⟩
  intro len hpos hlen
  obtain ⟨iovs, hiovs, hcovers⟩ := getReadBuffers_eq hs len
  rw [Nat.min_eq_left hlen] at hiovs hcovers
  have hin : s.position + len ≤ s.size := by
    unfold getReadSize at hlen
    omega
  have htake : s.unread.take len = slice s.mem s.position len := slice_stored hin
  rw [htake]
  exact ⟨iovs, _, hiovs, hcovers.offers, hcovers.gather_eq hs, read_eq hs (by omega) hlen⟩

theorem views_agree_two_blocks :
    ∃ s out, exec (step ⟨.little, fun _ _ => 0⟩) (construct ⟨.little, fun _ _ => 0⟩ 2)
        [.write [1, 2, 3, 4, 5], .setPosition 1] = some s ∧
      toString s = .ok out s ∧ writeToFile true s = .ok (some out) s ∧
      ∃ iovs t, getReadBuffers 3 s = .ok (3, iovs) s ∧ s.Offers 3 iovs ∧
        gather s.root iovs = .ok (out.take 3) ∧ read 3 s = .ok (out.take 3) t := by
  obtain ⟨s, hs⟩ : ∃ s, exec (step ⟨.little, fun _ _ => 0⟩) (construct ⟨.little, fun _ _ => 0⟩ 2)
      [.write [1, 2, 3, 4, 5], .setPosition 1] = some s := ⟨_, rfl⟩
  obtain ⟨out, hstring, hfile, -, hviews⟩ :=
    views_agree ⟨.little, fun _ _ => 0⟩ (b := 2) (by decide) (by decide) hs
  have hlen : 3 ≤ s.getReadSize := by
    obtain rfl := Option.some.inj hs
    decide
  exact ⟨s, out, hs, hstring, hfile, hviews 3 (by decide) hlen⟩

end Out

/-! ## Reading a file -/

section File

variable {s : ByteArray} {n : ℕ}

/-- A block of the file is received as it is written. -/
theorem receives_write (π : Platform) (h : s.WellFormed) (d : List UInt8) :
    ∃ t, write π d s = .ok () t ∧ Receives s d t := by
  obtain ⟨t, ht, hw⟩ := write_eq π h d
  exact ⟨t, ht, hw.wellFormed, hw.stored_eq h, hw.position_eq⟩

/-- **The loop of `readFromFile`** receives the bytes of the file, with fuel for a pass over each of
them and for seeing the end. -/
theorem readFileLoop_eq (π : Platform) (hn : 0 < n) :
    ∀ (fuel : ℕ) (rest : List UInt8) (s : ByteArray), rest.length + 2 ≤ fuel → s.WellFormed →
      ∃ t, readFileLoop π n fuel ⟨rest, false⟩ s = .ok (some true) t ∧ Receives s rest t := by
  intro fuel
  -- on the fuel: every pass but the last takes at least one byte
  induction fuel with
  | zero => exact fun rest _ hfuel _ => absurd hfuel (by omega)
  | succ fuel ih =>
    intro rest s hfuel h
    obtain ⟨t, ht, hreceives⟩ := receives_write π h (rest.take n)
    have hpass : readFileLoop π n (fuel + 1) ⟨rest, false⟩ s =
        readFileLoop π n fuel ⟨rest.drop n, decide (rest.length < n)⟩ t := by
      rw [readFileLoop]
      exact Prog.bind_ok ht
    rw [hpass]
    rcases Nat.lt_or_ge rest.length n with hlast | hmore
    · rw [List.take_of_length_le (Nat.le_of_lt hlast)] at hreceives
      refine ⟨t, ?_, hreceives⟩
      obtain ⟨fuel, rfl⟩ : ∃ k, fuel = k + 1 := ⟨fuel - 1, by omega⟩
      rw [readFileLoop, if_pos (decide_eq_true hlast), Prog.pure_apply]
    · obtain ⟨u, hu, hrest⟩ := ih (rest.drop n) t (by rw [List.length_drop]; omega)
        hreceives.wellFormed
      rw [decide_eq_false (Nat.not_lt.mpr hmore)]
      have hall := hreceives.trans h hrest
      rw [List.take_append_drop] at hall
      exact ⟨u, hu, hall⟩

theorem readFromFile_eq (π : Platform) (h : s.WellFormed) {fuel : ℕ} {contents : List UInt8}
    (hfuel : contents.length + 2 ≤ fuel) :
    ∃ t, readFromFile π fuel (some contents) s = .ok (some true) t ∧ Receives s contents t := by
  rw [readFromFile, Prog.get_bind]
  exact readFileLoop_eq π h.base_pos fuel contents s hfuel h

/-- **A file carries a byte array over.** What can be read in any reachable state is written to a
file, read by a fresh byte array of any base size, and is its contents from the start on. The byte
array that was written stays as it is. -/
theorem file_roundTrip (π π' : Platform) {b b' : ℕ} (hb : 1 ≤ b) (hmax : b ≤ 2147483647)
    (hb' : 1 ≤ b') {calls : List Call} (h : exec (step π) (construct π b) calls = some s) :
    ∃ contents out, writeToFile true s = .ok (some contents) s ∧ toString s = .ok out s ∧
      ∀ fuel, contents.length + 2 ≤ fuel → ∃ t u,
        readFromFile π' fuel (some contents) (construct π' b') = .ok (some true) t ∧
        setPosition 0 t = .ok () u ∧ toString u = .ok out u := by
  obtain ⟨hs, hbase, -⟩ := wellFormed_of_exec π hb h
  refine ⟨s.unread, s.unread, writeToFile_eq hs (hbase ▸ hmax), toString_eq hs, ?_⟩
  intro fuel hfuel
  obtain ⟨t, hread, hreceives⟩ := readFromFile_eq π' (wellFormed_construct π' hb') hfuel
  have ht := hreceives.wellFormed
  have hset := setPosition_eq ht (Nat.zero_le t.capacity)
  rw [movedTo_max_of_le (Nat.zero_le _)] at hset
  have hstring := toString_eq (ht.movedTo (Nat.zero_le _))
  have hunread : (t.movedTo 0).unread = s.unread := by
    change t.stored = s.unread
    rw [hreceives.stored_eq]
    simp [stored, construct, splice]
  rw [hunread] at hstring
  exact ⟨t, t.movedTo 0, hread, hset, hstring⟩

theorem file_roundTrip_full_blocks :
    ∃ s contents out, exec (step ⟨.little, fun _ _ => 0⟩) (construct ⟨.little, fun _ _ => 0⟩ 2)
        [.write [1, 2, 3, 4, 5], .setPosition 1] = some s ∧
      writeToFile true s = .ok (some contents) s ∧ toString s = .ok out s ∧
      ∃ t u, readFromFile ⟨.little, fun _ _ => 7⟩ (contents.length + 2) (some contents)
          (construct ⟨.little, fun _ _ => 7⟩ 4) = .ok (some true) t ∧
        setPosition 0 t = .ok () u ∧ toString u = .ok out u := by
  obtain ⟨s, hs⟩ : ∃ s, exec (step ⟨.little, fun _ _ => 0⟩) (construct ⟨.little, fun _ _ => 0⟩ 2)
      [.write [1, 2, 3, 4, 5], .setPosition 1] = some s := ⟨_, rfl⟩
  obtain ⟨contents, out, hfile, hstring, hback⟩ :=
    file_roundTrip ⟨.little, fun _ _ => 0⟩ ⟨.little, fun _ _ => 7⟩ (show 1 ≤ 2 by decide)
      (by decide) (show 1 ≤ 4 by decide) hs
  exact ⟨s, contents, out, hs, hfile, hstring, hback _ (Nat.le_refl _)⟩

end File

end ByteArray

end Dag
