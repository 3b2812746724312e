import Dag.ByteArray.Operations
import Dag.Foundation.Run

/-!
# The byte array: two abstractions

What a byte array is for, in two steps of abstraction from its chain of blocks.

A `Flat` buffer is one contiguous memory with a position and a size. It still shows the block size,
through its capacity: that is what it grows by, and what `setPosition` is bounded by.

A `Tape` is what has been written, and the position. It is the view of a user who never sets the
position beyond what has been written: nothing in it depends on the block size, nor on what the
allocator hands out, so two byte arrays in such hands give the same bytes.

## Main definitions

* `Flat`, `Flat.Step`: the contiguous memory and what a call may do to it
* `Tape`, `Tape.step`: the written bytes and what a call does to them
* `FlatCall`, `Reply`, `answer`: calls on raw bytes, and how the byte array answers them

## Main results

* `flat_step`, `flat_run`: the chain of blocks simulates the contiguous memory
* `tape_step`: a byte array in such hands is a tape
* `trace_eq_of_tape`: two byte arrays that are the same tape give the same replies
* `refines_flat`: both, for every run from the constructor
-/

namespace Dag

open Foundation

/-- The calls on raw bytes. -/
inductive FlatCall
  | write (d : List UInt8)
  | read (n : ℕ)
  | setPosition (v : ℕ)
  | clear
  deriving DecidableEq, Repr

/-- What a call gives back: nothing, bytes, or `std::out_of_range`. -/
inductive Reply
  | done
  | bytes (bs : List UInt8)
  | outOfRange
  deriving DecidableEq, Repr

/-! ## The abstractions -/

/-- One contiguous memory, with a position and a size; its capacity is its length. -/
structure Flat where
  mem : List UInt8
  position : ℕ
  size : ℕ
  deriving DecidableEq, Repr

/-- **What a call may do to a contiguous memory** that grows by `b` bytes at a time. A write first
grows the memory, by the least number of blocks that makes it hold the bytes written; what the new
bytes are is left open. -/
inductive Flat.Step (b : ℕ) (f : Flat) : FlatCall → Reply → Flat → Prop
  | write (d fill : List UInt8) (k : ℕ) (hfill : fill.length = b * k)
      (hroom : f.position + d.length ≤ f.mem.length + b * k)
      (hleast : ∀ j, f.position + d.length ≤ f.mem.length + b * j → k ≤ j) :
      Step b f (.write d) .done
        ⟨splice (f.mem ++ fill) f.position d, f.position + d.length,
          max f.size (f.position + d.length)⟩
  | read (n : ℕ) (h : n ≤ f.size - f.position) :
      Step b f (.read n) (.bytes (slice f.mem f.position n)) { f with position := f.position + n }
  | readThrow (n : ℕ) (h : f.size - f.position < n) : Step b f (.read n) .outOfRange f
  | setPosition (v : ℕ) (h : v ≤ f.mem.length) :
      Step b f (.setPosition v) .done { f with position := v, size := max f.size v }
  | setPositionThrow (v : ℕ) (h : f.mem.length < v) : Step b f (.setPosition v) .outOfRange f
  | clear : Step b f .clear .done ⟨f.mem.take b, 0, 0⟩

/-- Calls and replies one after another. -/
inductive Flat.Run (b : ℕ) : Flat → List FlatCall → List Reply → Flat → Prop
  | nil (f : Flat) : Run b f [] [] f
  | cons {f g h : Flat} {c : FlatCall} {r : Reply} {cs : List FlatCall} {rs : List Reply} :
      Step b f c r g → Run b g cs rs h → Run b f (c :: cs) (r :: rs) h

/-- What has been written, and the position. -/
structure Tape where
  stored : List UInt8
  position : ℕ
  deriving DecidableEq, Repr

/-- What a call does to a tape; `setPosition` is meant for positions on the tape. -/
def Tape.step (t : Tape) : FlatCall → Reply × Tape
  | .write d => (.done, ⟨splice t.stored t.position d, t.position + d.length⟩)
  | .read n =>
    if n ≤ t.stored.length - t.position then
      (.bytes (slice t.stored t.position n), { t with position := t.position + n })
    else (.outOfRange, t)
  | .setPosition v => (.done, { t with position := v })
  | .clear => (.done, ⟨[], 0⟩)

namespace ByteArray

variable (π : Platform)

/-- The reply and the state that an outcome leaves. -/
def replyOf {α : Type} (f : α → Reply) : Outcome OutOfRange Fault ByteArray α →
    Option (Reply × ByteArray)
  | .ok a t => some (f a, t)
  | .throw _ t => some (.outOfRange, t)
  | .fault _ => none

/-- How the byte array answers a call; `none` when it faults. -/
def answer (s : ByteArray) : FlatCall → Option (Reply × ByteArray)
  | .write d => replyOf (fun _ => .done) (write π d s)
  | .read n => replyOf .bytes (read n s)
  | .setPosition v => replyOf (fun _ => .done) (setPosition v s)
  | .clear => replyOf (fun _ => .done) (clear s)

/-- The contiguous memory that a byte array stands for. -/
def flat (s : ByteArray) : Flat := ⟨s.mem, s.position, s.size⟩

/-- The bytes written so far. -/
def stored (s : ByteArray) : List UInt8 := s.mem.take s.size

/-- The bytes that can still be read. -/
def unread (s : ByteArray) : List UInt8 := s.stored.drop s.position

/-- The tape that a byte array stands for. -/
def tape (s : ByteArray) : Tape := ⟨s.stored, s.position⟩

/-- The call does not read 0 bytes. -/
def NonEmptyRead (c : FlatCall) : Prop := ∀ n, c = .read n → 1 ≤ n

/-- The call does not set the position beyond what has been written. -/
def WithinSize (s : ByteArray) (c : FlatCall) : Prop := ∀ v, c = .setPosition v → v ≤ s.size

/-! ## The written bytes -/

section Stored

variable {s t : ByteArray} {π}

theorem WellFormed.length_stored (h : s.WellFormed) : s.stored.length = s.size := by
  rw [stored, List.length_take, h.length_mem, Nat.min_eq_left h.size_le]

theorem WellFormed.length_unread (h : s.WellFormed) : s.unread.length = s.getReadSize := by
  rw [unread, List.length_drop, h.length_stored, getReadSize]

@[simp] theorem stored_movedTo (s : ByteArray) (p : ℕ) : (s.movedTo p).stored = s.stored := rfl

/-- A write changes the written bytes as an overwrite, whatever the blocks are. -/
theorem Writes.stored_eq (h : s.WellFormed) {buf : List UInt8} (hw : Writes s buf t) :
    t.stored = splice s.stored s.position buf := by
  obtain ⟨fill, -, hmem⟩ := hw.mem_eq
  have hlen : s.size ≤ s.mem.length := by rw [h.length_mem]; exact h.size_le
  rw [stored, hmem, hw.size_eq, take_splice h.position_le
    (by rw [List.length_append]; omega), List.take_append_of_le_length hlen, stored]

/-- Of the written bytes a read gives the same as of the memory. -/
theorem slice_stored {n : ℕ} (hn : s.position + n ≤ s.size) :
    slice s.stored s.position n = slice s.mem s.position n := slice_take hn

/-- Setting the position within what has been written keeps it. -/
theorem movedTo_max_of_le {v : ℕ} (hv : v ≤ s.size) :
    { s with size := max s.size v }.movedTo v = s.movedTo v := by
  rw [Nat.max_eq_left hv]

end Stored

/-! ## One call -/

section Step

variable {s : ByteArray}

/-- **The chain of blocks simulates the contiguous memory**, one call at a time, and does not
fault. -/
theorem flat_step (h : s.WellFormed) (c : FlatCall) (hc : NonEmptyRead c) :
    ∃ r t, answer π s c = some (r, t) ∧ t.WellFormed ∧ t.baseSize = s.baseSize ∧
      Flat.Step s.baseSize s.flat c r t.flat := by
  cases c with
  | write d =>
    obtain ⟨t, ht, hw⟩ := write_eq π h d
    refine ⟨.done, t, by simp [answer, ht, replyOf], hw.wellFormed, hw.baseSize_eq, ?_⟩
    obtain ⟨fill, hfill, hmem⟩ := hw.mem_eq
    have hflat : t.flat = ⟨splice (s.mem ++ fill) s.position d, s.position + d.length,
        max s.size (s.position + d.length)⟩ := by
      rw [flat, hmem, hw.position_eq, hw.size_eq]
    rw [hflat]
    refine Flat.Step.write d fill _ hfill ?_ ?_ <;> simp only [flat, h.length_mem]
    · exact le_add_growth h.base_pos _ _
    · exact fun j hj => growth_le h.base_pos hj
  | read n =>
    have hps := h.position_le
    rcases Nat.lt_or_ge s.getReadSize n with hlt | hle
    · refine ⟨.outOfRange, s, by simp [answer, read_throw hlt, replyOf], h, rfl, ?_⟩
      exact Flat.Step.readThrow n hlt
    · have hn : n ≠ 0 := Nat.one_le_iff_ne_zero.mp (hc n rfl)
      refine ⟨.bytes (slice s.mem s.position n), s.movedTo (s.position + n), ?_, ?_, rfl, ?_⟩
      · simp [answer, read_eq h hn hle, replyOf]
      · unfold getReadSize at hle
        exact h.movedTo (by omega)
      · exact Flat.Step.read n hle
  | setPosition v =>
    rcases Nat.lt_or_ge s.capacity v with hlt | hle
    · refine ⟨.outOfRange, s, by simp [answer, setPosition_throw hlt, replyOf], h, rfl, ?_⟩
      exact Flat.Step.setPositionThrow v (by rw [flat, h.length_mem]; exact hlt)
    · refine ⟨.done, _, by rw [answer, setPosition_eq h hle, replyOf], h.setPosition hle, rfl, ?_⟩
      exact Flat.Step.setPosition v (by rw [flat, h.length_mem]; exact hle)
  | clear =>
    obtain ⟨t, ht, hcl⟩ := clear_eq h
    refine ⟨.done, t, by simp [answer, ht, replyOf], hcl.wellFormed, hcl.baseSize_eq, ?_⟩
    have hflat : t.flat = ⟨s.mem.take s.baseSize, 0, 0⟩ := by
      rw [flat, hcl.mem_eq, hcl.position_eq, hcl.size_eq]
    rw [hflat]
    exact Flat.Step.clear

/-- **A byte array is a tape** to calls that set the position within what has been written. -/
theorem tape_step (h : s.WellFormed) (c : FlatCall) (hc : NonEmptyRead c)
    (hw : WithinSize s c) :
    ∃ t, answer π s c = some ((s.tape.step c).1, t) ∧ t.WellFormed ∧
      t.tape = (s.tape.step c).2 := by
  cases c with
  | write d =>
    obtain ⟨t, ht, hwr⟩ := write_eq π h d
    refine ⟨t, by simp [answer, ht, replyOf, Tape.step], hwr.wellFormed, ?_⟩
    rw [tape, hwr.stored_eq h, hwr.position_eq]
    rfl
  | read n =>
    have hps := h.position_le
    rcases Nat.lt_or_ge s.getReadSize n with hlt | hle
    · have hstep : s.tape.step (.read n) = (.outOfRange, s.tape) := by
        rw [Tape.step, if_neg]
        rw [tape, h.length_stored, Nat.not_le]
        exact hlt
      exact ⟨s, by simp [answer, read_throw hlt, replyOf, hstep], h, by rw [hstep]⟩
    · have hn : n ≠ 0 := Nat.one_le_iff_ne_zero.mp (hc n rfl)
      have hstep : s.tape.step (.read n) =
          (.bytes (slice s.stored s.position n), ⟨s.stored, s.position + n⟩) := by
        rw [Tape.step, if_pos]
        · rfl
        · rw [tape, h.length_stored]
          exact hle
      unfold getReadSize at hle
      refine ⟨s.movedTo (s.position + n), ?_, h.movedTo (by omega), ?_⟩
      · rw [hstep, slice_stored (by omega), answer, read_eq h hn hle, replyOf]
      · rw [hstep]
        rfl
  | setPosition v =>
    have hv : v ≤ s.size := hw v rfl
    refine ⟨s.movedTo v, ?_, h.movedTo hv, rfl⟩
    rw [answer, setPosition_eq h (Nat.le_trans hv h.size_le), movedTo_max_of_le hv, replyOf]
    rfl
  | clear =>
    obtain ⟨t, ht, hcl⟩ := clear_eq h
    refine ⟨t, by simp [answer, ht, replyOf, Tape.step], hcl.wellFormed, ?_⟩
    rw [tape, stored, hcl.size_eq, hcl.position_eq]
    rfl

end Step

/-! ## Runs -/

/-- The chain of blocks simulates the contiguous memory along every run. -/
theorem flat_run {calls : List FlatCall} (hc : ∀ c ∈ calls, NonEmptyRead c) :
    ∀ {s : ByteArray}, s.WellFormed → ∃ replies t, trace (answer π) s calls = some (replies, t) ∧
      t.WellFormed ∧ Flat.Run s.baseSize s.flat calls replies t.flat := by
  -- on the calls: the base size, and with it the abstract step, stays the same
  induction calls with
  | nil => exact fun {s} h => ⟨[], s, rfl, h, .nil _⟩
  | cons c calls ih =>
    intro s h
    obtain ⟨r, u, hu, hwf, hbase, hstep⟩ := flat_step π h c (hc c (List.mem_cons_self ..))
    obtain ⟨rs, t, ht, htwf, hrun⟩ := ih (fun c' hc' => hc c' (List.mem_cons_of_mem _ hc')) hwf
    refine ⟨r :: rs, t, by simp [trace, hu, ht], htwf, .cons hstep ?_⟩
    rwa [hbase] at hrun

/-- The state that an answered call leaves. -/
def next (s : ByteArray) (c : FlatCall) : Option ByteArray := (answer π s c).map Prod.snd

/-- The size is the length of the tape. -/
theorem WithinSize.of_tape {s t : ByteArray} (hs : s.WellFormed) (ht : t.WellFormed)
    (h : s.tape = t.tape) {c : FlatCall} (hw : WithinSize s c) : WithinSize t c := by
  intro v hv
  have hlen : s.stored.length = t.stored.length := congrArg (fun u => u.stored.length) h
  rw [hs.length_stored, ht.length_stored] at hlen
  rw [← hlen]
  exact hw v hv

/-- **Two byte arrays that are the same tape give the same replies**, whatever their base sizes and
their allocators are. -/
theorem trace_eq_of_tape (π' : Platform) {calls : List FlatCall}
    (hc : ∀ c ∈ calls, NonEmptyRead c) :
    ∀ {s t : ByteArray}, s.WellFormed → t.WellFormed → s.tape = t.tape →
      Guarded (next π) WithinSize s calls →
        (trace (answer π) s calls).map Prod.fst = (trace (answer π') t calls).map Prod.fst := by
  induction calls with
  | nil => exact fun _ _ _ _ => rfl
  | cons c calls ih =>
    intro s t hs ht htape hg
    have hcempty := hc c (List.mem_cons_self ..)
    obtain ⟨s', hs', hswf, hstape⟩ := tape_step π hs c hcempty hg.1
    obtain ⟨t', ht', htwf, httape⟩ := tape_step π' ht c hcempty (hg.1.of_tape hs ht htape)
    have hrest := ih (fun c' hc' => hc c' (List.mem_cons_of_mem _ hc')) hswf htwf
      (by rw [hstape, httape, htape]) (hg.2 s' (by rw [next, hs']; rfl))
    rw [← htape] at ht'
    simp only [trace, hs', ht', Option.bind_some, Option.map_map]
    have hcons := congrArg (Option.map (List.cons (s.tape.step c).1)) hrest
    rw [Option.map_map, Option.map_map] at hcons
    exact hcons

/-- **The chain of blocks refines a flat buffer.** A run of calls on raw bytes never faults and is a
run of the contiguous memory, with the same replies, position, size and capacity. While positions
are set within what has been written, the base size cannot be seen in the replies. -/
theorem refines_flat {b b' : ℕ} (hb : 1 ≤ b) (hb' : 1 ≤ b') (π' : Platform)
    {calls : List FlatCall} (hc : ∀ c ∈ calls, NonEmptyRead c) :
    (∃ replies s, trace (answer π) (construct π b) calls = some (replies, s) ∧
      s.mem.length = s.capacity ∧ Flat.Run b (construct π b).flat calls replies s.flat) ∧
    (Guarded (next π) WithinSize (construct π b) calls →
      (trace (answer π) (construct π b) calls).map Prod.fst =
        (trace (answer π') (construct π' b') calls).map Prod.fst) := by
  constructor
  · obtain ⟨replies, s, hs, hwf, hrun⟩ := flat_run π hc (wellFormed_construct π hb)
    exact ⟨replies, s, hs, hwf.length_mem, hrun⟩
  · refine trace_eq_of_tape π π' hc (wellFormed_construct π hb) (wellFormed_construct π' hb') ?_
    simp [tape, stored, construct]

theorem refines_flat_write_read :
    (trace (answer ⟨.little, fun _ _ => 0⟩) (construct ⟨.little, fun _ _ => 0⟩ 2)
        [.write [1, 2, 3], .setPosition 1, .read 2]).map Prod.fst =
      (trace (answer ⟨.big, fun _ _ => 7⟩) (construct ⟨.big, fun _ _ => 7⟩ 5)
        [.write [1, 2, 3], .setPosition 1, .read 2]).map Prod.fst := by
  refine (refines_flat ⟨.little, fun _ _ => 0⟩ (by decide : 1 ≤ 2)
    (by decide : 1 ≤ 5) ⟨.big, fun _ _ => 7⟩ ?_).2 ?_
  · simp [NonEmptyRead]
  · refine ⟨nofun, fun s hs => ⟨?_, fun t _ => ⟨nofun, fun u _ => trivial⟩⟩⟩
    rintro v ⟨⟩
    obtain rfl := Option.some.inj hs
    decide

end ByteArray

end Dag
