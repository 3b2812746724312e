import Dag.ByteArray.Operations
import Dag.ByteArray.Typed
import Dag.Foundation.Run

/-!
# The byte array: the invariant along every run

A run is any sequence of calls from the constructor on, typed and untyped, including calls that
throw: the run goes on from the state the exception left. It ends only in a fault.

## Main definitions

* `Call`, `Call.run`: the calls of a byte array
* `step`: one call, refused when it faults
* `Call.ReadsEmpty`: the call makes a `read` of 0 bytes, which dereferences the current node for
  nothing

## Main results

* `keeps_run`: every call keeps the representation invariant
* `run_triple`: no call faults from a well-formed state, other than a read of 0 bytes and the
  gather from a position of the caller's choice
* `wellFormed_of_exec`: the representation invariant holds along every run
-/

namespace Dag

open Foundation

namespace ByteArray

/-- The calls of a byte array. -/
inductive Call
  | write (buf : List UInt8)
  | read (n : ℕ)
  | setPosition (v : ℕ)
  | clear
  | getReadBuffers (len : ℕ)
  | getReadBuffersFrom (len position : ℕ)
  | getWriteBuffers (len : ℕ)
  | setIsLittleEndian (val : Bool)
  | writeValue (v : Value)
  | writeStringWithoutLength (s : List UInt8)
  | readValue (f : Format)
  deriving DecidableEq, Repr

section Calls

variable (π : Platform)

/-- The operation that a call makes. -/
def Call.run : Call → Op Unit
  | .write buf => ByteArray.write π buf
  | .read n => do let _ ← ByteArray.read n
  | .setPosition v => ByteArray.setPosition v
  | .clear => ByteArray.clear
  | .getReadBuffers len => do let _ ← ByteArray.getReadBuffers len
  | .getReadBuffersFrom len position => do let _ ← ByteArray.getReadBuffersFrom len position
  | .getWriteBuffers len => do let _ ← ByteArray.getWriteBuffers π len
  | .setIsLittleEndian val => ByteArray.setIsLittleEndian val
  | .writeValue v => ByteArray.writeValue π v
  | .writeStringWithoutLength s => ByteArray.writeStringWithoutLength π s
  | .readValue f => do let _ ← ByteArray.readValue π f

/-- One call: the state it leaves behind, when it returns and when it throws. -/
def step (s : ByteArray) (c : Call) : Option ByteArray := (c.run π s).state?

/-- The call makes a `read` of 0 bytes. -/
def Call.ReadsEmpty (s : ByteArray) : Call → Prop
  | .read n => n = 0
  | .readValue .stringF16 => ∃ t, readFuint16 π s = .ok 0 t
  | .readValue .stringF32 => ∃ t, readFuint32 π s = .ok 0 t
  | .readValue .stringF64 => ∃ t, readFuint64 π s = .ok 0 t
  | .readValue .stringVint => ∃ t, readUint64 π s = .ok 0 t
  | _ => False

/-- The call gathers from a position of the caller's choice. -/
def Call.Positional : Call → Prop
  | .getReadBuffersFrom _ _ => True
  | _ => False

end Calls

/-! ## The operations on raw bytes -/

/-- A well-formed byte array of base size `b`. -/
def Sound (b : ℕ) (s : ByteArray) : Prop := s.WellFormed ∧ s.baseSize = b

section Raw

variable (π : Platform) {b : ℕ}

theorem sound_construct (hb : 1 ≤ b) : Sound b (construct π b) :=
  ⟨wellFormed_construct π hb, rfl⟩

theorem write_triple (buf : List UInt8) :
    Triple (Sound b) (write π buf) (fun _ => Sound b) (fun _ => Sound b) := by
  rintro s ⟨h, hb⟩
  obtain ⟨t, ht, hw⟩ := write_eq π h buf
  rw [ht]
  exact ⟨hw.wellFormed, hw.baseSize_eq.trans hb⟩

theorem read_triple {n : ℕ} (hn : n ≠ 0) :
    Triple (Sound b) (read n) (fun _ => Sound b) (fun _ => Sound b) := by
  rintro s ⟨h, hb⟩
  rcases Nat.lt_or_ge s.getReadSize n with hlt | hle
  · rw [read_throw hlt]
    exact ⟨h, hb⟩
  · rw [read_eq h hn hle]
    have hps := h.position_le
    unfold getReadSize at hle
    exact ⟨h.movedTo (by omega), hb⟩

/-- A read of 0 bytes leaves the state as it was, unless it dereferences a null pointer. -/
theorem read_zero_keeps : Keeps (Sound b) (read 0) := by
  rintro s ⟨h, hb⟩
  rw [read_zero h]
  split_ifs
  · exact ⟨h, hb⟩
  · trivial

theorem read_keeps (n : ℕ) : Keeps (Sound b) (read n) := by
  by_cases hn : n = 0
  · subst hn
    exact read_zero_keeps
  · exact Keeps.of_triple (read_triple hn) (fun _ _ => id) (fun _ _ => id)

theorem setPosition_triple (v : ℕ) :
    Triple (Sound b) (setPosition v) (fun _ => Sound b) (fun _ => Sound b) := by
  rintro s ⟨h, hb⟩
  rcases Nat.lt_or_ge s.capacity v with hlt | hle
  · rw [setPosition_throw hlt]
    exact ⟨h, hb⟩
  · rw [setPosition_eq h hle]
    exact ⟨h.setPosition hle, hb⟩

theorem clear_triple : Triple (Sound b) clear (fun _ => Sound b) (fun _ => Sound b) := by
  rintro s ⟨h, hb⟩
  obtain ⟨t, ht, hc⟩ := clear_eq h
  rw [ht]
  exact ⟨hc.wellFormed, hc.baseSize_eq.trans hb⟩

theorem getReadBuffers_triple (len : ℕ) :
    Triple (Sound b) (getReadBuffers len) (fun _ => Sound b) (fun _ => Sound b) := by
  rintro s ⟨h, hb⟩
  obtain ⟨iovs, hiovs, -⟩ := getReadBuffers_eq h len
  rw [hiovs]
  exact ⟨h, hb⟩

/-- The gather from a position of the caller's choice is a `const` operation. -/
theorem getReadBuffersFrom_keeps (len position : ℕ) :
    Keeps (Sound b) (getReadBuffersFrom len position) := by
  refine Keeps.bind Keeps.get fun s => ?_
  dsimp only
  have hgather : ∀ len, Keeps (Sound b) (do
      let node ← Prog.lift (Node.deref (s.root.drop (position / s.baseSize)))
      let iovs ← Prog.lift (buffersLoop (s.root.drop (position / s.baseSize))
        (position / s.baseSize) len (position % s.baseSize) (node.size - position % s.baseSize))
      return (len, iovs) : Op (ℕ × List Iovec)) := fun _ =>
    Keeps.bind (Keeps.lift _) fun _ => Keeps.bind (Keeps.lift _) fun _ => Keeps.pure _
  split_ifs
  · exact Keeps.pure _
  · exact hgather _
  · exact Keeps.pure _
  · exact hgather _

theorem getWriteBuffers_triple (len : ℕ) :
    Triple (Sound b) (getWriteBuffers π len) (fun _ => Sound b) (fun _ => Sound b) := by
  rintro s ⟨h, hb⟩
  obtain ⟨t, iovs, ht, hg, -⟩ := getWriteBuffers_eq π h len
  rw [ht]
  exact ⟨hg.wellFormed, hg.baseSize_eq.trans hb⟩

theorem setIsLittleEndian_triple (val : Bool) :
    Triple (Sound b) (setIsLittleEndian val) (fun _ => Sound b) (fun _ => Sound b) :=
  fun _ h => ⟨h.1.withEndian _, h.2⟩

end Raw

/-! ## The typed operations -/

section Typed

variable (π : Platform) {b : ℕ}

theorem get_triple : Triple (Sound b) (Prog.get : Op ByteArray) (fun _ => Sound b)
    (fun _ => Sound b) := fun _ hs => hs

theorem map_triple {α β : Type} (g : α → β) {x : Op α} {P : ByteArray → Prop}
    (hx : Triple P x (fun _ => Sound b) (fun _ => Sound b)) :
    Triple P (g <$> x) (fun _ => Sound b) (fun _ => Sound b) :=
  Triple.bind hx fun _ => Triple.pure fun _ => id

theorem writeFixed_triple (n : ℕ) (value : BitVec (8 * n)) :
    Triple (Sound b) (writeFixed π n value) (fun _ => Sound b) (fun _ => Sound b) :=
  Triple.bind get_triple fun _ => write_triple π _

theorem writeString_triple {w : ℕ} {prefixWriter : BitVec w → Op Unit} (value : List UInt8)
    (hp : ∀ v, Triple (Sound b) (prefixWriter v) (fun _ => Sound b) (fun _ => Sound b)) :
    Triple (Sound b) (writeString π prefixWriter value) (fun _ => Sound b) (fun _ => Sound b) :=
  Triple.bind (hp _) fun _ => write_triple π _

theorem writeValue_triple (v : Value) :
    Triple (Sound b) (writeValue π v) (fun _ => Sound b) (fun _ => Sound b) := by
  cases v with
  | fint8 v | fuint8 v => exact write_triple π _
  | fint16 v | fuint16 v => exact writeFixed_triple π 2 v
  | fint32 v | fuint32 v | float v => exact writeFixed_triple π 4 v
  | fint64 v | fuint64 v | double v => exact writeFixed_triple π 8 v
  | int32 v | uint32 v | int64 v | uint64 v => exact write_triple π _
  | stringF16 s => exact writeString_triple π s fun v => writeFixed_triple π 2 v
  | stringF32 s => exact writeString_triple π s fun v => writeFixed_triple π 4 v
  | stringF64 s => exact writeString_triple π s fun v => writeFixed_triple π 8 v
  | stringVint s => exact writeString_triple π s fun v => write_triple π _

/-- What every `write` keeps, every writer keeps. -/
theorem writeValue_keeps {I : ByteArray → Prop} (hI : ∀ d, Keeps I (write π d)) (v : Value) :
    Keeps I (writeValue π v) := by
  have hfixed : ∀ n (v : BitVec (8 * n)), Keeps I (writeFixed π n v) :=
    fun n v => Keeps.get.bind fun s => hI _
  cases v with
  | fint8 v => exact hI _
  | fuint8 v => exact hI _
  | fint16 v => exact hfixed 2 v
  | fuint16 v => exact hfixed 2 v
  | fint32 v => exact hfixed 4 v
  | fuint32 v => exact hfixed 4 v
  | float v => exact hfixed 4 v
  | fint64 v => exact hfixed 8 v
  | fuint64 v => exact hfixed 8 v
  | double v => exact hfixed 8 v
  | uint32 v => exact hI _
  | uint64 v => exact hI _
  | int32 v => exact hI _
  | int64 v => exact hI _
  | stringF16 s => exact (hfixed 2 _).bind fun _ => hI s
  | stringF32 s => exact (hfixed 4 _).bind fun _ => hI s
  | stringF64 s => exact (hfixed 8 _).bind fun _ => hI s
  | stringVint s => exact (hI _).bind fun _ => hI s

theorem readFixed_triple {n : ℕ} (hn : n ≠ 0) :
    Triple (Sound b) (readFixed π n) (fun _ => Sound b) (fun _ => Sound b) :=
  Triple.bind (read_triple hn) fun _ => Triple.bind get_triple fun _ => Triple.pure fun _ => id

theorem readFuint8_triple :
    Triple (Sound b) (readFuint8 π) (fun _ => Sound b) (fun _ => Sound b) :=
  Triple.bind (read_triple Nat.one_ne_zero) fun _ => Triple.pure fun _ => id

theorem readVarintLoop_triple (w : ℕ) : ∀ (count i : ℕ) (result : BitVec w),
    Triple (Sound b) (readVarintLoop π w count i result) (fun _ => Sound b) (fun _ => Sound b) := by
  intro count
  induction count with
  | zero => exact fun _ _ => Triple.pure fun _ => id
  | succ count ih =>
    intro i result
    refine Triple.bind (readFuint8_triple π) fun byte => ?_
    split_ifs
    · exact Triple.pure fun _ => id
    · exact ih _ _

/-- A string reader does not fault when the length it reads is not 0. -/
theorem readString_triple {w : ℕ} {prefixReader : Op (BitVec w)}
    (hp : Triple (Sound b) prefixReader (fun _ => Sound b) (fun _ => Sound b)) :
    Triple (fun s => Sound b s ∧ ¬ ∃ t, prefixReader s = .ok 0 t) (readString prefixReader)
      (fun _ => Sound b) (fun _ => Sound b) := by
  refine Triple.bind (Q := fun len t => Sound b t ∧ len.toNat ≠ 0) ?_ fun len => ?_
  · rintro s ⟨hs, hne⟩
    have h := hp s hs
    cases hrun : prefixReader s with
    | ok len t =>
      rw [hrun] at h
      refine ⟨h, fun hlen => hne ⟨t, ?_⟩⟩
      rw [hrun, BitVec.eq_of_toNat_eq (hlen.trans BitVec.toNat_zero.symm)]
      rfl
    | throw e t => rw [hrun] at h; exact h
    | fault f => rw [hrun] at h; exact h.elim
  · rintro s ⟨hs, hne⟩
    exact read_triple hne s hs

theorem readString_keeps {w : ℕ} {prefixReader : Op (BitVec w)}
    (hp : Triple (Sound b) prefixReader (fun _ => Sound b) (fun _ => Sound b)) :
    Keeps (Sound b) (readString prefixReader) :=
  Keeps.bind (Keeps.of_triple hp (fun _ _ => id) (fun _ _ => id)) fun _ => read_keeps _

/-- The readers of numbers. -/
theorem readNumber_triple (f : Format) (hf : f ≠ .stringF16 ∧ f ≠ .stringF32 ∧ f ≠ .stringF64 ∧
    f ≠ .stringVint) :
    Triple (Sound b) (readValue π f) (fun _ => Sound b) (fun _ => Sound b) := by
  obtain ⟨h₁, h₂, h₃, h₄⟩ := hf
  cases f with
  | fint8 => exact map_triple _ (readFuint8_triple π)
  | fuint8 => exact map_triple _ (readFuint8_triple π)
  | fint16 | fuint16 => exact map_triple _ (readFixed_triple π (n := 2) (by decide))
  | fint32 | fuint32 | float => exact map_triple _ (readFixed_triple π (n := 4) (by decide))
  | fint64 | fuint64 | double => exact map_triple _ (readFixed_triple π (n := 8) (by decide))
  | uint32 => exact map_triple _ (readVarintLoop_triple π 32 _ _ _)
  | uint64 => exact map_triple _ (readVarintLoop_triple π 64 _ _ _)
  | int32 => exact map_triple _ (map_triple _ (readVarintLoop_triple π 32 _ _ _))
  | int64 => exact map_triple _ (map_triple _ (readVarintLoop_triple π 64 _ _ _))
  | stringF16 => exact absurd rfl h₁
  | stringF32 => exact absurd rfl h₂
  | stringF64 => exact absurd rfl h₃
  | stringVint => exact absurd rfl h₄

end Typed

/-! ## Every call -/

section Every

variable (π : Platform) {b : ℕ}

/-- **No call faults** from a well-formed state, a read of 0 bytes and the gather from a position
of the caller's choice excepted. -/
theorem run_triple (c : Call) (hpos : ¬ c.Positional) :
    Triple (fun s => Sound b s ∧ ¬ c.ReadsEmpty π s) (c.run π) (fun _ => Sound b)
      (fun _ => Sound b) := by
  have skip : ∀ {α : Type} {x : Op α} {P : ByteArray → Prop},
      Triple P x (fun _ => Sound b) (fun _ => Sound b) →
        Triple P (x >>= fun _ => pure ()) (fun _ => Sound b) (fun _ => Sound b) :=
    fun hx => Triple.bind hx fun _ => Triple.pure fun _ => id
  have drop : ∀ {α : Type} {x : Op α},
      Triple (Sound b) x (fun _ => Sound b) (fun _ => Sound b) →
        Triple (fun s => Sound b s ∧ ¬ c.ReadsEmpty π s) x (fun _ => Sound b) (fun _ => Sound b) :=
    fun hx => hx.weaken (fun _ h => h.1) (fun _ _ => id) (fun _ _ => id)
  cases c with
  | write buf => exact drop (write_triple π buf)
  | read n =>
    rintro s ⟨hs, hn⟩
    exact skip (read_triple hn) s hs
  | setPosition v => exact drop (setPosition_triple v)
  | clear => exact drop clear_triple
  | getReadBuffers len => exact drop (skip (getReadBuffers_triple len))
  | getReadBuffersFrom len position => exact absurd trivial hpos
  | getWriteBuffers len => exact drop (skip (getWriteBuffers_triple π len))
  | setIsLittleEndian val => exact drop (setIsLittleEndian_triple val)
  | writeValue v => exact drop (writeValue_triple π v)
  | writeStringWithoutLength s => exact drop (write_triple π s)
  | readValue f =>
    apply skip
    cases f with
    | stringF16 => exact map_triple _ (readString_triple (readFixed_triple π (n := 2) (by decide)))
    | stringF32 => exact map_triple _ (readString_triple (readFixed_triple π (n := 4) (by decide)))
    | stringF64 => exact map_triple _ (readString_triple (readFixed_triple π (n := 8) (by decide)))
    | stringVint => exact map_triple _ (readString_triple (readVarintLoop_triple π 64 _ _ _))
    | _ => exact drop (readNumber_triple π _ (by decide))

/-- **Every call keeps the representation invariant**, whether it returns or throws. -/
theorem keeps_run (c : Call) : Keeps (Sound b) (c.run π) := by
  have keep : ∀ {α : Type} {x : Op α},
      Triple (Sound b) x (fun _ => Sound b) (fun _ => Sound b) → Keeps (Sound b) x :=
    fun hx => Keeps.of_triple hx (fun _ _ => id) (fun _ _ => id)
  have skip : ∀ {α : Type} {x : Op α}, Keeps (Sound b) x →
      Keeps (Sound b) (x >>= fun _ => pure ()) := fun hx => Keeps.bind hx fun _ => Keeps.pure _
  cases c with
  | write buf => exact keep (write_triple π buf)
  | read n => exact skip (read_keeps n)
  | setPosition v => exact keep (setPosition_triple v)
  | clear => exact keep clear_triple
  | getReadBuffers len => exact skip (keep (getReadBuffers_triple len))
  | getReadBuffersFrom len position => exact skip (getReadBuffersFrom_keeps len position)
  | getWriteBuffers len => exact skip (keep (getWriteBuffers_triple π len))
  | setIsLittleEndian val => exact keep (setIsLittleEndian_triple val)
  | writeValue v => exact keep (writeValue_triple π v)
  | writeStringWithoutLength s => exact keep (write_triple π s)
  | readValue f =>
    apply skip
    cases f with
    | stringF16 => exact Keeps.map _ (readString_keeps (readFixed_triple π (n := 2) (by decide)))
    | stringF32 => exact Keeps.map _ (readString_keeps (readFixed_triple π (n := 4) (by decide)))
    | stringF64 => exact Keeps.map _ (readString_keeps (readFixed_triple π (n := 8) (by decide)))
    | stringVint => exact Keeps.map _ (readString_keeps (readVarintLoop_triple π 64 _ _ _))
    | _ => exact keep (readNumber_triple π _ (by decide))

/-- **The representation invariant along every run**: after any calls from the constructor on,
exceptions included, the chain, the capacity, the position, the size and the current node agree,
and no further call dereferences a null node or leaves its block, a read of 0 bytes and the gather
from a position of the caller's choice excepted. -/
theorem wellFormed_of_exec (hb : 1 ≤ b) {calls : List Call} {s : ByteArray}
    (h : exec (step π) (construct π b) calls = some s) :
    s.WellFormed ∧ s.baseSize = b ∧
      ∀ c : Call, ¬ c.Positional → ¬ c.ReadsEmpty π s → ∃ t, step π s c = some t := by
  have hs : Sound b s := exec_invariant
    (fun s c t hs ht => (keeps_run π c).of_state hs ht) (sound_construct π hb) h
  exact ⟨hs.1, hs.2, fun c hpos hempty => (run_triple π c hpos).exists_state ⟨hs, hempty⟩⟩

theorem wellFormed_of_exec_write :
    ∃ s, exec (step ⟨.little, fun _ _ => 0⟩) (construct ⟨.little, fun _ _ => 0⟩ 2)
      [.write [1, 2, 3], .setPosition 1, .read 5] = some s ∧ s.WellFormed ∧ s.baseSize = 2 := by
  obtain ⟨s, hs⟩ : ∃ s, exec (step ⟨.little, fun _ _ => 0⟩) (construct ⟨.little, fun _ _ => 0⟩ 2)
      [.write [1, 2, 3], .setPosition 1, .read 5] = some s := ⟨_, rfl⟩
  have h := wellFormed_of_exec ⟨.little, fun _ _ => 0⟩ (b := 2) (by decide) hs
  exact ⟨s, hs, h.1, h.2.1⟩

end Every

end ByteArray

end Dag
