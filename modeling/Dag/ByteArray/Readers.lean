import Dag.ByteArray.Encoding
import Dag.ByteArray.Flat

/-!
# The byte array: the readers on any bytes

What a reader does is decided by the bytes that can be read, whether a writer has written them or
not. A `read` of at least one byte takes it from the front of them or throws and takes nothing. The
fixed-width readers are one `read`; the varint readers are one `read` for each byte, and throw
behind the last byte there is when none of them has been the end.

## Main results

* `read_unread`: `read`, on the bytes that can be read
* `readFixed_eq`, `readFuint8_cons`: the fixed-width readers
* `readVarintLoop_eq`: the loop of the varint readers
-/

namespace Dag

open Foundation

/-- Bytes are the image of the number that they stand for. -/
theorem image_value (e : Endian) (bytes : List UInt8) :
    e.image bytes.length (e.value bytes) = bytes := by
  cases e with
  | little => exact leBytes_leValue bytes
  | big =>
    have h := leBytes_leValue bytes.reverse
    rw [List.length_reverse] at h
    rw [Endian.image, Endian.value, h, List.reverse_reverse]

theorem value_lt (e : Endian) (bytes : List UInt8) : e.value bytes < 256 ^ bytes.length := by
  cases e with
  | little => exact leValue_lt bytes
  | big =>
    have h := leValue_lt bytes.reverse
    rwa [List.length_reverse] at h

namespace ByteArray

variable {s : ByteArray}

/-! ## The position -/

/-- Where nothing is left to read, the position is the size. -/
theorem WellFormed.movedTo_size (h : s.WellFormed) (hu : s.unread = []) : s.movedTo s.size = s := by
  have hlength := h.length_unread
  rw [hu, List.length_nil, getReadSize] at hlength
  have hps := h.position_le
  have hsize : s.size = s.position := by omega
  rw [hsize, h.movedTo_self]

theorem unread_movedTo (s : ByteArray) (k : ℕ) :
    (s.movedTo (s.position + k)).unread = s.unread.drop k := by
  rw [unread, unread, List.drop_drop]
  rfl

/-- The position after `k` of the bytes that can be read. -/
theorem WellFormed.movedTo_add (h : s.WellFormed) {k : ℕ} (hk : k ≤ s.unread.length) :
    (s.movedTo (s.position + k)).WellFormed := by
  have hps := h.position_le
  rw [h.length_unread, getReadSize] at hk
  exact h.movedTo (by omega)

/-! ## One read -/

/-- **`read`** takes its bytes from the front of those that can be read. -/
theorem read_unread (h : s.WellFormed) {n : ℕ} (hn : n ≠ 0) (hle : n ≤ s.unread.length) :
    read n s = .ok (s.unread.take n) (s.movedTo (s.position + n)) := by
  have hps := h.position_le
  rw [h.length_unread] at hle
  rw [read_eq h hn hle]
  unfold getReadSize at hle
  rw [← slice_stored (by omega)]
  rfl

theorem read_unread_throw (h : s.WellFormed) {n : ℕ} (hlt : s.unread.length < n) :
    read n s = .throw ⟨"not enough len"⟩ s :=
  read_throw (by rwa [h.length_unread] at hlt)

theorem read_fails (h : s.WellFormed) {n : ℕ} {e : OutOfRange} {t : ByteArray}
    (hrun : read n s = .throw e t) : s.unread.length < n ∧ t = s := by
  rcases Nat.lt_or_ge s.unread.length n with hlt | hle
  · rw [read_unread_throw h hlt] at hrun
    cases hrun
    exact ⟨hlt, rfl⟩
  · rcases Nat.eq_zero_or_pos n with rfl | hn
    · rw [read_zero h] at hrun
      split_ifs at hrun
    · rw [read_unread h (Nat.ne_of_gt hn) hle] at hrun
      cases hrun

theorem length_of_read (h : s.WellFormed) {n : ℕ} {out : List UInt8} (hrun : read n s = .ok out t) :
    out.length = n := by
  rcases Nat.eq_zero_or_pos n with rfl | hn
  · rw [read_zero h] at hrun
    split_ifs at hrun
    cases hrun
    rfl
  · rcases Nat.lt_or_ge s.unread.length n with hlt | hle
    · rw [read_unread_throw h hlt] at hrun
      cases hrun
    · rw [read_unread h (Nat.ne_of_gt hn) hle] at hrun
      cases hrun
      rw [List.length_take, Nat.min_eq_left hle]

/-- A `read` of 0 bytes returns where there is a node. -/
theorem room_of_read_zero (h : s.WellFormed) {out : List UInt8} {t : ByteArray}
    (hrun : read 0 s = .ok out t) : s.position < s.capacity := by
  rw [read_zero h] at hrun
  split_ifs at hrun with hlt
  exact hlt

/-- A `read` of no more bytes than there are returns the first ones, unless it asks for 0 bytes
where there is no node. -/
theorem exists_read (h : s.WellFormed) {n : ℕ} (hle : n ≤ s.unread.length)
    (hzero : n = 0 → s.position < s.capacity) :
    ∃ out t, read n s = .ok out t ∧ out <+: s.unread := by
  rcases Nat.eq_zero_or_pos n with rfl | hn
  · exact ⟨[], s, by rw [read_zero h, if_pos (hzero rfl)], List.nil_prefix⟩
  · exact ⟨_, _, read_unread h (Nat.ne_of_gt hn) hle, List.take_prefix ..⟩

variable (π : Platform)

/-- **The fixed-width readers** return the number that the next bytes stand for in the byte order of
the array, whatever the byte order of the host is. -/
theorem readFixed_eq (h : s.WellFormed) {n : ℕ} (hn : n ≠ 0) (hle : n ≤ s.unread.length) :
    readFixed π n s = .ok (BitVec.ofNat (8 * n) (s.endian.value (s.unread.take n)))
      (s.movedTo (s.position + n)) := by
  have hlength : (s.unread.take n).length = n := by simp [hle]
  have hlt : s.endian.value (s.unread.take n) < 2 ^ (8 * n) := by
    have hvalue := value_lt s.endian (s.unread.take n)
    rwa [hlength, ← two_pow_eight_mul] at hvalue
  have himage : s.endian.image n
      (BitVec.ofNat (8 * n) (s.endian.value (s.unread.take n))).toNat = s.unread.take n := by
    have hbytes := image_value s.endian (s.unread.take n)
    rw [hlength] at hbytes
    rw [BitVec.toNat_ofNat, Nat.mod_eq_of_lt hlt, hbytes]
  have hvalue := value_swapped s.endian π.byteOrder
    (BitVec.ofNat (8 * n) (s.endian.value (s.unread.take n)))
  rw [himage] at hvalue
  rw [readFixed, Prog.bind_ok (read_unread h hn hle)]
  exact congrArg (Outcome.ok · _) hvalue

theorem readFixed_throw (h : s.WellFormed) {n : ℕ} (hlt : s.unread.length < n) :
    readFixed π n s = .throw ⟨"not enough len"⟩ s := by
  rw [readFixed, Prog.bind_apply, read_unread_throw h hlt]

/-- The readers of one byte. -/
theorem readFuint8_cons (h : s.WellFormed) {u : UInt8} {us : List UInt8} (hu : s.unread = u :: us) :
    readFuint8 π s = .ok (BitVec.ofNat 8 u.toNat) (s.movedTo (s.position + 1)) := by
  have hread := read_unread h (n := 1) (by decide) (by rw [hu]; simp)
  rw [hu] at hread
  rw [readFuint8, Prog.bind_ok hread, Prog.pure_apply]
  cases π.byteOrder <;> rfl

theorem readFuint8_nil (h : s.WellFormed) (hu : s.unread = []) :
    readFuint8 π s = .throw ⟨"not enough len"⟩ s := by
  rw [readFuint8, Prog.bind_apply, read_unread_throw h (by rw [hu]; exact Nat.one_pos)]

/-! ## The varint loop -/

/-- One pass of the varint loop. -/
theorem readVarintLoop_succ (w count i : ℕ) (result : BitVec w) :
    readVarintLoop π w (count + 1) i result = readFuint8 π >>= fun b : BitVec 8 =>
      if b < 0x80 then return result ||| (b.setWidth w <<< i)
      else readVarintLoop π w count (i + 7) (result ||| ((b &&& 0x7F).setWidth w <<< i)) := rfl

/-- The last byte of a varint. -/
theorem readVarintLoop_last (h : s.WellFormed) (w count i : ℕ) (result : BitVec w) {u : UInt8}
    {us : List UInt8} (hu : s.unread = u :: us) (hlt : u < 128) :
    readVarintLoop π w (count + 1) i result s =
      .ok (result ||| (BitVec.ofNat w u.toNat <<< i)) (s.movedTo (s.position + 1)) := by
  have hu8 := u.toNat_lt
  have hbyte : BitVec.ofNat 8 u.toNat < 0x80 := by
    rw [BitVec.lt_def, BitVec.toNat_ofNat, Nat.mod_eq_of_lt (by omega)]
    exact UInt8.lt_iff_toNat_lt.mp hlt
  have hwiden : (BitVec.ofNat 8 u.toNat).setWidth w = BitVec.ofNat w u.toNat := by
    apply BitVec.eq_of_toNat_eq
    rw [BitVec.toNat_setWidth, BitVec.toNat_ofNat, BitVec.toNat_ofNat,
      Nat.mod_eq_of_lt (show u.toNat < 2 ^ 8 by omega)]
  rw [readVarintLoop_succ, Prog.bind_ok (readFuint8_cons π h hu), if_pos hbyte, hwiden,
    Prog.pure_apply]

/-- A byte of a varint with more to follow carries seven bits. -/
theorem readVarintLoop_more (h : s.WellFormed) (w count i : ℕ) (result : BitVec w) {u : UInt8}
    {us : List UInt8} (hu : s.unread = u :: us) (hge : ¬ u < 128) :
    readVarintLoop π w (count + 1) i result s =
      readVarintLoop π w count (i + 7) (result ||| (BitVec.ofNat w (u.toNat % 128) <<< i))
        (s.movedTo (s.position + 1)) := by
  have hu8 := u.toNat_lt
  have htoNat : (BitVec.ofNat 8 u.toNat).toNat = u.toNat := by
    rw [BitVec.toNat_ofNat, Nat.mod_eq_of_lt (by omega)]
  have hbyte : ¬ BitVec.ofNat 8 u.toNat < 0x80 := by
    rw [BitVec.lt_def, htoNat]
    exact fun hlt => hge (UInt8.lt_iff_toNat_lt.mpr hlt)
  have hseven : (BitVec.ofNat 8 u.toNat &&& 0x7F).setWidth w = BitVec.ofNat w (u.toNat % 128) := by
    apply BitVec.eq_of_toNat_eq
    have h7f : (0x7F : BitVec 8).toNat = 2 ^ 7 - 1 := rfl
    rw [BitVec.toNat_setWidth, BitVec.toNat_and, htoNat, h7f, Nat.and_two_pow_sub_one_eq_mod,
      BitVec.toNat_ofNat]
  rw [readVarintLoop_succ, Prog.bind_ok (readFuint8_cons π h hu), if_neg hbyte, hseven]

/-- The low seven bits of a number and the others, put in place one after another. -/
theorem or_shiftLeft_or_shiftLeft (w i m : ℕ) (result : BitVec w) :
    result ||| (BitVec.ofNat w (m % 128) <<< i) ||| (BitVec.ofNat w (m / 128) <<< (i + 7)) =
      result ||| (BitVec.ofNat w m <<< i) := by
  rw [BitVec.or_assoc, Nat.add_comm i 7, BitVec.shiftLeft_add, ← BitVec.shiftLeft_or_distrib,
    ofNat_or_shiftLeft]

/-- **The loop of the varint readers** takes the bytes up to the first one without a continuation
bit, not more than it makes passes, and puts the number that they carry in place. Where the bytes
run out before, it has taken all of them when it throws. -/
theorem readVarintLoop_eq (w : ℕ) :
    ∀ (count i : ℕ) (result : BitVec w) {s : ByteArray}, s.WellFormed →
      readVarintLoop π w count i result s = match leb128Span count s.unread with
        | some k => .ok (result ||| (BitVec.ofNat w (leb128Value (s.unread.take k)) <<< i))
            (s.movedTo (s.position + k))
        | none => .throw ⟨"not enough len"⟩ (s.movedTo s.size) := by
  intro count
  induction count with
  | zero =>
    intro i result s h
    have hzero : BitVec.ofNat w 0 <<< i = 0#w := by simp
    change Outcome.ok result s = .ok (result ||| (BitVec.ofNat w 0 <<< i)) (s.movedTo s.position)
    rw [h.movedTo_self, hzero, BitVec.or_zero]
  | succ count ih =>
    intro i result s h
    cases hu : s.unread with
    | nil =>
      change _ = Outcome.throw _ (s.movedTo s.size)
      rw [h.movedTo_size hu, readVarintLoop_succ, Prog.bind_apply, readFuint8_nil π h hu]
    | cons u us =>
      by_cases hlt : u < 128
      · have hmod : u.toNat % 128 + 128 * 0 = u.toNat := by
          have := UInt8.lt_iff_toNat_lt.mp hlt
          change u.toNat < 128 at this
          omega
        rw [readVarintLoop_last π h w count i result hu hlt, leb128Span_of_lt hlt]
        simp only [List.take_succ_cons, List.take_zero, leb128Value, hmod]
      · have hmoved := h.movedTo_add (k := 1) (by rw [hu]; simp)
        have hrest : (s.movedTo (s.position + 1)).unread = us := by rw [unread_movedTo, hu]; rfl
        rw [readVarintLoop_more π h w count i result hu hlt, ih _ _ hmoved, hrest,
          leb128Span_of_ge hlt]
        cases leb128Span count us with
        | none => rfl
        | some k =>
          have hlow : (u.toNat % 128 + 128 * leb128Value (us.take k)) % 128 = u.toNat % 128 := by
            omega
          have hhigh : (u.toNat % 128 + 128 * leb128Value (us.take k)) / 128 =
              leb128Value (us.take k) := by omega
          have hbits := or_shiftLeft_or_shiftLeft w i
            (u.toNat % 128 + 128 * leb128Value (us.take k)) result
          rw [hlow, hhigh] at hbits
          simp only [Option.map_some, List.take_succ_cons, leb128Value, hbits]
          rw [Nat.add_comm k 1, ← Nat.add_assoc]
          rfl

end ByteArray

end Dag
