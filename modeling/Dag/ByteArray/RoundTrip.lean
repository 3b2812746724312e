import Dag.ByteArray.Readers

/-!
# The byte array: what is written is what is read

A writer *emits* an encoding when it writes exactly these bytes at the position; a reader *decodes*
an encoding to a value when, these bytes being the next ones, it returns the value and moves past
them. Both compose, so that a list of values, each in its own format and byte order, is written as
the concatenation of its reference encodings and read back from it. Blocks do not show: a writer
and a reader only see the written bytes.

## Main definitions

* `Emits e x enc`, `Decodes e x enc a`: the specifications of writers and readers
* `writeAll`, `readAll`, `encodeAll`: lists of values, each with its byte order

## Main results

* `emits_writeValue`, `decodes_readValue`: every writer and every reader
* `roundTrip`: a fresh byte array, filled with values and read from the start
-/

namespace Dag

open Foundation

namespace ByteArray

/-! ## Writers -/

/-- `t` is `s` with `enc` written at the position. -/
structure Puts (s : ByteArray) (enc : List UInt8) (t : ByteArray) : Prop where
  wellFormed : t.WellFormed
  stored_eq : t.stored = splice s.stored s.position enc
  position_eq : t.position = s.position + enc.length
  endian_eq : t.endian = s.endian

/-- **The writer emits `enc`** in the byte order `e`. -/
def Emits (e : Endian) (x : Op Unit) (enc : List UInt8) : Prop :=
  ∀ s : ByteArray, s.WellFormed → s.endian = e → ∃ t, x s = .ok () t ∧ Puts s enc t

section Emits

variable {s t u : ByteArray} {e : Endian} {x y : Op Unit} {d enc enc₁ enc₂ : List UInt8}

theorem WellFormed.position_le_stored (h : s.WellFormed) : s.position ≤ s.stored.length := by
  rw [h.length_stored]
  exact h.position_le

theorem Puts.trans (hs : s.WellFormed) (h₁ : Puts s enc₁ t) (h₂ : Puts t enc₂ u) :
    Puts s (enc₁ ++ enc₂) u where
  wellFormed := h₂.wellFormed
  stored_eq := by
    rw [h₂.stored_eq, h₁.stored_eq, h₁.position_eq, splice_splice hs.position_le_stored]
  position_eq := by
    rw [h₂.position_eq, h₁.position_eq, List.length_append, Nat.add_assoc]
  endian_eq := h₂.endian_eq.trans h₁.endian_eq

theorem Emits.bind (hx : Emits e x enc₁) (hy : Emits e y enc₂) :
    Emits e (x >>= fun _ => y) (enc₁ ++ enc₂) := by
  intro s hs he
  obtain ⟨t, ht, hput⟩ := hx s hs he
  obtain ⟨u, hu, hput'⟩ := hy t hput.wellFormed (hput.endian_eq.trans he)
  exact ⟨u, by rw [Prog.bind_ok ht, hu], hput.trans hs hput'⟩

variable (π : Platform)

/-- `write` emits what it is given. -/
theorem emits_write (e : Endian) (d : List UInt8) : Emits e (write π d) d := by
  intro s hs _
  obtain ⟨t, ht, hw⟩ := write_eq π hs d
  exact ⟨t, ht, hw.wellFormed, hw.stored_eq hs, hw.position_eq, hw.endian_eq⟩

theorem emits_byte (e : Endian) (v : BitVec 8) :
    Emits e (write π (π.byteOrder.image 1 v.toNat)) (e.image 1 v.toNat) := by
  rw [image_one e π.byteOrder]
  exact emits_write π e _

theorem writeFixed_eq {e : Endian} (he : s.endian = e) (n : ℕ) (v : BitVec (8 * n)) :
    writeFixed π n v s = write π (e.image n v.toNat) s := by
  rw [writeFixed, Prog.get_bind, he]
  exact congrArg (write π · s) (image_swapped e π.byteOrder v)

theorem emits_writeFixed (e : Endian) (n : ℕ) (v : BitVec (8 * n)) :
    Emits e (writeFixed π n v) (e.image n v.toNat) := by
  intro s hs he
  rw [writeFixed_eq π he]
  exact emits_write π e _ s hs he

/-- A string writer emits what is left of the length in the type of the prefix, and then the
bytes. -/
theorem emits_writeString_mod {w : ℕ} {prefixWriter : BitVec w → Op Unit} (s : List UInt8)
    (pre : ℕ → List UInt8) (hp : ∀ v : BitVec w, Emits e (prefixWriter v) (pre v.toNat)) :
    Emits e (writeString π prefixWriter s) (pre (s.length % 2 ^ w) ++ s) := by
  have hpre := hp (BitVec.ofNat w s.length)
  rw [BitVec.toNat_ofNat] at hpre
  exact hpre.bind (emits_write π e s)

/-- A string writer emits the length, which its prefix can hold, and then the bytes. -/
theorem emits_writeString {w : ℕ} {prefixWriter : BitVec w → Op Unit} {s : List UInt8}
    (hlen : s.length < 2 ^ w) (pre : ℕ → List UInt8)
    (hp : ∀ v : BitVec w, Emits e (prefixWriter v) (pre v.toNat)) :
    Emits e (writeString π prefixWriter s) (pre s.length ++ s) := by
  have h := emits_writeString_mod π s pre hp
  rwa [Nat.mod_eq_of_lt hlen] at h

theorem emits_writeUint32 (e : Endian) (v : BitVec 32) :
    Emits e (writeUint32 π v) (leb128 v.toNat) := by
  rw [← varintBytes_eq (by decide)]
  exact emits_write π e _

theorem emits_writeUint64 (e : Endian) (v : BitVec 64) :
    Emits e (writeUint64 π v) (leb128 v.toNat) := by
  rw [← varintBytes_eq (by decide)]
  exact emits_write π e _

/-- **Every writer emits the reference encoding** of its value. -/
theorem emits_writeValue (e : Endian) (v : Value) (hv : v.Fits) :
    Emits e (writeValue π v) (encode e v) := by
  cases v with
  | fint8 v => exact emits_byte π e v
  | fuint8 v => exact emits_byte π e v
  | fint16 v => exact emits_writeFixed π e 2 v
  | fuint16 v => exact emits_writeFixed π e 2 v
  | fint32 v => exact emits_writeFixed π e 4 v
  | fuint32 v => exact emits_writeFixed π e 4 v
  | float v => exact emits_writeFixed π e 4 v
  | fint64 v => exact emits_writeFixed π e 8 v
  | fuint64 v => exact emits_writeFixed π e 8 v
  | double v => exact emits_writeFixed π e 8 v
  | uint32 v => exact emits_writeUint32 π e v
  | uint64 v => exact emits_writeUint64 π e v
  | int32 v =>
    have h := emits_writeUint32 π e (encodeZigzag v)
    rwa [toNat_encodeZigzag (by decide)] at h
  | int64 v =>
    have h := emits_writeUint64 π e (encodeZigzag v)
    rwa [toNat_encodeZigzag (by decide)] at h
  | stringF16 s => exact emits_writeString π hv.2 (e.image 2) (emits_writeFixed π e 2)
  | stringF32 s => exact emits_writeString π hv.2 (e.image 4) (emits_writeFixed π e 4)
  | stringF64 s => exact emits_writeString π hv.2 (e.image 8) (emits_writeFixed π e 8)
  | stringVint s => exact emits_writeString π hv.2 leb128 (emits_writeUint64 π e)

end Emits

/-! ## Readers -/

/-- **The reader decodes `enc` to `a`** in the byte order `e`: when the next bytes are those of
`enc`, it returns `a` and moves past them. -/
def Decodes {α : Type} (e : Endian) (x : Op α) (enc : List UInt8) (a : α) : Prop :=
  ∀ s : ByteArray, s.WellFormed → s.endian = e → enc <+: s.unread →
    x s = .ok a (s.movedTo (s.position + enc.length))

section Decodes

variable {α β : Type} {s t : ByteArray} {e : Endian} {enc enc₁ enc₂ : List UInt8} {a : α} {b : β}

theorem WellFormed.movedTo_of_prefix (hs : s.WellFormed) (h : enc <+: s.unread) :
    (s.movedTo (s.position + enc.length)).WellFormed :=
  hs.movedTo_add h.length_le

/-- What is left to read behind `enc₁`. -/
theorem prefix_unread_movedTo (h : enc₁ ++ enc₂ <+: s.unread) :
    enc₂ <+: (s.movedTo (s.position + enc₁.length)).unread := by
  obtain ⟨rest, hrest⟩ := h
  rw [unread_movedTo, ← hrest, List.append_assoc, List.drop_left]
  exact List.prefix_append enc₂ rest

/-- What has been written is the next to be read once the position is moved back. -/
theorem Puts.prefix_unread (hs : s.WellFormed) (h : Puts s enc t) :
    enc <+: (t.movedTo s.position).unread := by
  have hlength : (s.stored.take s.position).length = s.position := by
    rw [List.length_take, Nat.min_eq_left hs.position_le_stored]
  refine ⟨s.stored.drop (s.position + enc.length), ?_⟩
  show _ = t.stored.drop s.position
  rw [h.stored_eq, splice, List.append_assoc]
  nth_rewrite 2 [← hlength]
  rw [List.drop_left]

theorem Puts.position_le_size (h : Puts s enc t) : s.position ≤ t.size := by
  have hle := h.wellFormed.position_le
  rw [h.position_eq] at hle
  omega

theorem Decodes.pure (e : Endian) (a : α) : Decodes e (Pure.pure a) [] a := by
  intro s hs _ _
  rw [Prog.pure_apply, List.length_nil, Nat.add_zero, hs.movedTo_self]

theorem Decodes.bind {x : Op α} {f : α → Op β} (hx : Decodes e x enc₁ a)
    (hf : Decodes e (f a) enc₂ b) : Decodes e (x >>= f) (enc₁ ++ enc₂) b := by
  intro s hs he h
  have h₁ : enc₁ <+: s.unread := (List.prefix_append enc₁ enc₂).trans h
  rw [Prog.bind_ok (hx s hs he h₁),
    hf _ (hs.movedTo_of_prefix h₁) he (prefix_unread_movedTo h), List.length_append,
    ← Nat.add_assoc]
  rfl

theorem Decodes.map {x : Op α} (g : α → β) (hx : Decodes e x enc a) :
    Decodes e (g <$> x) enc (g a) := by
  have h := hx.bind (f := fun a => Pure.pure (g a)) (Decodes.pure e (g a))
  rwa [List.append_nil] at h

/-- `read` gives back the bytes it is asked for. -/
theorem decodes_read (e : Endian) (hne : enc ≠ []) : Decodes e (read enc.length) enc enc := by
  intro s hs _ h
  have hn : enc.length ≠ 0 := fun h0 => hne (List.length_eq_zero_iff.mp h0)
  rw [read_unread hs hn h.length_le, ← List.prefix_iff_eq_take.mp h]

variable (π : Platform)

theorem decodes_readFixed (e : Endian) {n : ℕ} (hn : n ≠ 0) (v : BitVec (8 * n)) :
    Decodes e (readFixed π n) (e.image n v.toNat) v := by
  intro s hs he h
  have hle := h.length_le
  have htake := List.prefix_iff_eq_take.mp h
  rw [length_image] at hle htake
  rw [readFixed_eq π hs hn hle, ← htake, he, ofNat_value_image, length_image]

theorem decodes_byte (e : Endian) (v : BitVec 8) :
    Decodes e (readFuint8 π) (e.image 1 v.toNat) v := by
  intro s hs he h
  have hne : e.image 1 v.toNat ≠ [] := by cases e <;> simp [Endian.image, leBytes]
  have hread := decodes_read e hne s hs he h
  rw [length_image] at hread
  rw [readFuint8, Prog.bind_ok hread, Prog.pure_apply, image_one e π.byteOrder,
    ofNat_value_image (n := 1), length_image]

/-- The varint readers decode what fits their width. -/
theorem decodes_readVarint (e : Endian) {w : ℕ} (count : ℕ) (v : BitVec w)
    (hw : 2 ^ w ≤ 128 ^ (count + 1)) :
    Decodes e (readVarintLoop π w (count + 1) 0 0) (leb128 v.toNat) v := by
  intro s hs _ hprefix
  obtain ⟨rest, hrest⟩ := hprefix
  obtain ⟨hvalue, hspan⟩ := leb128_read (n := count) (Nat.lt_of_lt_of_le v.isLt hw)
  have hend : leb128Span (count + 1) s.unread = some (leb128 v.toNat).length := by
    rw [← hrest]
    exact leb128Span_append hspan rest
  have htake : s.unread.take (leb128 v.toNat).length = leb128 v.toNat := by
    rw [← hrest, List.take_left]
  have hv : (0 : BitVec w) ||| (BitVec.ofNat w v.toNat <<< 0) = v := by
    rw [BitVec.shiftLeft_zero, BitVec.ofNat_toNat, BitVec.setWidth_eq]
    exact BitVec.zero_or
  rw [readVarintLoop_eq π w (count + 1) 0 0 hs, hend]
  simp only [htake, hvalue, hv]

theorem decodes_readUint32 (e : Endian) (v : BitVec 32) :
    Decodes e (readUint32 π) (leb128 v.toNat) v :=
  decodes_readVarint π e 4 v (by decide)

theorem decodes_readUint64 (e : Endian) (v : BitVec 64) :
    Decodes e (readUint64 π) (leb128 v.toNat) v :=
  decodes_readVarint π e 9 v (by decide)

/-- A string reader decodes the length and then the bytes. -/
theorem decodes_readString {w : ℕ} {prefixReader : Op (BitVec w)} {s : List UInt8} (hne : s ≠ [])
    (hlen : s.length < 2 ^ w) (pre : ℕ → List UInt8)
    (hp : ∀ v : BitVec w, Decodes e prefixReader (pre v.toNat) v) :
    Decodes e (readString prefixReader) (pre s.length ++ s) s := by
  have hv : (BitVec.ofNat w s.length).toNat = s.length := by
    rw [BitVec.toNat_ofNat, Nat.mod_eq_of_lt hlen]
  have hpre := hp (BitVec.ofNat w s.length)
  have hread := decodes_read e hne
  rw [← hv] at hread
  rw [hv] at hpre
  exact hpre.bind hread

/-- **Every reader decodes the reference encoding** to the value that was written. -/
theorem decodes_readValue (e : Endian) (v : Value) (hv : v.Fits) :
    Decodes e (readValue π v.format) (encode e v) v := by
  cases v with
  | fint8 v => exact (decodes_byte π e v).map Value.fint8
  | fuint8 v => exact (decodes_byte π e v).map Value.fuint8
  | fint16 v => exact (decodes_readFixed π e (n := 2) (by decide) v).map Value.fint16
  | fuint16 v => exact (decodes_readFixed π e (n := 2) (by decide) v).map Value.fuint16
  | fint32 v => exact (decodes_readFixed π e (n := 4) (by decide) v).map Value.fint32
  | fuint32 v => exact (decodes_readFixed π e (n := 4) (by decide) v).map Value.fuint32
  | float v => exact (decodes_readFixed π e (n := 4) (by decide) v).map Value.float
  | fint64 v => exact (decodes_readFixed π e (n := 8) (by decide) v).map Value.fint64
  | fuint64 v => exact (decodes_readFixed π e (n := 8) (by decide) v).map Value.fuint64
  | double v => exact (decodes_readFixed π e (n := 8) (by decide) v).map Value.double
  | uint32 v => exact (decodes_readUint32 π e v).map Value.uint32
  | uint64 v => exact (decodes_readUint64 π e v).map Value.uint64
  | int32 v =>
    have h := (decodes_readUint32 π e (encodeZigzag v)).map decodeZigzag
    rw [toNat_encodeZigzag (by decide), decodeZigzag_encodeZigzag (by decide)] at h
    exact h.map Value.int32
  | int64 v =>
    have h := (decodes_readUint64 π e (encodeZigzag v)).map decodeZigzag
    rw [toNat_encodeZigzag (by decide), decodeZigzag_encodeZigzag (by decide)] at h
    exact h.map Value.int64
  | stringF16 s =>
    exact (decodes_readString hv.1 hv.2 (e.image 2)
      (decodes_readFixed π e (n := 2) (by decide))).map Value.stringF16
  | stringF32 s =>
    exact (decodes_readString hv.1 hv.2 (e.image 4)
      (decodes_readFixed π e (n := 4) (by decide))).map Value.stringF32
  | stringF64 s =>
    exact (decodes_readString hv.1 hv.2 (e.image 8)
      (decodes_readFixed π e (n := 8) (by decide))).map Value.stringF64
  | stringVint s =>
    exact (decodes_readString hv.1 hv.2 leb128 (decodes_readUint64 π e)).map Value.stringVint

end Decodes

/-! ## Lists of values -/

section Lists

variable (π : Platform)

/-- Write values one after another, each after setting its byte order. -/
def writeAll : List (Bool × Value) → Op Unit
  | [] => return
  | (little, v) :: items => do
    setIsLittleEndian little
    writeValue π v
    writeAll items

/-- Read values one after another, each after setting its byte order. -/
def readAll : List (Bool × Format) → Op (List Value)
  | [] => return []
  | (little, f) :: formats => do
    setIsLittleEndian little
    let v ← readValue π f
    let vs ← readAll formats
    return v :: vs

/-- The concatenation of the reference encodings. -/
def encodeAll (items : List (Bool × Value)) : List UInt8 :=
  items.flatMap fun item => encode (orderOf item.1) item.2

theorem encodeAll_cons (little : Bool) (v : Value) (items : List (Bool × Value)) :
    encodeAll ((little, v) :: items) = encode (orderOf little) v ++ encodeAll items := rfl

theorem setIsLittleEndian_eq (little : Bool) (s : ByteArray) :
    setIsLittleEndian little s = .ok () (s.withEndian (orderOf little)) := rfl

/-- A list of values is written as the concatenation of the reference encodings. -/
theorem writeAll_eq {items : List (Bool × Value)} (hfits : ∀ item ∈ items, item.2.Fits) :
    ∀ {s : ByteArray}, s.WellFormed → ∃ t, writeAll π items s = .ok () t ∧ t.WellFormed ∧
      t.stored = splice s.stored s.position (encodeAll items) ∧
        t.position = s.position + (encodeAll items).length := by
  induction items with
  | nil => exact fun {s} hs => ⟨s, rfl, hs, by simp [encodeAll], rfl⟩
  | cons item items ih =>
    intro s hs
    obtain ⟨little, v⟩ := item
    obtain ⟨t, ht, hput⟩ := emits_writeValue π (orderOf little) v (hfits _ (List.mem_cons_self ..))
      (s.withEndian (orderOf little)) (hs.withEndian _) rfl
    obtain ⟨u, hu, huwf, hstored, hpos⟩ :=
      ih (fun item h => hfits item (List.mem_cons_of_mem _ h)) hput.wellFormed
    refine ⟨u, ?_, huwf, ?_, ?_⟩
    · rw [writeAll, Prog.bind_ok (setIsLittleEndian_eq little s), Prog.bind_ok ht, hu]
    · rw [hstored, hput.stored_eq, hput.position_eq]
      exact splice_splice hs.position_le_stored _ _
    · rw [hpos, hput.position_eq, encodeAll_cons, List.length_append, ← Nat.add_assoc]
      rfl

/-- A list of values is read back from the concatenation of the reference encodings. -/
theorem readAll_eq {items : List (Bool × Value)} (hfits : ∀ item ∈ items, item.2.Fits) :
    ∀ {s : ByteArray}, s.WellFormed → encodeAll items <+: s.unread →
      ∃ t, readAll π (items.map fun item => (item.1, item.2.format)) s =
          .ok (items.map Prod.snd) t ∧
        t.size = s.size ∧ t.position = s.position + (encodeAll items).length := by
  induction items with
  | nil => exact fun {s} _ _ => ⟨s, rfl, rfl, rfl⟩
  | cons item items ih =>
    intro s hs h
    obtain ⟨little, v⟩ := item
    set s' := s.withEndian (orderOf little) with hs'
    have hwf : s'.WellFormed := hs.withEndian _
    have happend : encode (orderOf little) v ++ encodeAll items <+: s'.unread := h
    have hhead := (List.prefix_append (encode (orderOf little) v) (encodeAll items)).trans happend
    have hread := decodes_readValue π (orderOf little) v (hfits _ (List.mem_cons_self ..))
      s' hwf rfl hhead
    obtain ⟨t, ht, hsize, hpos⟩ := ih (fun item h => hfits item (List.mem_cons_of_mem _ h))
      (hwf.movedTo_of_prefix hhead) (prefix_unread_movedTo happend)
    refine ⟨t, ?_, hsize, ?_⟩
    · rw [List.map_cons, readAll, Prog.bind_ok (setIsLittleEndian_eq little s), Prog.bind_ok hread,
        Prog.bind_ok ht, Prog.pure_apply, List.map_cons]
    · rw [hpos, encodeAll_cons, List.length_append, ← Nat.add_assoc]
      rfl

/-- **What is written is what is read.** A list of values of any formats, each in its own byte
order, is written to a fresh byte array as the concatenation of the reference encodings, on hosts of
either byte order and whatever the block size is; read from the start with the matching readers and
byte orders, it is the same list, and nothing is left to read. -/
theorem roundTrip {b : ℕ} (hb : 1 ≤ b) {items : List (Bool × Value)}
    (hfits : ∀ item ∈ items, item.2.Fits) :
    ∃ s t u, writeAll π items (construct π b) = .ok () s ∧ s.stored = encodeAll items ∧
      s.position = (encodeAll items).length ∧ setPosition 0 s = .ok () t ∧
      readAll π (items.map fun item => (item.1, item.2.format)) t = .ok (items.map Prod.snd) u ∧
      u.getReadSize = 0 := by
  obtain ⟨s, hs, hwf, hstored, hpos⟩ := writeAll_eq π hfits (wellFormed_construct π hb)
  have hfresh : (construct π b).stored = [] := rfl
  rw [hfresh, construct, splice, List.take_nil, List.drop_nil, List.nil_append,
    List.append_nil] at hstored
  rw [construct, Nat.zero_add] at hpos
  have hset := setPosition_eq hwf (Nat.zero_le _)
  rw [movedTo_max_of_le (Nat.zero_le _)] at hset
  have hunread : encodeAll items <+: (s.movedTo 0).unread := by
    rw [unread, stored_movedTo, hstored]
    exact List.prefix_rfl
  obtain ⟨u, hu, husize, hupos⟩ := readAll_eq π hfits (hwf.movedTo (Nat.zero_le _)) hunread
  refine ⟨s, s.movedTo 0, u, hs, hstored, hpos, hset, hu, ?_⟩
  have hsize := hwf.length_stored
  rw [hstored] at hsize
  rw [getReadSize, husize, hupos, Nat.sub_eq_zero_iff_le, ← hpos]
  change s.size ≤ 0 + s.position
  rw [Nat.zero_add, hpos, hsize]

theorem roundTrip_mixed :
    ∃ s t u, writeAll ⟨.little, fun _ _ => 0⟩
        [(false, .fint16 0x1234), (true, .int32 (-3)), (false, .stringVint [104, 105])]
        (construct ⟨.little, fun _ _ => 0⟩ 1) = .ok () s ∧
      s.stored = [0x12, 0x34, 5, 2, 104, 105] ∧ setPosition 0 s = .ok () t ∧
      readAll ⟨.little, fun _ _ => 0⟩ [(false, .fint16), (true, .int32), (false, .stringVint)] t =
        .ok [.fint16 0x1234, .int32 (-3), .stringVint [104, 105]] u ∧ u.getReadSize = 0 := by
  have hfits : ∀ item ∈ ([(false, .fint16 0x1234), (true, .int32 (-3)),
      (false, .stringVint [104, 105])] : List (Bool × Value)), item.2.Fits := by
    simp [Value.Fits]
  obtain ⟨s, t, u, hs, hstored, -, ht, hu, hsize⟩ :=
    roundTrip ⟨.little, fun _ _ => 0⟩ (b := 1) (by decide) hfits
  refine ⟨s, t, u, hs, ?_, ht, hu, hsize⟩
  have hneg : zigzag (-3) = 5 := by decide
  rw [hstored]
  simp [encodeAll, encode, orderOf, Endian.image, leBytes, leb128_of_lt, hneg]

end Lists

end ByteArray

end Dag
