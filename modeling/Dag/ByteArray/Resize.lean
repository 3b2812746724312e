import Dag.ByteArray.Runs
import Dag.ByteArray.Truncated

/-!
# The byte array: the buffer of a string reader

A string reader makes its buffer with `buff.resize(len)` before `read` looks at how many bytes there
are. `len` is what the bytes of the prefix say, whoever has sent them, and `resize` throws when
there is no room for so many. What it throws is no `std::out_of_range`. When `read` throws behind
it, the prefix has been consumed.

## Main definitions

* `Thrown`, `resize`: the exceptions of the string readers, and the call that throws the other one
* `StringFormat.readResizing`, `readTyped`: the readers with that call
* `HasRoom`: there is room for the string whose length can be read
* `ConsumesNothing`: an `std::out_of_range` leaves everything as it was
* `CutShort`: the bytes run out behind the first step of the reader
* `RejectsMalformed`: the reader returns what could be read or throws `std::out_of_range`, and the
  buffer is no larger than what is left to read

## Main results

* `readTyped_of_room`: where there is room for every buffer, nothing is different
* `truncated_throws_iff`: truncated input is detected, exactly when there is room for what has been
  announced
* `readResizing_eq`: the string readers, on any bytes
* `consumesNothing_iff`, `rejectsMalformed_iff`: both, for every reachable state
-/

namespace Dag

open Foundation

/-- What a typed reader throws: the exception of `read`, or that of `std::string::resize`, which is
`std::length_error` or `std::bad_alloc`. -/
inductive Thrown
  | outOfRange (e : OutOfRange)
  | resize (len : ℕ)
  deriving DecidableEq, Repr

/-- `buff.resize(len)`. For which lengths there is room is decided outside. -/
def resize (resizes : ℕ → Bool) (len : ℕ) : Prog Thrown Fault ByteArray Unit :=
  if resizes len then return else Prog.throw (.resize len)

variable (π : Platform) (resizes : ℕ → Bool)

namespace StringFormat

/-- `readStringF16()` and the others: the length, the buffer, and the bytes. -/
def readResizing (f : StringFormat) : Prog Thrown Fault ByteArray (List UInt8) := do
  let len ← (f.readLength π).mapThrow .outOfRange
  resize resizes len
  (ByteArray.read len).mapThrow .outOfRange

/-- The bytes run out behind the first byte of a varint, or behind the prefix when there was room
for the buffer. -/
def CutShort (f : StringFormat) (s : ByteArray) : Prop :=
  match f.span s.unread with
  | none => f = .vint ∧ s.unread ≠ []
  | some k => s.unread.length - k < f.length s.endian (s.unread.take k) ∧
      resizes (f.length s.endian (s.unread.take k)) = true

end StringFormat

namespace ByteArray

/-- A typed reader, with the buffers of strings. -/
def readTyped : Format → Prog Thrown Fault ByteArray Value
  | .stringF16 => .stringF16 <$> StringFormat.f16.readResizing π resizes
  | .stringF32 => .stringF32 <$> StringFormat.f32.readResizing π resizes
  | .stringF64 => .stringF64 <$> StringFormat.f64.readResizing π resizes
  | .stringVint => .stringVint <$> StringFormat.vint.readResizing π resizes
  | f => (readValue π f).mapThrow .outOfRange

/-- There is room for the buffer of a string, if the whole of its length can be read. -/
def HasRoom (s : ByteArray) (v : Value) : Prop :=
  ∀ f value, v = StringFormat.value f value →
    f.encodeLength s.endian value.length <+: s.unread → resizes value.length = true

/-- **A failed read consumes nothing**: when the reader throws `std::out_of_range`, the position,
the size, the current node and the stored bytes are as before. -/
def ConsumesNothing (f : Format) (s : ByteArray) : Prop :=
  ∀ e t, readTyped π resizes f s = .throw (.outOfRange e) t →
    t.position = s.position ∧ t.size = s.size ∧ t.cur = s.cur ∧ t.stored = s.stored

/-- The bytes run out behind the first step of the reader: behind the first byte of a varint, or
behind the prefix of a string. -/
def CutShort (s : ByteArray) : Format → Prop
  | .int32 | .uint32 => s.unread ≠ [] ∧ leb128Span (varintPasses 32) s.unread = none
  | .int64 | .uint64 => s.unread ≠ [] ∧ leb128Span (varintPasses 64) s.unread = none
  | .stringF16 => StringFormat.f16.CutShort resizes s
  | .stringF32 => StringFormat.f32.CutShort resizes s
  | .stringF64 => StringFormat.f64.CutShort resizes s
  | .stringVint => StringFormat.vint.CutShort resizes s
  | _ => False

/-- **Malformed prefixes are rejected before allocation**: the reader returns bytes that could be
read, or throws `std::out_of_range`, and the length for `resize` is no more than can be read behind
the prefix. -/
def RejectsMalformed (f : StringFormat) (s : ByteArray) : Prop :=
  ((∃ out t, f.readResizing π resizes s = .ok out t ∧ out <:+: s.unread) ∨
    ∃ e t, f.readResizing π resizes s = .throw (.outOfRange e) t) ∧
  ∀ len t, f.readLength π s = .ok len t → len ≤ t.getReadSize

variable {s : ByteArray}

/-! ## The string readers -/

/-- Where there is room for every buffer, the string readers are those without one. -/
theorem readResizing_of_room (f : StringFormat) :
    f.readResizing π (fun _ => true) = (f.read π).mapThrow .outOfRange := by
  funext s
  rw [stringRead_eq, StringFormat.readResizing, Prog.bind_apply, Prog.mapThrow_apply,
    Prog.mapThrow_apply, Prog.bind_apply]
  cases f.readLength π s <;> rfl

/-- **Where there is room for every buffer**, the typed readers are those of `readValue`. -/
theorem readTyped_of_room (f : Format) :
    readTyped π (fun _ => true) f = (readValue π f).mapThrow .outOfRange := by
  have hstring : ∀ (g : StringFormat) (value : List UInt8 → Value),
      value <$> g.readResizing π (fun _ => true) =
        (value <$> g.read π : Op Value).mapThrow Thrown.outOfRange := by
    intro g value
    rw [readResizing_of_room, Prog.map_mapThrow]
  cases f with
  | stringF16 => exact hstring .f16 Value.stringF16
  | stringF32 => exact hstring .f32 Value.stringF32
  | stringF64 => exact hstring .f64 Value.stringF64
  | stringVint => exact hstring .vint Value.stringVint
  | _ => rfl

theorem readTyped_value (f : StringFormat) (value : List UInt8) :
    readTyped π resizes (f.value value).format = f.value <$> f.readResizing π resizes := by
  cases f <;> rfl

/-- Where there is room for the buffer that is asked for, it is as if there were for every one. -/
theorem readResizing_congr {f : StringFormat}
    (hroom : ∀ len t, f.readLength π s = .ok len t → resizes len = true) :
    f.readResizing π resizes s = f.readResizing π (fun _ => true) s := by
  rw [StringFormat.readResizing, StringFormat.readResizing, Prog.bind_apply, Prog.bind_apply,
    Prog.mapThrow_apply]
  cases hrun : f.readLength π s with
  | ok len t =>
    dsimp only
    rw [Prog.bind_apply, Prog.bind_apply, resize, resize, if_pos (hroom len t hrun), if_pos rfl]
  | throw e t => rfl
  | fault g => rfl

/-- A string that is cut behind its length is read exactly as far as there is room for it. -/
theorem readResizing_of_length (hs : s.WellFormed) {f : StringFormat} {value : List UInt8}
    (hfit : value.length < 2 ^ f.bits) (hlength : f.encodeLength s.endian value.length <+: s.unread)
    (hroom : resizes value.length = false) :
    ∃ t, f.readResizing π resizes s = .throw (.resize value.length) t := by
  have hrun := decodes_readLength π s.endian f hfit s hs rfl hlength
  refine ⟨s.movedTo (s.position + (f.encodeLength s.endian value.length).length), ?_⟩
  rw [StringFormat.readResizing, Prog.bind_apply, Prog.mapThrow_apply, hrun]
  dsimp only
  rw [Prog.bind_apply, resize, hroom]
  rfl

/-- The readers with buffers, where there is room. -/
theorem readTyped_truncated (hs : s.WellFormed) {v : Value} (hv : v.FitsPrefix)
    (h : Truncates s (encode s.endian v)) (hroom : HasRoom resizes s v) :
    ∃ t, readTyped π resizes v.format s = .throw (.outOfRange ⟨"not enough len"⟩) t := by
  obtain ⟨t, ht⟩ := readValue_truncated_of_wellFormed π hs hv h
  have hfull : readTyped π (fun _ => true) v.format s =
      .throw (.outOfRange ⟨"not enough len"⟩) t := by
    rw [readTyped_of_room, Prog.mapThrow_apply, ht]
  refine ⟨t, Eq.trans ?_ hfull⟩
  rcases value_cases v with ⟨f, value, rfl⟩ | ⟨-, hnumber⟩
  · have hfit : value.length < 2 ^ f.bits := by cases f <;> exact hv
    have hlength : ∀ len u, f.readLength π s = .ok len u → resizes len = true := by
      intro len u hrun
      obtain ⟨hwhole, rfl⟩ := length_of_truncated π hs hfit h hrun
      exact hroom f value rfl hwhole
    rw [readTyped_value, readTyped_value, Prog.map_apply, Prog.map_apply,
      readResizing_congr π resizes hlength]
  · cases v with
    | stringF16 u => exact absurd rfl (hnumber .f16 u)
    | stringF32 u => exact absurd rfl (hnumber .f32 u)
    | stringF64 u => exact absurd rfl (hnumber .f64 u)
    | stringVint u => exact absurd rfl (hnumber .vint u)
    | _ => rfl

theorem readTyped_truncated_iff (hs : s.WellFormed) {v : Value} (hv : v.FitsPrefix)
    (h : Truncates s (encode s.endian v)) :
    (∃ t, readTyped π resizes v.format s = .throw (.outOfRange ⟨"not enough len"⟩) t) ↔
      HasRoom resizes s v := by
  refine ⟨?_, readTyped_truncated π resizes hs hv h⟩
  rintro ⟨t, ht⟩ f value rfl hlength
  have hfit : value.length < 2 ^ f.bits := by cases f <;> exact hv
  by_contra hroom
  obtain ⟨u, hu⟩ :=
    readResizing_of_length π resizes hs hfit hlength (eq_false_of_ne_true hroom)
  rw [readTyped_value, Prog.map_apply, hu] at ht
  cases ht

/-- **When truncated input is detected**: in every reachable state whose readable bytes are a strict
prefix of the encoding of a value, the matching reader throws `std::out_of_range` exactly when there
is room for the string, should the whole of its length be there. -/
theorem truncated_throws_iff {b : ℕ} (hb : 1 ≤ b) {calls : List Call}
    (h : exec (step π) (construct π b) calls = some s) {v : Value} (hv : v.FitsPrefix)
    {p : List UInt8} (hp : p <+: encode s.endian v) (hne : p ≠ encode s.endian v)
    (hunread : s.unread = p) :
    (∃ t, readTyped π resizes v.format s = .throw (.outOfRange ⟨"not enough len"⟩) t) ↔
      HasRoom resizes s v := by
  subst hunread
  exact readTyped_truncated_iff π resizes (wellFormed_of_exec π hb h).1 hv ⟨hp, hne⟩

/-- A string of 300 bytes cut behind its length, which fills the only block. -/
theorem truncated_throws_iff_behind_length :
    ∃ s t, exec (step ⟨.little, fun _ _ => 0⟩) (construct ⟨.little, fun _ _ => 0⟩ 2)
        [.write [1, 44], .setPosition 0] = some s ∧
      readTyped ⟨.little, fun _ _ => 0⟩ (fun len => len < 2 ^ 20) .stringF16 s =
        .throw (.outOfRange ⟨"not enough len"⟩) t := by
  obtain ⟨s, hs, hendian, hunread⟩ : ∃ s, exec (step ⟨.little, fun _ _ => 0⟩)
      (construct ⟨.little, fun _ _ => 0⟩ 2) [.write [1, 44], .setPosition 0] = some s ∧
        s.endian = .big ∧ s.unread = [1, 44] := ⟨_, rfl, rfl, rfl⟩
  obtain ⟨value, hvalue⟩ : ∃ value : List UInt8, value.length = 300 :=
    ⟨List.replicate 300 104, List.length_replicate⟩
  have hencode : encode s.endian (.stringF16 value) = [1, 44] ++ value := by
    rw [show Value.stringF16 value = StringFormat.f16.value value from rfl, encode_value, hendian,
      hvalue]
    rfl
  have hne : [1, 44] ≠ encode s.endian (.stringF16 value) := by
    intro heq
    have hlength := congrArg List.length heq
    rw [hencode, List.length_append, hvalue] at hlength
    cases hlength
  obtain ⟨t, ht⟩ := (truncated_throws_iff ⟨.little, fun _ _ => 0⟩ (fun len => len < 2 ^ 20)
    (b := 2) (by decide) hs (v := .stringF16 value)
    (show value.length < 2 ^ 16 by rw [hvalue]; decide)
    (by rw [hencode]; exact List.prefix_append _ _) hne hunread).mpr (by
      rintro (_ | _ | _ | _) value' heq -
      · cases heq
        rw [hvalue]
        rfl
      all_goals cases heq)
  exact ⟨s, t, hs, ht⟩

/-- The length of a string of `2 ^ 32 - 1` bytes and nothing behind it, where there is room for less
than 2 GiB. -/
theorem truncated_not_outOfRange :
    ¬ ∀ (π : Platform) (resizes : ℕ → Bool) (b : ℕ) (calls : List Call) (s : ByteArray) (v : Value)
      (p : List UInt8), 1 ≤ b → exec (step π) (construct π b) calls = some s → v.FitsPrefix →
        p <+: encode s.endian v → p ≠ encode s.endian v → s.unread = p →
          ∃ t, readTyped π resizes v.format s = .throw (.outOfRange ⟨"not enough len"⟩) t := by
  intro hall
  obtain ⟨s, hs, hendian, hunread⟩ : ∃ s, exec (step ⟨.little, fun _ _ => 0⟩)
      (construct ⟨.little, fun _ _ => 0⟩ 8) [.write [0xFF, 0xFF, 0xFF, 0xFF], .setPosition 0] =
        some s ∧ s.endian = .big ∧ s.unread = [0xFF, 0xFF, 0xFF, 0xFF] := ⟨_, rfl, rfl, rfl⟩
  obtain ⟨value, hvalue⟩ : ∃ value : List UInt8, value.length = 2 ^ 32 - 1 :=
    ⟨List.replicate _ 0, List.length_replicate⟩
  have hlength : StringFormat.f32.encodeLength s.endian value.length = [0xFF, 0xFF, 0xFF, 0xFF] := by
    rw [hendian, hvalue]
    rfl
  have hencode : encode s.endian (.stringF32 value) = [0xFF, 0xFF, 0xFF, 0xFF] ++ value := by
    rw [show Value.stringF32 value = StringFormat.f32.value value from rfl, encode_value, hlength]
  have hpre : [0xFF, 0xFF, 0xFF, 0xFF] <+: encode s.endian (.stringF32 value) := by
    rw [hencode]
    exact List.prefix_append _ _
  have hne : [0xFF, 0xFF, 0xFF, 0xFF] ≠ encode s.endian (.stringF32 value) := by
    intro heq
    have hlengths := congrArg List.length heq
    rw [hencode, List.length_append, hvalue] at hlengths
    cases hlengths
  have hfits : Value.FitsPrefix (.stringF32 value) := by
    change value.length < 2 ^ 32
    rw [hvalue]
    decide
  have hwf := (wellFormed_of_exec ⟨.little, fun _ _ => 0⟩ (show 1 ≤ 8 by decide) hs).1
  have hthrows := hall ⟨.little, fun _ _ => 0⟩ (fun len => len < 2 ^ 31) 8 _ s (.stringF32 value) _
    (by decide) hs hfits hpre hne hunread
  rw [readTyped_truncated_iff _ _ hwf hfits (by rw [Truncates, hunread]; exact ⟨hpre, hne⟩)]
    at hthrows
  have hroom := hthrows .f32 value rfl (by rw [hlength, hunread])
  rw [hvalue] at hroom
  exact absurd hroom (by decide)

/-- **The string readers**, on any bytes. -/
theorem readResizing_eq (h : s.WellFormed) (f : StringFormat) :
    f.readResizing π resizes s = match f.span s.unread with
      | some k =>
        if resizes (f.length s.endian (s.unread.take k)) then
          (read (f.length s.endian (s.unread.take k))).mapThrow Thrown.outOfRange
            (s.movedTo (s.position + k))
        else .throw (.resize (f.length s.endian (s.unread.take k))) (s.movedTo (s.position + k))
      | none => .throw (.outOfRange ⟨"not enough len"⟩) (stopped f s) := by
  rw [StringFormat.readResizing, Prog.bind_apply, Prog.mapThrow_apply, readLength_eq π h f]
  cases f.span s.unread with
  | none => rfl
  | some k =>
    dsimp only
    rw [Prog.bind_apply, resize]
    split_ifs <;> rfl

/-! ## Failed reads -/

/-- What a reader of numbers throws is what its loop or its `read` throws. -/
theorem of_mapThrow_map {α β : Type} {x : Op α} {g : α → β} {e : OutOfRange} {t : ByteArray}
    (h : (g <$> x : Op β).mapThrow Thrown.outOfRange s = .throw (.outOfRange e) t) :
    x s = .throw e t := by
  obtain ⟨e', he, hx⟩ := Prog.of_mapThrow_throw h
  cases he
  exact Prog.of_map_throw hx

theorem readFixed_fails (h : s.WellFormed) {n : ℕ} (hn : n ≠ 0) {e : OutOfRange} {t : ByteArray}
    (hrun : readFixed π n s = .throw e t) : t = s := by
  rcases Nat.lt_or_ge s.unread.length n with hlt | hle
  · rw [readFixed_throw π h hlt] at hrun
    cases hrun
    rfl
  · rw [readFixed_eq π h hn hle] at hrun
    cases hrun

theorem readFuint8_fails (h : s.WellFormed) {e : OutOfRange} {t : ByteArray}
    (hrun : readFuint8 π s = .throw e t) : t = s := by
  cases hu : s.unread with
  | nil =>
    rw [readFuint8_nil π h hu] at hrun
    cases hrun
    rfl
  | cons u us =>
    rw [readFuint8_cons π h hu] at hrun
    cases hrun

theorem readVarint_fails (h : s.WellFormed) {w count : ℕ} {e : OutOfRange} {t : ByteArray}
    (hrun : readVarintLoop π w count 0 0 s = .throw e t) :
    t = s ∨ s.unread ≠ [] ∧ leb128Span count s.unread = none := by
  rw [readVarintLoop_eq π w count 0 0 h] at hrun
  cases hspan : leb128Span count s.unread with
  | some k =>
    rw [hspan] at hrun
    cases hrun
  | none =>
    rw [hspan] at hrun
    cases hrun
    by_cases hu : s.unread = []
    · exact .inl (h.movedTo_size hu)
    · exact .inr ⟨hu, rfl⟩

theorem readResizing_fails (h : s.WellFormed) (f : StringFormat) {e : OutOfRange} {t : ByteArray}
    (hrun : f.readResizing π resizes s = .throw (.outOfRange e) t) :
    t = s ∨ f.CutShort resizes s := by
  rw [readResizing_eq π resizes h f] at hrun
  rw [StringFormat.CutShort]
  cases hspan : f.span s.unread with
  | none =>
    rw [hspan] at hrun
    cases hrun
    by_cases hf : f = .vint
    · by_cases hu : s.unread = []
      · exact .inl (by rw [stopped, if_pos hf, h.movedTo_size hu])
      · exact .inr ⟨hf, hu⟩
    · exact .inl (by rw [stopped, if_neg hf])
  | some k =>
    rw [hspan] at hrun
    dsimp only at hrun
    split_ifs at hrun with hroom
    · obtain ⟨e', -, hread⟩ := Prog.of_mapThrow_throw hrun
      have hlt := (read_fails (h.movedTo_add (StringFormat.span_bounds hspan).2) hread).1
      rw [unread_movedTo, List.length_drop] at hlt
      exact .inr ⟨hlt, hroom⟩
    · cases hrun

/-- What a typed reader has consumed when it throws `std::out_of_range`: nothing, unless the bytes
run out behind its first step. -/
theorem readTyped_fails (h : s.WellFormed) (f : Format) {e : OutOfRange} {t : ByteArray}
    (hrun : readTyped π resizes f s = .throw (.outOfRange e) t) : t = s ∨ CutShort resizes s f := by
  cases f with
  | fint8 => exact .inl (readFuint8_fails π h (of_mapThrow_map hrun))
  | fuint8 => exact .inl (readFuint8_fails π h (of_mapThrow_map hrun))
  | fint16 => exact .inl (readFixed_fails π h (n := 2) (by decide) (of_mapThrow_map hrun))
  | fuint16 => exact .inl (readFixed_fails π h (n := 2) (by decide) (of_mapThrow_map hrun))
  | fint32 => exact .inl (readFixed_fails π h (n := 4) (by decide) (of_mapThrow_map hrun))
  | fuint32 => exact .inl (readFixed_fails π h (n := 4) (by decide) (of_mapThrow_map hrun))
  | float => exact .inl (readFixed_fails π h (n := 4) (by decide) (of_mapThrow_map hrun))
  | fint64 => exact .inl (readFixed_fails π h (n := 8) (by decide) (of_mapThrow_map hrun))
  | fuint64 => exact .inl (readFixed_fails π h (n := 8) (by decide) (of_mapThrow_map hrun))
  | double => exact .inl (readFixed_fails π h (n := 8) (by decide) (of_mapThrow_map hrun))
  | uint32 => exact readVarint_fails π h (of_mapThrow_map hrun)
  | uint64 => exact readVarint_fails π h (of_mapThrow_map hrun)
  | int32 => exact readVarint_fails π h (Prog.of_map_throw (of_mapThrow_map hrun))
  | int64 => exact readVarint_fails π h (Prog.of_map_throw (of_mapThrow_map hrun))
  | stringF16 => exact readResizing_fails π resizes h .f16 (Prog.of_map_throw hrun)
  | stringF32 => exact readResizing_fails π resizes h .f32 (Prog.of_map_throw hrun)
  | stringF64 => exact readResizing_fails π resizes h .f64 (Prog.of_map_throw hrun)
  | stringVint => exact readResizing_fails π resizes h .vint (Prog.of_map_throw hrun)

/-- The reader throws `e`, and it has moved the position. -/
def ThrowsMoved {ε α : Type} (e : ε) (x : Prog ε Fault ByteArray α) (s : ByteArray) : Prop :=
  ∃ p, p ≠ s.position ∧ x s = .throw e (s.movedTo p)

theorem ThrowsMoved.map {ε α β : Type} {e : ε} {x : Prog ε Fault ByteArray α}
    (h : ThrowsMoved e x s) (g : α → β) : ThrowsMoved e (g <$> x) s := by
  obtain ⟨p, hp, hx⟩ := h
  exact ⟨p, hp, by rw [Prog.map_apply, hx]⟩

theorem ThrowsMoved.mapThrow {ε ε' α : Type} {e : ε} {x : Prog ε Fault ByteArray α}
    (h : ThrowsMoved e x s) (g : ε → ε') : ThrowsMoved (g e) (x.mapThrow g) s := by
  obtain ⟨p, hp, hx⟩ := h
  exact ⟨p, hp, by rw [Prog.mapThrow_apply, hx]⟩

theorem WellFormed.size_ne_position (h : s.WellFormed) (hu : s.unread ≠ []) :
    s.size ≠ s.position := by
  intro heq
  have hlength := h.length_unread
  rw [getReadSize, heq, Nat.sub_self] at hlength
  exact hu (List.eq_nil_of_length_eq_zero hlength)

theorem readVarint_throwsMoved (h : s.WellFormed) {w count : ℕ}
    (hcut : s.unread ≠ [] ∧ leb128Span count s.unread = none) :
    ThrowsMoved ⟨"not enough len"⟩ (readVarintLoop π w count 0 0) s := by
  refine ⟨s.size, h.size_ne_position hcut.1, ?_⟩
  rw [readVarintLoop_eq π w count 0 0 h, hcut.2]

theorem readResizing_throwsMoved (h : s.WellFormed) (f : StringFormat)
    (hcut : f.CutShort resizes s) :
    ThrowsMoved (.outOfRange ⟨"not enough len"⟩) (f.readResizing π resizes) s := by
  rw [StringFormat.CutShort] at hcut
  have hrun := readResizing_eq π resizes h f
  cases hspan : f.span s.unread with
  | none =>
    rw [hspan] at hcut hrun
    refine ⟨s.size, h.size_ne_position hcut.2, ?_⟩
    rw [hrun, stopped, if_pos hcut.1]
  | some k =>
    rw [hspan] at hcut hrun
    obtain ⟨hlt, hroom⟩ := hcut
    obtain ⟨hpos, hle⟩ := StringFormat.span_bounds hspan
    have hread : read (f.length s.endian (s.unread.take k)) (s.movedTo (s.position + k)) =
        .throw ⟨"not enough len"⟩ (s.movedTo (s.position + k)) := by
      apply read_unread_throw (h.movedTo_add hle)
      rwa [unread_movedTo, List.length_drop]
    refine ⟨s.position + k, by omega, ?_⟩
    dsimp only at hrun
    rw [hrun, if_pos hroom, Prog.mapThrow_apply, hread]

theorem readTyped_throwsMoved (h : s.WellFormed) (f : Format) (hcut : CutShort resizes s f) :
    ThrowsMoved (.outOfRange ⟨"not enough len"⟩) (readTyped π resizes f) s := by
  cases f with
  | uint32 => exact ((readVarint_throwsMoved π h hcut).map Value.uint32).mapThrow _
  | uint64 => exact ((readVarint_throwsMoved π h hcut).map Value.uint64).mapThrow _
  | int32 =>
    have hzigzag := (readVarint_throwsMoved π (w := 32) h hcut).map decodeZigzag
    exact (hzigzag.map Value.int32).mapThrow _
  | int64 =>
    have hzigzag := (readVarint_throwsMoved π (w := 64) h hcut).map decodeZigzag
    exact (hzigzag.map Value.int64).mapThrow _
  | stringF16 => exact (readResizing_throwsMoved π resizes h .f16 hcut).map Value.stringF16
  | stringF32 => exact (readResizing_throwsMoved π resizes h .f32 hcut).map Value.stringF32
  | stringF64 => exact (readResizing_throwsMoved π resizes h .f64 hcut).map Value.stringF64
  | stringVint => exact (readResizing_throwsMoved π resizes h .vint hcut).map Value.stringVint
  | _ => exact hcut.elim

/-- **A failed read consumes nothing**, in every reachable state, exactly when the bytes do not run
out behind the first step of the reader. -/
theorem consumesNothing_iff {b : ℕ} (hb : 1 ≤ b) {calls : List Call}
    (h : exec (step π) (construct π b) calls = some s) (f : Format) :
    ConsumesNothing π resizes f s ↔ ¬ CutShort resizes s f := by
  have hs := (wellFormed_of_exec π hb h).1
  constructor
  · intro hnothing hcut
    obtain ⟨p, hp, hrun⟩ := readTyped_throwsMoved π resizes hs f hcut
    exact hp (hnothing _ _ hrun).1
  · intro hcut e t hrun
    obtain rfl := (readTyped_fails π resizes hs f hrun).resolve_right hcut
    exact ⟨rfl, rfl, rfl, rfl⟩

theorem consumesNothing_iff_short_number :
    ∃ s, exec (step ⟨.little, fun _ _ => 0⟩) (construct ⟨.little, fun _ _ => 0⟩ 2)
        [.write [1, 2, 3], .setPosition 1] = some s ∧
      ConsumesNothing ⟨.little, fun _ _ => 0⟩ (fun _ => true) .fint32 s := by
  obtain ⟨s, hs⟩ : ∃ s, exec (step ⟨.little, fun _ _ => 0⟩) (construct ⟨.little, fun _ _ => 0⟩ 2)
      [.write [1, 2, 3], .setPosition 1] = some s := ⟨_, rfl⟩
  exact ⟨s, hs, (consumesNothing_iff ⟨.little, fun _ _ => 0⟩ (fun _ => true) (b := 2) (by decide) hs
    .fint32).mpr id⟩

/-- A length of two bytes, with one byte behind it: the length is gone when `read` throws. -/
theorem not_consumesNothing :
    ¬ ∀ (π : Platform) (resizes : ℕ → Bool) (b : ℕ) (calls : List Call) (s : ByteArray)
      (f : Format), 1 ≤ b → exec (step π) (construct π b) calls = some s →
        ConsumesNothing π resizes f s := by
  intro h
  have hnothing := h ⟨.little, fun _ _ => 0⟩ (fun _ => true) 4
    [.write [0, 5, 104], .setPosition 0] _ .stringF16 (by decide) rfl
  have hposition := (hnothing ⟨"not enough len"⟩ _ rfl).1
  cases hposition

/-! ## Malformed prefixes -/

/-- What the string reader does when it is asked for no more bytes than there are. -/
theorem readResizing_some (h : s.WellFormed) {f : StringFormat} {k : ℕ}
    (hspan : f.span s.unread = some k)
    (hle : f.length s.endian (s.unread.take k) ≤ s.unread.length - k) :
    ((∃ out t, f.readResizing π resizes s = .ok out t ∧ out <:+: s.unread) ∨
      ∃ e t, f.readResizing π resizes s = .throw (.outOfRange e) t) ↔
      (f.length s.endian (s.unread.take k) = 0 → s.position + k < s.capacity) ∧
        resizes (f.length s.endian (s.unread.take k)) = true := by
  have hrun := readResizing_eq π resizes h f
  rw [hspan] at hrun
  dsimp only at hrun
  have hmoved := h.movedTo_add (StringFormat.span_bounds hspan).2
  generalize f.length s.endian (s.unread.take k) = len at hrun hle
  have hlen : len ≤ (s.movedTo (s.position + k)).unread.length := by
    rwa [unread_movedTo, List.length_drop]
  rw [hrun]
  constructor
  · rintro (⟨out, t, ht, -⟩ | ⟨e, t, ht⟩)
    · split_ifs at ht with hroom
      refine ⟨?_, hroom⟩
      rintro rfl
      exact room_of_read_zero hmoved (Prog.of_mapThrow_ok ht)
    · split_ifs at ht with hroom
      · obtain ⟨e', -, hfails⟩ := Prog.of_mapThrow_throw ht
        exact absurd (read_fails hmoved hfails).1 (Nat.not_lt.mpr hlen)
      · cases ht
  · rintro ⟨hzero, hroom⟩
    obtain ⟨out, t, ht, hprefix⟩ := exists_read hmoved hlen hzero
    refine .inl ⟨out, t, ?_, ?_⟩
    · rw [if_pos hroom, Prog.mapThrow_apply, ht]
    · rw [unread_movedTo] at hprefix
      exact hprefix.isInfix.trans (List.drop_suffix k s.unread).isInfix

theorem rejectsMalformed_iff_of_wellFormed (h : s.WellFormed) (f : StringFormat) :
    RejectsMalformed π resizes f s ↔ ∀ k, f.span s.unread = some k →
      f.length s.endian (s.unread.take k) ≤ s.unread.length - k ∧
      (f.length s.endian (s.unread.take k) = 0 → s.position + k < s.capacity) ∧
      resizes (f.length s.endian (s.unread.take k)) = true := by
  have hlength := readLength_eq π h f
  rw [RejectsMalformed]
  cases hspan : f.span s.unread with
  | none =>
    rw [hspan] at hlength
    have hrun := readResizing_eq π resizes h f
    rw [hspan] at hrun
    rw [hrun, hlength]
    refine iff_of_true ⟨.inr ⟨_, _, rfl⟩, ?_⟩ fun k hk => by cases hk
    intro len t ht
    cases ht
  | some k =>
    rw [hspan] at hlength
    dsimp only at hlength
    have hmoved := h.movedTo_add (StringFormat.span_bounds hspan).2
    have hsize : (s.movedTo (s.position + k)).getReadSize = s.unread.length - k := by
      rw [← hmoved.length_unread, unread_movedTo, List.length_drop]
    -- the length is given to `resize` before anything else
    have hbound : (∀ len t, f.readLength π s = .ok len t → len ≤ t.getReadSize) ↔
        f.length s.endian (s.unread.take k) ≤ s.unread.length - k := by
      rw [hlength]
      constructor
      · intro hbound
        exact hsize ▸ hbound _ _ rfl
      · rintro hle len t ht
        cases ht
        exact hsize.symm ▸ hle
    rw [hbound]
    constructor
    · rintro ⟨hout, hle⟩ k' hk'
      cases hk'
      exact ⟨hle, (readResizing_some π resizes h hspan hle).mp hout⟩
    · intro hk
      obtain ⟨hle, hrest⟩ := hk k rfl
      exact ⟨(readResizing_some π resizes h hspan hle).mpr hrest, hle⟩

/-- **Malformed prefixes are rejected before allocation**, in every reachable state, exactly when
the length that the prefix says, where there is a whole prefix, is no more than what can be read
behind it, there is a node behind the prefix of the empty string, and there is room for the
buffer. -/
theorem rejectsMalformed_iff {b : ℕ} (hb : 1 ≤ b) {calls : List Call}
    (h : exec (step π) (construct π b) calls = some s) (f : StringFormat) :
    RejectsMalformed π resizes f s ↔ ∀ k, f.span s.unread = some k →
      f.length s.endian (s.unread.take k) ≤ s.unread.length - k ∧
      (f.length s.endian (s.unread.take k) = 0 → s.position + k < s.capacity) ∧
      resizes (f.length s.endian (s.unread.take k)) = true :=
  rejectsMalformed_iff_of_wellFormed π resizes (wellFormed_of_exec π hb h).1 f

theorem rejectsMalformed_iff_open_varint :
    ∃ s, exec (step ⟨.little, fun _ _ => 0⟩) (construct ⟨.little, fun _ _ => 0⟩ 2)
        [.write [0xFF, 0xFF, 0x80], .setPosition 0] = some s ∧
      RejectsMalformed ⟨.little, fun _ _ => 0⟩ (fun _ => true) .vint s := by
  obtain ⟨s, hs, hunread⟩ : ∃ s, exec (step ⟨.little, fun _ _ => 0⟩)
      (construct ⟨.little, fun _ _ => 0⟩ 2) [.write [0xFF, 0xFF, 0x80], .setPosition 0] = some s ∧
        s.unread = [0xFF, 0xFF, 0x80] := ⟨_, rfl, rfl⟩
  refine ⟨s, hs, (rejectsMalformed_iff ⟨.little, fun _ _ => 0⟩ (fun _ => true) (b := 2) (by decide)
    hs .vint).mpr ?_⟩
  rw [hunread]
  intro k hk
  cases hk

/-- Four bytes from a peer make the reader ask for a buffer of `2 ^ 32 - 1`. -/
theorem not_rejectsMalformed :
    ¬ ∀ (π : Platform) (resizes : ℕ → Bool) (b : ℕ) (calls : List Call) (s : ByteArray)
      (f : StringFormat), 1 ≤ b → exec (step π) (construct π b) calls = some s →
        RejectsMalformed π resizes f s := by
  intro h
  obtain ⟨s, hs, hunread⟩ : ∃ s, exec (step ⟨.little, fun _ _ => 0⟩)
      (construct ⟨.little, fun _ _ => 0⟩ 8)
        [.write [0xFF, 0xFF, 0xFF, 0xFF], .setPosition 0] = some s ∧
          s.unread = [0xFF, 0xFF, 0xFF, 0xFF] := ⟨_, rfl, rfl⟩
  have hwf := (wellFormed_of_exec ⟨.little, fun _ _ => 0⟩ (show 1 ≤ 8 by decide) hs).1
  have hrejects := h ⟨.little, fun _ _ => 0⟩ (fun _ => true) 8 _ s .f32 (by decide) hs
  rw [rejectsMalformed_iff_of_wellFormed _ _ hwf, hunread] at hrejects
  have hle := (hrejects 4 rfl).1
  have hlength : StringFormat.f32.length s.endian [0xFF, 0xFF, 0xFF, 0xFF] = 4294967295 := by
    cases s.endian <;> rfl
  change StringFormat.f32.length s.endian [0xFF, 0xFF, 0xFF, 0xFF] ≤ 0 at hle
  rw [hlength] at hle
  cases hle

end ByteArray

end Dag
