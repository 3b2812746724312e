import Dag.ByteArray.Strings

/-!
# The byte array: a string and what follows it

A string writer hands the length of the string to a writer of 16, 32 or 64 bits, which keeps its low
bits only, and then writes all of the bytes. Of a string whose length the prefix cannot hold a
reader takes the bytes that the prefix says, and the next reader starts in the middle of it.

## Main definitions

* `writeBothThenRead`: write a string and a value, move the position back and read both
* `Framed`: both come back

## Main results

* `readsBack`: what a writer writes, on any value, and when the matching reader returns the value
* `framed_iff`: from every reachable state, a string that is not empty and a value come back exactly
  when the prefixes hold the lengths, and the value is no empty string that ends the chain
-/

namespace Dag

open Foundation

namespace ByteArray

variable (π : Platform)

/-- Write a string and then a value, move the position back to where the string starts, and read
with the matching readers. -/
def writeBothThenRead (f : StringFormat) (value : List UInt8) (v : Value) :
    Op (List UInt8 × Value) := do
  let s ← Prog.get
  f.write π value
  writeValue π v
  setPosition s.position
  let value' ← f.read π
  let v' ← readValue π v.format
  return (value', v')

/-- **The string and the value behind it come back.** -/
def Framed (f : StringFormat) (value : List UInt8) (v : Value) (s : ByteArray) : Prop :=
  ∃ t, writeBothThenRead π f value v s = .ok (value, v) t

/-! ## Reading what has been written -/

section Back

variable {s t : ByteArray} {e : Endian} {f : StringFormat} {value u : List UInt8}

/-- **What a writer writes**, on any value, and when the matching reader returns the value: numbers
always, strings when the prefix holds the length and there is a node behind that of the empty
string. -/
theorem readsBack (e : Endian) (v : Value) : ∃ enc, Emits e (writeValue π v) enc ∧
    (∀ g, v = StringFormat.value g [] → enc.length = g.emptyPrefix) ∧
    ∀ s : ByteArray, s.WellFormed → s.endian = e → enc <+: s.unread →
      ((∃ t, readValue π v.format s = .ok v t) ↔ ∀ g u, v = StringFormat.value g u →
        u.length < 2 ^ g.bits ∧ (u = [] → s.position + g.emptyPrefix < s.capacity)) := by
  rcases value_cases v with ⟨f, u, rfl⟩ | ⟨hfits, hv⟩
  · refine ⟨f.encodeLength e (u.length % 2 ^ f.bits) ++ u, ?_, ?_, ?_⟩
    · rw [writeValue_value]
      exact emits_stringWrite_mod π e f u
    · intro g hg
      obtain ⟨rfl, rfl⟩ := value_inj hg
      rw [List.length_nil, Nat.zero_mod, List.append_nil, length_encodeLength_zero]
    · intro s hs he h
      have hstring : (∃ t, readValue π (f.value u).format s = .ok (f.value u) t) ↔
          ∃ t, f.read π s = .ok u t := by
        rw [readValue_value]
        exact exists_congr fun t => Prog.map_ok_iff fun u u' huu' => (value_inj huu').2
      rw [hstring, stringRead_iff π hs he h]
      constructor
      · rintro hback g u' hg
        obtain ⟨rfl, rfl⟩ := value_inj hg
        exact hback
      · exact fun hback => hback f u rfl
  · refine ⟨encode e v, emits_writeValue π e v hfits, fun g hg => absurd hg (hv g []), ?_⟩
    intro s hs he h
    exact iff_of_true ⟨_, decodes_readValue π e v hfits s hs he h⟩ fun g u hg =>
      absurd hg (hv g u)

/-- Writing a string and a value and moving the position back, what is left is to read them. -/
theorem writeBothThenRead_eq (hs : s.WellFormed) (f : StringFormat) (value : List UInt8)
    {v : Value} {enc : List UInt8} (henc : Emits s.endian (writeValue π v) enc) :
    ∃ t, Puts s (f.encodeLength s.endian (value.length % 2 ^ f.bits) ++ value ++ enc) t ∧
      Snug s.baseSize s.capacity t ∧
      writeBothThenRead π f value v s = (do
        let value' ← f.read π
        let v' ← readValue π v.format
        return (value', v')) (t.movedTo s.position) := by
  obtain ⟨t₁, ht₁, hput₁⟩ := emits_stringWrite_mod π s.endian f value s hs rfl
  obtain ⟨t₂, ht₂, hput₂⟩ := henc t₁ hput₁.wellFormed hput₁.endian_eq
  have hput := hput₁.trans hs hput₂
  have hsize := hput.position_le_size
  have hback := setPosition_eq hput.wellFormed (Nat.le_trans hsize hput.wellFormed.size_le)
  rw [movedTo_max_of_le hsize] at hback
  have hsnug₁ : Snug s.baseSize s.capacity t₁ := by
    have hkeeps := writeValue_keeps π (write_snug π) (f.value value) s hs.snug
    rwa [writeValue_value, ht₁] at hkeeps
  have hsnug₂ := writeValue_keeps π (write_snug π) v t₁ hsnug₁
  rw [ht₂] at hsnug₂
  refine ⟨t₂, hput, hsnug₂, ?_⟩
  rw [writeBothThenRead, Prog.get_bind, Prog.bind_ok ht₁, Prog.bind_ok ht₂, Prog.bind_ok hback]

/-- The two readers return what has been written when each of them does. -/
theorem readBoth_iff (hs : s.WellFormed) (he : s.endian = e) (hne : value ≠ []) (v : Value)
    (h : f.encodeLength e (value.length % 2 ^ f.bits) ++ value <+: s.unread) :
    (∃ t, (do
        let value' ← f.read π
        let v' ← readValue π v.format
        return (value', v') : Op (List UInt8 × Value)) s = .ok (value, v) t) ↔
      value.length < 2 ^ f.bits ∧ ∃ t, readValue π v.format
        (s.movedTo (s.position + (encode e (f.value value)).length)) = .ok v t := by
  constructor
  · rintro ⟨t, ht⟩
    obtain ⟨value', t₁, hread, hrest⟩ := Prog.of_bind_ok ht
    obtain ⟨v', t₂, hread', hpure⟩ := Prog.of_bind_ok hrest
    cases hpure
    have hlt := ((stringRead_iff π hs he h).mp ⟨t₁, hread⟩).1
    rw [Nat.mod_eq_of_lt hlt, ← encode_value] at h
    rw [decodes_stringRead π e hne hlt s hs he h] at hread
    cases hread
    exact ⟨hlt, t, hread'⟩
  · rintro ⟨hlt, t, ht⟩
    rw [Nat.mod_eq_of_lt hlt, ← encode_value] at h
    exact ⟨t, by rw [Prog.bind_ok (decodes_stringRead π e hne hlt s hs he h), Prog.bind_ok ht,
      Prog.pure_apply]⟩

theorem framed_iff_of_wellFormed (hs : s.WellFormed) (f : StringFormat) (hne : value ≠ [])
    (v : Value) :
    Framed π f value v s ↔ value.length < 2 ^ f.bits ∧ ∀ g u, v = StringFormat.value g u →
      u.length < 2 ^ g.bits ∧
        ¬ EndsChain g u (s.movedTo (s.position + (encode s.endian (f.value value)).length)) := by
  obtain ⟨enc, henc, hempty, hback⟩ := readsBack π s.endian v
  obtain ⟨t, hput, hsnug, hrun⟩ := writeBothThenRead_eq π hs f value henc
  have hprefix := hput.prefix_unread hs
  have hwf : (t.movedTo s.position).WellFormed := hput.wellFormed.movedTo hput.position_le_size
  have hhead := (List.prefix_append _ enc).trans hprefix
  rw [Framed, hrun, readBoth_iff π hwf hput.endian_eq hne v hhead]
  refine and_congr_right fun hlt => ?_
  rw [Nat.mod_eq_of_lt hlt, ← encode_value] at hprefix hput hhead
  have hwf' := hwf.movedTo_of_prefix hhead
  rw [hback _ hwf' hput.endian_eq (prefix_unread_movedTo hprefix)]
  refine forall_congr' fun g => forall_congr' fun u => imp_congr_right fun hv =>
    and_congr_right fun _ => ?_
  have hposition : u = [] → t.position =
      s.position + (encode s.endian (f.value value)).length + g.emptyPrefix := by
    rintro rfl
    rw [hput.position_eq, List.length_append, hempty g hv, Nat.add_assoc]
  exact hsnug.room_iff (s := s.movedTo _) hposition

/-- **A string and a value behind it come back**, from every reachable state, exactly when the
prefix holds the length of the string, and the value, where it is a string, has a prefix that holds
its length and is not the empty string whose prefix ends the last block. -/
theorem framed_iff {b : ℕ} (hb : 1 ≤ b) {calls : List Call}
    (h : exec (step π) (construct π b) calls = some s) (f : StringFormat) (hne : value ≠ [])
    (v : Value) :
    Framed π f value v s ↔ value.length < 2 ^ f.bits ∧ ∀ g u, v = StringFormat.value g u →
      u.length < 2 ^ g.bits ∧
        ¬ EndsChain g u (s.movedTo (s.position + (encode s.endian (f.value value)).length)) :=
  framed_iff_of_wellFormed π (wellFormed_of_exec π hb h).1 f hne v

theorem framed_iff_overwritten :
    ∃ s, exec (step ⟨.little, fun _ _ => 0⟩) (construct ⟨.little, fun _ _ => 0⟩ 2)
        [.write [1, 2, 3], .setPosition 1] = some s ∧
      Framed ⟨.little, fun _ _ => 0⟩ .f16 [104, 105] (.uint32 300) s := by
  obtain ⟨s, hs⟩ : ∃ s, exec (step ⟨.little, fun _ _ => 0⟩) (construct ⟨.little, fun _ _ => 0⟩ 2)
      [.write [1, 2, 3], .setPosition 1] = some s := ⟨_, rfl⟩
  refine ⟨s, hs, (framed_iff ⟨.little, fun _ _ => 0⟩ (b := 2) (by decide) hs .f16
    (List.cons_ne_nil 104 [105]) (.uint32 300)).mpr ⟨by decide, ?_⟩⟩
  intro g u hv
  cases g <;> cases hv

/-- Of 65536 bytes the low 16 bits are 0: the reader returns the empty string. -/
theorem not_framed_of_long :
    ¬ ∀ (π : Platform) (b : ℕ) (calls : List Call) (s : ByteArray) (f : StringFormat)
      (value : List UInt8) (v : Value), 1 ≤ b → exec (step π) (construct π b) calls = some s →
        (f = .f16 ∨ f = .f32) → value ≠ [] → Framed π f value v s := by
  intro h
  have hne : List.replicate 65536 (0 : UInt8) ≠ [] := by
    intro hnil
    have hlength := congrArg List.length hnil
    rw [List.length_replicate] at hlength
    cases hlength
  have hframed := h ⟨.little, fun _ _ => 0⟩ 4096 [] _ .f16 _ (.fuint8 7) (by decide) rfl (.inl rfl)
    hne
  have hwf := wellFormed_construct ⟨.little, fun _ _ => 0⟩ (show 1 ≤ 4096 by decide)
  have hlt := ((framed_iff_of_wellFormed _ hwf .f16 hne _).mp hframed).1
  rw [List.length_replicate] at hlt
  exact Nat.lt_irrefl _ hlt

end Back

end ByteArray

end Dag
