import Dag.ByteArray.Lengths
import Dag.ByteArray.Runs

/-!
# The byte array: strings at the end of the chain

A string is written as its length and its bytes, and read by a read of the length and a read of
that many bytes. Of the empty string the second read asks for 0 bytes, and it dereferences the
current node all the same. Behind the prefix that node is null when the prefix ends the last block.

## Main definitions

* `writeThenRead`: write a string, move the position back and read it
* `EndsChain`: the string is empty and its prefix ends the last block
* `RoundTrips`: the string comes back, with the position right after its encoding

## Main results

* `roundTrips_iff`: from every reachable state, strings come back exactly when they do not end
  the chain
-/

namespace Dag

open Foundation

namespace ByteArray

variable (π : Platform)

/-- Write a string, move the position back to where it started, and read with the matching
reader. -/
def writeThenRead (f : StringFormat) (value : List UInt8) : Op (List UInt8) := do
  let s ← Prog.get
  f.write π value
  setPosition s.position
  f.read π

/-- **The string comes back**, and the position is right after its encoding. -/
def RoundTrips (f : StringFormat) (value : List UInt8) (s : ByteArray) : Prop :=
  ∃ t, writeThenRead π f value s = .ok value t ∧
    t.position = s.position + (encode s.endian (f.value value)).length

/-- The string is empty, and its prefix ends the last block of the chain. -/
def EndsChain (f : StringFormat) (value : List UInt8) (s : ByteArray) : Prop :=
  value = [] ∧ s.capacity ≤ s.position + f.emptyPrefix ∧ s.baseSize ∣ s.position + f.emptyPrefix

instance (f : StringFormat) (value : List UInt8) (s : ByteArray) :
    Decidable (EndsChain f value s) :=
  inferInstanceAs (Decidable (_ ∧ _ ∧ _))

/-! ## There and back -/

section Back

variable {s t : ByteArray} {f : StringFormat} {value : List UInt8}

/-- In a chain that has grown to hold the prefix of the empty string, there is a node behind it
unless the prefix ends the chain. -/
theorem Snug.room_iff (h : Snug s.baseSize s.capacity t)
    (hposition : value = [] → t.position = s.position + f.emptyPrefix) :
    (value = [] → s.position + f.emptyPrefix < t.capacity) ↔ ¬ EndsChain f value s := by
  rw [EndsChain, not_and]
  refine imp_congr_right fun hnil => ?_
  have hiff := h.position_lt_iff
  rwa [hposition hnil] at hiff

/-- Writing a string and moving the position back, what is left is to read it. -/
theorem writeThenRead_eq (hs : s.WellFormed) (hfit : value.length < 2 ^ f.bits) :
    ∃ t, Puts s (encode s.endian (f.value value)) t ∧ Snug s.baseSize s.capacity t ∧
      writeThenRead π f value s = f.read π (t.movedTo s.position) := by
  obtain ⟨t, ht, hput⟩ := emits_stringWrite π s.endian hfit s hs rfl
  have hsnug := writeValue_keeps π (write_snug π) (f.value value) s hs.snug
  rw [writeValue_value, ht] at hsnug
  have hsize := hput.position_le_size
  have hback := setPosition_eq hput.wellFormed (Nat.le_trans hsize hput.wellFormed.size_le)
  rw [movedTo_max_of_le hsize] at hback
  refine ⟨t, hput, hsnug, ?_⟩
  rw [writeThenRead, Prog.get_bind, Prog.bind_ok ht, Prog.bind_ok hback]

/-- **Strings come back** from every reachable state, whatever the block size, the empty string
whose prefix ends the last block excepted. -/
theorem roundTrips_iff {b : ℕ} (hb : 1 ≤ b) {calls : List Call} {s : ByteArray}
    (h : exec (step π) (construct π b) calls = some s) (f : StringFormat) {value : List UInt8}
    (hfit : value.length < 2 ^ f.bits) :
    RoundTrips π f value s ↔ ¬ EndsChain f value s := by
  have hs := (wellFormed_of_exec π hb h).1
  obtain ⟨t, hput, hsnug, hrun⟩ := writeThenRead_eq π hs hfit
  have hwf := hput.wellFormed.movedTo hput.position_le_size
  have hprefix := hput.prefix_unread hs
  have hposition : value = [] → t.position = s.position + f.emptyPrefix := by
    rintro rfl
    rw [hput.position_eq, encode_value, List.append_nil, List.length_nil, length_encodeLength_zero]
  rw [RoundTrips, hrun, ← hsnug.room_iff hposition]
  constructor
  · rintro ⟨u, hu, -⟩
    exact ((stringRead_iff π hwf hput.endian_eq
      (by rwa [Nat.mod_eq_of_lt hfit, ← encode_value])).mp ⟨u, hu⟩).2
  · intro hroom
    exact ⟨_, stringRead_ok π hwf hput.endian_eq hfit hroom hprefix, rfl⟩

/-- A string that is written over what has been written before, across the ends of three blocks. -/
theorem roundTrips_iff_overwritten :
    ∃ s, exec (step ⟨.little, fun _ _ => 0⟩) (construct ⟨.little, fun _ _ => 0⟩ 2)
        [.write [1, 2, 3, 4, 5], .setPosition 1] = some s ∧
      RoundTrips ⟨.little, fun _ _ => 0⟩ .f16 [104, 105] s := by
  obtain ⟨s, hs⟩ : ∃ s, exec (step ⟨.little, fun _ _ => 0⟩) (construct ⟨.little, fun _ _ => 0⟩ 2)
      [.write [1, 2, 3, 4, 5], .setPosition 1] = some s := ⟨_, rfl⟩
  refine ⟨s, hs, (roundTrips_iff ⟨.little, fun _ _ => 0⟩ (b := 2) (by decide) hs .f16
    (by decide)).mpr ?_⟩
  rintro ⟨hempty, -⟩
  cases hempty

/-- With blocks of two bytes the prefix of the empty string fills the first one. -/
theorem not_roundTrips_empty :
    ¬ ∀ (π : Platform) (b : ℕ) (calls : List Call) (s : ByteArray) (f : StringFormat)
      (value : List UInt8), 1 ≤ b → exec (step π) (construct π b) calls = some s →
        value.length < 2 ^ f.bits → RoundTrips π f value s := by
  intro h
  have hrun := h ⟨.little, fun _ _ => 0⟩ 2 [] _ .f16 [] (by decide) rfl (by decide)
  obtain ⟨t, ht, -⟩ := hrun
  cases ht

end Back

end ByteArray

end Dag
