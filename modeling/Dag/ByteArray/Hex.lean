import Dag.ByteArray.Contents

/-!
# The byte array in hexadecimal

`toHexString` writes what `toString` returns, each byte as two hexadecimal digits and a space, in
lines of 32 bytes.

## Main definitions

* `ByteArray.toHexString`: the text
* `readHex`: reading such a text

## Main results

* `ByteArray.readHex_toHexString`: the text is read back to what can be read, in every reachable
  state, and it is as long as the bytes and the lines are
-/

namespace Dag

open Foundation

/-! ## The text of bytes -/

/-- `ss << std::setw(2) << std::setfill('0') << std::hex << (int)(uint8_t)b << " "` -/
def hexByte (b : UInt8) : List Char :=
  let digits := Nat.toDigits 16 b.toNat
  List.replicate (2 - digits.length) '0' ++ digits ++ [' ']

/-- The loop of `toHexString`, from `str[i]` on. -/
def hexLoop : ℕ → List UInt8 → List Char
  | _, [] => []
  | i, b :: str => (if 0 < i ∧ i % 32 = 0 then ['\n'] else []) ++ (hexByte b ++ hexLoop (i + 1) str)

/-- The value of a hexadecimal digit. -/
def hexValue (c : Char) : ℕ := if c.isDigit then c.toNat - '0'.toNat else c.toNat - 'a'.toNat + 10

/-- What a text of hexadecimal digits, spaces and ends of lines stands for. -/
def readHex : List Char → List UInt8
  | '\n' :: t => readHex t
  | c :: d :: ' ' :: t => UInt8.ofNat (16 * hexValue c + hexValue d) :: readHex t
  | _ => []

section Digits

variable {n i : ℕ}

theorem hexValue_digitChar (h : n < 16) : hexValue n.digitChar = n := by
  have hall : ∀ n < 16, hexValue (Nat.digitChar n) = n := by decide
  exact hall n h

theorem digitChar_ne_newline (h : n < 16) : n.digitChar ≠ '\n' := by
  have hall : ∀ n < 16, Nat.digitChar n ≠ '\n' := by decide
  exact hall n h

/-- A byte is written with two digits. -/
theorem hexByte_eq (b : UInt8) :
    hexByte b = [(b.toNat / 16).digitChar, (b.toNat % 16).digitChar, ' '] := by
  have hb := b.toNat_lt
  by_cases hlt : b.toNat < 16
  · have hdiv : b.toNat / 16 = 0 := Nat.div_eq_of_lt hlt
    have hmod : b.toNat % 16 = b.toNat := Nat.mod_eq_of_lt hlt
    simp only [hexByte, Nat.toDigits_of_lt_base hlt, hdiv, hmod]
    rfl
  · have hle : 16 ≤ b.toNat := Nat.not_lt.mp hlt
    have hdiv : b.toNat / 16 < 16 := by omega
    simp only [hexByte, Nat.toDigits_of_base_le (by decide) hle, Nat.toDigits_of_lt_base hdiv]
    rfl

theorem readHex_hexByte (b : UInt8) (t : List Char) : readHex (hexByte b ++ t) = b :: readHex t := by
  have hb := b.toNat_lt
  have hdiv : b.toNat / 16 < 16 := by omega
  have hmod : b.toNat % 16 < 16 := Nat.mod_lt _ (by decide)
  have hbyte : UInt8.ofNat (16 * (b.toNat / 16) + b.toNat % 16) = b := by
    rw [Nat.div_add_mod, UInt8.ofNat_toNat]
  rw [hexByte_eq]
  simp only [List.cons_append, List.nil_append]
  rw [readHex, hexValue_digitChar hdiv, hexValue_digitChar hmod, hbyte]
  exact digitChar_ne_newline hdiv

/-- **The text is read back.** -/
theorem readHex_hexLoop (str : List UInt8) : readHex (hexLoop i str) = str := by
  induction str generalizing i with
  | nil => rfl
  | cons b str ih =>
    rw [hexLoop]
    by_cases hline : 0 < i ∧ i % 32 = 0
    · rw [if_pos hline, List.singleton_append, readHex, readHex_hexByte, ih]
    · rw [if_neg hline, List.nil_append, readHex_hexByte, ih]

/-- Three characters for each byte, and the ends of the lines. -/
theorem length_hexLoop (hi : 0 < i) (str : List UInt8) :
    (hexLoop i str).length = 3 * str.length + ((i + str.length + 31) / 32 - (i + 31) / 32) := by
  induction str generalizing i with
  | nil => simp [hexLoop]
  | cons b str ih =>
    have hrest := ih (Nat.succ_pos i)
    rw [hexLoop, List.length_append, List.length_append, hrest, hexByte_eq]
    by_cases hline : 0 < i ∧ i % 32 = 0
    · rw [if_pos hline]
      simp only [List.length_cons, List.length_nil]
      omega
    · rw [if_neg hline]
      simp only [List.length_cons, List.length_nil]
      omega

/-- From the first byte on, there is no end of a line in front. -/
theorem length_hexLoop_zero (str : List UInt8) :
    (hexLoop 0 str).length = 3 * str.length + (str.length - 1) / 32 := by
  cases str with
  | nil => rfl
  | cons b str =>
    have hno : ¬ (0 < 0 ∧ 0 % 32 = 0) := fun h => Nat.lt_irrefl 0 h.1
    rw [hexLoop, if_neg hno, List.nil_append, List.length_append, length_hexLoop Nat.one_pos,
      hexByte_eq]
    simp only [List.length_cons, List.length_nil]
    omega

end Digits

namespace ByteArray

/-- `toHexString()`. -/
def toHexString : Op (List Char) := do
  let str ← toString
  return hexLoop 0 str

/-- **The hexadecimal text** is read back to what can be read, in every reachable state; it is as long
as the digits, the spaces and the ends of the lines are, and the state is as before. -/
theorem readHex_toHexString (π : Platform) {b : ℕ} (hb : 1 ≤ b) {s : ByteArray} {calls : List Call}
    (h : exec (step π) (construct π b) calls = some s) :
    ∃ text, toHexString s = .ok text s ∧ readHex text = s.unread ∧
      text.length = 3 * s.getReadSize + (s.getReadSize - 1) / 32 := by
  obtain ⟨hs, -⟩ := wellFormed_of_exec π hb h
  refine ⟨hexLoop 0 s.unread, ?_, readHex_hexLoop s.unread, ?_⟩
  · rw [toHexString, Prog.bind_ok (toString_eq hs)]
    rfl
  · rw [length_hexLoop_zero, hs.length_unread]

theorem readHex_toHexString_two_blocks :
    ∃ s, exec (step ⟨.little, fun _ _ => 0⟩) (construct ⟨.little, fun _ _ => 0⟩ 2)
        [.write [1, 171, 255], .setPosition 1] = some s ∧
      toHexString s = .ok "ab ff ".toList s ∧ readHex "ab ff ".toList = s.unread := by
  obtain ⟨s, hs⟩ : ∃ s, exec (step ⟨.little, fun _ _ => 0⟩) (construct ⟨.little, fun _ _ => 0⟩ 2)
      [.write [1, 171, 255], .setPosition 1] = some s := ⟨_, rfl⟩
  obtain ⟨text, htext, hread, -⟩ :=
    @readHex_toHexString ⟨.little, fun _ _ => 0⟩ 2 (by decide) s _ hs
  have heq : toHexString s = .ok "ab ff ".toList s := by
    obtain rfl := Option.some.inj hs
    rfl
  rw [heq] at htext
  cases htext
  exact ⟨s, hs, heq, hread⟩

end ByteArray

end Dag
