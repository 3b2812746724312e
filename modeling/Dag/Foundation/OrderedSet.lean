import Mathlib.Order.Lattice
import Mathlib.Tactic.Common

/-!
# Sets ordered by a key

A set ordered by a key is the list of its elements, in increasing order of their keys. Two elements
with one key are equivalent: a set holds at most one of them, and an insertion of an element that
is equivalent to a member leaves the set as it is. The key may change over time, so it is an
argument of every operation; members whose keys stay as they are stay in order.

## Main definitions

* `Ordered key l`: the list is a set, in strictly increasing order of the keys
* `insertKey key x l`: insert `x`, unless an equivalent element is a member
* `findKey key x l`: the member that is equivalent to `x`

## Main results

* `mem_of_mem_insertKey`, `mem_insertKey_self`, `ordered_insertKey`: insertion
* `insertKey_of_key_eq`: an insertion that does nothing
* `findKey_of_mem`: a member is found as itself
* `Ordered.congr`: only the keys of members count
-/

namespace Foundation

variable {α τ : Type*} [LinearOrder τ] {key key' : α → τ} {x y : α} {l : List α}

/-- Strictly increasing in the key. -/
def Ordered (key : α → τ) (l : List α) : Prop := l.Pairwise fun a b => key a < key b

/-- Insert `x` in order, unless an equivalent element is a member. -/
def insertKey (key : α → τ) (x : α) : List α → List α
  | [] => [x]
  | y :: l =>
    if key x < key y then x :: y :: l
    else if key y < key x then y :: insertKey key x l
    else y :: l

/-- The member that is equivalent to `x`. -/
def findKey (key : α → τ) (x : α) (l : List α) : Option α :=
  l.find? fun y => decide (¬ key y < key x) && decide (¬ key x < key y)

theorem Ordered.nodup (h : Ordered key l) : l.Nodup := by
  refine List.Pairwise.imp (fun {a b} hlt heq => ?_) h
  rw [heq] at hlt
  exact lt_irrefl _ hlt

/-- Members are known by their keys. -/
theorem Ordered.eq_of_key_eq (h : Ordered key l) (hx : x ∈ l) (hy : y ∈ l)
    (heq : key x = key y) : x = y := by
  induction l with
  | nil => exact absurd hx List.not_mem_nil
  | cons z l ih =>
    obtain ⟨hz, hl⟩ := List.pairwise_cons.mp h
    rcases List.mem_cons.mp hx with rfl | hx'
    · rcases List.mem_cons.mp hy with rfl | hy'
      · rfl
      · exact absurd heq (ne_of_lt (hz y hy'))
    · rcases List.mem_cons.mp hy with rfl | hy'
      · exact absurd heq (ne_of_gt (hz x hx'))
      · exact ih hl hx' hy'

theorem Ordered.congr (h : Ordered key l) (heq : ∀ x ∈ l, key' x = key x) : Ordered key' l := by
  refine List.Pairwise.imp_of_mem (fun {a b} ha hb hlt => ?_) h
  rw [heq a ha, heq b hb]
  exact hlt

theorem Ordered.sublist {l' : List α} (h : Ordered key l) (hl : l'.Sublist l) : Ordered key l' :=
  List.Pairwise.sublist hl h

/-! ## Insertion -/

theorem mem_of_mem_insertKey (h : y ∈ insertKey key x l) : y = x ∨ y ∈ l := by
  induction l with
  | nil => exact Or.inl (List.mem_singleton.mp h)
  | cons z l ih =>
    rw [insertKey] at h
    split_ifs at h
    · exact List.mem_cons.mp h
    · rcases List.mem_cons.mp h with rfl | h
      · exact Or.inr (List.mem_cons_self ..)
      · rcases ih h with hx | hl
        · exact Or.inl hx
        · exact Or.inr (List.mem_cons_of_mem _ hl)
    · exact Or.inr h

/-- Members stay. -/
theorem mem_insertKey_of_mem (h : y ∈ l) : y ∈ insertKey key x l := by
  induction l with
  | nil => exact absurd h List.not_mem_nil
  | cons z l ih =>
    rw [insertKey]
    split_ifs
    · exact List.mem_cons_of_mem _ h
    · rcases List.mem_cons.mp h with rfl | h
      · exact List.mem_cons_self ..
      · exact List.mem_cons_of_mem _ (ih h)
    · exact h

/-- An element that is equivalent to no member becomes one. -/
theorem mem_insertKey_self (h : ∀ y ∈ l, key y ≠ key x) : x ∈ insertKey key x l := by
  induction l with
  | nil => exact List.mem_singleton.mpr rfl
  | cons z l ih =>
    rw [insertKey]
    split_ifs with hlt hgt
    · exact List.mem_cons_self ..
    · exact List.mem_cons_of_mem _ (ih fun y hy => h y (List.mem_cons_of_mem _ hy))
    · -- neither less nor greater: `z` would be equivalent to `x`
      exact absurd (le_antisymm (not_lt.mp hlt) (not_lt.mp hgt)) (h z (List.mem_cons_self ..))

theorem ordered_insertKey (h : Ordered key l) : Ordered key (insertKey key x l) := by
  induction l with
  | nil => exact List.pairwise_singleton ..
  | cons z l ih =>
    obtain ⟨hz, hl⟩ := List.pairwise_cons.mp h
    rw [insertKey]
    split_ifs with hlt hgt
    · refine List.pairwise_cons.mpr ⟨fun y hy => ?_, h⟩
      rcases List.mem_cons.mp hy with rfl | hy
      · exact hlt
      · exact lt_trans hlt (hz y hy)
    · refine List.pairwise_cons.mpr ⟨fun y hy => ?_, ih hl⟩
      rcases mem_of_mem_insertKey hy with rfl | hy
      · exact hgt
      · exact hz y hy
    · exact h

/-- An element that is equivalent to a member is left out. -/
theorem insertKey_of_key_eq (h : Ordered key l) (hy : y ∈ l) (heq : key y = key x) :
    insertKey key x l = l := by
  induction l with
  | nil => exact absurd hy List.not_mem_nil
  | cons z l ih =>
    obtain ⟨hz, hl⟩ := List.pairwise_cons.mp h
    rw [insertKey]
    rcases List.mem_cons.mp hy with rfl | hy
    · rw [if_neg (heq ▸ lt_irrefl _), if_neg (heq ▸ lt_irrefl _)]
    · -- the equivalent member is behind `z`, so that `x` is looked for there
      have hlt : key z < key x := heq ▸ hz y hy
      rw [if_neg (not_lt_of_gt hlt), if_pos hlt, ih hl hy]

/-- An insertion does not show among elements of another kind. -/
theorem filter_insertKey_of_neg {p : α → Bool} (hx : p x = false) :
    (insertKey key x l).filter p = l.filter p := by
  have hneg : ¬ p x = true := by rw [hx]; exact Bool.false_ne_true
  induction l with
  | nil =>
    rw [insertKey]
    exact List.filter_cons_of_neg hneg
  | cons z l ih =>
    rw [insertKey]
    split_ifs
    · exact List.filter_cons_of_neg hneg
    · rw [List.filter_cons, List.filter_cons, ih]
    · rfl

/-! ## Search -/

theorem findKey_eq_some (h : findKey key x l = some y) : y ∈ l ∧ key y = key x := by
  refine ⟨List.mem_of_find?_eq_some h, ?_⟩
  have hp := List.find?_some h
  simp only [Bool.and_eq_true, decide_eq_true_eq, not_lt] at hp
  exact le_antisymm hp.2 hp.1

/-- **A member is found as itself**: no other member is equivalent to it. -/
theorem findKey_of_mem (h : Ordered key l) (hx : x ∈ l) : findKey key x l = some x := by
  cases hfind : findKey key x l with
  | none =>
    have hp := List.find?_eq_none.mp hfind x hx
    simp at hp
  | some y =>
    obtain ⟨hy, heq⟩ := findKey_eq_some hfind
    rw [h.eq_of_key_eq hy hx heq]

end Foundation
