import Mathlib.Algebra.BigOperators.Group.List.Basic
import Mathlib.Algebra.GroupWithZero.Nat
import Mathlib.Tactic.Common

/-!
# Tables

A table is a list that is read and written by index. What is summed up or collected over its entries
changes, when one entry is replaced, by what that entry contributes. A table with gaps is a table of
options, and an entry outside of it is a gap as well.

## Main definitions

* `entry`: an entry of a table with gaps

## Main results

* `getElem?_set_eq_some`: the entries of a table after a replacement
* `sum_map_set`: a sum over the entries
* `count_flatMap_set`: what is collected from the entries
* `entry_set`, `entry_append_replicate`: an entry after a replacement, and after growth
-/

namespace Foundation

variable {α β : Type*} {l : List α} {i j : ℕ} {a b : α}

/-- An entry of the table with `b` at `i` is `b`, or an entry at another index. -/
theorem getElem?_set_eq_some (h : (l.set i b)[j]? = some a) :
    (j = i ∧ a = b) ∨ (j ≠ i ∧ l[j]? = some a) := by
  by_cases hji : j = i
  · subst hji
    have hlt : j < l.length := by
      have := (List.getElem?_eq_some_iff.mp h).1
      rwa [List.length_set] at this
    rw [List.getElem?_set_self hlt] at h
    exact .inl ⟨rfl, (Option.some.inj h).symm⟩
  · rw [List.getElem?_set_ne fun h' => hji h'.symm] at h
    exact .inr ⟨hji, h⟩

/-- A table splits at each of its entries, and a replacement leaves the two parts as they are. -/
theorem split_set (h : l[i]? = some a) (b : α) :
    ∃ l₁ l₂, l = l₁ ++ a :: l₂ ∧ l.set i b = l₁ ++ b :: l₂ := by
  obtain ⟨hlt, rfl⟩ := List.getElem?_eq_some_iff.mp h
  refine ⟨l.take i, l.drop (i + 1), ?_, List.set_eq_take_append_cons_drop.trans (if_pos hlt)⟩
  rw [← List.drop_eq_getElem_cons hlt, List.take_append_drop]

/-- A sum over a table, when one entry is replaced. -/
theorem sum_map_set (h : l[i]? = some a) (b : α) (f : α → ℕ) :
    ((l.set i b).map f).sum + f a = (l.map f).sum + f b := by
  obtain ⟨l₁, l₂, hl, hset⟩ := split_set h b
  rw [hset, hl]
  simp only [List.map_append, List.map_cons, List.sum_append, List.sum_cons]
  omega

/-- What is collected from a table, when one entry is replaced. -/
theorem count_flatMap_set [DecidableEq β] (h : l[i]? = some a) (b : α) (f : α → List β) (x : β) :
    ((l.set i b).flatMap f).count x + (f a).count x = (l.flatMap f).count x + (f b).count x := by
  rw [List.count_flatMap, List.count_flatMap]
  exact sum_map_set h b fun a => (f a).count x

/-! ## Tables with gaps -/

/-- The entry at `i`, none when there is a gap or when `i` is outside of the table. -/
def entry (l : List (Option α)) (i : ℕ) : Option α := l[i]?.join

section Entry

variable {l : List (Option α)} {i j : ℕ} {a : α}

theorem lt_length_of_entry (h : entry l i = some a) : i < l.length := by
  rw [entry, Option.join_eq_some_iff] at h
  exact (List.getElem?_eq_some_iff.mp h).1

theorem entry_of_length_le (h : l.length ≤ i) : entry l i = none := by
  rw [entry, List.getElem?_eq_none h]
  rfl

theorem entry_set (hi : i < l.length) (b : Option α) (j : ℕ) :
    entry (l.set i b) j = if j = i then b else entry l j := by
  unfold entry
  split_ifs with hj
  · subst hj
    rw [List.getElem?_set_self hi]
    rfl
  · rw [List.getElem?_set_ne fun h => hj h.symm]

/-- Growth by gaps does not show. -/
theorem entry_append_replicate (l : List (Option α)) (n i : ℕ) :
    entry (l ++ List.replicate n none) i = entry l i := by
  rcases Nat.lt_or_ge i l.length with hlt | hge
  · rw [entry, List.getElem?_append_left hlt]
    rfl
  · rw [entry_of_length_le hge, entry, List.getElem?_append_right hge]
    rcases Nat.lt_or_ge (i - l.length) n with hlt | hge
    · rw [List.getElem?_replicate_of_lt hlt]
      rfl
    · rw [List.getElem?_eq_none (by rwa [List.length_replicate])]
      rfl

end Entry

end Foundation
