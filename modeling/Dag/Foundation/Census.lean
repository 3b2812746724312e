import Mathlib.Data.Fintype.Card
import Mathlib.Algebra.BigOperators.Group.Finset.Piecewise
import Mathlib.Algebra.Order.BigOperators.Group.Finset
import Mathlib.Tactic.Common

/-!
# Counting the members of a finite family

The state of a concurrent system is often a family `f : ι → σ`, one state for each thread, and a
step changes the state of one thread. The census counts the threads in a state of a kind.

## Main definitions

* `census p f`: the number of members of the family that satisfy `p`
* `tally g f`: how many things the members of the family have together, when `g x` are those of `x`

## Main results

* `census_update`, `tally_update`: what a change of one member does to the census, and to the tally
* `census_eq_zero`: the census of a property that no member has
-/

namespace Foundation

variable {ι σ : Type*} [Fintype ι] {p : σ → Prop} [DecidablePred p] {f : ι → σ}

/-- The number of members of the family that satisfy `p`. -/
def census (p : σ → Prop) [DecidablePred p] (f : ι → σ) : ℕ :=
  (Finset.univ.filter fun i => p (f i)).card

theorem census_eq_zero : census p f = 0 ↔ ∀ i, ¬ p (f i) := by
  rw [census, Finset.card_eq_zero, Finset.filter_eq_empty_iff]
  exact ⟨fun h i => h (Finset.mem_univ i), fun h i _ => h i⟩

variable [DecidableEq ι]

/-- **A change of one member**: the old one leaves the census, the new one enters it. -/
theorem census_update (p : σ → Prop) [DecidablePred p] (f : ι → σ) (i : ι) (x : σ) :
    census p (Function.update f i x) + (if p (f i) then 1 else 0) =
      census p f + (if p x then 1 else 0) := by
  have hrest : ∀ j ∈ Finset.univ.erase i,
      (if p (Function.update f i x j) then 1 else 0) = if p (f j) then 1 else 0 := by
    intro j hj
    rw [Function.update_of_ne (Finset.ne_of_mem_erase hj)]
  simp only [census, Finset.card_filter]
  rw [← Finset.add_sum_erase _ _ (Finset.mem_univ i), ← Finset.add_sum_erase _ _ (Finset.mem_univ i),
    Finset.sum_congr rfl hrest, Function.update_self]
  omega

theorem census_update_of_iff {i : ι} {x : σ} (h : p x ↔ p (f i)) :
    census p (Function.update f i x) = census p f := by
  have hupd := census_update p f i x
  simp only [h] at hupd
  omega

/-! ## What the members have together -/

section Tally

variable {g : σ → ℕ}

omit [DecidableEq ι] in
/-- What the members have together. -/
def tally (g : σ → ℕ) (f : ι → σ) : ℕ := ∑ i, g (f i)

omit [DecidableEq ι] in
theorem le_tally (g : σ → ℕ) (f : ι → σ) (i : ι) : g (f i) ≤ tally g f :=
  Finset.single_le_sum (f := fun i => g (f i)) (fun _ _ => Nat.zero_le _) (Finset.mem_univ i)

omit [DecidableEq ι] in
theorem tally_eq_zero : tally g f = 0 ↔ ∀ i, g (f i) = 0 := by
  rw [tally, Finset.sum_eq_zero_iff]
  exact ⟨fun h i => h i (Finset.mem_univ i), fun h i _ => h i⟩

/-- **A change of one member**: what the old one has goes, what the new one has comes. -/
theorem tally_update (g : σ → ℕ) (f : ι → σ) (i : ι) (x : σ) :
    tally g (Function.update f i x) + g (f i) = tally g f + g x := by
  have hrest : ∀ j ∈ Finset.univ.erase i, g (Function.update f i x j) = g (f j) := by
    intro j hj
    rw [Function.update_of_ne (Finset.ne_of_mem_erase hj)]
  rw [tally, tally, ← Finset.add_sum_erase _ _ (Finset.mem_univ i),
    ← Finset.add_sum_erase _ (fun j => g (f j)) (Finset.mem_univ i), Finset.sum_congr rfl hrest,
    Function.update_self]
  omega

end Tally

end Foundation
