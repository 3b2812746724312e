import Mathlib.Tactic.Common

/-!
# Resources and their holders

Resources are acquired, handed on and released by holders of several kinds. They are in good order
when the resources in use are those that somebody holds, and nobody holds a resource that somebody
else holds as well.

A step concerns a few holders only. What these hold together after the step they have held before
it, or else it was not in use: that is all there is to check, whether the step acquires a resource,
hands it on or releases it.

A resource may also be shared. It is made with a first holder, anybody who can see a holder may become
one, and when the last holder lets it go it is gone.

## Main definitions

* `Exclusive holds used`: what is in use is held, each resource by one holder
* `Together P holds d`: one of the holders in `P` holds `d`
* `Shared made held gone`: gone is what has been made and nobody holds, once each

## Main results

* `Exclusive.change`: what a step of the holders in `P` has to meet
* `Exclusive.pass`, `Exclusive.acquire`, `Exclusive.release`: the resources that the holders in `P`
  hold together are the same, one more, and one less
* `Shared.keep`, `Shared.make`, `Shared.letGo`: holders may come and go, a resource is made, and a
  holder, perhaps the last one, lets a resource go
-/

namespace Foundation

variable {H D : Type*} {holds holds' : H → D → Prop} {used used' : D → Prop} {P : H → Prop}

/-- What is in use is held, and no resource is held by two. -/
structure Exclusive (holds : H → D → Prop) (used : D → Prop) : Prop where
  used_iff : ∀ d, used d ↔ ∃ h, holds h d
  unique : ∀ h h' d, holds h d → holds h' d → h = h'

/-- One of the holders in `P` holds `d`. -/
def Together (P : H → Prop) (holds : H → D → Prop) (d : D) : Prop := ∃ h, P h ∧ holds h d

/-- The step is one of the holders in `P`, of which no two come to hold the same. -/
structure ChangesOnly (P : H → Prop) (holds holds' : H → D → Prop) : Prop where
  outside : ∀ h d, ¬ P h → (holds' h d ↔ holds h d)
  unique : ∀ h h' d, P h → P h' → holds' h d → holds' h' d → h = h'

/-- **A step of the holders in `P`**: what they hold afterwards they have held before, or it was not
in use. -/
theorem Exclusive.change (hx : Exclusive holds used) (hc : ChangesOnly P holds holds')
    (hnew : ∀ d, Together P holds' d → Together P holds d ∨ ¬ used d)
    (hused : ∀ d, used' d ↔ (used d ∧ ¬ Together P holds d) ∨ Together P holds' d) :
    Exclusive holds' used' := by
  have hapart : ∀ h d, ¬ P h → holds h d → ¬ Together P holds' d := by
    intro h d hP hd htogether
    rcases hnew d htogether with ⟨h', hP', hd'⟩ | hfree
    · apply hP
      rw [hx.unique h h' d hd hd']
      exact hP'
    · exact hfree ((hx.used_iff d).mpr ⟨h, hd⟩)
  constructor
  · intro d
    rw [hused d]
    constructor
    · rintro (⟨hd, hnot⟩ | ⟨h, -, hd⟩)
      · obtain ⟨h, hd⟩ := (hx.used_iff d).mp hd
        exact ⟨h, (hc.outside h d fun hP => hnot ⟨h, hP, hd⟩).mpr hd⟩
      · exact ⟨h, hd⟩
    · rintro ⟨h, hd⟩
      by_cases hP : P h
      · exact .inr ⟨h, hP, hd⟩
      · have hd := (hc.outside h d hP).mp hd
        refine .inl ⟨(hx.used_iff d).mpr ⟨h, hd⟩, ?_⟩
        rintro ⟨h', hP', hd'⟩
        exact hP (hx.unique h' h d hd' hd ▸ hP')
  · intro h h' d hd hd'
    by_cases hP : P h
    · by_cases hP' : P h'
      · exact hc.unique h h' d hP hP' hd hd'
      · exact absurd ⟨h, hP, hd⟩ (hapart h' d hP' ((hc.outside h' d hP').mp hd'))
    · have hd := (hc.outside h d hP).mp hd
      by_cases hP' : P h'
      · exact absurd ⟨h', hP', hd'⟩ (hapart h d hP hd)
      · exact hx.unique h h' d hd ((hc.outside h' d hP').mp hd')

/-- The holders in `P` hold together what they have held before. -/
theorem Exclusive.pass (hx : Exclusive holds used) (hc : ChangesOnly P holds holds')
    (h : ∀ d, Together P holds' d ↔ Together P holds d) : Exclusive holds' used := by
  apply hx.change hc
  · intro d hd
    exact .inl ((h d).mp hd)
  · intro d
    rw [h d]
    constructor
    · intro hd
      by_cases ht : Together P holds d
      · exact .inr ht
      · exact .inl ⟨hd, ht⟩
    · rintro (⟨hd, -⟩ | ⟨h', -, hd⟩)
      · exact hd
      · exact (hx.used_iff d).mpr ⟨h', hd⟩

/-- The holders in `P` hold a resource more, which was not in use. -/
theorem Exclusive.acquire {d : D} (hx : Exclusive holds used) (hc : ChangesOnly P holds holds')
    (hfree : ¬ used d) (h : ∀ e, Together P holds' e ↔ Together P holds e ∨ e = d)
    (hused : ∀ e, used' e ↔ used e ∨ e = d) : Exclusive holds' used' := by
  apply hx.change hc
  · intro e he
    rcases (h e).mp he with he | rfl
    · exact .inl he
    · exact .inr hfree
  · intro e
    rw [hused e, h e]
    constructor
    · rintro (he | rfl)
      · by_cases ht : Together P holds e
        · exact .inr (.inl ht)
        · exact .inl ⟨he, ht⟩
      · exact .inr (.inr rfl)
    · rintro (⟨he, -⟩ | ⟨h', -, he⟩ | rfl)
      · exact .inl he
      · exact .inl ((hx.used_iff e).mpr ⟨h', he⟩)
      · exact .inr rfl

/-- The holders in `P` hold a resource less, which is not in use any more. -/
theorem Exclusive.release {d : D} (hx : Exclusive holds used) (hc : ChangesOnly P holds holds')
    (hd : Together P holds d) (h : ∀ e, Together P holds' e ↔ Together P holds e ∧ e ≠ d)
    (hused : ∀ e, used' e ↔ used e ∧ e ≠ d) : Exclusive holds' used' := by
  apply hx.change hc
  · intro e he
    exact .inl ((h e).mp he).1
  · intro e
    rw [hused e, h e]
    constructor
    · rintro ⟨he, hne⟩
      by_cases ht : Together P holds e
      · exact .inr ⟨ht, hne⟩
      · exact .inl ⟨he, ht⟩
    · rintro (⟨he, hnot⟩ | ⟨⟨h', -, he⟩, hne⟩)
      · refine ⟨he, ?_⟩
        rintro rfl
        exact hnot hd
      · exact ⟨(hx.used_iff e).mpr ⟨h', he⟩, hne⟩

/-! ## Shared resources -/

/-- **What is shared** is gone as soon as nobody holds it. -/
structure Shared (made held : D → Prop) (gone : List D) : Prop where
  made_of_held : ∀ d, held d → made d
  gone_iff : ∀ d, d ∈ gone ↔ made d ∧ ¬ held d
  nodup : gone.Nodup

section Shared

variable {made made' held held' : D → Prop} {gone : List D} {d : D}

/-- What is held is not gone. -/
theorem Shared.notMem (h : Shared made held gone) (hd : held d) : d ∉ gone := by
  rw [h.gone_iff]
  rintro ⟨-, hnot⟩
  exact hnot hd

/-- The same resources are held, perhaps by others. -/
theorem Shared.keep (h : Shared made held gone) (hmade : ∀ e, made' e ↔ made e)
    (hheld : ∀ e, held' e ↔ held e) : Shared made' held' gone := by
  refine ⟨?_, ?_, h.nodup⟩
  · intro e he
    exact (hmade e).mpr (h.made_of_held e ((hheld e).mp he))
  · intro e
    rw [h.gone_iff, hmade, hheld]

/-- A resource is made, with a holder. -/
theorem Shared.make (h : Shared made held gone) (hfresh : ¬ made d)
    (hmade : ∀ e, made' e ↔ made e ∨ e = d) (hheld : ∀ e, held' e ↔ held e ∨ e = d) :
    Shared made' held' gone := by
  refine ⟨?_, ?_, h.nodup⟩
  · intro e he
    exact (hmade e).mpr (((hheld e).mp he).imp_left (h.made_of_held e))
  · intro e
    rw [h.gone_iff, hmade, hheld]
    constructor
    · rintro ⟨he, hnot⟩
      refine ⟨.inl he, ?_⟩
      rintro (hheld | rfl)
      · exact hnot hheld
      · exact hfresh he
    · rintro ⟨he | rfl, hnot⟩
      · exact ⟨he, fun hheld => hnot (.inl hheld)⟩
      · exact absurd (.inr rfl) hnot

/-- One holder lets a resource go, and it is gone if he was the last one. -/
theorem Shared.letGo [DecidablePred held'] (h : Shared made held gone) (hd : held d)
    (hmade : ∀ e, made' e ↔ made e) (hheld : ∀ e, e ≠ d → (held' e ↔ held e)) :
    Shared made' held' (if held' d then gone else gone ++ [d]) := by
  by_cases hlast : held' d
  · rw [if_pos hlast]
    apply h.keep hmade
    intro e
    by_cases he : e = d
    · rw [he]
      exact iff_of_true hlast hd
    · exact hheld e he
  · rw [if_neg hlast]
    refine ⟨?_, ?_, ?_⟩
    · intro e he
      have hne : e ≠ d := by
        rintro rfl
        exact hlast he
      exact (hmade e).mpr (h.made_of_held e ((hheld e hne).mp he))
    · intro e
      rw [List.mem_append, List.mem_singleton, h.gone_iff, hmade]
      by_cases he : e = d
      · rw [he]
        exact iff_of_true (.inr rfl) ⟨h.made_of_held d hd, hlast⟩
      · rw [hheld e he]
        exact or_iff_left he
    · rw [List.nodup_append]
      refine ⟨h.nodup, List.pairwise_singleton .., ?_⟩
      intro e he f hf
      rw [List.mem_singleton.mp hf]
      rintro rfl
      exact h.notMem hd he

end Shared

end Foundation
