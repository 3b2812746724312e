import Mathlib.Data.List.Basic

/-!
# Runs of a partial step function

A system is a partial step function `step : σ → α → Option σ`. A label `α` carries everything
that is chosen from outside — which thread moves, an argument, a clock reading, the answer of the
kernel — so that a run is a list of labels and the state it leads to is a value. `none` says that
the label cannot be taken in this state.

Invariants are proved one step at a time and carried along the run. A *guard* `σ → α → Prop` is a
condition on the state before a step and on its label: `Guarded step guard s as` says that every
step of the run `as` from `s` meets it.

## Main definitions

* `exec step s as`: the state the run `as` leads to
* `trace call s as`: the results of the calls of a run, and the state it leads to
* `Guarded step guard s as`: every step of the run meets the guard
* `Throughout step P s as`: every state that the run passes through is in `P`

## Main results

* `exec_invariant`, `exec_invariant_of_guarded`: what one step preserves, a run preserves
* `guarded_iff`: a guard is met by a run when it is met wherever the run has come to
* `exec_total_of_guarded`: a run whose steps all meet a guard under which steps are never refused is
  never refused
* `exec_map_of_guarded`: a run whose steps are those of another system is a run of that system
* `length_add_measure_le`: a run whose steps all lower a measure is bounded by it
-/

namespace Foundation

variable {σ α ρ : Type*}

/-- The state that the run `as` leads to from `s`. -/
def exec (step : σ → α → Option σ) : σ → List α → Option σ
  | s, [] => some s
  | s, a :: as => (step s a).bind fun t => exec step t as

/-- Every step of the run `as` from `s` meets the guard, which reads the state before the step. -/
def Guarded (step : σ → α → Option σ) (guard : σ → α → Prop) : σ → List α → Prop
  | _, [] => True
  | s, a :: as => guard s a ∧ ∀ t, step s a = some t → Guarded step guard t as

/-- Every state that the run `as` from `s` passes through is in `P`, the first and the last one
included. -/
def Throughout (step : σ → α → Option σ) (P : σ → Prop) (s : σ) (as : List α) : Prop :=
  ∀ bs t, bs <+: as → exec step s bs = some t → P t

/-- A run on concrete data can be checked against a guard that can be decided. -/
instance Guarded.decidable (step : σ → α → Option σ) (guard : σ → α → Prop)
    [∀ s a, Decidable (guard s a)] : ∀ s as, Decidable (Guarded step guard s as)
  | _, [] => isTrue trivial
  | s, a :: as =>
    haveI : ∀ t, Decidable (Guarded step guard t as) := fun t => Guarded.decidable step guard t as
    decidable_of_iff (guard s a ∧ ∀ t ∈ step s a, Guarded step guard t as) Iff.rfl

/-- The results of the calls `as` made one after another from `s`, and the state they lead to. -/
def trace (call : σ → α → Option (ρ × σ)) : σ → List α → Option (List ρ × σ)
  | s, [] => some ([], s)
  | s, a :: as => (call s a).bind fun rt => (trace call rt.2 as).map fun us => (rt.1 :: us.1, us.2)

section Exec

variable {step : σ → α → Option σ} {guard : σ → α → Prop} {I : σ → Prop}

@[simp] theorem exec_nil (s : σ) : exec step s [] = some s := rfl

theorem exec_cons (s : σ) (a : α) (as : List α) :
    exec step s (a :: as) = (step s a).bind fun t => exec step t as := rfl

theorem exec_cons_eq_some {s u : σ} {a : α} {as : List α} :
    exec step s (a :: as) = some u ↔ ∃ t, step s a = some t ∧ exec step t as = some u := by
  rw [exec_cons, Option.bind_eq_some_iff]

/-- A run in two parts. -/
theorem exec_append_eq_some {s u : σ} {as bs : List α} :
    exec step s (as ++ bs) = some u ↔ ∃ t, exec step s as = some t ∧ exec step t bs = some u := by
  induction as generalizing s with
  | nil => simp
  | cons a as ih =>
    rw [List.cons_append, exec_cons_eq_some]
    constructor
    · rintro ⟨t, ht, hu⟩
      obtain ⟨v, hv, hu⟩ := ih.mp hu
      exact ⟨v, exec_cons_eq_some.mpr ⟨t, ht, hv⟩, hu⟩
    · rintro ⟨v, hv, hu⟩
      obtain ⟨t, ht, hv⟩ := exec_cons_eq_some.mp hv
      exact ⟨t, ht, ih.mpr ⟨v, hv, hu⟩⟩

/-- **The invariant rule, under a guard**: what every guarded step preserves, every run whose
steps all meet the guard preserves. -/
theorem exec_invariant_of_guarded
    (hstep : ∀ s a t, I s → guard s a → step s a = some t → I t) :
    ∀ {as : List α} {s u : σ}, I s → Guarded step guard s as → exec step s as = some u → I u := by
  intro as
  -- on the run: the guard of the rest is the one from where the first step has led
  induction as with
  | nil =>
    intro s u hs _ hu
    obtain rfl := Option.some.inj hu
    exact hs
  | cons a as ih =>
    intro s u hs hg hu
    obtain ⟨t, ht, hu⟩ := exec_cons_eq_some.mp hu
    exact ih (hstep s a t hs hg.1 ht) (hg.2 t ht) hu

theorem guarded_true (as : List α) : ∀ s, Guarded step (fun _ _ => True) s as := by
  induction as with
  | nil => exact fun _ => trivial
  | cons a as ih => exact fun s => ⟨trivial, fun t _ => ih t⟩

/-- A guard on labels alone is met by a run all of whose labels meet it. -/
theorem guarded_of_forall_mem {p : α → Prop} {as : List α} (h : ∀ a ∈ as, p a) :
    ∀ s, Guarded step (fun _ a => p a) s as := by
  induction as with
  | nil => exact fun _ => trivial
  | cons a as ih =>
    intro s
    exact ⟨h a List.mem_cons_self, fun t _ => ih (fun b hb => h b (List.mem_cons_of_mem _ hb)) t⟩

/-- **The invariant rule**: what every step preserves, every run preserves. -/
theorem exec_invariant (hstep : ∀ s a t, I s → step s a = some t → I t)
    {as : List α} {s u : σ} (hs : I s) (hu : exec step s as = some u) : I u :=
  exec_invariant_of_guarded (fun s a t hi _ => hstep s a t hi) hs (guarded_true as s) hu

/-- **The progress rule**: if a guarded step from a state of the invariant is never refused and
preserves the invariant, then a run whose steps all meet the guard is never refused. -/
theorem exec_total_of_guarded
    (hstep : ∀ s a, I s → guard s a → ∃ t, step s a = some t ∧ I t) :
    ∀ {as : List α} {s : σ}, I s → Guarded step guard s as →
      ∃ u, exec step s as = some u ∧ I u := by
  intro as
  -- on the run, for all states of the invariant: the first step leads to another one
  induction as with
  | nil => exact fun hs _ => ⟨_, rfl, hs⟩
  | cons a as ih =>
    intro s hs hg
    obtain ⟨t, ht, hi⟩ := hstep s a hs hg.1
    obtain ⟨u, hu, hiu⟩ := ih hi (hg.2 t ht)
    exact ⟨u, exec_cons_eq_some.mpr ⟨t, ht, hu⟩, hiu⟩

/-- **The refinement rule**: if each guarded step from a state of the invariant is the step of another
system from its image, and preserves the invariant, then a run whose steps all meet the guard is the
run of the other system, which takes and refuses the same steps. -/
theorem exec_map_of_guarded {τ : Type*} {step' : τ → α → Option τ} (abs : σ → τ)
    (hinv : ∀ s a t, I s → guard s a → step s a = some t → I t)
    (hsim : ∀ s a, I s → guard s a → (step s a).map abs = step' (abs s) a) :
    ∀ {as : List α} {s : σ}, I s → Guarded step guard s as →
      (exec step s as).map abs = exec step' (abs s) as := by
  intro as
  -- on the run: a step that is refused is refused by both
  induction as with
  | nil => exact fun _ _ => rfl
  | cons a as ih =>
    intro s hs hg
    rw [exec_cons, exec_cons, ← hsim s a hs hg.1]
    cases ht : step s a with
    | none => rfl
    | some t => exact ih (hinv s a t hs hg.1 ht) (hg.2 t ht)

/-- The guard of a run is the guard of its first part, and of the rest from where that leads. -/
theorem guarded_append {as bs : List α} {s : σ} :
    Guarded step guard s (as ++ bs) ↔
      Guarded step guard s as ∧ ∀ t, exec step s as = some t → Guarded step guard t bs := by
  induction as generalizing s with
  | nil => simp [Guarded]
  | cons a as ih =>
    simp only [List.cons_append, Guarded, ih, exec_cons_eq_some]
    constructor
    · rintro ⟨hg, h⟩
      exact ⟨⟨hg, fun t ht => (h t ht).1⟩, fun u ⟨t, ht, hu⟩ => (h t ht).2 u hu⟩
    · rintro ⟨⟨hg, h⟩, h'⟩
      exact ⟨hg, fun t ht => ⟨h t ht, fun u hu => h' u ⟨t, ht, hu⟩⟩⟩

/-- What the guard of a run says of its steps: each meets it in the state that the run has come
to. -/
theorem guarded_iff {as : List α} {s : σ} : Guarded step guard s as ↔
    ∀ bs a cs t, as = bs ++ a :: cs → exec step s bs = some t → guard t a := by
  constructor
  · rintro hg bs a cs t rfl ht
    exact ((guarded_append.mp hg).2 t ht).1
  · intro h
    induction as generalizing s with
    | nil => trivial
    | cons a as ih =>
      refine ⟨h [] a as s rfl rfl, ?_⟩
      intro t ht
      apply ih
      rintro bs b cs u rfl hu
      exact h (a :: bs) b cs u rfl (exec_cons_eq_some.mpr ⟨t, ht, hu⟩)

/-- The guard of a run is the guard of each of its beginnings. -/
theorem Guarded.beginning {as bs : List α} {s : σ} (hg : Guarded step guard s as)
    (h : bs <+: as) : Guarded step guard s bs := by
  obtain ⟨cs, rfl⟩ := h
  exact (guarded_append.mp hg).1

/-- A run that meets two guards meets both of them at each step. -/
theorem Guarded.and {guard' : σ → α → Prop} {as : List α} :
    ∀ {s : σ}, Guarded step guard s as → Guarded step guard' s as →
      Guarded step (fun s a => guard s a ∧ guard' s a) s as := by
  induction as with
  | nil => exact fun _ _ => trivial
  | cons a as ih =>
    intro s hg hg'
    exact ⟨⟨hg.1, hg'.1⟩, fun t ht => ih (hg.2 t ht) (hg'.2 t ht)⟩

/-- **The invariant rule, for all the states of a run.** -/
theorem throughout_of_guarded {as : List α} {s : σ}
    (hstep : ∀ s a t, I s → guard s a → step s a = some t → I t) (hs : I s)
    (hg : Guarded step guard s as) : Throughout step I s as :=
  fun _ _ hb ht => exec_invariant_of_guarded hstep hs (Guarded.beginning hg hb) ht

/-- **The measure rule**: if every step lowers a measure, a run is no longer than the measure of the
state that it starts in. -/
theorem length_add_measure_le (μ : σ → ℕ) (hstep : ∀ s a t, step s a = some t → μ t < μ s)
    {as : List α} {s u : σ} (hu : exec step s as = some u) : as.length + μ u ≤ μ s := by
  induction as generalizing s with
  | nil =>
    obtain rfl := Option.some.inj hu
    simp
  | cons a as ih =>
    obtain ⟨t, ht, hu⟩ := exec_cons_eq_some.mp hu
    have hlt := hstep s a t ht
    have hle := ih hu
    rw [List.length_cons]
    omega

end Exec

end Foundation
