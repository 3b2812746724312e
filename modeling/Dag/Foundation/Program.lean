import Mathlib.Tactic.Common

/-!
# Programs that return, throw or fault

A program on states `σ` is a function from the state it starts in to its outcome: it returns a
value, it throws an exception, or it faults. A return and an exception both leave a state behind,
from which the caller goes on; a fault is the end of everything that can be said, as undefined
behaviour is.

## Main definitions

* `Prog ε φ σ α`: programs with exceptions `ε` and faults `φ`, a monad in `α`
* `Prog.mapThrow`: a program with its exceptions turned into others
* `Triple P x Q E`: from every state of `P`, the program `x` returns into `Q` or throws into `E`,
  and never faults
* `Keeps I x`: the program `x` leaves the invariant `I` behind whenever it leaves a state behind
* `Avoids I g x`: it does, and it does not end in the fault `g`

## Main results

* `Triple.bind`, `Triple.weaken`: the rules of sequencing and of consequence
* `Keeps.bind`, `Avoids.bind`: an invariant is kept by a program when it is kept by its parts
-/

namespace Foundation

variable {ε φ σ α β : Type}

/-- How a program ends. -/
inductive Outcome (ε φ σ α : Type)
  | ok (a : α) (s : σ)
  | throw (e : ε) (s : σ)
  | fault (f : φ)
  deriving DecidableEq

/-- The state a program leaves behind, if any. -/
def Outcome.state? : Outcome ε φ σ α → Option σ
  | .ok _ s => some s
  | .throw _ s => some s
  | .fault _ => none

/-- A program: the outcome from each state. -/
def Prog (ε φ σ α : Type) := σ → Outcome ε φ σ α

namespace Prog

/-- Run `x`, and go on with `f` from where it returned. -/
def bind (x : Prog ε φ σ α) (f : α → Prog ε φ σ β) : Prog ε φ σ β := fun s =>
  match x s with
  | .ok a t => f a t
  | .throw e t => .throw e t
  | .fault g => .fault g

instance : Monad (Prog ε φ σ) where
  pure a := fun s => .ok a s
  bind := bind

/-- Read the state. -/
def get : Prog ε φ σ σ := fun s => .ok s s

/-- Replace the state. -/
def set (t : σ) : Prog ε φ σ Unit := fun _ => .ok () t

/-- Throw an exception, leaving the state as it is. -/
def throw (e : ε) : Prog ε φ σ α := fun s => .throw e s

/-- The program `x`, with its exceptions turned into others. -/
def mapThrow {ε' : Type} (g : ε → ε') (x : Prog ε φ σ α) : Prog ε' φ σ α := fun s =>
  match x s with
  | .ok a t => .ok a t
  | .throw e t => .throw (g e) t
  | .fault f => .fault f

/-- A computation that may fault but neither reads nor changes the state. -/
def lift : Except φ α → Prog ε φ σ α
  | .ok a => fun s => .ok a s
  | .error f => fun _ => .fault f

section Apply

variable {x : Prog ε φ σ α} {f : α → Prog ε φ σ β} {s t : σ} {a : α}

@[simp] theorem pure_apply (a : α) (s : σ) : (pure a : Prog ε φ σ α) s = .ok a s := rfl

@[simp] theorem get_apply (s : σ) : (get : Prog ε φ σ σ) s = .ok s s := rfl

@[simp] theorem set_apply (t s : σ) : (set t : Prog ε φ σ Unit) s = .ok () t := rfl

@[simp] theorem throw_apply (e : ε) (s : σ) : (throw e : Prog ε φ σ α) s = .throw e s := rfl

@[simp] theorem lift_ok (a : α) (s : σ) : (lift (.ok a) : Prog ε φ σ α) s = .ok a s := rfl

@[simp] theorem lift_error (g : φ) (s : σ) :
    (lift (.error g) : Prog ε φ σ α) s = .fault g := rfl

theorem bind_apply (x : Prog ε φ σ α) (f : α → Prog ε φ σ β) (s : σ) :
    (x >>= f) s = match x s with
      | .ok a t => f a t
      | .throw e t => .throw e t
      | .fault g => .fault g := rfl

theorem bind_ok (h : x s = .ok a t) : (x >>= f) s = f a t := by
  rw [bind_apply, h]

theorem bind_bind {γ : Type} (x : Prog ε φ σ α) (f : α → Prog ε φ σ β) (g : β → Prog ε φ σ γ) :
    (x >>= f) >>= g = x >>= fun a => f a >>= g := by
  funext s
  rw [bind_apply, bind_apply, bind_apply]
  cases x s <;> rfl

theorem bind_fault {g : φ} (h : x s = .fault g) : (x >>= f) s = .fault g := by
  rw [bind_apply, h]

/-- What has returned after `x >>= f` has returned after `x`, and after `f` from there. -/
theorem of_bind_ok {b : β} {u : σ} (h : (x >>= f) s = .ok b u) :
    ∃ a t, x s = .ok a t ∧ f a t = .ok b u := by
  rw [bind_apply] at h
  cases hx : x s with
  | ok a t =>
    rw [hx] at h
    exact ⟨a, t, rfl, h⟩
  | throw e t =>
    rw [hx] at h
    cases h
  | fault g =>
    rw [hx] at h
    cases h

@[simp] theorem get_bind (f : σ → Prog ε φ σ β) (s : σ) : (get >>= f) s = f s s := rfl

@[simp] theorem pure_bind (a : α) (f : α → Prog ε φ σ β) (s : σ) :
    (pure a >>= f) s = f a s := rfl

@[simp] theorem set_bind (t : σ) (f : Unit → Prog ε φ σ β) (s : σ) :
    (set t >>= f) s = f () t := rfl

@[simp] theorem lift_bind (a : α) (f : α → Prog ε φ σ β) (s : σ) :
    (lift (.ok a) >>= f) s = f a s := rfl

@[simp] theorem map_apply (g : α → β) (x : Prog ε φ σ α) (s : σ) :
    (g <$> x) s = match x s with
      | .ok a t => .ok (g a) t
      | .throw e t => .throw e t
      | .fault g => .fault g := rfl

/-- What `g <$> x` returns is what `x` returns, where `g` tells values apart. -/
theorem map_ok_iff {g : α → β} (hg : Function.Injective g) :
    (g <$> x) s = .ok (g a) t ↔ x s = .ok a t := by
  rw [map_apply]
  cases x s with
  | ok b u =>
    dsimp only
    rw [Outcome.ok.injEq, Outcome.ok.injEq, hg.eq_iff]
  | throw e u => exact iff_of_false (fun h => by cases h) (fun h => by cases h)
  | fault f => exact iff_of_false (fun h => by cases h) (fun h => by cases h)

/-- What `g <$> x` throws is what `x` throws. -/
theorem of_map_throw {g : α → β} {e : ε} (h : (g <$> x) s = .throw e t) : x s = .throw e t := by
  rw [map_apply] at h
  cases hx : x s with
  | ok a u =>
    rw [hx] at h
    cases h
  | throw e' u =>
    rw [hx] at h
    cases h
    rfl
  | fault g =>
    rw [hx] at h
    cases h

theorem mapThrow_apply {ε' : Type} (g : ε → ε') (x : Prog ε φ σ α) (s : σ) :
    x.mapThrow g s = match x s with
      | .ok a t => .ok a t
      | .throw e t => .throw (g e) t
      | .fault f => .fault f := rfl

theorem map_mapThrow {ε' : Type} (g : ε → ε') (f : α → β) (x : Prog ε φ σ α) :
    f <$> x.mapThrow g = (f <$> x).mapThrow g := by
  funext s
  rw [map_apply, mapThrow_apply, mapThrow_apply, map_apply]
  cases x s <;> rfl

theorem of_mapThrow_ok {ε' : Type} {g : ε → ε'} (h : x.mapThrow g s = .ok a t) : x s = .ok a t := by
  rw [mapThrow_apply] at h
  cases hx : x s with
  | ok b u =>
    rw [hx] at h
    cases h
    rfl
  | throw e u =>
    rw [hx] at h
    cases h
  | fault g =>
    rw [hx] at h
    cases h

theorem of_mapThrow_throw {ε' : Type} {g : ε → ε'} {e : ε'} (h : x.mapThrow g s = .throw e t) :
    ∃ e', e = g e' ∧ x s = .throw e' t := by
  rw [mapThrow_apply] at h
  cases hx : x s with
  | ok a u =>
    rw [hx] at h
    cases h
  | throw e' u =>
    rw [hx] at h
    cases h
    exact ⟨e', rfl, rfl⟩
  | fault g =>
    rw [hx] at h
    cases h

end Apply

end Prog

/-! ## Pre- and postconditions -/

/-- The outcome is a return into `Q` or an exception into `E`. -/
def Outcome.Meets (Q : α → σ → Prop) (E : ε → σ → Prop) : Outcome ε φ σ α → Prop
  | .ok a s => Q a s
  | .throw e s => E e s
  | .fault _ => False

/-- **Total correctness**: from every state of `P`, the program returns into `Q` or throws into
`E`, and it does not fault. -/
def Triple (P : σ → Prop) (x : Prog ε φ σ α) (Q : α → σ → Prop) (E : ε → σ → Prop) : Prop :=
  ∀ s, P s → (x s).Meets Q E

namespace Triple

variable {P : σ → Prop} {x : Prog ε φ σ α} {f : α → Prog ε φ σ β} {Q : α → σ → Prop}
  {R : β → σ → Prop} {E : ε → σ → Prop}

/-- The rule of sequencing. -/
theorem bind (hx : Triple P x Q E) (hf : ∀ a, Triple (Q a) (f a) R E) :
    Triple P (x >>= f) R E := by
  intro s hs
  have h := hx s hs
  rw [Prog.bind_apply]
  cases hxs : x s with
  | ok a t => rw [hxs] at h; exact hf a t h
  | throw e t => rw [hxs] at h; exact h
  | fault g => rw [hxs] at h; exact h.elim

/-- The rule of consequence. -/
theorem weaken {P' : σ → Prop} {Q' : α → σ → Prop} {E' : ε → σ → Prop} (hx : Triple P x Q E)
    (hP : ∀ s, P' s → P s) (hQ : ∀ a s, Q a s → Q' a s) (hE : ∀ e s, E e s → E' e s) :
    Triple P' x Q' E' := by
  intro s hs
  have h := hx s (hP s hs)
  cases hxs : x s with
  | ok a t => rw [hxs] at h; exact hQ a t h
  | throw e t => rw [hxs] at h; exact hE e t h
  | fault g => rw [hxs] at h; exact h.elim

theorem pure {a : α} (h : ∀ s, P s → Q a s) :
    Triple P (Pure.pure a : Prog ε φ σ α) Q E := h

/-- A program that meets its specification leaves a state behind. -/
theorem exists_state (hx : Triple P x Q E) {s : σ} (hs : P s) :
    ∃ t, (x s).state? = some t := by
  have h := hx s hs
  cases hxs : x s with
  | ok a t => exact ⟨t, rfl⟩
  | throw e t => exact ⟨t, rfl⟩
  | fault g => rw [hxs] at h; exact h.elim

end Triple

/-! ## Invariants -/

/-- The outcome leaves no state behind, or one of `I`. -/
def Outcome.Leaves (I : σ → Prop) : Outcome ε φ σ α → Prop
  | .ok _ s => I s
  | .throw _ s => I s
  | .fault _ => True

/-- **The program keeps the invariant**: it leaves a state of `I` behind, whether it returns or
throws, unless it faults. -/
def Keeps (I : σ → Prop) (x : Prog ε φ σ α) : Prop := ∀ s, I s → (x s).Leaves I

namespace Keeps

variable {I : σ → Prop} {x : Prog ε φ σ α} {f : α → Prog ε φ σ β}

theorem pure (a : α) : Keeps I (Pure.pure a : Prog ε φ σ α) := fun _ hs => hs

theorem get : Keeps I (Prog.get : Prog ε φ σ σ) := fun _ hs => hs

theorem lift (r : Except φ α) : Keeps I (Prog.lift r : Prog ε φ σ α) := by
  intro s hs
  cases r with
  | ok a => exact hs
  | error g => trivial

theorem bind (hx : Keeps I x) (hf : ∀ a, Keeps I (f a)) : Keeps I (x >>= f) := by
  intro s hs
  have h := hx s hs
  rw [Prog.bind_apply]
  cases hxs : x s with
  | ok a t => rw [hxs] at h; exact hf a t h
  | throw e t => rw [hxs] at h; exact h
  | fault g => trivial

/-- What a program that keeps the invariant leaves behind. -/
theorem of_state (hx : Keeps I x) {s t : σ} (hs : I s) (ht : (x s).state? = some t) : I t := by
  have h := hx s hs
  cases hxs : x s with
  | ok a u =>
    rw [hxs] at h ht
    exact Option.some.inj ht ▸ h
  | throw e u =>
    rw [hxs] at h ht
    exact Option.some.inj ht ▸ h
  | fault g =>
    rw [hxs] at ht
    cases ht

/-- A program without exceptions keeps what holds whenever it has returned. -/
theorem of_ok {x : Prog Empty φ σ α} (h : ∀ s a t, I s → x s = .ok a t → I t) : Keeps I x := by
  intro s hs
  cases hxs : x s with
  | ok a t => exact h s a t hs hxs
  | throw e t => exact e.elim
  | fault g => trivial

theorem map (g : α → β) (hx : Keeps I x) : Keeps I (g <$> x) := bind hx fun _ => pure _

/-- A program whose specification ends in the invariant keeps it. -/
theorem of_triple {Q : α → σ → Prop} {E : ε → σ → Prop} (hx : Triple I x Q E)
    (hQ : ∀ a s, Q a s → I s) (hE : ∀ e s, E e s → I s) : Keeps I x := by
  intro s hs
  have h := hx s hs
  cases hxs : x s with
  | ok a t => rw [hxs] at h; exact hQ a t h
  | throw e t => rw [hxs] at h; exact hE e t h
  | fault g => trivial

end Keeps

/-! ## Faults that do not happen -/

/-- The outcome leaves a state of `I` behind, or it is a fault other than `g`. -/
def Outcome.LeavesBut (I : σ → Prop) (g : φ) : Outcome ε φ σ α → Prop
  | .ok _ s => I s
  | .throw _ s => I s
  | .fault f => f ≠ g

/-- **The program keeps the invariant and avoids the fault `g`**; of other faults nothing is
said. -/
def Avoids (I : σ → Prop) (g : φ) (x : Prog ε φ σ α) : Prop := ∀ s, I s → (x s).LeavesBut I g

namespace Avoids

variable {I : σ → Prop} {g : φ} {x : Prog ε φ σ α} {f : α → Prog ε φ σ β}

theorem pure (a : α) : Avoids I g (Pure.pure a : Prog ε φ σ α) := fun _ hs => hs

theorem lift {r : Except φ α} (hr : r ≠ .error g) : Avoids I g (Prog.lift r : Prog ε φ σ α) := by
  intro s hs
  cases r with
  | ok a => exact hs
  | error f =>
    show f ≠ g
    rintro rfl
    exact hr rfl

theorem bind (hx : Avoids I g x) (hf : ∀ a, Avoids I g (f a)) : Avoids I g (x >>= f) := by
  intro s hs
  have h := hx s hs
  rw [Prog.bind_apply]
  cases hxs : x s with
  | ok a t =>
    rw [hxs] at h
    exact hf a t h
  | throw e t =>
    rw [hxs] at h
    exact h
  | fault f' =>
    rw [hxs] at h
    exact h

theorem ite {p : Prop} [Decidable p] {y : Prog ε φ σ α} (hx : p → Avoids I g x)
    (hy : ¬ p → Avoids I g y) : Avoids I g (if p then x else y) := by
  split_ifs with h
  · exact hx h
  · exact hy h

/-- What is read of the state is that of a state of the invariant. -/
theorem get_bind {f : σ → Prog ε φ σ β} (hf : ∀ s, I s → (f s s).LeavesBut I g) :
    Avoids I g (Prog.get >>= f) := hf

theorem ne_fault (hx : Avoids I g x) {s : σ} (hs : I s) : x s ≠ .fault g := by
  intro h
  have hleaves := hx s hs
  rw [h] at hleaves
  exact hleaves rfl

/-- What a program that avoids a fault leaves behind. -/
theorem of_state (hx : Avoids I g x) {s t : σ} (hs : I s) (ht : (x s).state? = some t) : I t := by
  have h := hx s hs
  cases hxs : x s with
  | ok a u =>
    rw [hxs] at h ht
    exact Option.some.inj ht ▸ h
  | throw e u =>
    rw [hxs] at h ht
    exact Option.some.inj ht ▸ h
  | fault f' =>
    rw [hxs] at ht
    cases ht

end Avoids

end Foundation
