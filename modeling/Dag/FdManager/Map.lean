import Dag.FdManager.Get

/-!
# FdManager: the table is a map

For its callers `FdManager` is a partial map from descriptors to contexts. The vector that it keeps
them in, its growth by half the descriptor asked for, and the conversion of the descriptor to a
`size_t` do not show: in every interleaving the calls return what they return from the map, and no
index is ever outside of the vector.

## Main definitions

* `FdMap`, `FdMap.step`: the map, and the steps of the calls
* `FdManager.map`: the map that a table stands for
* `FdManager.Creatable`: contexts are asked for descriptors that the kernel has returned

## Main results

* `FdManager.map_exec`: every run of the table is one of the map
-/

namespace Dag

open Foundation

/-- Contexts by descriptors. The other fields are as for the table. -/
structure FdMap where
  ctx : BitVec 32 → Option ℕ
  allocated : ℕ
  creating : ℕ → Option (BitVec 32)
  returned : List (BitVec 32 × ℕ)

namespace FdMap

/-- No descriptor has a context. -/
def empty : FdMap := ⟨fun _ => none, 0, fun _ => none, []⟩

/-- A call for `fd` returns its context, if it has one. -/
def found (m : FdMap) (fd : BitVec 32) : FdMap :=
  { m with returned := m.returned ++ (m.ctx fd).toList.map fun c => (fd, c) }

/-- The steps: a call finds the context, or goes on to create one; it creates one, whether there is
one or not; and a context is removed. There is none for -1. -/
def step (m : FdMap) : FdAct → Option FdMap
  | .read thread fd auto_create =>
    if m.creating thread = none then
      some (if fd ≠ -1 ∧ m.ctx fd = none ∧ auto_create = true then
        { m with creating := Function.update m.creating thread (some fd) }
      else m.found fd)
    else none
  | .write thread =>
    (m.creating thread).map fun fd =>
      { ctx := Function.update m.ctx fd (some m.allocated)
        allocated := m.allocated + 1
        creating := Function.update m.creating thread none
        returned := m.returned ++ [(fd, m.allocated)] }
  | .del fd =>
    some { m with
      ctx := Function.update m.ctx fd none
      returned := m.returned.filter fun p => p.1 ≠ fd }

end FdMap

namespace FdManager

/-- The map that the table stands for. -/
def map (s : FdManager) : FdMap := ⟨s.ctx, s.allocated, s.creating, s.returned⟩

/-- **A context is asked for a descriptor that the kernel has returned**, or for -1. -/
def Creatable (_ : FdManager) : FdAct → Prop
  | .read _ fd true => fd = -1 ∨ 0 ≤ fd.toInt
  | _ => True

instance (s : FdManager) : DecidablePred s.Creatable
  | .read _ fd true => inferInstanceAs (Decidable (fd = -1 ∨ 0 ≤ fd.toInt))
  | .read _ _ false | .write _ | .del _ => inferInstanceAs (Decidable True)

/-- What keeps the indices inside of the vector: it is never smaller than at first, a context is
about to be created for no negative descriptor, and -1 has none. -/
structure Fits (s : FdManager) : Prop where
  length : 64 ≤ s.datas.length
  nonneg : ∀ thread fd, s.creating thread = some fd → 0 ≤ fd.toInt
  none_neg : s.ctx (-1) = none

variable {s t : FdManager} {a : FdAct} {fd : BitVec 32}

theorem fits_construct : Fits construct := by
  constructor
  · exact Nat.le_of_eq List.length_replicate.symm
  · intro thread fd h
    cases h
  · exact entry_append_replicate [] 64 (size_t (-1))

theorem ctx_none_of_length_le (h : s.datas.length ≤ size_t fd) : s.ctx fd = none :=
  entry_of_length_le h

/-- The part under the read lock, in terms of the contexts. -/
theorem readPart_eq (thread : ℕ) (fd : BitVec 32) (auto_create : Bool) :
    s.readPart thread fd auto_create =
      if fd = -1 then s.returning fd none
      else if s.ctx fd = none ∧ auto_create = true then s.withCreating thread (some fd)
      else s.returning fd (s.ctx fd) := by
  unfold readPart
  by_cases hne : fd = -1
  · rw [if_pos hne, if_pos hne]
  · rw [if_neg hne, if_neg hne]
    by_cases hle : s.datas.length ≤ size_t fd
    · rw [if_pos hle, ctx_none_of_length_le hle]
      cases auto_create <;> rfl
    · rw [if_neg hle]
      cases hctx : s.ctx fd <;> cases auto_create <;> rfl

/-- A context can be created for every descriptor of the kernel: when the vector has grown, the
descriptor is an index of it. -/
theorem exists_writePart_of_nonneg (hlength : 64 ≤ s.datas.length) (hfd : 0 ≤ fd.toInt) :
    ∃ t, s.writePart fd = some t := by
  have hsize := size_t_of_nonneg hfd
  unfold writePart
  by_cases hle : s.datas.length ≤ size_t fd
  · rw [if_pos hle, if_neg (Int.not_lt.mpr hfd), create, length_resize (by omega), if_pos (by omega)]
    exact ⟨_, rfl⟩
  · rw [if_neg hle, create, if_pos (Nat.not_le.mp hle)]
    exact ⟨_, rfl⟩

/-- The part under the write lock is not undefined for a descriptor that fits. -/
theorem step_write (hf : s.Fits) {thread : ℕ} (hthread : s.creating thread = some fd) :
    ∃ u, Creates s fd u ∧ u.creating = s.creating ∧
      s.step (.write thread) = some (u.withCreating thread none) := by
  obtain ⟨u, hu⟩ := exists_writePart_of_nonneg hf.length (hf.nonneg thread fd hthread)
  refine ⟨u, creates_of_writePart hu, creating_of_writePart hu, ?_⟩
  simp only [FdManager.step, hthread, hu, Option.map_some]

theorem Fits.step (hf : s.Fits) (ha : s.Creatable a) (h : s.step a = some t) : t.Fits := by
  have hlength := Nat.le_trans hf.length (length_le_of_step h)
  cases a with
  | read thread fd auto_create =>
    simp only [FdManager.step] at h
    split_ifs at h
    obtain rfl := Option.some.inj h
    rw [readPart_eq] at hlength ⊢
    split_ifs at hlength ⊢ with hne hcreate
    · exact ⟨hlength, hf.nonneg, hf.none_neg⟩
    · refine ⟨hlength, ?_, hf.none_neg⟩
      intro thread' fd' hfd'
      have hfd' : Function.update s.creating thread (some fd) thread' = some fd' := hfd'
      rw [Function.update_apply] at hfd'
      split_ifs at hfd'
      · obtain rfl := Option.some.inj hfd'
        obtain ⟨-, rfl⟩ := hcreate
        exact ha.resolve_left hne
      · exact hf.nonneg thread' fd' hfd'
    · exact ⟨hlength, hf.nonneg, hf.none_neg⟩
  | write thread =>
    cases hthread : s.creating thread with
    | none =>
      simp only [FdManager.step, hthread] at h
      cases h
    | some fd =>
      obtain ⟨u, hu, hcreating, hstep⟩ := step_write hf hthread
      obtain rfl := Option.some.inj (hstep.symm.trans h)
      refine ⟨hlength, ?_, ?_⟩
      · intro thread' fd' hfd'
        have hfd' : Function.update u.creating thread none thread' = some fd' := hfd'
        rw [Function.update_apply, hcreating] at hfd'
        split_ifs at hfd'
        exact hf.nonneg thread' fd' hfd'
      · have hne : (-1 : BitVec 32) ≠ fd := by
          rintro rfl
          exact absurd (hf.nonneg thread _ hthread) (by decide)
        exact (hu.ctx_eq (-1)).trans ((if_neg hne).trans hf.none_neg)
  | del fd =>
    obtain rfl := Option.some.inj h
    refine ⟨hlength, ?_, ?_⟩
    · unfold del
      split_ifs <;> exact hf.nonneg
    · rw [ctx_del]
      split_ifs
      · rfl
      · exact hf.none_neg

/-- **One step** of the table is one of the map. -/
theorem map_step (hf : s.Fits) : (s.step a).map map = s.map.step a := by
  cases a with
  | read thread fd auto_create =>
    simp only [FdManager.step, FdMap.step]
    by_cases hthread : s.creating thread = none
    · rw [if_pos hthread, if_pos (show s.map.creating thread = none from hthread), Option.map_some,
        readPart_eq]
      congr 1
      by_cases hne : fd = -1
      · have hctx : s.map.ctx fd = none := by
          rw [hne]
          exact hf.none_neg
        rw [if_pos hne, if_neg (fun h => h.1 hne), FdMap.found, hctx]
        rfl
      · rw [if_neg hne]
        by_cases hcreate : s.ctx fd = none ∧ auto_create = true
        · rw [if_pos hcreate, if_pos ⟨hne, hcreate⟩]
          rfl
        · rw [if_neg hcreate, if_neg (fun h => hcreate h.2)]
          rfl
    · rw [if_neg hthread, if_neg (show ¬ s.map.creating thread = none from hthread)]
      rfl
  | write thread =>
    cases hthread : s.creating thread with
    | none =>
      have hmap : s.map.creating thread = none := hthread
      simp only [FdManager.step, FdMap.step, hthread, hmap, Option.map_none]
    | some fd =>
      have hmap : s.map.creating thread = some fd := hthread
      obtain ⟨u, hu, hcreating, hstep⟩ := step_write hf hthread
      have hctx : u.ctx = Function.update s.ctx fd (some s.allocated) := by
        funext fd'
        rw [hu.ctx_eq, Function.update_apply]
      rw [hstep]
      simp only [FdMap.step, hmap, Option.map_some]
      congr 1
      show FdMap.mk u.ctx u.allocated (Function.update u.creating thread none) u.returned = _
      rw [hctx, hu.allocated_eq, hcreating, hu.returned_eq]
      rfl
  | del fd =>
    have hctx : (s.del fd).ctx = Function.update s.ctx fd none := by
      funext fd'
      rw [ctx_del, Function.update_apply]
    have hrest : (s.del fd).allocated = s.allocated ∧ (s.del fd).creating = s.creating ∧
        (s.del fd).returned = s.returned.filter fun p => p.1 ≠ fd := by
      unfold del
      split_ifs <;> exact ⟨rfl, rfl, rfl⟩
    simp only [FdManager.step, FdMap.step, Option.map_some]
    congr 1
    rw [map, hctx, hrest.1, hrest.2.1, hrest.2.2]
    rfl

/-- **The table is a map.** In every run of calls of `get` and `del`, by any threads and in any
interleaving, in which contexts are asked for descriptors of the kernel or -1, the table takes the
steps that the map takes, and the calls return the same contexts; in particular no index is outside
of the vector, though it has grown for some descriptors and not for others. -/
theorem map_exec {as : List FdAct} (hg : Guarded step Creatable construct as) :
    (exec step construct as).map map = exec FdMap.step FdMap.empty as := by
  have hempty : construct.map = FdMap.empty := by
    have hctx : construct.ctx = fun _ => none := by
      funext fd
      exact entry_append_replicate [] 64 (size_t fd)
    rw [map, hctx]
    rfl
  rw [← hempty]
  exact exec_map_of_guarded map (fun _ _ _ hf ha h => hf.step ha h) (fun _ _ hf _ => map_step hf)
    fits_construct hg

/-- The descriptor 100 makes the vector grow, between two calls for the descriptor 5. -/
theorem map_exec_growing :
    (exec step construct [.read 0 5 true, .write 0, .read 1 100 true, .write 1, .read 2 5 false]).map
        map =
      exec FdMap.step FdMap.empty
        [.read 0 5 true, .write 0, .read 1 100 true, .write 1, .read 2 5 false] :=
  map_exec (by decide)

end FdManager

end Dag
