import Dag.Foundation.Run
import Dag.Foundation.Table
import Mathlib.Logic.Function.Basic

/-!
# FdManager: one context for a descriptor

`FdManager::get(fd, auto_create)` looks the context of a file descriptor up under the read lock of
the table. When there is none and one is to be created, it releases that lock, takes the write lock,
grows the table if it is too small, puts a new context into the entry and returns it. It does not
look at the entry again: two calls that have both found it empty create a context each, and the
second one replaces the first, which has been handed out already.

The contexts are named by numbers, in the order of their allocation. A file descriptor is an `int`
of 32 bits, and where the source compares it with the size of the table or indexes the table with
it, it is converted to `size_t`.

## Main definitions

* `FdManager`, `FdManager.step`: the table, and the steps of the calls of its threads
* `OneContext`: a run hands out one context for `fd` at a time, and the table never shrinks
* `Vacant`: a step does not create a context for `fd` where there is one

## Main results

* `step_cases`: what a step can do
* `oneContext_iff`: a run hands out one context for `fd` exactly when all its steps meet the
  condition
* `not_oneContext_of_two`: two calls that create the context of one descriptor
-/

namespace Dag

open Foundation

/-- The number that an `int` becomes where a `size_t` is asked for. -/
def size_t (fd : BitVec 32) : ℕ := (fd.signExtend 64).toNat

/-- The state: the table `m_datas`, the number of contexts allocated, for each thread the file
descriptor that it is between the two locks of `get` for, and the contexts that `get` has returned
for a file descriptor since the last `del` of it. -/
structure FdManager where
  datas : List (Option ℕ)
  allocated : ℕ
  creating : ℕ → Option (BitVec 32)
  returned : List (BitVec 32 × ℕ)

/-- The steps: the part of `get` under the read lock, the one under the write lock, and `del`. -/
inductive FdAct
  | read (thread : ℕ) (fd : BitVec 32) (auto_create : Bool)
  | write (thread : ℕ)
  | del (fd : BitVec 32)
  deriving DecidableEq, Repr

namespace FdManager

/-- `FdManager()`. -/
def construct : FdManager where
  datas := List.replicate 64 none
  allocated := 0
  creating := fun _ => none
  returned := []

/-- `m_datas[fd]`. -/
def ctx (s : FdManager) (fd : BitVec 32) : Option ℕ := entry s.datas (size_t fd)

/-- `get` returns `c`. -/
def returning (s : FdManager) (fd : BitVec 32) (c : Option ℕ) : FdManager :=
  { s with returned := s.returned ++ c.toList.map fun c => (fd, c) }

def withCreating (s : FdManager) (thread : ℕ) (fd : Option (BitVec 32)) : FdManager :=
  { s with creating := Function.update s.creating thread fd }

/-- The part of `get(fd, auto_create)` under the read lock. -/
def readPart (s : FdManager) (thread : ℕ) (fd : BitVec 32) (auto_create : Bool) : FdManager :=
  if fd = -1 then s.returning fd none
  else if s.datas.length ≤ size_t fd then
    if auto_create then s.withCreating thread (some fd) else s.returning fd none
  else if (s.ctx fd).isSome || !auto_create then s.returning fd (s.ctx fd)
  else s.withCreating thread (some fd)

/-- `m_datas.resize(size)`. -/
def resize (s : FdManager) (size : ℕ) : FdManager :=
  { s with datas := s.datas.take size ++ List.replicate (size - s.datas.length) none }

/-- `m_datas[fd] = std::make_shared<FdCtx>(fd)`, which `get` returns. An index outside of the table
is undefined behaviour. -/
def create (s : FdManager) (fd : BitVec 32) : Option FdManager :=
  if size_t fd < s.datas.length then
    let t := { s with
      datas := s.datas.set (size_t fd) (some s.allocated)
      allocated := s.allocated + 1 }
    some (t.returning fd (some s.allocated))
  else none

/-- The part of `get(fd, true)` under the write lock. -/
def writePart (s : FdManager) (fd : BitVec 32) : Option FdManager :=
  if s.datas.length ≤ size_t fd then
    -- for a negative `fd` the conversion of `fd * 1.5` to `size_t` is undefined behaviour
    if fd.toInt < 0 then none else (s.resize (fd.toNat * 3 / 2)).create fd
  else s.create fd

/-- `del(fd)`. -/
def del (s : FdManager) (fd : BitVec 32) : FdManager :=
  let t := { s with returned := s.returned.filter fun p => p.1 ≠ fd }
  if s.datas.length ≤ size_t fd then t
  else { t with datas := s.datas.set (size_t fd) none }

def step (s : FdManager) : FdAct → Option FdManager
  | .read thread fd auto_create =>
    if s.creating thread = none then some (s.readPart thread fd auto_create) else none
  | .write thread =>
    match s.creating thread with
    | none => none
    | some fd => (s.writePart fd).map fun t => t.withCreating thread none
  | .del fd => some (s.del fd)

/-! ## What is to hold -/

/-- The contexts that `get` has returned for `fd` since the last `del` are one. -/
def Single (fd : BitVec 32) (s : FdManager) : Prop :=
  ∀ c c', (fd, c) ∈ s.returned → (fd, c') ∈ s.returned → c = c'

/-- **One context for `fd`**: wherever the run has come to, all the contexts that have been returned
for `fd` since the last `del` are the same, and the table has never become smaller. -/
structure OneContext (fd : BitVec 32) (as : List FdAct) : Prop where
  single : Throughout step (Single fd) construct as
  grows : ∀ bs cs s t, bs <+: cs → cs <+: as → exec step construct bs = some s →
    exec step construct cs = some t → s.datas.length ≤ t.datas.length

/-- The step does not create a context for `fd` where there is one. -/
def Vacant (fd : BitVec 32) (s : FdManager) (a : FdAct) : Prop :=
  ∀ thread, a = .write thread → s.creating thread = some fd → s.ctx fd = none

/-! ## Steps -/

section Steps

variable {s t : FdManager} {a : FdAct} {fd fd' : BitVec 32} {c : ℕ}

theorem size_t_inj : size_t fd' = size_t fd ↔ fd' = fd := by
  constructor
  · intro h
    apply BitVec.eq_of_toInt_eq
    have hext : (fd'.signExtend 64).toInt = (fd.signExtend 64).toInt := by
      rw [BitVec.eq_of_toNat_eq h]
    rwa [BitVec.toInt_signExtend_of_le (by decide),
      BitVec.toInt_signExtend_of_le (by decide)] at hext
  · rintro rfl
    rfl

theorem size_t_of_nonneg (h : 0 ≤ fd.toInt) : size_t fd = fd.toNat := by
  have hext : (fd.signExtend 64).toInt = fd.toInt := BitVec.toInt_signExtend_of_le (by decide)
  have hlt := fd.isLt
  unfold size_t
  rw [BitVec.toInt_eq_toNat_cond] at h hext
  rw [BitVec.toInt_eq_toNat_cond] at hext
  split_ifs at h hext <;> omega

/-- Growing the table does not change its entries. -/
theorem ctx_resize {size : ℕ} (h : s.datas.length ≤ size) (fd : BitVec 32) :
    (s.resize size).ctx fd = s.ctx fd := by
  rw [ctx, resize, List.take_of_length_le h, entry_append_replicate, ctx]

theorem length_resize {size : ℕ} (h : s.datas.length ≤ size) :
    (s.resize size).datas.length = size := by
  rw [resize, List.length_append, List.length_take, List.length_replicate]
  omega

/-- What the creation of a context for `fd` does. -/
structure Creates (s : FdManager) (fd : BitVec 32) (t : FdManager) : Prop where
  ctx_eq : ∀ fd', t.ctx fd' = if fd' = fd then some s.allocated else s.ctx fd'
  allocated_eq : t.allocated = s.allocated + 1
  returned_eq : t.returned = s.returned ++ [(fd, s.allocated)]
  length_le : s.datas.length ≤ t.datas.length

theorem creates_of_create (h : s.create fd = some t) : Creates s fd t := by
  unfold create at h
  split_ifs at h with hlt
  obtain rfl := Option.some.inj h
  constructor
  · intro fd'
    show entry (s.datas.set _ _) _ = _
    rw [entry_set hlt]
    simp only [size_t_inj]
    rfl
  · rfl
  · rfl
  · exact Nat.le_of_eq List.length_set.symm

/-- The part of `get` under the write lock creates a context, whatever there is in the table. -/
theorem creates_of_writePart (h : s.writePart fd = some t) : Creates s fd t := by
  unfold writePart at h
  split_ifs at h with hle hneg
  · have hsize := size_t_of_nonneg (Int.not_lt.mp hneg)
    have hgrow : s.datas.length ≤ fd.toNat * 3 / 2 := by omega
    have hc := creates_of_create h
    refine ⟨?_, hc.allocated_eq, hc.returned_eq, ?_⟩
    · intro fd'
      rw [hc.ctx_eq, ctx_resize hgrow]
      rfl
    · have hlength := hc.length_le
      rw [length_resize hgrow] at hlength
      omega
  · exact creates_of_create h

theorem creating_of_writePart (h : s.writePart fd = some t) : t.creating = s.creating := by
  unfold writePart create at h
  split_ifs at h <;> obtain rfl := Option.some.inj h <;> rfl

/-- Where there is a context already, the index is within the table. -/
theorem exists_writePart (h : s.ctx fd = some c) : ∃ t, s.writePart fd = some t := by
  have hlt := lt_length_of_entry h
  rw [writePart, if_neg (Nat.not_le.mpr hlt), create, if_pos hlt]
  exact ⟨_, rfl⟩

/-- **What a step can do**: return nothing, return the context in the table, go on to the write
lock, create a context, or remove one. -/
theorem step_cases (h : step s a = some t) :
    (∃ thread fd auto_create, a = .read thread fd auto_create ∧
      (t = s.returning fd none ∨ t = s.returning fd (s.ctx fd) ∨
        t = s.withCreating thread (some fd))) ∨
    (∃ thread fd u, a = .write thread ∧ s.creating thread = some fd ∧ Creates s fd u ∧
      t = u.withCreating thread none) ∨
    (∃ fd, a = .del fd ∧ t = s.del fd) := by
  cases a with
  | read thread fd auto_create =>
    left
    refine ⟨thread, fd, auto_create, rfl, ?_⟩
    simp only [step] at h
    split_ifs at h
    obtain rfl := Option.some.inj h
    unfold readPart
    split_ifs <;> simp
  | write thread =>
    right
    left
    simp only [step] at h
    split at h
    · cases h
    · rename_i fd hfd
      obtain ⟨u, hu, rfl⟩ := Option.map_eq_some_iff.mp h
      exact ⟨thread, fd, u, rfl, hfd, creates_of_writePart hu, rfl⟩
  | del fd =>
    right
    right
    obtain rfl := Option.some.inj h
    exact ⟨fd, rfl, rfl⟩

theorem ctx_del (s : FdManager) (fd fd' : BitVec 32) :
    (s.del fd).ctx fd' = if fd' = fd then none else s.ctx fd' := by
  unfold del
  split_ifs with hle heq heq
  · rw [heq]
    exact entry_of_length_le hle
  · rfl
  · show entry (s.datas.set _ _) _ = _
    rw [entry_set (Nat.not_le.mp hle), if_pos (size_t_inj.mpr heq)]
  · show entry (s.datas.set _ _) _ = _
    rw [entry_set (Nat.not_le.mp hle), if_neg (size_t_inj.not.mpr heq)]
    rfl

theorem mem_returned_del {p : BitVec 32 × ℕ} :
    p ∈ (s.del fd).returned ↔ p ∈ s.returned ∧ p.1 ≠ fd := by
  unfold del
  split_ifs <;> simp

theorem length_del (s : FdManager) (fd : BitVec 32) :
    (s.del fd).datas.length = s.datas.length := by
  unfold del
  split_ifs
  · rfl
  · exact List.length_set

/-- The table never becomes smaller. -/
theorem length_le_of_step (h : step s a = some t) : s.datas.length ≤ t.datas.length := by
  obtain ⟨thread, fd, auto_create, -, rfl | rfl | rfl⟩ | ⟨thread, fd, u, -, -, hu, rfl⟩ |
    ⟨fd, -, rfl⟩ := step_cases h
  · exact Nat.le_refl _
  · exact Nat.le_refl _
  · exact Nat.le_refl _
  · exact hu.length_le
  · exact Nat.le_of_eq (length_del s fd).symm

end Steps

/-! ## Runs -/

section Runs

variable {s t : FdManager} {a : FdAct} {fd : BitVec 32} {as : List FdAct} {c : ℕ}

theorem mem_returning {fd' : BitVec 32} {o : Option ℕ} :
    (fd, c) ∈ (s.returning fd' o).returned ↔ (fd, c) ∈ s.returned ∨ fd = fd' ∧ o = some c := by
  rw [returning, List.mem_append, List.mem_map]
  apply or_congr_right
  constructor
  · rintro ⟨c', hc, heq⟩
    cases heq
    exact ⟨rfl, Option.mem_toList.mp hc⟩
  · rintro ⟨rfl, rfl⟩
    exact ⟨c, by simp, rfl⟩

theorem Creates.mem_returned {fd' : BitVec 32} (h : Creates s fd' t) :
    (fd, c) ∈ t.returned ↔ (fd, c) ∈ s.returned ∨ fd = fd' ∧ c = s.allocated := by
  rw [h.returned_eq, List.mem_append, List.mem_singleton, Prod.mk.injEq]

/-- What holds in every run: a context in the table has been returned, and what has been returned
has been allocated. -/
structure Inv (s : FdManager) : Prop where
  returned_of_ctx : ∀ fd c, s.ctx fd = some c → (fd, c) ∈ s.returned
  lt_allocated : ∀ fd c, (fd, c) ∈ s.returned → c < s.allocated

theorem inv_construct : Inv construct := by
  constructor
  · intro fd c h
    have hnil : construct.ctx fd = none := entry_append_replicate [] 64 (size_t fd)
    rw [hnil] at h
    cases h
  · intro fd c h
    cases h

theorem Inv.step (hi : Inv s) (h : step s a = some t) : Inv t := by
  obtain ⟨thread, fd, auto_create, -, rfl | rfl | rfl⟩ | ⟨thread, fd, u, -, -, hu, rfl⟩ |
    ⟨fd, -, rfl⟩ := step_cases h
  · constructor
    · intro fd' c hc
      exact mem_returning.mpr (.inl (hi.returned_of_ctx fd' c hc))
    · intro fd' c hc
      rcases mem_returning.mp hc with hc | ⟨-, hc⟩
      · exact hi.lt_allocated fd' c hc
      · cases hc
  · constructor
    · intro fd' c hc
      exact mem_returning.mpr (.inl (hi.returned_of_ctx fd' c hc))
    · intro fd' c hc
      rcases mem_returning.mp hc with hc | ⟨rfl, hc⟩
      · exact hi.lt_allocated fd' c hc
      · exact hi.lt_allocated fd' c (hi.returned_of_ctx fd' c hc)
  · exact ⟨hi.returned_of_ctx, hi.lt_allocated⟩
  · constructor
    · intro fd' c hc
      have hctx : (if fd' = fd then some s.allocated else s.ctx fd') = some c :=
        (hu.ctx_eq fd').symm.trans hc
      apply hu.mem_returned.mpr
      split_ifs at hctx with heq
      · exact .inr ⟨heq, (Option.some.inj hctx).symm⟩
      · exact .inl (hi.returned_of_ctx fd' c hctx)
    · intro fd' c hc
      show c < u.allocated
      rw [hu.allocated_eq]
      rcases hu.mem_returned.mp hc with hc | ⟨-, rfl⟩
      · exact Nat.lt_succ_of_lt (hi.lt_allocated fd' c hc)
      · exact Nat.lt_succ_self _
  · constructor
    · intro fd' c hc
      rw [ctx_del] at hc
      split_ifs at hc with heq
      exact mem_returned_del.mpr ⟨hi.returned_of_ctx fd' c hc, heq⟩
    · intro fd' c hc
      have hlt := hi.lt_allocated fd' c (mem_returned_del.mp hc).1
      unfold del
      split_ifs <;> exact hlt

theorem inv_of_exec (h : exec step construct as = some s) : Inv s :=
  exec_invariant (fun _ _ _ hi ht => hi.step ht) inv_construct h

/-- What has been returned for `fd` is in the table. -/
def Current (fd : BitVec 32) (s : FdManager) : Prop := ∀ c, (fd, c) ∈ s.returned → s.ctx fd = some c

theorem Current.single (h : Current fd s) : Single fd s := by
  intro c c' hc hc'
  exact Option.some.inj ((h c hc).symm.trans (h c' hc'))

/-- A step that does not create a context where there is one keeps what has been returned in the
table. -/
theorem Current.step (hc : Current fd s) (hv : Vacant fd s a) (h : step s a = some t) :
    Current fd t := by
  intro c hmem
  obtain ⟨thread, fd', auto_create, -, rfl | rfl | rfl⟩ | ⟨thread, fd', u, rfl, hfd', hu, rfl⟩ |
    ⟨fd', -, rfl⟩ := step_cases h
  · rcases mem_returning.mp hmem with hmem | ⟨-, hnone⟩
    · exact hc c hmem
    · cases hnone
  · rcases mem_returning.mp hmem with hmem | ⟨rfl, hctx⟩
    · exact hc c hmem
    · exact hctx
  · exact hc c hmem
  · show u.ctx fd = some c
    rw [hu.ctx_eq]
    rcases hu.mem_returned.mp hmem with hmem | ⟨rfl, rfl⟩
    · -- it has been in the table before, so this context is another descriptor's
      have hctx := hc c hmem
      rw [if_neg, hctx]
      rintro rfl
      rw [hv thread rfl hfd'] at hctx
      cases hctx
    · exact if_pos rfl
  · obtain ⟨hmem, hne⟩ := mem_returned_del.mp hmem
    rw [ctx_del, if_neg hne]
    exact hc c hmem

/-- The second context of a descriptor is not the one that has been handed out. -/
theorem not_single_of_not_vacant (hi : Inv s) (hv : ¬ Vacant fd s a) :
    ∃ t, step s a = some t ∧ ¬ Single fd t := by
  unfold Vacant at hv
  push Not at hv
  obtain ⟨thread, rfl, hfd, hctx⟩ := hv
  obtain ⟨c, hc⟩ := Option.ne_none_iff_exists'.mp hctx
  obtain ⟨u, hu⟩ := exists_writePart hc
  have hcreates := creates_of_writePart hu
  have hmem := hi.returned_of_ctx fd c hc
  refine ⟨u.withCreating thread none, by simp only [step, hfd, hu, Option.map_some], ?_⟩
  intro hsingle
  have heq := hsingle c s.allocated (hcreates.mem_returned.mpr (.inl hmem))
    (hcreates.mem_returned.mpr (.inr ⟨rfl, rfl⟩))
  exact Nat.ne_of_lt (hi.lt_allocated fd c hmem) heq

theorem length_le_of_exec (h : exec step s as = some t) : s.datas.length ≤ t.datas.length :=
  exec_invariant (I := fun t => s.datas.length ≤ t.datas.length)
    (fun _ _ _ hle ht => Nat.le_trans hle (length_le_of_step ht)) (Nat.le_refl _) h

/-- **One context for a descriptor.** In a run of calls of `get` and `del` by any threads, all the
contexts returned for `fd` between one `del` and the next are the same exactly when no call creates
a context for `fd` where there is one. The table never becomes smaller. -/
theorem oneContext_iff (fd : BitVec 32) (as : List FdAct) :
    OneContext fd as ↔ Guarded step (Vacant fd) construct as := by
  constructor
  · intro h
    rw [guarded_iff]
    rintro bs a cs s rfl hs
    by_contra hv
    obtain ⟨t, ht, hsingle⟩ := not_single_of_not_vacant (inv_of_exec hs) hv
    apply hsingle
    apply h.single (bs ++ [a]) t
    · exact ⟨cs, by simp⟩
    · exact exec_append_eq_some.mpr ⟨s, hs, exec_cons_eq_some.mpr ⟨t, ht, rfl⟩⟩
  · intro hg
    have hcurrent : Throughout step (Current fd) construct as :=
      throughout_of_guarded (fun _ _ _ hc hv ht => hc.step hv ht) (by simp [Current, construct]) hg
    constructor
    · exact fun bs t hb ht => (hcurrent bs t hb ht).single
    · rintro bs _ s t ⟨ds, rfl⟩ - hs ht
      obtain ⟨u, hu, ht⟩ := exec_append_eq_some.mp ht
      obtain rfl := Option.some.inj (hs.symm.trans hu)
      exact length_le_of_exec ht

/-- Two threads find no context for the descriptor 5, and each of them creates one. -/
theorem not_oneContext_of_two : ¬ ∀ (fd : BitVec 32) (as : List FdAct), OneContext fd as := by
  intro h
  have hsingle := (h 5 [.read 0 5 true, .read 1 5 true, .write 0, .write 1]).single _ _
    List.prefix_rfl rfl
  have heq := hsingle 0 1 (by decide) (by decide)
  cases heq

end Runs

end FdManager

end Dag
