import Dag.Foundation.Run
import Dag.IOManager.Outcomes

/-!
# IO events: the table of contexts

The table `m_fdContexts` is shared by all the threads that call `addEvent`. A call looks its file
descriptor up under the read lock. When the table is too small, the call releases that lock, takes
the write lock, sets the size of the table to what *its* file descriptor asks for, and looks it up
again. Then it registers its waiter in the context that it has found, under the lock of the context.

Between the two locks another thread may have grown the table, so that the size asked for is
smaller than the one it has. The contexts are named by numbers, in the order of their allocation.

## Main definitions

* `AddPhase`: where a thread is in its call of `addEvent`
* `ContextTable`, `ContextTable.step`: the table, and the steps of the calls
* `Grows`: a step does not ask for a smaller table than there is

## Main results

* `resize_extends_iff`: a resize keeps the contexts if and only if it does not cut the table off
* `stable_of_exec`: in a run of growing steps the table keeps its contexts
* `reachable_of_exec`: in a run of growing steps waiters are registered where they will be looked for
* `not_stable_of_smaller`: two calls that find the table too small, and the second loses a context
-/

namespace Dag

open Foundation

/-! ## The calls of `addEvent` -/

/-- Where a thread is in `addEvent`. -/
inductive AddPhase
  /-- It is not in a call. -/
  | idle
  /-- It has found the table too small for `fd`, and holds no lock. -/
  | tooSmall (fd : ℕ)
  /-- It has found the context `ctx` for `fd`. -/
  | found (fd ctx : ℕ)
  deriving DecidableEq, Repr

/-- The table, the number of contexts allocated, the threads, and for each registration its file
descriptor and the context it is in. -/
structure ContextTable where
  fdContexts : List ℕ
  allocated : ℕ
  phase : ℕ → AddPhase
  registered : List (ℕ × ℕ)

/-- The steps: the lookup under the read lock, the resize and the lookup under the write lock, and
the critical section of the context, with whether it registers the event. -/
inductive TableAct
  | lookup (thread fd : ℕ)
  | resize (thread : ℕ)
  | register (thread : ℕ) (success : Bool)
  deriving DecidableEq, Repr

namespace ContextTable

/-- `contextResize(size)`. -/
def contextResize (s : ContextTable) (size : ℕ) : ContextTable :=
  { s with
    fdContexts := IOManager.resize (fun i => s.allocated + (i - s.fdContexts.length)) size
      s.fdContexts
    allocated := s.allocated + (size - s.fdContexts.length) }

/-- The table of a new `IOManager`, with no thread in a call. -/
def construct : ContextTable :=
  contextResize ⟨[], 0, fun _ => .idle, []⟩ 32

def withPhase (s : ContextTable) (thread : ℕ) (p : AddPhase) : ContextTable :=
  { s with phase := Function.update s.phase thread p }

/-- One step of a thread. An index outside of the table is undefined behaviour. -/
def step (s : ContextTable) : TableAct → Option ContextTable
  | .lookup thread fd =>
    match s.phase thread with
    | .idle =>
      if fd < s.fdContexts.length then
        s.fdContexts[fd]?.map fun ctx => s.withPhase thread (.found fd ctx)
      else some (s.withPhase thread (.tooSmall fd))
    | _ => none
  | .resize thread =>
    match s.phase thread with
    | .tooSmall fd =>
      -- the size is that of the own file descriptor, and the size of the table is not read again
      let t := s.contextResize (fd * 3 / 2)
      t.fdContexts[fd]?.map fun ctx => t.withPhase thread (.found fd ctx)
    | _ => none
  | .register thread success =>
    match s.phase thread with
    | .found fd ctx =>
      let registered := if success then s.registered ++ [(fd, ctx)] else s.registered
      some ({ s with registered := registered }.withPhase thread .idle)
    | _ => none

/-! ## Growth -/

variable {s t u : ContextTable} {a : TableAct} {thread fd ctx : ℕ}

/-- A step does not ask for a smaller table than there is. -/
def Grows (s : ContextTable) : TableAct → Prop
  | .resize thread => ∀ fd, s.phase thread = .tooSmall fd → s.fdContexts.length ≤ fd * 3 / 2
  | _ => True

/-- A resize keeps the contexts if and only if it does not cut the table off. -/
theorem resize_extends_iff (s : ContextTable) (size : ℕ) :
    s.fdContexts <+: (s.contextResize size).fdContexts ↔ s.fdContexts.length ≤ size := by
  constructor
  · intro h
    have hle := h.length_le
    rwa [contextResize, IOManager.length_resize] at hle
  · intro h
    rw [contextResize]
    dsimp only
    rw [IOManager.resize_of_le h]
    exact List.prefix_append _ _

/-- **What a step can do**: find a context, find the table too small, set its size and find a
context, or end the call. -/
theorem step_cases (h : step s a = some t) :
    (∃ thread fd ctx, a = .lookup thread fd ∧ s.fdContexts[fd]? = some ctx ∧
      t = s.withPhase thread (.found fd ctx)) ∨
    (∃ thread fd, a = .lookup thread fd ∧ t = s.withPhase thread (.tooSmall fd)) ∨
    (∃ thread fd ctx, a = .resize thread ∧ s.phase thread = .tooSmall fd ∧
      (s.contextResize (fd * 3 / 2)).fdContexts[fd]? = some ctx ∧
      t = (s.contextResize (fd * 3 / 2)).withPhase thread (.found fd ctx)) ∨
    (∃ thread fd ctx success, a = .register thread success ∧ s.phase thread = .found fd ctx ∧
      t = { s with registered := if success then s.registered ++ [(fd, ctx)] else s.registered
        }.withPhase thread .idle) := by
  cases a with
  | lookup thread fd =>
    simp only [step] at h
    split at h
    · split_ifs at h
      · obtain ⟨ctx, hctx, rfl⟩ := Option.map_eq_some_iff.mp h
        exact .inl ⟨thread, fd, ctx, rfl, hctx, rfl⟩
      · obtain rfl := Option.some.inj h
        exact .inr (.inl ⟨thread, fd, rfl, rfl⟩)
    · cases h
  | resize thread =>
    simp only [step] at h
    split at h
    · next fd hfd =>
      obtain ⟨ctx, hctx, rfl⟩ := Option.map_eq_some_iff.mp h
      exact .inr (.inr (.inl ⟨thread, fd, ctx, rfl, hfd, hctx, rfl⟩))
    · cases h
  | register thread success =>
    simp only [step] at h
    split at h
    · next fd ctx hctx =>
      obtain rfl := Option.some.inj h
      exact .inr (.inr (.inr ⟨thread, fd, ctx, success, rfl, hctx, rfl⟩))
    · cases h

/-- A growing step keeps the contexts. -/
theorem step_extends (hg : Grows s a) (h : step s a = some t) : s.fdContexts <+: t.fdContexts := by
  rcases step_cases h with ⟨_, _, _, -, -, rfl⟩ | ⟨_, _, -, rfl⟩ | ⟨thread, fd, ctx, rfl, hfd, -, rfl⟩ |
    ⟨_, _, _, _, -, -, rfl⟩
  · exact List.prefix_refl _
  · exact List.prefix_refl _
  · exact (resize_extends_iff s _).mpr (hg fd hfd)
  · exact List.prefix_refl _

theorem getElem?_of_extends {l l' : List ℕ} (h : l <+: l') {i x : ℕ} (hx : l[i]? = some x) :
    l'[i]? = some x := by
  obtain ⟨r, rfl⟩ := h
  rw [List.getElem?_append_left (List.getElem?_eq_some_iff.mp hx).1, hx]

/-- **The table keeps its contexts** in a run whose steps all grow it: its size does not decrease,
and every file descriptor that has a context keeps it. -/
theorem stable_of_exec {as bs : List TableAct}
    (hgrows : Guarded step Grows construct (as ++ bs)) (hs : exec step construct as = some s)
    (hu : exec step s bs = some u) :
    s.fdContexts.length ≤ u.fdContexts.length ∧
      ∀ fd ctx : ℕ, s.fdContexts[fd]? = some ctx → u.fdContexts[fd]? = some ctx := by
  have hkept : s.fdContexts <+: u.fdContexts :=
    exec_invariant_of_guarded (I := fun t => s.fdContexts <+: t.fdContexts)
      (fun _ _ _ hi hg ht => hi.trans (step_extends hg ht)) (List.prefix_refl _)
      ((guarded_append.mp hgrows).2 s hs) hu
  exact ⟨hkept.length_le, fun fd ctx => getElem?_of_extends hkept⟩

/-- A thread that grows the table, registers an event, and is followed by another one. -/
theorem stable_of_exec_two_threads :
    ∃ s u, exec step construct [.lookup 0 50, .resize 0] = some s ∧
      exec step s [.register 0 true, .lookup 1 40, .register 1 true] = some u ∧
      s.fdContexts[50]? = some 50 ∧ u.fdContexts[50]? = some 50 := by
  have hgrows : Guarded step Grows construct ([.lookup 0 50, .resize 0] ++
      [.register 0 true, .lookup 1 40, .register 1 true]) := by
    refine ⟨trivial, fun s₁ h₁ => ?_⟩
    obtain rfl := Option.some.inj h₁
    refine ⟨fun fd hfd => ?_, fun _ _ => ⟨trivial, fun _ _ => ⟨trivial, fun _ _ => ⟨trivial,
      fun _ _ => trivial⟩⟩⟩⟩
    obtain rfl : 50 = fd := AddPhase.tooSmall.inj hfd
    decide
  exact ⟨_, _, rfl, rfl, rfl, (stable_of_exec hgrows rfl rfl).2 50 50 rfl⟩

/-- **A context is lost**: two threads find the table too small, and the second one to resize it
asks for less than the first one. -/
theorem not_stable_of_smaller :
    ¬ ∀ (as bs : List TableAct) (s u : ContextTable), exec step construct as = some s →
      exec step s bs = some u → s.fdContexts.length ≤ u.fdContexts.length ∧
        ∀ fd ctx : ℕ, s.fdContexts[fd]? = some ctx → u.fdContexts[fd]? = some ctx := by
  intro hall
  have hstable := hall [.lookup 0 62, .lookup 1 40, .resize 0] [.resize 1] _ _ rfl rfl
  have hlost := hstable.2 62 62 rfl
  cases hlost

/-! ## Registrations -/

/-- A thread that has found a context has the one in the table, and so has every registration. -/
structure Placed (s : ContextTable) : Prop where
  found : ∀ thread fd ctx, s.phase thread = .found fd ctx → s.fdContexts[fd]? = some ctx
  registered : ∀ fd ctx, (fd, ctx) ∈ s.registered → s.fdContexts[fd]? = some ctx

theorem placed_construct : Placed construct :=
  ⟨nofun, nofun⟩

/-- A thread goes to another phase; when it has found a context, that is the one in the table. -/
theorem Placed.withPhase (hp : Placed s) {p : AddPhase}
    (h : ∀ fd ctx : ℕ, p = .found fd ctx → s.fdContexts[fd]? = some ctx) :
    Placed (s.withPhase thread p) where
  found := by
    intro θ fd ctx hθ
    by_cases hthread : θ = thread
    · subst hthread
      exact h fd ctx ((Function.update_self ..).symm.trans hθ)
    · exact hp.found θ fd ctx ((Function.update_of_ne hthread ..).symm.trans hθ)
  registered := hp.registered

theorem Placed.step (hp : Placed s) (hg : Grows s a) (h : step s a = some t) : Placed t := by
  rcases step_cases h with ⟨thread, fd, ctx, rfl, hctx, rfl⟩ | ⟨thread, fd, rfl, rfl⟩ |
    ⟨thread, fd, ctx, rfl, hfd, hctx, rfl⟩ | ⟨thread, fd, ctx, success, rfl, hctx, rfl⟩
  · refine hp.withPhase fun fd' ctx' heq => ?_
    cases heq
    exact hctx
  · exact hp.withPhase nofun
  · have hkept := (resize_extends_iff s _).mpr (hg fd hfd)
    have hgrown : Placed (s.contextResize (fd * 3 / 2)) :=
      ⟨fun θ fd ctx hθ => getElem?_of_extends hkept (hp.found θ fd ctx hθ),
        fun fd ctx hmem => getElem?_of_extends hkept (hp.registered fd ctx hmem)⟩
    refine hgrown.withPhase fun fd' ctx' heq => ?_
    cases heq
    exact hctx
  · have hadded : Placed { s with
        registered := if success then s.registered ++ [(fd, ctx)] else s.registered } := by
      refine ⟨hp.found, fun fd' ctx' hmem => ?_⟩
      cases success with
      | false => exact hp.registered fd' ctx' hmem
      | true =>
        rcases List.mem_append.mp hmem with hmem | hmem
        · exact hp.registered fd' ctx' hmem
        · obtain ⟨rfl, rfl⟩ := Prod.mk.inj (List.mem_singleton.mp hmem)
          exact hp.found thread _ _ hctx
    exact hadded.withPhase nofun

/-- **Waiters can be reached** in a run whose steps all grow the table: every registration is in the
context that the table has for its file descriptor. -/
theorem reachable_of_exec {as : List TableAct} (hgrows : Guarded step Grows construct as)
    (h : exec step construct as = some s) :
    ∀ fd ctx : ℕ, (fd, ctx) ∈ s.registered → s.fdContexts[fd]? = some ctx :=
  (exec_invariant_of_guarded (fun _ _ _ hp hg ht => hp.step hg ht) placed_construct hgrows
    h).registered

end ContextTable

end Dag
