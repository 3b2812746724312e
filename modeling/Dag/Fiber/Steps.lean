import Dag.Fiber.Modes

/-!
# Every step leads from modes to modes

What each operation of a fiber, each switch and each part of `Scheduler::run` does to the mode of
the thread that makes it, and that this is all that a step does.

## Main definitions

* `Fibers.OwnScheduler`: the caller thread takes no fiber that was not made for the scheduler

## Main results

* `Fibers.Modes.swap_resume`, `Fibers.Modes.swap_yield`: what a switch does to the modes
* `Fibers.Modes.step`: every step leads from modes to modes
-/

namespace Dag

open Foundation

namespace Fibers

variable {n : ℕ}

section Step

variable {c : FiberSetup n} {strict : Prop} {s t : Fibers n} {mode : Fin n → Mode n} {w : Fin n}
  {m : Mode n} {x : FiberId n} {a : Act n}

@[simp] theorem setThread_self (th : FiberThread n) : (s.setThread w th).thread w = th :=
  Function.update_self ..

theorem setThread_of_ne (th : FiberThread n) {v : Fin n} (hv : v ≠ w) :
    (s.setThread w th).thread v = s.thread v := Function.update_of_ne hv ..

@[simp] theorem setThread_setThread (th th' : FiberThread n) :
    (s.setThread w th).setThread w th' = s.setThread w th' := by
  simp [setThread]

/-- The call of `resume` on a fiber that is ready. -/
theorem resume_setThread (h : s.m_state x = .ready) (th : FiberThread n) :
    (s.setThread w th).resume c w x =
      { s with
        m_state := Function.update s.m_state x .running
        entered := s.entered ++ [(x, FiberState.ready)] }.setThread w
        { th with
          t_fiber := x
          switch := some (.resume
            (if c.m_runInScheduler x then th.t_scheduler_fiber else th.t_thread_fiber) x) } := by
  simp [resume, h, slot, setThread]

/-- The call of `yield` on a fiber that is running, or has ended. -/
theorem yield_eq (h : s.m_state x ≠ .ready) : s.yield c w x =
    { s with
      m_state := if s.m_state x = FiberState.term then s.m_state
        else Function.update s.m_state x .ready }.setThread w
      { s.thread w with t_fiber := s.slot c w x, switch := some (.yield x (s.slot c w x)) } := by
  have hstate : s.m_state x = .running ∨ s.m_state x = .term := by
    cases hx : s.m_state x with
    | ready => exact absurd hx h
    | running => exact Or.inl rfl
    | term => exact Or.inr rfl
  rw [yield, if_pos hstate]

theorem InMode.thread_of_not_home (h : s.InMode c strict w m) (hm : ¬ m.Home) :
    s.thread w = m.thread c w := by
  rw [h.thread, h.t_fiber (Or.inr hm)]

/-- A thread is in a mode when it is the thread of that mode, up to what `t_fiber` is at home. -/
theorem inMode_of {f : FiberId n} (hthread : s.thread w = { m.thread c w with t_fiber := f })
    (hf : strict ∨ ¬ m.Home → f = (m.thread c w).t_fiber) (hmain : s.m_state (.main w) = .running)
    (huses : s.Uses c strict w m) : s.InMode c strict w m := by
  refine ⟨?_, ?_, hmain, huses⟩
  · rw [hthread]
  · rw [hthread]
    exact hf

theorem entered_append (h : s.Modes c strict mode) (x : FiberId n) :
    ∀ e ∈ s.entered ++ [(x, FiberState.ready)], e.2 = .ready := by
  intro e he
  rcases List.mem_append.mp he with he | he
  · exact h.entered e he
  · rw [List.mem_singleton.mp he]

/-- The first resume of the scheduling fiber. -/
theorem Modes.stop (h : s.Modes c strict mode) (ht : s.step c (.stop w) = some t) :
    ∃ mode', t.Modes c strict mode' := by
  simp only [step] at ht
  split_ifs at ht with hcond
  obtain ⟨hcaller, hexec, hswitch, hstopped⟩ := hcond
  obtain rfl := Option.some.inj ht
  have hm := h.eq_before hcaller hexec hswitch hstopped
  have hin := h.inMode w
  rw [hm] at hin
  obtain ⟨-, hready, hctx⟩ := hin.uses
  have hth := hin.thread_of_not_home id
  rw [resume_setThread hready]
  refine ⟨Function.update mode w .starting, h.stay ?_ ?_ ?_ ?_ rfl rfl h.queue
    (entered_append h _) h.asserted⟩
  · rw [hm]
    rfl
  · exact fun v hv => setThread_of_ne _ hv
  · intro x hx
    rw [hm] at hx
    have hne : x ≠ .scheduling w := fun heq => hx (Or.inr (Or.inl heq))
    exact ⟨Function.update_of_ne hne _ _, rfl⟩
  · refine inMode_of (f := .scheduling w) ?_ (fun _ => rfl) ?_ ?_
    · rw [setThread_self, hth]
      rfl
    · change Function.update s.m_state (.scheduling w) .running (.main w) = _
      have hne : FiberId.main w ≠ .scheduling w := nofun
      rw [Function.update_of_ne hne]
      exact hin.main
    · exact ⟨hcaller, Function.update_self .., hctx⟩

/-- The way from home to a guest that is ready. -/
theorem InMode.enter {a : RunAt n} (h : s.InMode c strict w (.home a)) (hguest : IsGuest x)
    (hready : s.m_state x = .ready) (hctx : s.m_ctx x = some x) (hflag : Flagged c strict w x)
    (hexit : a ≠ .exited) :
    ((s.setRunAt w (.resuming x)).resume c w x).InMode c strict w (.entering x) := by
  obtain ⟨halive, hsuspended, -⟩ := h.uses
  obtain ⟨hmain, hscheduling, -⟩ := guest_ne (c := c) (w := w) hguest
  rw [setRunAt, resume_setThread hready]
  refine inMode_of (f := x) ?_ (fun _ => rfl) ?_ ⟨?_, hsuspended, ?_, hctx, hflag⟩
  · rw [setThread_self, h.thread]
    rfl
  · exact (Function.update_of_ne hmain.symm _ _).trans h.main
  · intro hcaller
    have halive' := (halive.resolve_right fun hend => hexit hend.2.1) hcaller
    exact (Function.update_of_ne hscheduling.symm _ _).trans halive'
  · exact Function.update_self ..

/-- The resume of a guest that the thread holds. -/
theorem Modes.enter_held (h : s.Modes c strict mode) {a : RunAt n} (hm : mode w = .home a)
    (ha : a.holds = some x) (hready : s.m_state x = .ready) :
    ((s.setRunAt w (.resuming x)).resume c w x).Modes c strict
      (Function.update mode w (.entering x)) := by
  have hin := h.inMode w
  rw [hm] at hin
  have hholds : (mode w).holds = some x := by
    rw [hm]
    exact ha
  obtain ⟨-, hctx, hflag⟩ := hin.uses.2.2.1 x ha
  have hmode := hin.enter (h.isGuest hholds) hready hctx hflag (by rintro rfl; cases ha)
  rw [setRunAt, resume_setThread hready] at hmode ⊢
  refine h.stay hholds.symm (fun v hv => setThread_of_ne _ hv) ?_ hmode rfl rfl h.queue
    (entered_append h _) h.asserted
  intro y hy
  have hne : y ≠ x := by
    rintro rfl
    exact hy (Or.inr (Or.inr hholds))
  exact ⟨Function.update_of_ne hne _ _, rfl⟩

theorem Suspended.congr (h : s.Suspended c strict w)
    (hctx : t.m_ctx (.main w) = s.m_ctx (.main w)) : t.Suspended c strict w := by
  unfold Suspended
  rw [hctx]
  exact h

/-- A switch changes the contexts that it saves to and restores from. -/
theorem swapped_of_ne {f : FiberId n → Option (FiberId n)} {save load : FiberId n}
    {flow : Option (FiberId n)} (hsave : x ≠ save) (hload : x ≠ load) :
    Function.update (Function.update f save flow) load none x = f x := by
  rw [Function.update_of_ne hload, Function.update_of_ne hsave]

/-- The context that a switch has saved to. -/
theorem swapped_save {f : FiberId n → Option (FiberId n)} {save load : FiberId n}
    {flow : Option (FiberId n)} (hne : save ≠ load) :
    Function.update (Function.update f save flow) load none save = flow := by
  rw [Function.update_of_ne hne, Function.update_self]

/-- The context that a switch has restored from. -/
theorem swapped_load {f : FiberId n → Option (FiberId n)} {save load : FiberId n}
    {flow : Option (FiberId n)} (hx : x = load) :
    Function.update (Function.update f save flow) load none x = none := by
  rw [hx, Function.update_self]

/-- The switch of a resume, into the scheduling fiber or a guest. -/
theorem Modes.swap_resume (h : s.Modes c strict mode) {save load : FiberId n}
    (hswitch : (s.thread w).switch = some (.resume save load)) (ht : s.swap w = some t) :
    ∃ mode', t.Modes c strict mode' := by
  have hin := h.inMode w
  obtain ⟨hexec', hswitch', -⟩ := h.thread_eq w
  simp only [Fibers.swap, hswitch] at ht
  obtain ⟨flow, hflow, rfl⟩ := Option.map_eq_some_iff.mp ht
  rw [hswitch] at hswitch'
  cases hm : mode w with
  | starting =>
    rw [hm] at hin hexec' hswitch'
    obtain ⟨rfl, rfl⟩ := Switch.resume.inj (Option.some.inj hswitch')
    obtain ⟨hcaller, hrunning, hctx⟩ := hin.uses
    have hth := hin.thread_of_not_home id
    have hne : FiberId.main w ≠ .scheduling w := by simp
    rw [Function.update_of_ne hne.symm, hctx] at hflow
    obtain rfl := Option.some.inj hflow
    refine ⟨Function.update mode w (.home .loop), h.stay (by rw [hm]; rfl)
      (fun v hv => setThread_of_ne _ hv) (fun x hx => ⟨rfl, ?_⟩) ?_ rfl rfl h.queue h.entered
      h.asserted⟩
    · rw [hm] at hx
      exact swapped_of_ne (fun heq => hx (Or.inl heq)) (fun heq => hx (Or.inr (Or.inl heq)))
    · refine inMode_of (f := .scheduling w) ?_ (fun _ => (runFiber_of_caller hcaller).symm) hin.main
        ⟨Or.inl fun _ => hrunning, fun _ => Or.inl ?_, by rintro x ⟨⟩, by rintro x ⟨⟩,
          by rintro x ⟨⟩⟩
      · rw [setThread_self, hth]
        simp only [Mode.thread, FiberSetup.base, runFiber_of_caller hcaller, hcaller, if_true]
      · refine (swapped_save hne).trans ?_
        rw [hexec']
        rfl
  | entering x =>
    rw [hm] at hin hexec' hswitch'
    obtain ⟨rfl, rfl⟩ := Switch.resume.inj (Option.some.inj hswitch')
    obtain ⟨halive, hsuspended, hrunning, hctx, hflag⟩ := hin.uses
    have hth := hin.thread_of_not_home id
    have hguest : IsGuest load := h.isGuest (by rw [hm]; rfl)
    obtain ⟨hmain, -, hslot, -⟩ := guest_ne (c := c) (w := w) hguest
    rw [Function.update_of_ne hslot, hctx] at hflow
    obtain rfl := Option.some.inj hflow
    refine ⟨Function.update mode w (.inside load), h.stay (by rw [hm]; rfl)
      (fun v hv => setThread_of_ne _ hv) (fun x hx => ⟨rfl, ?_⟩) ?_ rfl rfl h.queue h.entered
      h.asserted⟩
    · rw [hm] at hx
      have hx₁ : x ≠ c.slotOf w load := by
        rintro rfl
        rcases slotOf_eq c w load with heq | heq
        · exact hx (Or.inl heq)
        · exact hx (Or.inr (Or.inl heq))
      exact swapped_of_ne hx₁ (fun heq => hx (Or.inr (Or.inr (heq ▸ rfl))))
    · refine inMode_of (f := load) ?_ (fun _ => rfl) hin.main
        ⟨halive, fun hscheduler => ?_, ?_, ?_, hflag⟩
      · rw [setThread_self, hth]
        rfl
      · intro hcaller
        have hne : FiberId.main w ≠ c.slotOf w load := by
          rw [FiberSetup.slotOf, if_pos hscheduler, runFiber_of_caller hcaller]
          simp
        exact hsuspended.congr (swapped_of_ne hne hmain.symm) hcaller
      · change s.m_state load ≠ _
        rw [hrunning]
        simp
      · refine (swapped_save hslot.symm).trans ?_
        rw [hexec']
        rfl
  | before | home | inside | leaving | closing | after =>
    rw [hm] at hswitch'
    cases hswitch'

/-- The switch of a yield, back from a guest or out of the scheduling fiber. -/
theorem Modes.swap_yield (h : s.Modes c strict mode) {save load : FiberId n}
    (hswitch : (s.thread w).switch = some (.yield save load)) (ht : s.swap w = some t) :
    ∃ mode', t.Modes c strict mode' := by
  have hin := h.inMode w
  obtain ⟨hexec', hswitch', -⟩ := h.thread_eq w
  simp only [Fibers.swap, hswitch] at ht
  obtain ⟨flow, hflow, rfl⟩ := Option.map_eq_some_iff.mp ht
  rw [hswitch] at hswitch'
  cases hm : mode w with
  | leaving x =>
    rw [hm] at hin hexec' hswitch'
    obtain ⟨rfl, rfl⟩ := Switch.yield.inj (Option.some.inj hswitch')
    obtain ⟨halive, hsuspended, hstate, hctx, hflag⟩ := hin.uses
    have hth := hin.thread_of_not_home id
    have hguest : IsGuest save := h.isGuest (by rw [hm]; rfl)
    obtain ⟨hmain, -, hslot, -⟩ := guest_ne (c := c) (w := w) hguest
    rw [Function.update_of_ne hslot.symm, hctx] at hflow
    obtain rfl := Option.some.inj hflow
    refine ⟨Function.update mode w (.home (.resuming save)), h.stay (by rw [hm]; rfl)
      (fun v hv => setThread_of_ne _ hv) (fun x hx => ⟨rfl, ?_⟩) ?_ rfl rfl h.queue h.entered
      h.asserted⟩
    · rw [hm] at hx
      have hx₁ : x ≠ c.slotOf w save := by
        rintro rfl
        rcases slotOf_eq c w save with heq | heq
        · exact hx (Or.inl heq)
        · exact hx (Or.inr (Or.inl heq))
      exact swapped_of_ne (fun heq => hx (Or.inr (Or.inr (heq ▸ rfl)))) hx₁
    · refine inMode_of (f := c.slotOf w save) ?_ ?_ hin.main
        ⟨Or.inl halive, ?_, ?_, by rintro x ⟨⟩, by rintro x ⟨⟩⟩
      · rw [setThread_self, hth]
        rfl
      · -- without fibers that are strangers to the scheduler, the slot is that of `run`
        intro hnamed
        have hstrict : strict := hnamed.resolve_right fun hhome => hhome trivial
        change c.slotOf w save = c.runFiber w
        rw [FiberSetup.slotOf]
        split_ifs with hscheduler
        · rfl
        · rw [FiberSetup.runFiber, if_neg]
          exact fun hcaller => hscheduler (hflag hstrict hcaller)
      · intro hcaller
        by_cases hscheduler : c.m_runInScheduler save = true
        · have hne : FiberId.main w ≠ c.slotOf w save := by
            rw [FiberSetup.slotOf, if_pos hscheduler, runFiber_of_caller hcaller]
            simp
          exact (hsuspended hscheduler).congr (swapped_of_ne hmain.symm hne) hcaller
        · -- a stranger has come back through the context of the main fiber
          have heq : c.slotOf w save = .main w := by rw [FiberSetup.slotOf, if_neg hscheduler]
          exact Or.inr ⟨fun hstrict => hscheduler (hflag hstrict hcaller), swapped_load heq.symm⟩
      · intro x hx
        obtain rfl := Option.some.inj hx
        refine ⟨hstate, (swapped_save hslot).trans ?_, hflag⟩
        rw [hexec']
        rfl
  | closing =>
    rw [hm] at hin hexec' hswitch'
    obtain ⟨rfl, rfl⟩ := Switch.yield.inj (Option.some.inj hswitch')
    obtain ⟨hcaller, hterm, hsuspended⟩ := hin.uses
    have hth := hin.thread_of_not_home id
    have hne : FiberId.main w ≠ .scheduling w := by simp
    rw [Function.update_of_ne hne] at hflow
    -- only the main fiber can be in its own context here
    have hself : flow = .main w := by
      rcases hsuspended hcaller with hctx | ⟨-, hctx⟩
      · exact Option.some.inj (hflow.symm.trans hctx)
      · rw [hctx] at hflow
        cases hflow
    subst hself
    refine ⟨Function.update mode w .after, h.stay (by rw [hm]; rfl)
      (fun v hv => setThread_of_ne _ hv) (fun x hx => ⟨rfl, ?_⟩) ?_ rfl rfl h.queue h.entered
      h.asserted⟩
    · rw [hm] at hx
      exact swapped_of_ne (fun heq => hx (Or.inr (Or.inl heq))) (fun heq => hx (Or.inl heq))
    · refine inMode_of (f := .main w) ?_ (fun _ => rfl) hin.main ⟨hcaller, hterm⟩
      rw [setThread_self, hth]
      simp only [Mode.thread, FiberSetup.base, hcaller, if_true, List.tail_cons]
  | before | starting | home | entering | inside | after =>
    rw [hm] at hswitch'
    cases hswitch'

/-- A thread in `run` goes on to another place there, with the same guest. -/
theorem InMode.setRunAt {a a' : RunAt n} (h : s.InMode c strict w (.home a))
    (huses : s.Uses c strict w (.home a')) :
    (s.setRunAt w a').InMode c strict w (.home a') := by
  refine inMode_of (f := (s.thread w).t_fiber) ?_ ?_ h.main huses
  · rw [Fibers.setRunAt, setThread_self]
    rw [h.thread]
    rfl
  · intro hnamed
    exact h.t_fiber hnamed

/-- Where a thread is in `run`, what it uses of its own fibers. -/
theorem InMode.uses_home {a a' : RunAt n} (h : s.InMode c strict w (.home a)) (ha : a ≠ .exited)
    (hholds : ∀ x, a'.holds = some x →
      s.m_state x ≠ .running ∧ s.m_ctx x = some x ∧ Flagged c strict w x)
    (hwrapped : ∀ x, a' = .wrapped x → s.m_state x = .ready)
    (hwaiting : ∀ x, a' = .waiting x → s.IsTask x ∧ Flagged c strict w x) :
    s.Uses c strict w (.home a') :=
  ⟨Or.inl (h.uses.1.resolve_right fun hend => ha hend.2.1), h.uses.2.1, hholds, hwrapped, hwaiting⟩

/-- A task with a fiber is taken out of the queue. -/
theorem Modes.dequeue_fiber (h : s.Modes c strict mode) (hrun : s.AtRun c w .loop) {k : ℕ}
    (hk : s.m_tasks[k]? = some (some x)) (hflag : Flagged c strict w x) :
    ({ s with m_tasks := s.m_tasks.eraseIdx k }.setRunAt w (.waiting x)).Modes c strict
      (Function.update mode w (.home (.waiting x))) := by
  have hm := h.eq_home hrun
  have hin := h.inMode w
  rw [hm] at hin
  have htask := h.queue x (List.mem_of_getElem? hk)
  refine h.stay (by rw [hm]; rfl) (fun v hv => setThread_of_ne _ hv) (fun _ _ => ⟨rfl, rfl⟩) ?_ rfl
    rfl (fun y hy => h.queue y (List.mem_of_mem_eraseIdx hy)) h.entered h.asserted
  refine InMode.setRunAt (a := .loop) (hin.congr rfl (fun _ => id) fun _ _ => ⟨rfl, rfl⟩) ?_
  refine hin.uses_home nofun nofun nofun fun y hy => ?_
  obtain rfl := RunAt.waiting.inj hy
  exact ⟨htask, hflag⟩

/-- A thread that had no guest has taken the mutex of a fiber that nobody held. -/
theorem Modes.mutex_acquire (h : s.Modes c strict mode) (hnone : (mode w).holds = none)
    (hm : m.holds = some x) (hfree : ∀ v, (mode v).holds ≠ some x) {y : FiberId n}
    (hy : s.IsTask y ∨ y = x) (v : Fin n) :
    Function.update s.m_mutex x (some w) y = some v ↔
      (Function.update mode w m v).holds = some y := by
  by_cases hyx : y = x
  · subst hyx
    rw [Function.update_self]
    by_cases hvw : v = w
    · subst hvw
      simp [hm]
    · rw [Function.update_of_ne hvw]
      exact iff_of_false (fun heq => hvw (Option.some.inj heq).symm) (hfree v)
  · rw [Function.update_of_ne hyx, h.mutex y (hy.resolve_right hyx) v]
    by_cases hvw : v = w
    · subst hvw
      rw [Function.update_self, hm, hnone]
      exact iff_of_false nofun fun heq => hyx (Option.some.inj heq).symm
    · rw [Function.update_of_ne hvw]

/-- A thread has released the mutex of its guest. -/
theorem Modes.mutex_release (h : s.Modes c strict mode) (hold : (mode w).holds = some x)
    (hm : m.holds = none) {y : FiberId n} (hy : s.IsTask y) (v : Fin n) :
    Function.update s.m_mutex x none y = some v ↔ (Function.update mode w m v).holds = some y := by
  by_cases hyx : y = x
  · subst hyx
    rw [Function.update_self]
    refine iff_of_false nofun fun heq => ?_
    by_cases hvw : v = w
    · subst hvw
      rw [Function.update_self, hm] at heq
      cases heq
    · rw [Function.update_of_ne hvw] at heq
      exact hvw (h.unique heq hold)
  · rw [Function.update_of_ne hyx, h.mutex y hy v]
    by_cases hvw : v = w
    · subst hvw
      rw [Function.update_self, hm, hold]
      exact iff_of_false (fun heq => hyx (Option.some.inj heq).symm) nofun
    · rw [Function.update_of_ne hvw]

/-- The mutex of a fiber that the thread neither had nor has. -/
theorem Modes.mutex_keep (h : s.Modes c strict mode) (hold : (mode w).holds ≠ some x)
    (hm : m.holds ≠ some x) (hx : s.IsTask x) (v : Fin n) :
    s.m_mutex x = some v ↔ (Function.update mode w m v).holds = some x := by
  rw [h.mutex x hx v]
  by_cases hvw : v = w
  · subst hvw
    rw [Function.update_self]
    exact iff_of_false hold hm
  · rw [Function.update_of_ne hvw]

/-- A fiber is made for a callback, and locked. -/
theorem Modes.dequeue_cb (h : s.Modes c strict mode) (hrun : s.AtRun c w .loop) (k : ℕ) :
    ({ s with
      m_tasks := s.m_tasks.eraseIdx k
      created := s.created + 1
      m_mutex := Function.update s.m_mutex (.made s.created) (some w) }.setRunAt w
        (.wrapped (.made s.created))).Modes c strict
      (Function.update mode w (.home (.wrapped (.made s.created)))) := by
  have hm := h.eq_home hrun
  have hin := h.inMode w
  rw [hm] at hin
  have hfree : ∀ v, (mode v).holds ≠ some (.made s.created) := by
    intro v hv
    rcases h.held v _ hv with hx | hx
    · exact absurd hx (Nat.lt_irrefl _)
    · cases hx
  obtain ⟨hstate, hctx⟩ := h.rest (.made s.created) trivial hfree
  have hmore : ∀ y, s.IsTask y →
      y ≠ .made s.created ∧ ∀ t : Fibers n, t.created = s.created + 1 → t.IsTask y := by
    intro y hy
    cases y with
    | made k =>
      have hk : k < s.created := hy
      refine ⟨fun heq => ?_, fun t ht => ?_⟩
      · obtain rfl := FiberId.made.inj heq
        exact Nat.lt_irrefl _ hk
      · change k < t.created
        omega
    | user i => exact ⟨nofun, fun _ _ => trivial⟩
    | main | scheduling | idle => exact hy.elim
  refine h.change (fun v hv => setThread_of_ne _ hv) (fun _ _ _ => ⟨rfl, rfl⟩) ?_ ?_ ?_ ?_ ?_
    (fun y hy => (hmore y hy).2 _ rfl) ?_ ?_ h.entered h.asserted
  · refine InMode.setRunAt (a := .loop)
      (hin.congr rfl (fun y hy => (hmore y hy).2 _ rfl) fun _ _ => ⟨rfl, rfl⟩) ?_
    have huses : s.Uses c strict w (.home (.wrapped (.made s.created))) :=
      hin.uses_home nofun ?_ ?_ nofun
    · exact ⟨huses.1, huses.2.1, huses.2.2.1, huses.2.2.2.1, nofun⟩
    · intro y hy
      obtain rfl := Option.some.inj hy
      exact ⟨hstate, hctx, fun _ _ => rfl⟩
    · intro y hy
      obtain rfl := RunAt.wrapped.inj hy
      exact h.fresh _ (Nat.le_refl _)
  · intro y hy
    obtain rfl := Option.some.inj hy
    exact Or.inr hfree
  · intro y hy
    obtain rfl := Option.some.inj hy
    exact Or.inl (Nat.lt_succ_self s.created)
  · intro y hy
    rw [hm] at hy
    cases hy
  · intro y hy v
    refine h.mutex_acquire (by rw [hm]; rfl) rfl hfree ?_ v
    cases y with
    | made k =>
      have hk : k < s.created + 1 := hy
      rcases Nat.lt_succ_iff_lt_or_eq.mp hk with hk | rfl
      · exact Or.inl hk
      · exact Or.inr rfl
    | user i => exact Or.inl trivial
    | main | scheduling | idle => exact hy.elim
  · intro k hk
    exact h.fresh k (Nat.le_of_succ_le hk)
  · intro y hy
    exact (hmore y (h.queue y (List.mem_of_mem_eraseIdx hy))).2 _ rfl

/-- The mutex of a task's fiber is taken. -/
theorem Modes.lock (h : s.Modes c strict mode) (hrun : s.AtRun c w (.waiting x))
    (hmutex : s.m_mutex x = none) :
    ({ s with m_mutex := Function.update s.m_mutex x (some w) }.setRunAt w (.locked x)).Modes c
      strict (Function.update mode w (.home (.locked x))) := by
  have hm := h.eq_home hrun
  have hin := h.inMode w
  rw [hm] at hin
  obtain ⟨htask, hflag⟩ := hin.uses.2.2.2.2 x rfl
  have hfree : ∀ v, (mode v).holds ≠ some x := by
    intro v hv
    have hother := (h.mutex x htask v).mpr hv
    rw [hmutex] at hother
    cases hother
  obtain ⟨hstate, hctx⟩ := h.rest x (isGuest_of_isTask htask) hfree
  refine h.change (fun v hv => setThread_of_ne _ hv) (fun _ _ _ => ⟨rfl, rfl⟩) ?_ ?_ ?_ ?_ ?_
    (fun _ => id) h.fresh h.queue h.entered h.asserted
  · refine InMode.setRunAt (a := .waiting x) (hin.congr rfl (fun _ => id) fun _ _ => ⟨rfl, rfl⟩) ?_
    refine hin.uses_home nofun ?_ nofun nofun
    intro y hy
    obtain rfl := Option.some.inj hy
    exact ⟨hstate, hctx, hflag⟩
  · intro y hy
    obtain rfl := Option.some.inj hy
    exact Or.inr hfree
  · intro y hy
    obtain rfl := Option.some.inj hy
    exact Or.inl htask
  · intro y hy
    rw [hm] at hy
    cases hy
  · intro y hy v
    exact h.mutex_acquire (by rw [hm]; rfl) rfl hfree (Or.inl hy) v

/-- A thread at home lets go of a task, and goes on at the head of the loop. -/
theorem Modes.unlock (h : s.Modes c strict mode) {a : RunAt n} (hrun : s.AtRun c w a)
    (ha : a.holds = some x) :
    ({ s with m_mutex := Function.update s.m_mutex x none }.setRunAt w .loop).Modes c strict
      (Function.update mode w (.home .loop)) := by
  have hm := h.eq_home hrun
  have hin := h.inMode w
  rw [hm] at hin
  have hholds : (mode w).holds = some x := by
    rw [hm]
    exact ha
  obtain ⟨hstate, hctx, -⟩ := hin.uses.2.2.1 x ha
  refine h.change (fun v hv => setThread_of_ne _ hv) (fun _ _ _ => ⟨rfl, rfl⟩) ?_ nofun nofun ?_ ?_
    (fun _ => id) h.fresh h.queue h.entered h.asserted
  · refine InMode.setRunAt (a := a) (hin.congr rfl (fun _ => id) fun _ _ => ⟨rfl, rfl⟩) ?_
    exact hin.uses_home (by rintro rfl; cases ha) nofun nofun nofun
  · intro y hy _
    obtain rfl := Option.some.inj (hholds.symm.trans hy)
    exact ⟨hstate, hctx⟩
  · intro y hy v
    exact h.mutex_release hholds rfl hy v

/-- A thread is back from its idle fiber. -/
theorem Modes.back_idle (h : s.Modes c strict mode) (hrun : s.AtRun c w (.resuming (.idle w))) :
    (s.setRunAt w .loop).Modes c strict (Function.update mode w (.home .loop)) := by
  have hm := h.eq_home hrun
  have hin := h.inMode w
  rw [hm] at hin
  obtain ⟨hstate, hctx, -⟩ := hin.uses.2.2.1 (.idle w) rfl
  refine h.change (fun v hv => setThread_of_ne _ hv) (fun _ _ _ => ⟨rfl, rfl⟩) ?_ nofun nofun ?_ ?_
    (fun _ => id) h.fresh h.queue h.entered h.asserted
  · exact hin.setRunAt (hin.uses_home nofun nofun nofun nofun)
  · intro y hy _
    rw [hm] at hy
    obtain rfl := Option.some.inj hy
    exact ⟨hstate, hctx⟩
  · intro y hy v
    have hne : y ≠ .idle w := by
      rintro rfl
      exact hy
    refine h.mutex_keep (m := .home .loop) ?_ nofun hy v
    rw [hm]
    exact fun heq => hne (Option.some.inj heq).symm

/-- The resume of the idle fiber, which no other thread holds. -/
theorem Modes.enter_idle (h : s.Modes c strict mode) (hrun : s.AtRun c w .loop)
    (hterm : s.m_state (.idle w) ≠ .term) :
    ((s.setRunAt w (.resuming (.idle w))).resume c w (.idle w)).Modes c strict
      (Function.update mode w (.entering (.idle w))) := by
  have hm := h.eq_home hrun
  have hin := h.inMode w
  rw [hm] at hin
  have hfree : ∀ v, (mode v).holds ≠ some (.idle w) := by
    intro v hv
    rcases h.held v _ hv with hx | hx
    · exact hx
    · obtain rfl := FiberId.idle.inj hx
      rw [hm] at hv
      cases hv
  obtain ⟨hstate, hctx⟩ := h.rest (.idle w) trivial hfree
  have hready : s.m_state (.idle w) = .ready := by
    cases hx : s.m_state (.idle w) with
    | ready => rfl
    | running => exact absurd hx hstate
    | term => exact absurd hx hterm
  have hmode := hin.enter (x := .idle w) trivial hready hctx (fun _ _ => rfl) nofun
  rw [setRunAt, resume_setThread hready] at hmode ⊢
  refine h.change (fun v hv => setThread_of_ne _ hv) ?_ hmode ?_ ?_ ?_ ?_ (fun _ => id) ?_ h.queue
    (entered_append h _) h.asserted
  · intro y _ hy
    have hne : y ≠ .idle w := by
      rintro rfl
      exact hy (Or.inr (Or.inr rfl))
    exact ⟨Function.update_of_ne hne _ _, rfl⟩
  · intro y hy
    obtain rfl := Option.some.inj hy
    exact Or.inr hfree
  · intro y hy
    obtain rfl := Option.some.inj hy
    exact Or.inr rfl
  · intro y hy
    rw [hm] at hy
    cases hy
  · intro y hy v
    have hne : y ≠ .idle w := by
      rintro rfl
      exact hy
    refine h.mutex_keep (m := .entering (.idle w)) ?_ (fun heq => hne (Option.some.inj heq).symm) hy v
    rw [hm]
    exact nofun
  · intro k hk
    change Function.update s.m_state (.idle w) .running (.made k) = _
    have hne : FiberId.made k ≠ .idle w := nofun
    rw [Function.update_of_ne hne]
    exact h.fresh k hk

theorem InMode.slot_eq (h : s.InMode c strict w m) (x : FiberId n) :
    s.slot c w x = c.slotOf w x := by
  have hscheduler : (s.thread w).t_scheduler_fiber = c.runFiber w := by
    rw [h.thread]
    cases m <;> rfl
  have hthread : (s.thread w).t_thread_fiber = .main w := by
    rw [h.thread]
    cases m <;> rfl
  rw [slot, hscheduler, hthread, FiberSetup.slotOf]

/-- The yield of a guest, which is not ready, up to the switch. -/
theorem Modes.leave (h : s.Modes c strict mode) (hm : mode w = .inside x) :
    (s.yield c w x).Modes c strict (Function.update mode w (.leaving x)) := by
  have hin := h.inMode w
  rw [hm] at hin
  have hholds : (mode w).holds = some x := by
    rw [hm]
    rfl
  obtain ⟨halive, hsuspended, hstate, hctx, hflag⟩ := hin.uses
  obtain ⟨hmain, hscheduling, -⟩ := guest_ne (c := c) (w := w) (h.isGuest hholds)
  have hkeep : ∀ y, y ≠ x → (if s.m_state x = FiberState.term then s.m_state
      else Function.update s.m_state x .ready) y = s.m_state y := by
    intro y hy
    split_ifs
    · rfl
    · exact Function.update_of_ne hy _ _
  rw [yield_eq hstate]
  refine h.stay hholds.symm (fun v hv => setThread_of_ne _ hv) (fun y hy => ⟨?_, rfl⟩) ?_ rfl rfl
    h.queue h.entered h.asserted
  · refine hkeep y ?_
    rintro rfl
    exact hy (Or.inr (Or.inr hholds))
  · refine inMode_of (f := s.slot c w x) ?_ ?_ ((hkeep _ hmain.symm).trans hin.main)
      ⟨fun hcaller => (hkeep _ hscheduling.symm).trans (halive hcaller), hsuspended, ?_, hctx,
        hflag⟩
    · rw [setThread_self, hin.slot_eq, hin.thread_of_not_home id]
      rfl
    · intro _
      rw [hin.slot_eq]
      rfl
    · change (if s.m_state x = FiberState.term then s.m_state
        else Function.update s.m_state x .ready) x ≠ _
      split_ifs with hterm
      · rw [hterm]
        exact nofun
      · rw [Function.update_self]
        exact nofun

/-- The last yield of the scheduling fiber, up to the switch. -/
theorem Modes.close (h : s.Modes c strict mode) (hm : mode w = .home .exited)
    (hcaller : c.caller w = true) (hterm : s.m_state (.scheduling w) = .term) :
    (s.yield c w (.scheduling w)).Modes c strict (Function.update mode w .closing) := by
  have hin := h.inMode w
  rw [hm] at hin
  have hslot : c.slotOf w (.scheduling w) = .main w := if_neg nofun
  rw [yield_eq (by rw [hterm]; exact nofun), hterm, if_pos rfl, hin.slot_eq, hslot]
  refine h.stay (by rw [hm]; rfl) (fun v hv => setThread_of_ne _ hv) (fun _ _ => ⟨rfl, rfl⟩) ?_ rfl
    rfl h.queue h.entered h.asserted
  refine inMode_of (f := .main w) ?_ (fun _ => rfl) hin.main ⟨hcaller, hterm, hin.uses.2.1⟩
  rw [setThread_self, hin.thread]
  simp only [Mode.thread, runFiber_of_caller hcaller, hcaller]

/-- The end of a guest's function. -/
theorem Modes.finish_guest (h : s.Modes c strict mode) (hm : mode w = .inside x) :
    ({ s with m_state := Function.update s.m_state x .term } : Fibers n).Modes c strict
      (Function.update mode w (.inside x)) := by
  have hin := h.inMode w
  rw [hm] at hin
  have hholds : (mode w).holds = some x := by
    rw [hm]
    rfl
  obtain ⟨halive, hsuspended, hstate, hctx, hflag⟩ := hin.uses
  obtain ⟨hmain, hscheduling, -⟩ := guest_ne (c := c) (w := w) (h.isGuest hholds)
  refine h.stay hholds.symm (fun _ _ => rfl) (fun y hy => ⟨?_, rfl⟩) ?_ rfl rfl h.queue h.entered
    h.asserted
  · refine Function.update_of_ne ?_ _ _
    rintro rfl
    exact hy (Or.inr (Or.inr hholds))
  · refine ⟨hin.thread, hin.t_fiber, ?_, fun hcaller => ?_, hsuspended, ?_, hctx, hflag⟩
    · exact (Function.update_of_ne hmain.symm _ _).trans hin.main
    · exact (Function.update_of_ne hscheduling.symm _ _).trans (halive hcaller)
    · change Function.update s.m_state x .term x ≠ _
      rw [Function.update_self]
      exact nofun

/-- The end of `run` in the scheduling fiber. -/
theorem Modes.finish_run (h : s.Modes c strict mode) (hm : mode w = .home .exited)
    (hcaller : c.caller w = true) :
    ({ s with m_state := Function.update s.m_state (.scheduling w) .term } : Fibers n).Modes c strict
      (Function.update mode w (.home .exited)) := by
  have hin := h.inMode w
  rw [hm] at hin
  have hne : FiberId.main w ≠ .scheduling w := nofun
  refine h.stay (by rw [hm]) (fun _ _ => rfl) (fun y hy => ⟨?_, rfl⟩) ?_ rfl rfl h.queue h.entered
    h.asserted
  · exact Function.update_of_ne (fun heq => hy (Or.inr (Or.inl heq))) _ _
  · refine ⟨hin.thread, hin.t_fiber, ?_, Or.inr ⟨hcaller, rfl, Function.update_self ..⟩,
      hin.uses.2.1, nofun, nofun, nofun⟩
    change Function.update s.m_state (.scheduling w) FiberState.term (.main w) = _
    rw [Function.update_of_ne hne]
    exact hin.main

/-- On the caller thread, `run` takes no fiber that was not made for the scheduler. -/
def OwnScheduler (c : FiberSetup n) (s : Fibers n) : Act n → Prop
  | .dequeue w k =>
    c.caller w = true → ∀ f ∈ s.m_tasks[k]?.join, c.m_runInScheduler f = true
  | _ => True

instance (c : FiberSetup n) (s : Fibers n) : DecidablePred (OwnScheduler c s)
  | .dequeue w k => inferInstanceAs (Decidable
      (c.caller w = true → ∀ f ∈ s.m_tasks[k]?.join, c.m_runInScheduler f = true))
  | .schedulerLock _ | .stop _ | .spare _ | .lock _ | .enter _ | .swap _ | .back _ | .yield _
  | .finish _ | .last _ => inferInstanceAs (Decidable True)

/-- What is put into the queue is a task, and no thread changes its mode. -/
theorem Modes.schedulerLock (h : s.Modes c strict mode) {task : Option (FiberId n)}
    (ht : s.step c (.schedulerLock task) = some t) : t.Modes c strict mode := by
  have hqueue : ∀ task, (∀ x, task = some x → s.IsTask x) →
      ({ s with m_tasks := s.m_tasks ++ [task] } : Fibers n).Modes c strict mode := by
    intro task htask
    refine ⟨fun v => (h.inMode v).congr rfl (fun _ => id) fun _ _ => ⟨rfl, rfl⟩, h.mutex, h.held,
      h.rest, h.fresh, fun x hx => ?_, h.entered, h.asserted⟩
    rcases List.mem_append.mp hx with hx | hx
    · exact h.queue x hx
    · exact htask x (List.mem_singleton.mp hx).symm
  cases task with
  | none =>
    obtain rfl := Option.some.inj ht
    exact hqueue none nofun
  | some f =>
    simp only [Fibers.step] at ht
    split_ifs at ht with hf
    obtain rfl := Option.some.inj ht
    refine hqueue (some f) fun x hx => ?_
    obtain rfl := Option.some.inj hx
    exact hf

/-- A thread leaves the loop of `run`. -/
theorem Modes.exit (h : s.Modes c strict mode) (hrun : s.AtRun c w .loop) :
    (s.setRunAt w .exited).Modes c strict (Function.update mode w (.home .exited)) := by
  have hm := h.eq_home hrun
  have hin := h.inMode w
  rw [hm] at hin
  refine h.stay (by rw [hm]; rfl) (fun v hv => setThread_of_ne _ hv) (fun _ _ => ⟨rfl, rfl⟩) ?_ rfl
    rfl h.queue h.entered h.asserted
  exact hin.setRunAt (hin.uses_home nofun nofun nofun nofun)

/-- A fiber whose mutex `run` has locked is ready, if it has not ended. -/
theorem Modes.ready_of_locked (h : s.Modes c strict mode) (hrun : s.AtRun c w (.locked x))
    (hterm : s.m_state x ≠ .term) : s.m_state x = .ready := by
  have hin := h.inMode w
  rw [h.eq_home hrun] at hin
  cases hx : s.m_state x with
  | ready => rfl
  | running => exact absurd hx (hin.uses.2.2.1 x rfl).1
  | term => exact absurd hx hterm

/-- So is a fiber that `run` has just made. -/
theorem Modes.ready_of_wrapped (h : s.Modes c strict mode) (hrun : s.AtRun c w (.wrapped x)) :
    s.m_state x = .ready := by
  have hin := h.inMode w
  rw [h.eq_home hrun] at hin
  exact hin.uses.2.2.2.1 x rfl

/-- A fiber that yields is the one that is executed. -/
theorem Modes.current (h : s.Modes c strict mode) (hm : mode w = .inside x) :
    (s.thread w).t_fiber = x := by
  have hin := h.inMode w
  rw [hm] at hin
  exact hin.t_fiber (Or.inr id)

/-- **The step lemma**: every step leads from modes to modes. -/
theorem Modes.step (h : s.Modes c strict mode) (hguard : strict → OwnScheduler c s a)
    (ht : s.step c a = some t) : ∃ mode', t.Modes c strict mode' := by
  cases a with
  | schedulerLock task => exact ⟨mode, h.schedulerLock ht⟩
  | stop w => exact h.stop ht
  | dequeue w k =>
    simp only [Fibers.step] at ht
    split_ifs at ht with hrun
    split at ht
    · rename_i f hk
      obtain rfl := Option.some.inj ht
      refine ⟨_, h.dequeue_fiber hrun hk fun hstrict hcaller => ?_⟩
      exact hguard hstrict hcaller f (by rw [hk]; rfl)
    · obtain rfl := Option.some.inj ht
      exact ⟨_, h.dequeue_cb hrun k⟩
    · cases ht
  | spare w =>
    simp only [Fibers.step] at ht
    split_ifs at ht with hrun hterm
    · obtain rfl := Option.some.inj ht
      exact ⟨_, h.exit hrun⟩
    · obtain rfl := Option.some.inj ht
      exact ⟨_, h.enter_idle hrun hterm⟩
  | lock w =>
    simp only [Fibers.step] at ht
    split at ht
    · split_ifs at ht with hcond
      obtain rfl := Option.some.inj ht
      exact ⟨_, h.lock hcond.1 hcond.2⟩
    · cases ht
  | enter w =>
    simp only [Fibers.step] at ht
    split at ht
    · rename_i f _
      split_ifs at ht with hrun hterm
      · obtain rfl := Option.some.inj ht
        exact ⟨_, h.enter_held (h.eq_home hrun) rfl (h.ready_of_locked hrun hterm)⟩
      · obtain rfl := Option.some.inj ht
        exact ⟨_, h.unlock hrun rfl⟩
    · rename_i f _
      split_ifs at ht with hrun
      obtain rfl := Option.some.inj ht
      exact ⟨_, h.enter_held (h.eq_home hrun) rfl (h.ready_of_wrapped hrun)⟩
    · cases ht
  | swap w =>
    have hswap : s.swap w = some t := ht
    cases hswitch : (s.thread w).switch with
    | none => simp [Fibers.swap, hswitch] at hswap
    | some sw =>
      cases sw with
      | resume save load => exact h.swap_resume hswitch hswap
      | yield save load => exact h.swap_yield hswitch hswap
  | back w =>
    simp only [Fibers.step] at ht
    split at ht
    · rename_i f _
      split_ifs at ht with hrun hidle
      · obtain rfl := Option.some.inj ht
        subst hidle
        exact ⟨_, h.back_idle hrun⟩
      · obtain rfl := Option.some.inj ht
        exact ⟨_, h.unlock hrun rfl⟩
    · cases ht
  | yield w =>
    simp only [Fibers.step] at ht
    split_ifs at ht with hcond
    obtain rfl := Option.some.inj ht
    have hm := h.eq_inside hcond.1 hcond.2.1
    rw [h.current hm]
    exact ⟨_, h.leave hm⟩
  | finish w =>
    simp only [Fibers.step] at ht
    split_ifs at ht with hcond
    obtain rfl := Option.some.inj ht
    obtain ⟨hguest | ⟨hsched, hexited⟩, hswitch, -⟩ := hcond
    · exact ⟨_, h.finish_guest (h.eq_inside hguest hswitch)⟩
    · obtain ⟨hm, hcaller⟩ := h.eq_exited hsched hexited hswitch
      rw [hsched]
      exact ⟨_, h.finish_run hm hcaller⟩
  | last w =>
    simp only [Fibers.step] at ht
    split_ifs at ht with hcond
    obtain rfl := Option.some.inj ht
    obtain ⟨hswitch, hterm⟩ := hcond
    rcases h.eq_of_term hterm hswitch with hm | ⟨hm, hcaller, hexec⟩
    · exact ⟨_, h.leave hm⟩
    · rw [hexec] at hterm ⊢
      exact ⟨_, h.close hm hcaller hterm⟩

end Step

end Fibers

end Dag
