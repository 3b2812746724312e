import Dag.Fiber.Steps

/-!
# A fiber runs once at a time, in its own place

In every run each thread is in one of its modes, and from that follows what the scheduler promises
of fibers: no fiber is on two threads at once, and none is resumed that is not ready, or that has
ended. When the caller thread takes no fiber that was not made for the scheduler, every switch saves
the flow that is executed into its own fiber's context, and leads back to where the resume has come
from. With such a fiber the caller thread's scheduling fiber is saved over its main fiber.

## Main definitions

* `Fibers.Within`: the thread is between the switch into the fiber and the switch out of it
* `Fibers.Slots`: the contexts that a thread switches between, and its current fiber

## Main results

* `Fibers.entered_ready_of_exec`: no fiber runs twice at once, or behind its end
* `Fibers.slots_of_exec`: every switch is made between the right contexts
-/

namespace Dag

open Foundation

namespace Fibers

variable {n : ℕ} {c : FiberSetup n} {strict : Prop} {s t : Fibers n} {mode : Fin n → Mode n}
  {w : Fin n} {x : FiberId n} {a : Act n}

/-- A thread that is to run `stop` is before it, any other one at the head of the loop. -/
def initial (c : FiberSetup n) (w : Fin n) : Mode n :=
  if c.caller w then .before else .home .loop

theorem modes_start (c : FiberSetup n) (strict : Prop) :
    (start c).Modes c strict (initial c) := by
  have hholds : ∀ w x, (initial c w).holds ≠ some x := by
    intro w x
    unfold initial
    split_ifs
    · rintro ⟨⟩
    · rintro ⟨⟩
  refine ⟨fun w => ?_, fun x _ w => iff_of_false (by simp [start]) (hholds w x),
    fun w x hx => absurd hx (hholds w x), fun x hx _ => ?_, fun _ _ => rfl, by simp [start],
    by simp [start], rfl⟩
  · rcases Bool.eq_false_or_eq_true (c.caller w) with hcaller | hcaller
    · rw [initial, if_pos hcaller]
      exact ⟨rfl, fun _ => rfl, rfl, hcaller, rfl, rfl⟩
    · have hno : ¬ c.caller w = true := by simp [hcaller]
      rw [initial, if_neg hno]
      refine ⟨?_, fun _ => ?_, rfl, Or.inl fun h => absurd h hno, fun h => absurd h hno,
        by rintro x ⟨⟩, by rintro x ⟨⟩, by rintro x ⟨⟩⟩
      · simp [start, Mode.thread, FiberSetup.runFiber, FiberSetup.base, hcaller]
      · simp [start, Mode.thread, FiberSetup.runFiber, hcaller]
  · cases x with
    | user | made | idle => exact ⟨by simp [start], rfl⟩
    | main | scheduling => exact hx.elim

/-! ## No fiber runs twice -/

/-- The thread is between the switch into the fiber and the switch out of it: it executes the
fiber's flow, or that flow has made a resume that has not returned. -/
def Within (s : Fibers n) (w : Fin n) (x : FiberId n) : Prop :=
  (s.thread w).executing = x ∨ x ∈ (s.thread w).resumers

theorem base_subset (hx : x ∈ c.base w) : x = .main w := by
  unfold FiberSetup.base at hx
  split_ifs at hx
  · exact List.mem_singleton.mp hx
  · cases hx

/-- A thread is only within fibers that its mode is about. -/
theorem Modes.covers_of_within (h : s.Modes c strict mode) (hx : s.Within w x) :
    Mode.Covers w (mode w) x := by
  obtain ⟨hexec, -, -, -, hresumers⟩ := h.thread_eq w
  have hrun : Mode.Covers w (mode w) (c.runFiber w) := by
    rcases runFiber_eq c w with heq | heq
    · exact Or.inl heq
    · exact Or.inr (Or.inl heq)
  have hbase : x ∈ c.base w → Mode.Covers w (mode w) x := fun hx => Or.inl (base_subset hx)
  rw [Within, hexec, hresumers] at hx
  cases hm : mode w with
  | before | starting | after =>
    rw [hm] at hx
    rcases hx with rfl | hx
    · exact Or.inl rfl
    · cases hx
  | home a | entering y =>
    rw [hm] at hx hrun hbase
    rcases hx with rfl | hx
    · exact hrun
    · exact hbase hx
  | inside y | leaving y =>
    rw [hm] at hx hrun hbase
    rcases hx with rfl | hx
    · exact Or.inr (Or.inr rfl)
    · rcases List.mem_cons.mp hx with rfl | hx
      · exact hrun
      · exact hbase hx
  | closing =>
    rw [hm] at hx hbase
    rcases hx with rfl | hx
    · exact Or.inr (Or.inl rfl)
    · exact hbase hx

theorem resume_entered (w : Fin n) (x : FiberId n) :
    (s.resume c w x).entered = s.entered ++ [(x, s.m_state x)] := by
  simp only [resume]
  split_ifs <;> rfl

/-- A fiber that has ended is not changed by a resume. -/
theorem resume_term {y : FiberId n} (hx : s.m_state x = .term) :
    (s.resume c w y).m_state x = .term := by
  simp only [resume]
  split_ifs with hready
  · have hne : x ≠ y := by
      rintro rfl
      cases hx.symm.trans hready
    exact (Function.update_of_ne hne _ _).trans hx
  · exact hx

theorem yield_entered (w : Fin n) (x : FiberId n) : (s.yield c w x).entered = s.entered := by
  unfold yield
  split_ifs <;> rfl

/-- A fiber that has ended is not changed by a yield. -/
theorem yield_term {y : FiberId n} (hx : s.m_state x = .term) :
    (s.yield c w y).m_state x = .term := by
  unfold yield
  split_ifs with _ hterm
  · exact hx
  · have hne : x ≠ y := by
      rintro rfl
      exact hterm hx
    exact (Function.update_of_ne hne _ _).trans hx
  · exact hx

theorem swap_cases (ht : s.swap w = some t) : t.entered = s.entered ∧ t.m_state = s.m_state := by
  simp only [Fibers.swap] at ht
  split at ht
  · obtain ⟨flow, -, rfl⟩ := Option.map_eq_some_iff.mp ht
    exact ⟨rfl, rfl⟩
  · obtain ⟨flow, -, rfl⟩ := Option.map_eq_some_iff.mp ht
    exact ⟨rfl, rfl⟩
  · cases ht

/-- What a step does to a fiber that has ended, and to the record of the resumes: the fiber stays
at its end, and at most one resume is recorded, with the state that it finds. -/
theorem step_cases (ht : s.step c a = some t) :
    (t.entered = s.entered ∨ ∃ y, t.entered = s.entered ++ [(y, s.m_state y)]) ∧
      ∀ x, s.m_state x = .term → t.m_state x = .term := by
  cases a with
  | schedulerLock task =>
    cases task with
    | none =>
      obtain rfl := Option.some.inj ht
      exact ⟨Or.inl rfl, fun _ => id⟩
    | some f =>
      simp only [step] at ht
      split_ifs at ht
      obtain rfl := Option.some.inj ht
      exact ⟨Or.inl rfl, fun _ => id⟩
  | stop w =>
    simp only [step] at ht
    split_ifs at ht
    obtain rfl := Option.some.inj ht
    exact ⟨Or.inr ⟨_, resume_entered ..⟩, fun x hx => resume_term hx⟩
  | dequeue w k =>
    simp only [step] at ht
    split_ifs at ht
    split at ht
    · obtain rfl := Option.some.inj ht
      exact ⟨Or.inl rfl, fun _ => id⟩
    · obtain rfl := Option.some.inj ht
      exact ⟨Or.inl rfl, fun _ => id⟩
    · cases ht
  | spare w =>
    simp only [step] at ht
    split_ifs at ht
    · obtain rfl := Option.some.inj ht
      exact ⟨Or.inl rfl, fun _ => id⟩
    · obtain rfl := Option.some.inj ht
      exact ⟨Or.inr ⟨_, resume_entered ..⟩, fun x hx => resume_term hx⟩
  | lock w =>
    simp only [step] at ht
    split at ht
    · split_ifs at ht
      obtain rfl := Option.some.inj ht
      exact ⟨Or.inl rfl, fun _ => id⟩
    · cases ht
  | enter w =>
    simp only [step] at ht
    split at ht
    · split_ifs at ht
      · obtain rfl := Option.some.inj ht
        exact ⟨Or.inr ⟨_, resume_entered ..⟩, fun x hx => resume_term hx⟩
      · obtain rfl := Option.some.inj ht
        exact ⟨Or.inl rfl, fun _ => id⟩
    · split_ifs at ht
      obtain rfl := Option.some.inj ht
      exact ⟨Or.inr ⟨_, resume_entered ..⟩, fun x hx => resume_term hx⟩
    · cases ht
  | swap w =>
    obtain ⟨hentered, hstate⟩ := swap_cases ht
    exact ⟨Or.inl hentered, fun x hx => by rw [hstate, hx]⟩
  | back w =>
    simp only [step] at ht
    split at ht
    · split_ifs at ht
      · obtain rfl := Option.some.inj ht
        exact ⟨Or.inl rfl, fun _ => id⟩
      · obtain rfl := Option.some.inj ht
        exact ⟨Or.inl rfl, fun _ => id⟩
    · cases ht
  | yield w =>
    simp only [step] at ht
    split_ifs at ht
    obtain rfl := Option.some.inj ht
    exact ⟨Or.inl (yield_entered ..), fun x hx => yield_term hx⟩
  | finish w =>
    simp only [step] at ht
    split_ifs at ht
    obtain rfl := Option.some.inj ht
    refine ⟨Or.inl rfl, fun x hx => ?_⟩
    change Function.update s.m_state (s.thread w).executing .term x = _
    rw [Function.update_apply]
    split_ifs
    · rfl
    · exact hx
  | last w =>
    simp only [step] at ht
    split_ifs at ht
    obtain rfl := Option.some.inj ht
    exact ⟨Or.inl (yield_entered ..), fun x hx => yield_term hx⟩

/-- In every run the threads are in some modes. -/
theorem modes_of_exec {as : List (Act n)} (hs : ∃ mode, s.Modes c False mode)
    (ht : exec (step c) s as = some t) : ∃ mode, t.Modes c False mode :=
  exec_invariant (I := fun s => ∃ mode, s.Modes c False mode)
    (fun _ _ _ ⟨_, h⟩ ht => h.step False.elim ht) hs ht

/-- In every run under the guard the threads are in their modes, without strangers to the
scheduler on the caller thread. -/
theorem modes_of_exec_guarded {as : List (Act n)}
    (hg : Guarded (step c) (OwnScheduler c) (start c) as)
    (hs : exec (step c) (start c) as = some s) : ∃ mode, s.Modes c True mode :=
  exec_invariant_of_guarded (I := fun s => ∃ mode, s.Modes c True mode)
    (fun _ _ _ ⟨_, h⟩ hg ht => h.step (fun _ => hg) ht) ⟨_, modes_start c True⟩ hg hs

/-- A fiber that has ended stays at its end, and is not resumed. -/
theorem term_of_exec {bs : List (Act n)} (hs : ∃ mode, s.Modes c False mode)
    (hx : s.m_state x = .term) (ht : exec (step c) s bs = some t) :
    t.m_state x = .term ∧ t.entered.filter (·.1 = x) = s.entered.filter (·.1 = x) := by
  refine (exec_invariant (I := fun t => (∃ mode, t.Modes c False mode) ∧ t.m_state x = .term ∧
    t.entered.filter (·.1 = x) = s.entered.filter (·.1 = x)) ?_ ⟨hs, hx, rfl⟩ ht).2
  rintro u b v ⟨⟨mode, hu⟩, hterm, hfilter⟩ hv
  obtain ⟨mode', hmode'⟩ := hu.step False.elim hv
  obtain ⟨hentered, hstay⟩ := step_cases hv
  refine ⟨⟨mode', hmode'⟩, hstay x hterm, ?_⟩
  rcases hentered with heq | ⟨y, heq⟩
  · rw [heq, hfilter]
  · have hne : y ≠ x := by
      rintro rfl
      have hready := hmode'.entered (y, u.m_state y) (by rw [heq]; simp)
      cases hterm.symm.trans hready
    rw [heq, List.filter_append, hfilter]
    simp [hne]

/-- **A fiber never runs twice at once.** For any number of threads, and any order of their steps:
at most one thread at a time is within a fiber; every resume has found its fiber ready, and no
assertion has failed; and a fiber that has ended is not resumed any more. -/
theorem entered_ready_of_exec {as bs : List (Act n)} (hs : exec (step c) (start c) as = some s)
    (ht : exec (step c) s bs = some t) :
    (∀ x v w, s.Within v x → s.Within w x → v = w) ∧
      (∀ e ∈ s.entered, e.2 = .ready) ∧ s.asserted = false ∧
      ∀ x, s.m_state x = .term →
        t.m_state x = .term ∧ t.entered.filter (·.1 = x) = s.entered.filter (·.1 = x) := by
  have hmodes := modes_of_exec ⟨_, modes_start c False⟩ hs
  obtain ⟨mode, h⟩ := hmodes
  refine ⟨fun x v w hv hw => ?_, h.entered, h.asserted, fun x hx => term_of_exec ⟨mode, h⟩ hx ht⟩
  exact h.covers_unique (h.covers_of_within hv) (h.covers_of_within hw)

/-- A worker, without a caller thread. -/
def oneWorker : FiberSetup 1 where
  caller _ := false
  run_in_scheduler _ := true

/-- The user's fiber is put into the queue twice; the worker runs it to its end. -/
def runOnce : List (Act 1) :=
  [.schedulerLock (some (.user 0)), .schedulerLock (some (.user 0)), .dequeue 0 0, .lock 0,
    .enter 0, .swap 0, .finish 0, .last 0, .swap 0, .back 0]

/-- The worker takes the fiber out of the queue once more, and drops it. -/
def dropEnded : List (Act 1) := [.dequeue 0 0, .lock 0, .enter 0]

theorem entered_ready_of_exec_one_worker :
    ∃ s t : Fibers 1,
      exec (step oneWorker) (start oneWorker) runOnce = some s ∧
      exec (step oneWorker) s dropEnded = some t ∧
      s.m_state (.user 0) = .term ∧ t.entered.filter (·.1 = .user 0) = [(.user 0, .ready)] := by
  obtain ⟨s, hs⟩ : ∃ s, exec (step oneWorker) (start oneWorker) runOnce = some s := ⟨_, rfl⟩
  obtain ⟨t, ht⟩ : ∃ t, exec (step oneWorker) s dropEnded = some t := by
    obtain rfl := Option.some.inj hs
    exact ⟨_, rfl⟩
  obtain ⟨-, -, -, hended⟩ := entered_ready_of_exec hs ht
  have hterm : s.m_state (.user 0) = .term := by
    obtain rfl := Option.some.inj hs
    rfl
  refine ⟨s, t, hs, ht, hterm, (hended _ hterm).2.trans ?_⟩
  obtain rfl := Option.some.inj hs
  rfl

/-! ## Every switch is made between the right contexts -/

/-- **The contexts that thread `w` switches between, and its current fiber.** -/
structure Slots (s : Fibers n) (w : Fin n) : Prop where
  /-- a resume saves the running fiber that makes it into its own context -/
  resume : ∀ save load, (s.thread w).switch = some (.resume save load) →
    save = (s.thread w).executing ∧ s.m_state (s.thread w).executing = .running ∧
      s.m_ctx load = some load
  /-- a yield leads back to the flow that has made the resume -/
  yield : ∀ save load, (s.thread w).switch = some (.yield save load) →
    save = (s.thread w).executing ∧ (s.thread w).resumers.head? = some load ∧
      s.m_ctx load = some load
  /-- outside of a switch, the current fiber is the one that is executed -/
  current : (s.thread w).switch = none → (s.thread w).t_fiber = (s.thread w).executing ∧
    (s.m_state (s.thread w).executing = .running ∨ s.m_state (s.thread w).executing = .term)

theorem slotOf_of_flagged (h : Flagged c True w x) : c.slotOf w x = c.runFiber w := by
  rw [FiberSetup.slotOf]
  split_ifs with hscheduler
  · rfl
  · rw [FiberSetup.runFiber, if_neg]
    exact fun hcaller => hscheduler (h trivial hcaller)

/-- A guest that was made for the scheduler is entered and left in its own mode. -/
theorem InMode.slots {m : Mode n} (h : s.InMode c True w m) : s.Slots w := by
  have hmain := h.main
  have huses := h.uses
  have hcurrent := h.t_fiber (Or.inl trivial)
  have hrun : s.Alive c w → s.m_state (c.runFiber w) = .running := by
    intro halive
    rw [FiberSetup.runFiber]
    split_ifs with hcaller
    · exact halive hcaller
    · exact hmain
  have hth : s.thread w = m.thread c w := by rw [h.thread, hcurrent]
  constructor
  · intro save load hswitch
    rw [hth] at hswitch ⊢
    cases m with
    | starting =>
      obtain ⟨rfl, rfl⟩ := Switch.resume.inj (Option.some.inj hswitch)
      exact ⟨rfl, hmain, huses.2.2⟩
    | entering x =>
      obtain ⟨rfl, rfl⟩ := Switch.resume.inj (Option.some.inj hswitch)
      obtain ⟨halive, -, -, hctx, hflag⟩ := huses
      exact ⟨slotOf_of_flagged hflag, hrun halive, hctx⟩
    | leaving | closing => cases Option.some.inj hswitch
    | before | home | inside | after => cases hswitch
  · intro save load hswitch
    rw [hth] at hswitch ⊢
    cases m with
    | leaving x =>
      obtain ⟨rfl, rfl⟩ := Switch.yield.inj (Option.some.inj hswitch)
      obtain ⟨-, -, -, hctx, hflag⟩ := huses
      rw [slotOf_of_flagged hflag] at hctx ⊢
      exact ⟨rfl, rfl, hctx⟩
    | closing =>
      obtain ⟨rfl, rfl⟩ := Switch.yield.inj (Option.some.inj hswitch)
      obtain ⟨hcaller, -, hsuspended⟩ := huses
      refine ⟨rfl, ?_, (hsuspended hcaller).resolve_right fun hno => hno.1 trivial⟩
      simp [Mode.thread, FiberSetup.base, hcaller]
    | starting | entering => cases Option.some.inj hswitch
    | before | home | inside | after => cases hswitch
  · intro hswitch
    rw [hth] at hswitch ⊢
    cases m with
    | before => exact ⟨rfl, Or.inl hmain⟩
    | after => exact ⟨rfl, Or.inl hmain⟩
    | home a =>
      refine ⟨rfl, ?_⟩
      rcases huses.1 with halive | ⟨hcaller, -, hterm⟩
      · exact Or.inl (hrun halive)
      · refine Or.inr ?_
        change s.m_state (c.runFiber w) = _
        rw [runFiber_of_caller hcaller]
        exact hterm
    | inside x =>
      refine ⟨rfl, ?_⟩
      have hstate := huses.2.2.1
      change s.m_state x = _ ∨ s.m_state x = _
      cases hx : s.m_state x with
      | ready => exact absurd hx hstate
      | running => exact Or.inl rfl
      | term => exact Or.inr rfl
    | starting | entering | leaving | closing => cases hswitch

/-- **Context-slot discipline.** In every run in which the caller thread takes no fiber that was
not made for the scheduler, every switch of every thread is made between the right contexts, and the
current fiber is the one that the thread executes. -/
theorem slots_of_exec {as : List (Act n)} (hs : exec (step c) (start c) as = some s)
    (hg : Guarded (step c) (OwnScheduler c) (start c) as) (w : Fin n) : s.Slots w := by
  obtain ⟨mode, h⟩ := modes_of_exec_guarded hg hs
  exact (h.inMode w).slots

/-- The caller thread of a scheduler, and the user's fibers with the flag `flag`. -/
def oneCaller (flag : Bool) : FiberSetup 1 where
  caller _ := true
  run_in_scheduler _ := flag

/-- The caller thread resumes the scheduling fiber, and in it the user's fiber, up to the switch. -/
def resumeTask : List (Act 1) :=
  [.stop 0, .swap 0, .schedulerLock (some (.user 0)), .dequeue 0 0, .lock 0, .enter 0]

/-- A fiber that was made for the scheduler yields to the scheduling fiber. -/
theorem slots_of_exec_caller :
    ∃ s t : Fibers 1,
      exec (step (oneCaller true)) (start (oneCaller true)) resumeTask = some s ∧
      exec (step (oneCaller true)) (start (oneCaller true))
        (resumeTask ++ [.swap 0, .yield 0]) = some t ∧
      (s.thread 0).executing = .scheduling 0 ∧ (t.thread 0).resumers.head? = some (.scheduling 0) := by
  obtain ⟨s, hs⟩ : ∃ s, exec (step (oneCaller true)) (start (oneCaller true)) resumeTask = some s :=
    ⟨_, rfl⟩
  obtain ⟨t, ht⟩ : ∃ t, exec (step (oneCaller true)) (start (oneCaller true))
      (resumeTask ++ [.swap 0, .yield 0]) = some t := ⟨_, rfl⟩
  have hsave := ((slots_of_exec hs (by decide) 0).resume (.scheduling 0) (.user 0)
    (by obtain rfl := Option.some.inj hs; rfl)).1
  have hload := ((slots_of_exec ht (by decide) 0).yield (.user 0) (.scheduling 0)
    (by obtain rfl := Option.some.inj ht; rfl)).2.1
  exact ⟨s, t, hs, ht, hsave.symm, hload⟩

/-- A fiber that was not made for the scheduler: the flow of the scheduling fiber, which makes the
resume, is saved into the context of the main fiber; and back from the fiber, the current fiber is
not the one that is executed. -/
theorem stranger_saved_over_main :
    ∃ s t : Fibers 1,
      exec (step (oneCaller false)) (start (oneCaller false)) resumeTask = some s ∧
      (s.thread 0).switch = some (.resume (.main 0) (.user 0)) ∧
      (s.thread 0).executing = .scheduling 0 ∧
      exec (step (oneCaller false)) (start (oneCaller false))
        (resumeTask ++ [.swap 0, .yield 0, .swap 0]) = some t ∧
      (t.thread 0).switch = none ∧ (t.thread 0).t_fiber = .main 0 ∧
      (t.thread 0).executing = .scheduling 0 := by
  exact ⟨_, _, rfl, rfl, rfl, rfl, rfl, rfl, rfl⟩

end Fibers

end Dag
