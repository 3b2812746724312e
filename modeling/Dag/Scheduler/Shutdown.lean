import Dag.Scheduler.Conservation

/-!
# Shutting a scheduler down

`stop` sets `m_stopping`. From then on the idle fibers ask `stopping()`: is the flag set, the queue
empty and no worker active? An idle fiber that is told so ends, and its worker leaves `run` when it
next finds nothing to run. The question is asked under the mutex of the queue, under which a worker
also takes a task and counts itself as active; it stops being active behind the task.

A call of `schedulerLock` is one of a worker in its task, or of another thread. What is assumed of
the program is that the other threads make none once `m_stopping` is set.

## Main definitions

* `Shutdown`, `Shutdown.step`: the scheduler with its flag, and its steps
* `Shutdown.OnlyTasks`: the assumption on the program, as a guard
* `Shutdown.Quiet`: nothing is left to do, and nobody is doing anything

## Main results

* `Shutdown.quiet_of_stopping`, `Shutdown.Quiet.step`: what `stopping()` says is so, and stays so
* `Shutdown.stopping_stable_of_exec`: the same along every run, and what has become of the tasks
  when the last worker leaves `run`
-/

namespace Dag

open Foundation

/-! ## What the records say -/

namespace Scheduler

variable {n : ℕ} {tid : Fin n → ℤ} {s t : Scheduler n} {b : Act n} {w : Fin n}

/-- What the records say: every accepted task is in the queue or has been taken, and what was
dropped is a task with a fiber. -/
structure Recorded (s : Scheduler n) : Prop where
  listed : ∀ i < s.accepted.length, ∃ e ∈ s.taken ++ s.tasks, e.serial = i
  dropped : ∀ i ∈ s.dropped, ∃ e ∈ s.taken, e.serial = i ∧ e.task.fiber.isSome

theorem recorded_start (n : ℕ) : Recorded (start n) where
  listed := nofun
  dropped := nofun

theorem Recorded.schedulerLock (h : Recorded s) (fc : FiberOrCb) (thread : ℤ) :
    Recorded (s.schedulerLock fc thread).2 := by
  unfold Scheduler.schedulerLock
  dsimp only
  split_ifs with hnull
  · refine ⟨fun i hi => ?_, h.dropped⟩
    rw [List.length_append, List.length_singleton] at hi
    by_cases hnew : i = s.accepted.length
    · exact ⟨_, List.mem_append_right _ (List.mem_append_right _ (List.mem_singleton.mpr rfl)),
        hnew.symm⟩
    · obtain ⟨e, he, hei⟩ := h.listed i (by omega)
      refine ⟨e, ?_, hei⟩
      rw [← List.append_assoc]
      exact List.mem_append_left _ he
  · exact h

theorem Recorded.step (h : Recorded s) (hc : Conserved tid s) (ht : s.step tid b = some t) :
    Recorded t := by
  cases b with
  | schedulerLock fc thread =>
    obtain rfl := Option.some.inj ht
    exact h.schedulerLock fc thread
  | dequeue w =>
    obtain ⟨⟨tickle_me, u⟩, hu, rfl⟩ := Option.map_eq_some_iff.mp ht
    obtain ⟨-, ⟨pre, e, post, htasks, -, -, rfl⟩ | ⟨-, rfl⟩⟩ := dequeue_cases hu
    · refine ⟨fun i hi => ?_, fun i hi => ?_⟩
      · obtain ⟨x, hx, hxi⟩ := h.listed i hi
        refine ⟨x, ?_, hxi⟩
        simp only [htasks, List.mem_append, List.mem_cons, List.not_mem_nil, or_false] at hx ⊢
        tauto
      · obtain ⟨x, hx, hxi⟩ := h.dropped i hi
        exact ⟨x, List.mem_append_left _ hx, hxi⟩
    · exact ⟨h.listed, h.dropped⟩
  | finish w term =>
    obtain ⟨e, hw, rfl⟩ := finish_cases ht
    refine ⟨h.listed, fun i hi => ?_⟩
    cases hskip : e.task.fiber.isSome && term with
    | false => exact h.dropped i (by simpa [hskip] using hi)
    | true =>
      simp only [hskip, if_true, List.mem_append, List.mem_singleton] at hi
      rcases hi with hi | rfl
      · exact h.dropped i hi
      · exact ⟨e, (hc.held w e hw).1, rfl, (Bool.and_eq_true_iff.mp hskip).1⟩
  | enterIdle w =>
    obtain ⟨-, ⟨-, rfl⟩ | ⟨-, rfl⟩⟩ := enterIdle_cases ht
    · exact ⟨h.listed, h.dropped⟩
    · exact ⟨h.listed, h.dropped⟩
  | leaveIdle w term =>
    obtain ⟨-, rfl⟩ := leaveIdle_cases ht
    exact ⟨h.listed, h.dropped⟩

/-- **Who ends, and who leaves**: the idle fiber of a worker ends in `idle`, and the worker leaves
`run` when its idle fiber has ended. -/
theorem left_cases (ht : s.step tid b = some t) (h : t.idleTerm w = true ∨ t.phase w = .exited) :
    b = .leaveIdle w true ∨ s.idleTerm w = true ∨ s.phase w = .exited := by
  have hother : ∀ (v : Fin n) (ph : Phase), ph ≠ .exited →
      Function.update s.phase v ph w = .exited → s.phase w = .exited := by
    intro v ph hph heq
    by_cases hwv : w = v
    · subst hwv
      rw [Function.update_self] at heq
      exact absurd heq hph
    · rwa [Function.update_of_ne hwv] at heq
  cases b with
  | schedulerLock fc thread =>
    obtain rfl := Option.some.inj ht
    rw [schedulerLock_idleTerm, schedulerLock_phase] at h
    exact Or.inr h
  | dequeue v =>
    obtain ⟨⟨tickle_me, u⟩, hu, rfl⟩ := Option.map_eq_some_iff.mp ht
    obtain ⟨-, ⟨pre, e, post, -, -, -, rfl⟩ | ⟨-, rfl⟩⟩ := dequeue_cases hu
    · exact Or.inr (h.imp_right (hother v (.hold e) nofun))
    · exact Or.inr (h.imp_right (hother v .spare nofun))
  | finish v term =>
    obtain ⟨e, -, rfl⟩ := finish_cases ht
    exact Or.inr (h.imp_right (hother v .scan nofun))
  | enterIdle v =>
    obtain ⟨-, ⟨hterm, rfl⟩ | ⟨-, rfl⟩⟩ := enterIdle_cases ht
    · by_cases hwv : w = v
      · subst hwv
        exact Or.inr (Or.inl hterm)
      · change _ ∨ Function.update s.phase v .exited w = _ at h
        rw [Function.update_of_ne hwv] at h
        exact Or.inr h
    · exact Or.inr (h.imp_right (hother v .idle nofun))
  | leaveIdle v term =>
    obtain ⟨-, rfl⟩ := leaveIdle_cases ht
    rcases h with h | h
    · change Function.update s.idleTerm v term w = true at h
      by_cases hwv : w = v
      · subst hwv
        rw [Function.update_self] at h
        exact Or.inl (by rw [h])
      · rw [Function.update_of_ne hwv] at h
        exact Or.inr (Or.inl h)
    · exact Or.inr (Or.inr (hother v .scan nofun h))

end Scheduler

/-! ## The flag -/

/-- A scheduler, with the flag that `stop` sets. -/
structure Shutdown (n : ℕ) where
  core : Scheduler n
  m_stopping : Bool

namespace Shutdown

variable {n : ℕ}

/-- The workers are about to run. -/
def start (n : ℕ) : Shutdown n := ⟨Scheduler.start n, false⟩

/-- `stopping()`. -/
def stopping (s : Shutdown n) : Bool :=
  s.m_stopping && s.core.tasks.isEmpty && decide (s.core.activeThreadCount = 0)

/-- The steps. -/
inductive Act (n : ℕ)
  /-- `stop`, up to the calls of `tickle` -/
  | stop
  /-- `schedulerLock` on a thread that is not a worker -/
  | schedulerLock (fc : FiberOrCb) (thread : ℤ)
  /-- `schedulerLock` in the task of worker `w` -/
  | push (w : Fin n) (fc : FiberOrCb) (thread : ℤ)
  | dequeue (w : Fin n)
  | finish (w : Fin n) (term : Bool)
  | enterIdle (w : Fin n)
  /-- the test of `stopping` in the idle fiber of `w`, which then ends or yields -/
  | idle (w : Fin n)
  deriving DecidableEq, Repr

/-- One step. -/
def step (tid : Fin n → ℤ) (s : Shutdown n) : Act n → Option (Shutdown n)
  | .stop =>
    if s.stopping then some s else some { s with m_stopping := true }
  | .schedulerLock fc thread => some { s with core := (s.core.schedulerLock fc thread).2 }
  | .push w fc thread =>
    if (s.core.phase w).Busy then some { s with core := (s.core.schedulerLock fc thread).2 }
    else none
  | .dequeue w => (s.core.dequeue tid w).map fun r => { s with core := r.2 }
  | .finish w term => (s.core.finish w term).map fun core => { s with core := core }
  | .enterIdle w => (s.core.enterIdle w).map fun core => { s with core := core }
  | .idle w => (s.core.leaveIdle w s.stopping).map fun core => { s with core := core }

/-- Once `m_stopping` is set, only tasks call `schedulerLock`. -/
def OnlyTasks (s : Shutdown n) : Act n → Prop
  | .schedulerLock _ _ => s.m_stopping = false
  | _ => True

instance (s : Shutdown n) : DecidablePred s.OnlyTasks
  | .schedulerLock _ _ => inferInstanceAs (Decidable (s.m_stopping = false))
  | .stop | .push .. | .dequeue _ | .finish .. | .enterIdle _ | .idle _ =>
    inferInstanceAs (Decidable True)

/-- Nothing is left to do, and nobody is doing anything. -/
structure Quiet (s : Shutdown n) : Prop where
  m_stopping : s.m_stopping = true
  tasks : s.core.tasks = []
  not_busy : ∀ w, ¬ (s.core.phase w).Busy

/-- **The invariant**: tasks are conserved and recorded, and when an idle fiber has ended, or a
worker has left `run`, all is quiet. -/
structure Inv (tid : Fin n → ℤ) (s : Shutdown n) : Prop where
  conserved : Scheduler.Conserved tid s.core
  recorded : Scheduler.Recorded s.core
  quiet : ∀ w, s.core.idleTerm w = true ∨ s.core.phase w = .exited → s.Quiet

/-! ## One step -/

section Step

variable {tid : Fin n → ℤ} {s t : Shutdown n} {a : Act n} {w : Fin n}

/-- **What `stopping()` says is so.** The active count is the number of workers that have a task, and
this is read together with the queue. -/
theorem quiet_of_stopping (h : Scheduler.Conserved tid s.core) :
    s.stopping = true ↔ s.Quiet := by
  simp only [stopping, Bool.and_eq_true, List.isEmpty_iff, decide_eq_true_eq]
  have hactive : s.core.activeThreadCount = 0 ↔ ∀ w, ¬ (s.core.phase w).Busy := by
    rw [h.active_eq, ← census_eq_zero]
    exact Int.natCast_eq_zero
  constructor
  · rintro ⟨⟨hstopping, htasks⟩, hzero⟩
    exact ⟨hstopping, htasks, hactive.mp hzero⟩
  · rintro ⟨hstopping, htasks, hbusy⟩
    exact ⟨⟨hstopping, htasks⟩, hactive.mpr hbusy⟩

/-- A worker that changes its phase to one without a task keeps all quiet. -/
theorem Quiet.update (h : s.Quiet) {core : Scheduler n} {ph : Phase}
    (hphase : core.phase = Function.update s.core.phase w ph) (hph : ¬ ph.Busy)
    (htasks : core.tasks = s.core.tasks) : Quiet { s with core := core } := by
  refine ⟨h.m_stopping, htasks.trans h.tasks, fun v => ?_⟩
  change ¬ (core.phase v).Busy
  rw [hphase]
  by_cases hvw : v = w
  · subst hvw
    rwa [Function.update_self]
  · rw [Function.update_of_ne hvw]
    exact h.not_busy v

/-- **Quiet stays quiet**: there is no task to take and no worker that could add one. -/
theorem Quiet.step (h : s.Quiet) (ha : OnlyTasks s a) (ht : s.step tid a = some t) : t.Quiet := by
  cases a with
  | stop =>
    simp only [Shutdown.step] at ht
    split_ifs at ht
    · obtain rfl := Option.some.inj ht
      exact h
    · obtain rfl := Option.some.inj ht
      exact ⟨rfl, h.tasks, h.not_busy⟩
  | schedulerLock fc thread =>
    exact absurd (h.m_stopping.symm.trans ha) (by decide)
  | push w fc thread =>
    simp [Shutdown.step, h.not_busy w] at ht
  | dequeue w =>
    obtain ⟨⟨tickle_me, core⟩, hu, rfl⟩ := Option.map_eq_some_iff.mp ht
    obtain ⟨-, ⟨pre, e, post, htasks, -⟩ | ⟨-, rfl⟩⟩ := Scheduler.dequeue_cases hu
    · exact absurd (htasks.symm.trans h.tasks) (by simp)
    · exact h.update rfl id rfl
  | finish w term =>
    obtain ⟨core, hu, rfl⟩ := Option.map_eq_some_iff.mp ht
    obtain ⟨e, hw, -⟩ := Scheduler.finish_cases hu
    exact absurd (hw ▸ trivial) (h.not_busy w)
  | enterIdle w =>
    obtain ⟨core, hu, rfl⟩ := Option.map_eq_some_iff.mp ht
    obtain ⟨-, ⟨-, rfl⟩ | ⟨-, rfl⟩⟩ := Scheduler.enterIdle_cases hu
    · exact h.update rfl id rfl
    · exact h.update rfl id rfl
  | idle w =>
    obtain ⟨core, hu, rfl⟩ := Option.map_eq_some_iff.mp ht
    obtain ⟨-, rfl⟩ := Scheduler.leaveIdle_cases hu
    exact h.update rfl id rfl

/-- A step is one of the scheduler, or leaves it alone; an idle fiber ends when `stopping()` is
true. -/
theorem core_step (ht : s.step tid a = some t) :
    t.core = s.core ∨
      ∃ b, s.core.step tid b = some t.core ∧ ∀ w, b = .leaveIdle w true → s.stopping = true := by
  cases a with
  | stop =>
    simp only [step] at ht
    split_ifs at ht
    · obtain rfl := Option.some.inj ht
      exact Or.inl rfl
    · obtain rfl := Option.some.inj ht
      exact Or.inl rfl
  | schedulerLock fc thread =>
    obtain rfl := Option.some.inj ht
    exact Or.inr ⟨.schedulerLock fc thread, rfl, nofun⟩
  | push w fc thread =>
    simp only [step] at ht
    split_ifs at ht
    obtain rfl := Option.some.inj ht
    exact Or.inr ⟨.schedulerLock fc thread, rfl, nofun⟩
  | dequeue w =>
    obtain ⟨r, hr, rfl⟩ := Option.map_eq_some_iff.mp ht
    exact Or.inr ⟨.dequeue w, Option.map_eq_some_iff.mpr ⟨r, hr, rfl⟩, nofun⟩
  | finish w term =>
    obtain ⟨core, hu, rfl⟩ := Option.map_eq_some_iff.mp ht
    exact Or.inr ⟨.finish w term, hu, nofun⟩
  | enterIdle w =>
    obtain ⟨core, hu, rfl⟩ := Option.map_eq_some_iff.mp ht
    exact Or.inr ⟨.enterIdle w, hu, nofun⟩
  | idle w =>
    obtain ⟨core, hu, rfl⟩ := Option.map_eq_some_iff.mp ht
    refine Or.inr ⟨.leaveIdle w s.stopping, hu, fun v hv => ?_⟩
    exact (Scheduler.Act.leaveIdle.inj hv).2

/-- The step lemma. -/
theorem Inv.step (h : Inv tid s) (ha : OnlyTasks s a) (ht : s.step tid a = some t) :
    Inv tid t := by
  rcases core_step ht with hcore | ⟨b, hb, hstop⟩
  · refine ⟨hcore ▸ h.conserved, hcore ▸ h.recorded, fun w hw => ?_⟩
    rw [hcore] at hw
    exact (h.quiet w hw).step ha ht
  · refine ⟨h.conserved.step hb, h.recorded.step h.conserved hb, fun w hw => ?_⟩
    rcases Scheduler.left_cases hb hw with rfl | hw
    · exact ((quiet_of_stopping h.conserved).mp (hstop w rfl)).step ha ht
    · exact (h.quiet w hw).step ha ht

theorem inv_start (tid : Fin n → ℤ) : Inv tid (start n) where
  conserved := Scheduler.conserved_start tid
  recorded := Scheduler.recorded_start n
  quiet := by
    rintro w (hw | hw) <;> cases hw

/-- Where all is quiet, every accepted task has been taken, and has ended once. -/
theorem Inv.ended_of_quiet (h : Inv tid s) (hq : s.Quiet) {i : ℕ}
    (hi : i < s.core.accepted.length) :
    (∃ e ∈ s.core.taken, e.serial = i ∧ s.core.accepted[i]? = some e.task) ∧
      s.core.ended i = 1 := by
  constructor
  · obtain ⟨e, he, rfl⟩ := h.recorded.listed i hi
    rw [hq.tasks, List.append_nil] at he
    exact ⟨e, he, rfl, h.conserved.genuine e (List.mem_append_left _ he)⟩
  · have hqueued : s.core.queued i = 0 := by
      rw [Scheduler.queued, hq.tasks]
      rfl
    have hholders : s.core.holders i = 0 := by
      refine census_eq_zero.mpr fun w hhas => hq.not_busy w ?_
      cases hw : s.core.phase w with
      | hold e => trivial
      | scan | spare | idle | exited => exact (hw ▸ hhas).elim
    have hplaced := h.conserved.placed i
    rw [hqueued, hholders, if_pos hi] at hplaced
    omega

end Step

/-! ## Runs -/

section Runs

variable {tid : Fin n → ℤ} {as bs : List (Act n)} {s t : Shutdown n} {w : Fin n}

theorem inv_of_exec (hg : Guarded (step tid) OnlyTasks (start n) as)
    (hs : exec (step tid) (start n) as = some s) : Inv tid s :=
  exec_invariant_of_guarded (fun _ _ _ h ha ht => h.step ha ht) (inv_start tid) hg hs

/-- **The shutdown is stable**, in every run in which only tasks call `schedulerLock` once
`m_stopping` is set: from a state on in which `stopping()` returns true, the queue is empty, no
worker has a task, and `stopping()` returns true; and a step with which the last worker leaves `run`
leads to a state in which every accepted task has been dequeued and has ended once, by the return of
its resume or, as a task with a fiber only, by being dropped. -/
theorem stopping_stable_of_exec (hg : Guarded (step tid) OnlyTasks (start n) (as ++ bs))
    (hs : exec (step tid) (start n) as = some s) (ht : exec (step tid) s bs = some t) :
    (s.stopping = true →
      t.core.tasks = [] ∧ (∀ w, ¬ (t.core.phase w).Busy) ∧ t.stopping = true) ∧
    (0 < n → (∀ w, t.core.phase w = .exited) → ∀ i < t.core.accepted.length,
      (∃ e ∈ t.core.taken, e.serial = i ∧ t.core.accepted[i]? = some e.task ∧
        (i ∈ t.core.dropped → e.task.fiber.isSome)) ∧
      t.core.resumed.count i + t.core.dropped.count i = 1) := by
  have hinv : Inv tid t := inv_of_exec hg (exec_append_eq_some.mpr ⟨s, hs, ht⟩)
  obtain ⟨hgs, hgt⟩ := guarded_append.mp hg
  constructor
  · intro hstop
    have hquiet : s.Quiet := (quiet_of_stopping (inv_of_exec hgs hs).conserved).mp hstop
    have hquiet' : t.Quiet :=
      exec_invariant_of_guarded (fun _ _ _ h ha hu => h.step ha hu) hquiet (hgt s hs) ht
    exact ⟨hquiet'.tasks, hquiet'.not_busy, (quiet_of_stopping hinv.conserved).mpr hquiet'⟩
  · intro hn hexited i hi
    obtain ⟨⟨e, he, hei, htask⟩, hended⟩ :=
      hinv.ended_of_quiet (hinv.quiet ⟨0, hn⟩ (Or.inr (hexited _))) hi
    refine ⟨⟨e, he, hei, htask, fun hdropped => ?_⟩, hended⟩
    obtain ⟨x, hx, rfl, hfiber⟩ := hinv.recorded.dropped i hdropped
    have hgenuine := hinv.conserved.genuine x (List.mem_append_left _ hx)
    rwa [Option.some.inj (htask.symm.trans hgenuine)]

/-- Two workers, a callback that is executed behind `stop`, and the exit of both. -/
theorem stopping_stable_of_exec_two_workers :
    ∃ s t : Shutdown 2,
      exec (step fun w => (w : ℤ)) (start 2)
        [.schedulerLock (.cb (some 7)) (-1), .dequeue 0, .stop, .finish 0 false] = some s ∧
      exec (step fun w => (w : ℤ)) s
        [.dequeue 0, .enterIdle 0, .idle 0, .dequeue 1, .enterIdle 1, .idle 1, .dequeue 0,
          .enterIdle 0, .dequeue 1, .enterIdle 1] = some t ∧
      t.core.tasks = [] ∧ t.core.resumed.count 0 + t.core.dropped.count 0 = 1 := by
  obtain ⟨s, hs⟩ : ∃ s : Shutdown 2, exec (step fun w => (w : ℤ)) (start 2)
      [.schedulerLock (.cb (some 7)) (-1), .dequeue 0, .stop, .finish 0 false] = some s := ⟨_, rfl⟩
  obtain ⟨t, ht⟩ : ∃ t : Shutdown 2, exec (step fun w => (w : ℤ)) s
      [.dequeue 0, .enterIdle 0, .idle 0, .dequeue 1, .enterIdle 1, .idle 1, .dequeue 0,
        .enterIdle 0, .dequeue 1, .enterIdle 1] = some t := by
    obtain rfl := Option.some.inj hs
    exact ⟨_, rfl⟩
  have hg : Guarded (step fun w : Fin 2 => (w : ℤ)) OnlyTasks (start 2)
      ([.schedulerLock (.cb (some 7)) (-1), .dequeue 0, .stop, .finish 0 false] ++
        [.dequeue 0, .enterIdle 0, .idle 0, .dequeue 1, .enterIdle 1, .idle 1, .dequeue 0,
          .enterIdle 0, .dequeue 1, .enterIdle 1]) := by
    decide
  have hmain := stopping_stable_of_exec hg hs ht
  refine ⟨s, t, hs, ht, (hmain.1 ?_).1, (hmain.2 (by decide) ?_ 0 ?_).2⟩
  all_goals obtain rfl := Option.some.inj hs
  · decide
  all_goals obtain rfl := Option.some.inj ht
  · decide
  · decide

/-- A fiber that is in the queue twice, and is `TERM` when it is dequeued the second time: that task
has no resume. -/
theorem exited_not_resumed :
    ∃ s t : Shutdown 1,
      exec (step fun _ => 0) (start 1)
        [.schedulerLock (.fiber (some 5)) (-1), .schedulerLock (.fiber (some 5)) (-1), .stop,
          .dequeue 0, .finish 0 false, .dequeue 0, .finish 0 true, .dequeue 0, .enterIdle 0,
          .idle 0, .dequeue 0] = some s ∧
      Guarded (step fun _ => 0) OnlyTasks (start 1)
        [.schedulerLock (.fiber (some 5)) (-1), .schedulerLock (.fiber (some 5)) (-1), .stop,
          .dequeue 0, .finish 0 false, .dequeue 0, .finish 0 true, .dequeue 0, .enterIdle 0,
          .idle 0, .dequeue 0] ∧
      s.step (fun _ => 0) (.enterIdle 0) = some t ∧ (∀ w, t.core.phase w = .exited) ∧
      t.core.accepted.length = 2 ∧ 1 ∉ t.core.resumed := by
  exact ⟨_, _, rfl, by decide, rfl, by decide, by decide, by decide⟩

end Runs

end Shutdown

end Dag
