import Dag.Scheduler.Order

/-!
# Stopping a scheduler, and waiting for its threads

`Scheduler::stop()` returns at once when `stopping()` is true. Otherwise it sets `m_stopping` and
wakes the workers. When the caller is to be a worker too, it resumes the scheduling fiber, which runs
`run` on the thread of the caller until that returns. Then it takes the threads of the pool out of
`m_threads`, and joins them one after another.

One thread calls `stop`, any number of times. The workers run meanwhile, the one on the thread of the
caller only within that resume. Other threads call `schedulerLock`, until `m_stopping` is set. The
state is the one behind `start()`.

## Main definitions

* `Stop`, `Stop.step`: the scheduler with its pool of threads and the call of `stop`, and the steps
* `Stop.Inv`: the invariant

## Main results

* `Stop.count_resume_le`: the scheduling fiber is resumed once at most
* `Stop.returned_of_exec`: what has become of the workers and the tasks when `stop` has returned
-/

namespace Dag

open Foundation

namespace Scheduler

/-- A worker that has left `run` does not come back. -/
theorem exited_step {n : ℕ} {tid : Fin n → ℤ} {s t : Scheduler n} {b : Act n} {w : Fin n}
    (ht : s.step tid b = some t) (h : s.phase w = .exited) : t.phase w = .exited := by
  have hother : ∀ (v : Fin n) (ph : Phase), s.phase v ≠ .exited →
      Function.update s.phase v ph w = .exited := by
    intro v ph hv
    have hwv : w ≠ v := fun heq => hv (heq ▸ h)
    rw [Function.update_of_ne hwv]
    exact h
  cases b with
  | schedulerLock fc thread =>
    obtain rfl := Option.some.inj ht
    rw [schedulerLock_phase]
    exact h
  | dequeue v =>
    obtain ⟨⟨tickle_me, u⟩, hu, rfl⟩ := Option.map_eq_some_iff.mp ht
    obtain ⟨hv, ⟨pre, e, post, -, -, -, rfl⟩ | ⟨-, rfl⟩⟩ := dequeue_cases hu
    · exact hother v (.hold e) (by rw [hv]; nofun)
    · exact hother v .spare (by rw [hv]; nofun)
  | finish v term =>
    obtain ⟨e, hv, rfl⟩ := finish_cases ht
    exact hother v .scan (by rw [hv]; nofun)
  | enterIdle v =>
    obtain ⟨hv, ⟨-, rfl⟩ | ⟨-, rfl⟩⟩ := enterIdle_cases ht
    · exact hother v .exited (by rw [hv]; nofun)
    · exact hother v .idle (by rw [hv]; nofun)
  | leaveIdle v term =>
    obtain ⟨hv, rfl⟩ := leaveIdle_cases ht
    exact hother v .scan (by rw [hv]; nofun)

end Scheduler

namespace Shutdown

variable {n : ℕ}

/-- The worker that a step is about. -/
def Act.worker? : Act n → Option (Fin n)
  | .push w .. | .dequeue w | .finish w _ | .enterIdle w | .idle w => some w
  | .stop | .schedulerLock .. => none

theorem exited_step {tid : Fin n → ℤ} {s t : Shutdown n} {a : Act n} {w : Fin n}
    (ht : s.step tid a = some t) (h : s.core.phase w = .exited) : t.core.phase w = .exited := by
  rcases core_step ht with hcore | ⟨b, hb, -⟩
  · rw [hcore]
    exact h
  · exact Scheduler.exited_step hb h

/-- Only `stop` sets the flag. -/
theorem m_stopping_step {tid : Fin n → ℤ} {s t : Shutdown n} {a : Act n} (ha : a ≠ .stop)
    (ht : s.step tid a = some t) : t.m_stopping = s.m_stopping := by
  cases a with
  | stop => exact absurd rfl ha
  | schedulerLock fc thread =>
    obtain rfl := Option.some.inj ht
    rfl
  | push w fc thread =>
    simp only [step] at ht
    split_ifs at ht
    obtain rfl := Option.some.inj ht
    rfl
  | dequeue w | finish w term | enterIdle w | idle w =>
    obtain ⟨core, -, rfl⟩ := Option.map_eq_some_iff.mp ht
    rfl

end Shutdown

/-- Where the call of `stop` is. -/
inductive StopPhase (n : ℕ)
  /-- not called, or returned -/
  | outside
  /-- `stopping()` has returned false -/
  | asked
  /-- `m_stopping` is set -/
  | flagged
  /-- in the scheduling fiber -/
  | resumed
  /-- before `thrs.swap(m_threads)` -/
  | swapping
  /-- before the joins of these threads -/
  | joining (thrs : List (Fin n))
  deriving DecidableEq, Repr

namespace StopPhase

variable {n : ℕ}

/-- `m_stopping` has been set by this call. -/
def Flagged : StopPhase n → Prop
  | .outside | .asked => False
  | .flagged | .resumed | .swapping | .joining _ => True

/-- The scheduling fiber, if there is one, has ended. -/
def Back : StopPhase n → Prop
  | .outside | .asked | .flagged | .resumed => False
  | .swapping | .joining _ => True

/-- `m_threads` has been swapped. -/
def Swapped : StopPhase n → Prop
  | .outside | .asked | .flagged | .resumed | .swapping => False
  | .joining _ => True

/-- The threads that are still to be joined. -/
def thrs : StopPhase n → List (Fin n)
  | .joining thrs => thrs
  | .outside | .asked | .flagged | .resumed | .swapping => []

end StopPhase

/-- A scheduler with the threads of its pool, named by their workers, and the call of `stop`. -/
structure Stop (n : ℕ) where
  pool : Shutdown n
  m_threads : List (Fin n)
  phase : StopPhase n

namespace Stop

variable {n : ℕ}

/-- The scheduler behind `start()`; `caller` is the worker on the thread of the caller. -/
def start (caller : Option (Fin n)) : Stop n :=
  ⟨Shutdown.start n, (List.finRange n).filter fun w => caller ≠ some w, .outside⟩

inductive Act (n : ℕ)
  /-- a call of `stop`, as far as `stopping()` -/
  | call
  | setFlag
  /-- `m_schedulerFiber->resume()`, if there is that fiber -/
  | resume
  /-- the scheduling fiber has ended -/
  | back
  | swap
  | join
  /-- `stop` returns -/
  | ret
  /-- a step of a worker, or of another thread -/
  | other (a : Shutdown.Act n)
  deriving DecidableEq, Repr

def step (tid : Fin n → ℤ) (caller : Option (Fin n)) (s : Stop n) : Act n → Option (Stop n)
  | .call =>
    if s.phase = .outside then
      if s.pool.stopping then some s else some { s with phase := .asked }
    else none
  | .setFlag =>
    if s.phase = .asked then
      some { s with pool := { s.pool with m_stopping := true }, phase := .flagged }
    else none
  | .resume =>
    if s.phase = .flagged then
      some { s with phase := if caller.isSome then .resumed else .swapping }
    else none
  | .back =>
    if s.phase = .resumed ∧ ∀ w, caller = some w → s.pool.core.phase w = .exited then
      some { s with phase := .swapping }
    else none
  | .swap =>
    if s.phase = .swapping then some { s with m_threads := [], phase := .joining s.m_threads }
    else none
  | .join =>
    match s.phase with
    | .joining (w :: thrs) =>
      if s.pool.core.phase w = .exited then some { s with phase := .joining thrs } else none
    | _ => none
  | .ret => if s.phase = .joining [] then some { s with phase := .outside } else none
  | .other a =>
    -- the worker on the thread of the caller runs within the resume only
    if a = .stop ∨ (s.phase ≠ .resumed ∧ caller.isSome ∧ a.worker? = caller) then none
    else (s.pool.step tid a).map fun pool => { s with pool := pool }

/-- Once `m_stopping` is set, only tasks call `schedulerLock`. -/
def OnlyTasks (s : Stop n) : Act n → Prop
  | .other a => s.pool.OnlyTasks a
  | _ => True

instance (s : Stop n) : DecidablePred s.OnlyTasks
  | .other a => inferInstanceAs (Decidable (s.pool.OnlyTasks a))
  | .call | .setFlag | .resume | .back | .swap | .join | .ret => inferInstanceAs (Decidable True)

/-- Every worker has left `run`. -/
def AllExited (s : Stop n) : Prop := ∀ w, s.pool.core.phase w = .exited

/-- **The invariant**: a worker that has not left `run` is on the thread of the caller, or on one
that is not joined; behind the resume that of the caller has left, and behind the return all have. -/
structure Inv (tid : Fin n → ℤ) (caller : Option (Fin n)) (s : Stop n) : Prop where
  pool : s.pool.Inv tid
  threads : ∀ w, s.pool.core.phase w = .exited ∨ caller = some w ∨ w ∈ s.m_threads ++ s.phase.thrs
  unflagged : s.phase = .asked → s.pool.m_stopping = false
  flagged : s.phase.Flagged → s.pool.m_stopping = true
  back : s.phase.Back → ∀ w, caller = some w → s.pool.core.phase w = .exited
  swapped : s.phase.Swapped → s.m_threads = []
  returned : s.phase = .outside → s.pool.m_stopping = true → s.AllExited ∧ s.m_threads = []

/-! ## One step -/

section Step

variable {tid : Fin n → ℤ} {caller : Option (Fin n)} {s t : Stop n} {a : Act n}

theorem inv_start (tid : Fin n → ℤ) (caller : Option (Fin n)) : Inv tid caller (start caller) where
  pool := Shutdown.inv_start tid
  threads := by
    intro w
    by_cases hw : caller = some w
    · exact Or.inr (Or.inl hw)
    · refine Or.inr (Or.inr (List.mem_append_left _ ?_))
      exact List.mem_filter.mpr ⟨List.mem_finRange w, decide_eq_true hw⟩
  unflagged := by
    intro h
    cases h
  flagged := False.elim
  back := False.elim
  swapped := False.elim
  returned := by
    intro _ h
    cases h

/-- When all the workers have left, `stopping()` is true. -/
theorem Inv.stopping (h : Inv tid caller s) (hn : 0 < n) (hall : s.AllExited) :
    s.pool.stopping = true :=
  (Shutdown.quiet_of_stopping h.pool.conserved).mpr (h.pool.quiet ⟨0, hn⟩ (Or.inr (hall _)))

/-- A step of a worker or of another thread. -/
theorem Inv.other (h : Inv tid caller s) {b : Shutdown.Act n} (hb : b ≠ .stop)
    (hg : s.pool.OnlyTasks b) {pool : Shutdown n} (ht : s.pool.step tid b = some pool) :
    Inv tid caller { s with pool := pool } := by
  have hflag := Shutdown.m_stopping_step hb ht
  refine ⟨h.pool.step hg ht, fun w => ?_, fun hp => ?_, fun hp => ?_, fun hp w hw => ?_,
    h.swapped, fun hp hstop => ?_⟩
  · exact (h.threads w).imp_left fun hw => Shutdown.exited_step ht hw
  · exact hflag.trans (h.unflagged hp)
  · exact hflag.trans (h.flagged hp)
  · exact Shutdown.exited_step ht (h.back hp w hw)
  · obtain ⟨hall, hthreads⟩ := h.returned hp (hflag.symm.trans hstop)
    exact ⟨fun w => Shutdown.exited_step ht (hall w), hthreads⟩

/-- The call moves on, behind the setting of the flag. -/
theorem Inv.move (h : Inv tid caller s) (hflag : s.phase.Flagged) {phase : StopPhase n}
    {m_threads : List (Fin n)} (hphase : phase.Flagged)
    (hthreads : ∀ w, s.pool.core.phase w = .exited ∨ caller = some w ∨
      w ∈ m_threads ++ phase.thrs)
    (hback : phase.Back → ∀ w, caller = some w → s.pool.core.phase w = .exited)
    (hswapped : phase.Swapped → m_threads = []) :
    Inv tid caller { s with m_threads := m_threads, phase := phase } where
  pool := h.pool
  threads := hthreads
  unflagged := by
    rintro rfl
    exact hphase.elim
  flagged := fun _ => h.flagged hflag
  back := hback
  swapped := hswapped
  returned := by
    rintro rfl
    exact hphase.elim

/-- The step lemma. -/
theorem Inv.step (hn : 0 < n) (h : Inv tid caller s) (hg : s.OnlyTasks a)
    (ht : s.step tid caller a = some t) : Inv tid caller t := by
  have hthreads := h.threads
  cases a with
  | call =>
    simp only [Stop.step] at ht
    split_ifs at ht with hphase hstop
    · obtain rfl := Option.some.inj ht
      exact h
    · obtain rfl := Option.some.inj ht
      -- had `stop` returned before, all would be quiet
      have hflag : s.pool.m_stopping = false := by
        refine Bool.eq_false_iff.mpr fun hflag => hstop ?_
        exact h.stopping hn (h.returned hphase hflag).1
      rw [hphase] at hthreads
      exact ⟨h.pool, hthreads, fun _ => hflag, False.elim, False.elim, False.elim,
        fun hp => by cases hp⟩
  | setFlag =>
    simp only [Stop.step] at ht
    split_ifs at ht with hphase
    obtain rfl := Option.some.inj ht
    have hflag : s.pool.stopping = false := by
      rw [Shutdown.stopping, h.unflagged hphase]
      rfl
    have hstep : s.pool.step tid .stop = some { s.pool with m_stopping := true } := by
      rw [Shutdown.step, if_neg (by rw [hflag]; exact Bool.false_ne_true)]
    rw [hphase] at hthreads
    exact ⟨h.pool.step (a := .stop) trivial hstep, hthreads, (fun hp => by cases hp), fun _ => rfl,
      False.elim, False.elim, fun hp => by cases hp⟩
  | resume =>
    simp only [Stop.step] at ht
    split_ifs at ht with hphase hcaller
    all_goals
      obtain rfl := Option.some.inj ht
      rw [hphase] at hthreads
      have hflagged : s.phase.Flagged := by rw [hphase]; trivial
    · exact h.move hflagged trivial hthreads False.elim False.elim
    · refine h.move hflagged trivial hthreads (fun _ w hw => ?_) False.elim
      exact absurd (by rw [hw]; rfl) hcaller
  | back =>
    simp only [Stop.step] at ht
    split_ifs at ht with hphase
    obtain rfl := Option.some.inj ht
    rw [hphase.1] at hthreads
    have hflagged : s.phase.Flagged := by rw [hphase.1]; trivial
    exact h.move hflagged trivial hthreads (fun _ => hphase.2) False.elim
  | swap =>
    simp only [Stop.step] at ht
    split_ifs at ht with hphase
    obtain rfl := Option.some.inj ht
    rw [hphase] at hthreads
    have hflagged : s.phase.Flagged := by rw [hphase]; trivial
    have hback : s.phase.Back := by rw [hphase]; trivial
    refine h.move hflagged trivial (fun w => ?_) (fun _ => h.back hback) fun _ => rfl
    simpa [StopPhase.thrs] using hthreads w
  | join =>
    simp only [Stop.step] at ht
    split at ht
    · rename_i v thrs hphase
      split_ifs at ht with hv
      obtain rfl := Option.some.inj ht
      rw [hphase] at hthreads
      have hflagged : s.phase.Flagged := by rw [hphase]; trivial
      have hback : s.phase.Back := by rw [hphase]; trivial
      have hswapped : s.phase.Swapped := by rw [hphase]; trivial
      refine h.move hflagged trivial (fun w => ?_) (fun _ => h.back hback)
        fun _ => h.swapped hswapped
      by_cases hwv : w = v
      · exact Or.inl (hwv ▸ hv)
      · simpa [StopPhase.thrs, hwv] using hthreads w
    · cases ht
  | ret =>
    simp only [Stop.step] at ht
    split_ifs at ht with hphase
    obtain rfl := Option.some.inj ht
    have hback : s.phase.Back := by rw [hphase]; trivial
    have hnone : s.m_threads = [] := h.swapped (by rw [hphase]; trivial)
    have hall : s.AllExited := by
      intro w
      rcases hthreads w with hw | hw | hw
      · exact hw
      · exact h.back hback w hw
      · rw [hphase, hnone] at hw
        exact absurd hw List.not_mem_nil
    exact ⟨h.pool, fun w => Or.inl (hall w), (fun hp => by cases hp), False.elim, False.elim,
      False.elim, fun _ _ => ⟨hall, hnone⟩⟩
  | other b =>
    simp only [Stop.step] at ht
    split_ifs at ht with hrefused
    obtain ⟨pool, hpool, rfl⟩ := Option.map_eq_some_iff.mp ht
    exact h.other (not_or.mp hrefused).1 hg hpool

/-! ## The scheduling fiber -/

/-- How often the scheduling fiber can still be resumed. -/
def resumes (s : Stop n) : ℕ :=
  if s.pool.m_stopping = false ∨ s.phase = .flagged then 1 else 0

theorem resumes_step (h : Inv tid caller s) (ht : s.step tid caller a = some t) :
    [a].count .resume + t.resumes ≤ s.resumes := by
  cases a with
  | call =>
    simp only [Stop.step] at ht
    split_ifs at ht with hphase hstop
    · obtain rfl := Option.some.inj ht
      simp
    · obtain rfl := Option.some.inj ht
      simp [resumes, hphase]
  | setFlag =>
    simp only [Stop.step] at ht
    split_ifs at ht with hphase
    obtain rfl := Option.some.inj ht
    simp [resumes, h.unflagged hphase]
  | resume =>
    simp only [Stop.step] at ht
    split_ifs at ht with hphase
    all_goals
      obtain rfl := Option.some.inj ht
      have hflag : s.pool.m_stopping = true := h.flagged (by rw [hphase]; trivial)
      simp [resumes, hphase, hflag]
  | back =>
    simp only [Stop.step] at ht
    split_ifs at ht with hphase
    obtain rfl := Option.some.inj ht
    simp [resumes, hphase.1]
  | swap =>
    simp only [Stop.step] at ht
    split_ifs at ht with hphase
    obtain rfl := Option.some.inj ht
    simp [resumes, hphase]
  | join =>
    simp only [Stop.step] at ht
    split at ht
    · rename_i v thrs hphase
      split_ifs at ht
      obtain rfl := Option.some.inj ht
      simp [resumes, hphase]
    · cases ht
  | ret =>
    simp only [Stop.step] at ht
    split_ifs at ht with hphase
    obtain rfl := Option.some.inj ht
    simp [resumes, hphase]
  | other b =>
    simp only [Stop.step] at ht
    split_ifs at ht with hrefused
    obtain ⟨pool, hpool, rfl⟩ := Option.map_eq_some_iff.mp ht
    simp [resumes, Shutdown.m_stopping_step (not_or.mp hrefused).1 hpool]

end Step

/-! ## Runs -/

section Runs

variable {tid : Fin n → ℤ} {caller : Option (Fin n)} {s t : Stop n} {as : List (Act n)}

/-- **The scheduling fiber is resumed once at most**, so that its resume finds it `READY`. -/
theorem count_resume_le (hn : 0 < n) (hi : Inv tid caller s)
    (hg : Guarded (step tid caller) OnlyTasks s as) (ht : exec (step tid caller) s as = some t) :
    as.count .resume + t.resumes ≤ s.resumes := by
  induction as generalizing s with
  | nil =>
    obtain rfl := Option.some.inj ht
    exact (Nat.zero_add _).le
  | cons a as ih =>
    obtain ⟨u, hu, ht⟩ := exec_cons_eq_some.mp ht
    have hstep := resumes_step hi hu
    have hrest := ih (hi.step hn hg.1 hu) (hg.2 u hu) ht
    rw [List.count_cons]
    rw [List.count_singleton] at hstep
    omega

/-- **`stop` waits for everything**: in every interleaving of calls of `stop` with the steps of any
number of workers, one of them on the thread of the caller or none, in which only tasks call
`schedulerLock` once `m_stopping` is set, when `stop` has been called and has returned, every worker
has left `run`, no thread of the pool is left to join, the queue is empty, `stopping()` is true, as
the destructor asserts, and every task ever accepted has ended exactly once. The scheduling fiber has
been resumed once at most. -/
theorem returned_of_exec (hn : 0 < n) (hg : Guarded (step tid caller) OnlyTasks (start caller) as)
    (hs : exec (step tid caller) (start caller) as = some s) (hphase : s.phase = .outside)
    (hstop : s.pool.m_stopping = true) :
    (∀ w, s.pool.core.phase w = .exited) ∧ s.m_threads = [] ∧ s.pool.core.tasks = [] ∧
      s.pool.stopping = true ∧
      (∀ i < s.pool.core.accepted.length,
        s.pool.core.resumed.count i + s.pool.core.dropped.count i = 1) ∧
      as.count .resume ≤ 1 := by
  have hinv : Inv tid caller s := exec_invariant_of_guarded
    (fun _ _ _ h ha hu => h.step hn ha hu) (inv_start tid caller) hg hs
  obtain ⟨hall, hthreads⟩ := hinv.returned hphase hstop
  have hquiet : s.pool.Quiet := hinv.pool.quiet ⟨0, hn⟩ (Or.inr (hall _))
  refine ⟨hall, hthreads, hquiet.tasks, hinv.stopping hn hall, fun i hi => ?_, ?_⟩
  · exact (hinv.pool.ended_of_quiet hquiet hi).2
  · have hle := count_resume_le hn (inv_start tid caller) hg hs
    have hone : (start caller).resumes ≤ 1 := by
      unfold resumes
      split_ifs <;> omega
    omega

/-- Two workers, the second one on the thread of the caller, which runs the only task. -/
theorem returned_of_exec_two_workers :
    ∃ s : Stop 2, exec (step (fun w => (w : ℤ)) (some 1)) (start (some 1))
        ([.other (.schedulerLock (.cb (some 7)) (-1)), .call, .setFlag, .resume,
          .other (.dequeue 1), .other (.finish 1 false)] ++
          ([0, 1].flatMap fun w => [.other (.dequeue w), .other (.enterIdle w), .other (.idle w),
            .other (.dequeue w), .other (.enterIdle w)]) ++ [.back, .swap, .join, .ret]) = some s ∧
      (∀ w, s.pool.core.phase w = .exited) ∧
      s.pool.core.resumed.count 0 + s.pool.core.dropped.count 0 = 1 := by
  obtain ⟨s, hs⟩ : ∃ s : Stop 2, exec (step (fun w => (w : ℤ)) (some 1)) (start (some 1))
      ([.other (.schedulerLock (.cb (some 7)) (-1)), .call, .setFlag, .resume,
        .other (.dequeue 1), .other (.finish 1 false)] ++
        ([0, 1].flatMap fun w => [.other (.dequeue w), .other (.enterIdle w), .other (.idle w),
          .other (.dequeue w), .other (.enterIdle w)]) ++ [.back, .swap, .join, .ret]) = some s :=
    ⟨_, rfl⟩
  have hmain := returned_of_exec (by decide) (by decide) hs
    (by obtain rfl := Option.some.inj hs; decide) (by obtain rfl := Option.some.inj hs; decide)
  refine ⟨s, hs, hmain.1, hmain.2.2.2.2.1 0 ?_⟩
  obtain rfl := Option.some.inj hs
  decide

end Runs

end Stop

end Dag
