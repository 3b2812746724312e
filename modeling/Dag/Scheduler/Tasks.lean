import Dag.Foundation.Census
import Dag.Foundation.Run
import Mathlib.Data.Int.Notation

/-!
# The scheduler: tasks and workers

A scheduler keeps its tasks in a vector under a mutex. Any thread adds tasks with `schedulerLock`;
its workers run `Scheduler::run`, taking the first task they may run, executing it, and idling when
there is none. The state here is what the critical sections and the atomic counters touch, and the
place in `run` where each worker is; a step is a critical section, or the part of `run` up to the
next one. Waking idle workers is `tickle`, which touches none of this.

Worker `w` runs on the thread with the id `tid w`. Fibers and callbacks are named by numbers.
Tasks are numbered as they are accepted: a queue entry is a task with its number. The lists
`accepted`, `taken`, `resumed` and `dropped` record what has happened, and no step reads them.

## Main definitions

* `SchedulerTask`, `Phase`, `Scheduler`: the state
* `schedulerLock`, `scan`, `dequeue`, `finish`, `enterIdle`, `leaveIdle`: the steps
* `Scheduler.step`: the step relation
-/

namespace Dag

open Foundation

/-- What `schedulerLock` is given: a fiber or a callback, possibly null. -/
inductive FiberOrCb
  | fiber (f : Option ℕ)
  | cb (c : Option ℕ)
  deriving DecidableEq, Repr

/-- A task; `thread` is the id of the thread it is pinned to, or `-1`. -/
structure SchedulerTask where
  fiber : Option ℕ
  cb : Option ℕ
  thread : ℤ
  deriving DecidableEq, Repr

/-- `SchedulerTask(fc, thread)`. -/
def SchedulerTask.construct (fc : FiberOrCb) (thread : ℤ) : SchedulerTask :=
  match fc with
  | .fiber f => ⟨f, none, thread⟩
  | .cb c => ⟨none, c, thread⟩

/-- A task and its number. -/
structure Entry where
  serial : ℕ
  task : SchedulerTask
  deriving DecidableEq, Repr

/-- The task may run on any thread. -/
def Entry.Unpinned (e : Entry) : Prop := e.task.thread = -1

instance : DecidablePred Entry.Unpinned := fun e => inferInstanceAs (Decidable (e.task.thread = -1))

/-- Where a worker is in `run`. -/
inductive Phase
  /-- before the scan of the queue -/
  | scan
  /-- executing the task it has taken -/
  | hold (e : Entry)
  /-- behind a scan that found nothing, before it looks at its idle fiber -/
  | spare
  /-- in the idle fiber -/
  | idle
  /-- out of `run` -/
  | exited
  deriving DecidableEq, Repr

/-- A scheduler with `n` workers. -/
structure Scheduler (n : ℕ) where
  tasks : List Entry
  phase : Fin n → Phase
  idleTerm : Fin n → Bool
  activeThreadCount : ℤ
  idleThreadCount : ℤ
  accepted : List SchedulerTask
  taken : List Entry
  resumed : List ℕ
  dropped : List ℕ

/-- What the scan of the queue finds, what it leaves in the queue, and `tickle_me`. -/
structure Scan where
  found : Option Entry
  tasks : List Entry
  tickle_me : Bool
  deriving DecidableEq, Repr

/-- The scan of the queue in `run`. Behind the task it erases, the iterator is at the end of the
vector exactly when the task was the last one. -/
def scan (thread_id : ℤ) : List Entry → Scan
  | [] => ⟨none, [], false⟩
  | e :: es =>
    if e.task.thread ≠ -1 ∧ e.task.thread ≠ thread_id then
      -- the task is for another thread: `tickle_me`, and on to the next one
      let r := scan thread_id es
      ⟨r.found, e :: r.tasks, true⟩
    else ⟨some e, es, !es.isEmpty⟩

namespace Scheduler

variable {n : ℕ}

/-- A scheduler whose workers are about to run. -/
def start (n : ℕ) : Scheduler n where
  tasks := []
  phase := fun _ => .scan
  idleTerm := fun _ => false
  activeThreadCount := 0
  idleThreadCount := 0
  accepted := []
  taken := []
  resumed := []
  dropped := []

/-- The critical section of `schedulerLock(fc, thread)`: `need_tickle`. -/
def schedulerLock (s : Scheduler n) (fc : FiberOrCb) (thread : ℤ) : Bool × Scheduler n :=
  let need_tickle := s.tasks.isEmpty
  let task := SchedulerTask.construct fc thread
  -- a null task is not accepted, but `need_tickle` is returned for it too
  if task.fiber.isSome ∨ task.cb.isSome then
    (need_tickle, { s with
      tasks := s.tasks ++ [⟨s.accepted.length, task⟩]
      accepted := s.accepted ++ [task] })
  else (need_tickle, s)

/-- The critical section of `run` on worker `w`: `tickle_me`. -/
def dequeue (tid : Fin n → ℤ) (s : Scheduler n) (w : Fin n) : Option (Bool × Scheduler n) :=
  match s.phase w with
  | .scan =>
    let r := scan (tid w) s.tasks
    match r.found with
    | some e => some (r.tickle_me, { s with
        tasks := r.tasks
        phase := Function.update s.phase w (.hold e)
        activeThreadCount := s.activeThreadCount + 1
        taken := s.taken ++ [e] })
    | none => some (r.tickle_me, { s with
        tasks := r.tasks
        phase := Function.update s.phase w .spare })
  | _ => none

/-- The end of a task on worker `w`: its resume has returned, or, when `term` says that its fiber
is `TERM`, it is dropped. -/
def finish (s : Scheduler n) (w : Fin n) (term : Bool) : Option (Scheduler n) :=
  match s.phase w with
  | .hold e =>
    -- a callback is wrapped into a new fiber, which is not `TERM`
    let skip := e.task.fiber.isSome && term
    some { s with
      phase := Function.update s.phase w .scan
      activeThreadCount := s.activeThreadCount - 1
      resumed := if skip then s.resumed else s.resumed ++ [e.serial]
      dropped := if skip then s.dropped ++ [e.serial] else s.dropped }
  | _ => none

/-- Worker `w` has found nothing to run: it leaves `run` when its idle fiber is `TERM`, and resumes
it otherwise. -/
def enterIdle (s : Scheduler n) (w : Fin n) : Option (Scheduler n) :=
  match s.phase w with
  | .spare =>
    if s.idleTerm w then some { s with phase := Function.update s.phase w .exited }
    else some { s with
      phase := Function.update s.phase w .idle
      idleThreadCount := s.idleThreadCount + 1 }
  | _ => none

/-- The idle fiber of worker `w` gives control back, by a yield or, when `term` says so, at its
end. -/
def leaveIdle (s : Scheduler n) (w : Fin n) (term : Bool) : Option (Scheduler n) :=
  match s.phase w with
  | .idle => some { s with
      phase := Function.update s.phase w .scan
      idleTerm := Function.update s.idleTerm w term
      idleThreadCount := s.idleThreadCount - 1 }
  | _ => none

/-- `hasIdleThreads()`. -/
def hasIdleThreads (s : Scheduler n) : Bool := decide (0 < s.idleThreadCount)

/-- The steps of a scheduler. -/
inductive Act (n : ℕ)
  | schedulerLock (fc : FiberOrCb) (thread : ℤ)
  | dequeue (w : Fin n)
  | finish (w : Fin n) (term : Bool)
  | enterIdle (w : Fin n)
  | leaveIdle (w : Fin n) (term : Bool)
  deriving DecidableEq, Repr

/-- One step. -/
def step (tid : Fin n → ℤ) (s : Scheduler n) : Act n → Option (Scheduler n)
  | .schedulerLock fc thread => some (s.schedulerLock fc thread).2
  | .dequeue w => (s.dequeue tid w).map Prod.snd
  | .finish w term => s.finish w term
  | .enterIdle w => s.enterIdle w
  | .leaveIdle w term => s.leaveIdle w term

/-! ## What a step does -/

section Cases

variable {tid : Fin n → ℤ} {s t : Scheduler n} {w : Fin n} {term : Bool}

@[simp] theorem schedulerLock_phase (fc : FiberOrCb) (thread : ℤ) :
    (s.schedulerLock fc thread).2.phase = s.phase := by
  unfold schedulerLock
  dsimp only
  split_ifs <;> rfl

@[simp] theorem schedulerLock_idleTerm (fc : FiberOrCb) (thread : ℤ) :
    (s.schedulerLock fc thread).2.idleTerm = s.idleTerm := by
  unfold schedulerLock
  dsimp only
  split_ifs <;> rfl

/-- What is in the queue behind `schedulerLock` was there, or is its task. -/
theorem mem_schedulerLock {fc : FiberOrCb} {thread : ℤ} {e : Entry}
    (he : e ∈ (s.schedulerLock fc thread).2.tasks) :
    e ∈ s.tasks ∨ e.task = SchedulerTask.construct fc thread := by
  unfold schedulerLock at he
  dsimp only at he
  split_ifs at he
  · rcases List.mem_append.mp he with he | he
    · exact Or.inl he
    · obtain rfl := List.mem_singleton.mp he
      exact Or.inr rfl
  · exact Or.inl he

theorem finish_cases (ht : s.finish w term = some t) :
    ∃ e, s.phase w = .hold e ∧ t = { s with
      phase := Function.update s.phase w .scan
      activeThreadCount := s.activeThreadCount - 1
      resumed := if e.task.fiber.isSome && term then s.resumed else s.resumed ++ [e.serial]
      dropped := if e.task.fiber.isSome && term then s.dropped ++ [e.serial] else s.dropped } := by
  unfold finish at ht
  split at ht
  · rename_i e hw
    exact ⟨e, hw, (Option.some.inj ht).symm⟩
  · cases ht

theorem enterIdle_cases (ht : s.enterIdle w = some t) :
    s.phase w = .spare ∧
      ((s.idleTerm w = true ∧ t = { s with phase := Function.update s.phase w .exited }) ∨
        (s.idleTerm w = false ∧ t = { s with
          phase := Function.update s.phase w .idle
          idleThreadCount := s.idleThreadCount + 1 })) := by
  unfold enterIdle at ht
  split at ht
  · rename_i hw
    refine ⟨hw, ?_⟩
    split_ifs at ht with hterm
    · exact Or.inl ⟨hterm, (Option.some.inj ht).symm⟩
    · exact Or.inr ⟨Bool.eq_false_iff.mpr hterm, (Option.some.inj ht).symm⟩
  · cases ht

theorem leaveIdle_cases (ht : s.leaveIdle w term = some t) :
    s.phase w = .idle ∧ t = { s with
      phase := Function.update s.phase w .scan
      idleTerm := Function.update s.idleTerm w term
      idleThreadCount := s.idleThreadCount - 1 } := by
  unfold leaveIdle at ht
  split at ht
  · rename_i hw
    exact ⟨hw, (Option.some.inj ht).symm⟩
  · cases ht

end Cases

end Scheduler

end Dag
