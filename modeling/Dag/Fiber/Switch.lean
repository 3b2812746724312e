import Dag.Foundation.Run
import Mathlib.Logic.Function.Basic
import Mathlib.Tactic.Common

/-!
# Fibers, and the threads that execute them

A fiber has a state, a saved context and a mutex. Each thread has three pointers to fibers: the one
it executes, as it believes, its main fiber, and the fiber that its scheduler runs in. `resume` and
`yield` change a state, set the first of them, and switch: `swapcontext` saves the flow of control
that the thread is executing into one fiber's context, and goes on with the flow that is saved in
another's. Which contexts these are is decided by the pointers and by a flag of the fiber, and not
by what the thread is in truth executing.

A flow of control is named by the fiber whose stack it is on. A context holds the flow that has been
saved into it and has not been restored since; to restore it once more is undefined behaviour, and
no step here.

The threads run `Scheduler::run`. An extra worker runs it in its main fiber. The caller thread runs
it in the scheduling fiber, which `stop` resumes in the main fiber; until then, and afterwards, it is
outside of the scheduler. It calls `stop` once: a second call, which returns at once, or fails the
assertion of `resume` when the scheduling fiber has ended, is no step here. Tasks are fibers of the
user's, and callbacks, for which `run` makes a fiber; they yield and return, and do not resume fibers.
Any thread may put any task into the queue at any moment.

## Main definitions

* `FiberId`, `FiberThread`, `Fibers`: the state
* `Fibers.resume`, `Fibers.yield`, `Fibers.swap`: the operations of a fiber, and the switch
* `Fibers.step`: the steps of threads that run `Scheduler::run`
-/

namespace Dag

open Foundation

/-- The fibers: of a thread its main fiber, the scheduling fiber and the idle fiber of its `run`;
the fibers of the user; and the fibers that `run` makes for callbacks. -/
inductive FiberId (n : ℕ)
  | main (w : Fin n)
  | scheduling (w : Fin n)
  | idle (w : Fin n)
  | user (i : ℕ)
  | made (k : ℕ)
  deriving DecidableEq, Repr

/-- `Fiber::State`. -/
inductive FiberState
  | ready
  | running
  | term
  deriving DecidableEq, Repr

/-- A switch that `resume` or `yield` is about to make: the fiber whose context the thread's flow is
saved into, and the fiber whose context is restored. -/
inductive Switch (n : ℕ)
  | resume (save load : FiberId n)
  | yield (save load : FiberId n)
  deriving DecidableEq, Repr

/-- Where a thread is in `Scheduler::run`. -/
inductive RunAt (n : ℕ)
  /-- at the head of the loop -/
  | loop
  /-- with a task, before the mutex of its fiber -/
  | waiting (f : FiberId n)
  /-- with that mutex, before the test of the state -/
  | locked (f : FiberId n)
  /-- with the mutex of the fiber that it has made for a callback -/
  | wrapped (f : FiberId n)
  /-- in `resume` of a task's fiber or of the idle fiber -/
  | resuming (f : FiberId n)
  /-- behind the loop -/
  | exited
  deriving DecidableEq, Repr

/-- A thread: its pointers, the flow that it executes, and the switch that it is about to make.
`resumers` are the flows that have made the resumes that have not returned on this thread, and no
step reads them. -/
structure FiberThread (n : ℕ) where
  t_fiber : FiberId n
  t_thread_fiber : FiberId n
  t_scheduler_fiber : FiberId n
  executing : FiberId n
  switch : Option (Switch n)
  resumers : List (FiberId n)
  runAt : RunAt n
  /-- `stop` has resumed the scheduling fiber -/
  stopped : Bool
  deriving DecidableEq

/-- The fibers and the threads. `entered` are the calls of `resume`, with the state that each has
found, and no step reads them; `asserted` says that an assertion has failed. -/
structure Fibers (n : ℕ) where
  thread : Fin n → FiberThread n
  m_state : FiberId n → FiberState
  m_ctx : FiberId n → Option (FiberId n)
  m_mutex : FiberId n → Option (Fin n)
  m_tasks : List (Option (FiberId n))
  created : ℕ
  entered : List (FiberId n × FiberState)
  asserted : Bool

/-- Which threads run `Scheduler::run` as the caller thread, and the flags `run_in_scheduler` that
the user has made the fibers with. -/
structure FiberSetup (n : ℕ) where
  caller : Fin n → Bool
  run_in_scheduler : ℕ → Bool

namespace FiberSetup

variable {n : ℕ} (c : FiberSetup n)

/-- `m_runInScheduler`. A main fiber is neither resumed nor yields, and has no such flag. -/
def m_runInScheduler : FiberId n → Bool
  | .scheduling _ => false
  | .user i => c.run_in_scheduler i
  | .main _ | .idle _ | .made _ => true

/-- The fiber that `Scheduler::run` is executed in on thread `w`. -/
def runFiber (w : Fin n) : FiberId n := if c.caller w then .scheduling w else .main w

end FiberSetup

namespace Fibers

variable {n : ℕ}

/-- The threads with their main fibers, the caller threads behind the constructor of the scheduler,
the others in `run`. Every other fiber has been made with its entry as context. -/
def start (c : FiberSetup n) : Fibers n where
  thread w := ⟨.main w, .main w, c.runFiber w, .main w, none, [], .loop, false⟩
  m_state
    | .main _ => .running
    | .scheduling _ | .idle _ | .user _ | .made _ => .ready
  m_ctx
    | .main _ => none
    | .scheduling w => some (.scheduling w)
    | .idle w => some (.idle w)
    | .user i => some (.user i)
    | .made k => some (.made k)
  m_mutex _ := none
  m_tasks := []
  created := 0
  entered := []
  asserted := false

/-- Thread `w` has become `th`. -/
def setThread (s : Fibers n) (w : Fin n) (th : FiberThread n) : Fibers n :=
  { s with thread := Function.update s.thread w th }

/-- Thread `w` is at `a` in `run`. -/
def setRunAt (s : Fibers n) (w : Fin n) (a : RunAt n) : Fibers n :=
  s.setThread w { s.thread w with runAt := a }

/-- The fiber whose context `resume` and `yield` of `f` switch from and to on thread `w`. -/
def slot (c : FiberSetup n) (s : Fibers n) (w : Fin n) (f : FiberId n) : FiberId n :=
  if c.m_runInScheduler f then (s.thread w).t_scheduler_fiber else (s.thread w).t_thread_fiber

/-- `f->resume()` on thread `w`, up to the switch. -/
def resume (c : FiberSetup n) (s : Fibers n) (w : Fin n) (f : FiberId n) : Fibers n :=
  let s := { s with entered := s.entered ++ [(f, s.m_state f)] }
  if s.m_state f = .ready then
    { s with m_state := Function.update s.m_state f .running }.setThread w
      { s.thread w with
        t_fiber := f
        switch := some (.resume (s.slot c w f) f) }
  else { s with asserted := true }

/-- `f->yield()` on thread `w`, up to the switch. -/
def yield (c : FiberSetup n) (s : Fibers n) (w : Fin n) (f : FiberId n) : Fibers n :=
  if s.m_state f = .running ∨ s.m_state f = .term then
    { s with
      m_state :=
        if s.m_state f = FiberState.term then s.m_state
        else Function.update s.m_state f .ready }.setThread w
      { s.thread w with
        t_fiber := s.slot c w f
        switch := some (.yield f (s.slot c w f)) }
  else { s with asserted := true }

/-- `swapcontext`: the flow that thread `w` executes goes into the one context, and the thread goes
on with the flow in the other. -/
def swap (s : Fibers n) (w : Fin n) : Option (Fibers n) :=
  let th := s.thread w
  match th.switch with
  | some (.resume save load) =>
    let ctx := Function.update s.m_ctx save (some th.executing)
    (ctx load).map fun flow =>
      { s with m_ctx := Function.update ctx load none }.setThread w
        { th with executing := flow, switch := none, resumers := th.executing :: th.resumers }
  | some (.yield save load) =>
    let ctx := Function.update s.m_ctx save (some th.executing)
    (ctx load).map fun flow =>
      { s with m_ctx := Function.update ctx load none }.setThread w
        { th with executing := flow, switch := none, resumers := th.resumers.tail }
  | none => none

/-! ## The steps of the threads -/

/-- The fiber is one of the user's, or one that has been made for a callback. -/
def IsTask (s : Fibers n) : FiberId n → Prop
  | .user _ => True
  | .made k => k < s.created
  | .main _ | .scheduling _ | .idle _ => False

instance (s : Fibers n) : DecidablePred s.IsTask
  | .user _ => inferInstanceAs (Decidable True)
  | .made k => inferInstanceAs (Decidable (k < s.created))
  | .main _ | .scheduling _ | .idle _ => inferInstanceAs (Decidable False)

/-- The flow is one of a task, or of an idle fiber. -/
def IsGuest : FiberId n → Prop
  | .user _ | .made _ | .idle _ => True
  | .main _ | .scheduling _ => False

instance : DecidablePred (IsGuest : FiberId n → Prop)
  | .user _ | .made _ | .idle _ => inferInstanceAs (Decidable True)
  | .main _ | .scheduling _ => inferInstanceAs (Decidable False)

/-- Thread `w` executes `Scheduler::run`, and is at `a` there. -/
def AtRun (c : FiberSetup n) (s : Fibers n) (w : Fin n) (a : RunAt n) : Prop :=
  (s.thread w).executing = c.runFiber w ∧ (s.thread w).switch = none ∧ (s.thread w).runAt = a

instance (c : FiberSetup n) (s : Fibers n) (w : Fin n) (a : RunAt n) : Decidable (s.AtRun c w a) :=
  inferInstanceAs (Decidable (_ ∧ _ ∧ _))

/-- The steps. -/
inductive Act (n : ℕ)
  /-- a fiber or a callback, for which there is no fiber yet, is put into the queue -/
  | schedulerLock (task : Option (FiberId n))
  /-- `stop` resumes the scheduling fiber, on a caller thread -/
  | stop (w : Fin n)
  /-- `run` takes the `k`-th task out of the queue, and makes a fiber for a callback and locks it -/
  | dequeue (w : Fin n) (k : ℕ)
  /-- `run` has found no task -/
  | spare (w : Fin n)
  /-- `run` locks the mutex of a task's fiber -/
  | lock (w : Fin n)
  /-- the test of the fiber's state, and the call of `resume` -/
  | enter (w : Fin n)
  /-- the switch that `resume` or `yield` makes -/
  | swap (w : Fin n)
  /-- a call of `resume` in `run` has returned -/
  | back (w : Fin n)
  /-- a task, or `idle`, yields the current fiber -/
  | yield (w : Fin n)
  /-- the function of a fiber returns to `MainFunc` -/
  | finish (w : Fin n)
  /-- `MainFunc` yields for the last time -/
  | last (w : Fin n)
  deriving DecidableEq, Repr

/-- One step. A second `stop` of a caller thread is refused. -/
def step (c : FiberSetup n) (s : Fibers n) : Act n → Option (Fibers n)
  | .schedulerLock none => some { s with m_tasks := s.m_tasks ++ [none] }
  | .schedulerLock (some f) =>
    if s.IsTask f then some { s with m_tasks := s.m_tasks ++ [some f] } else none
  | .stop w =>
    let th := s.thread w
    if c.caller w ∧ th.executing = .main w ∧ th.switch = none ∧ th.stopped = false then
      some ((s.setThread w { th with stopped := true }).resume c w (.scheduling w))
    else none
  | .dequeue w k =>
    if s.AtRun c w .loop then
      match s.m_tasks[k]? with
      | some (some f) =>
        some ({ s with m_tasks := s.m_tasks.eraseIdx k }.setRunAt w (.waiting f))
      | some none =>
        let f := FiberId.made s.created
        some ({ s with
          m_tasks := s.m_tasks.eraseIdx k
          created := s.created + 1
          m_mutex := Function.update s.m_mutex f (some w) }.setRunAt w (.wrapped f))
      | none => none
    else none
  | .spare w =>
    if s.AtRun c w .loop then
      if s.m_state (.idle w) = .term then some (s.setRunAt w .exited)
      else some ((s.setRunAt w (.resuming (.idle w))).resume c w (.idle w))
    else none
  | .lock w =>
    match (s.thread w).runAt with
    | .waiting f =>
      if s.AtRun c w (.waiting f) ∧ s.m_mutex f = none then
        some ({ s with m_mutex := Function.update s.m_mutex f (some w) }.setRunAt w (.locked f))
      else none
    | _ => none
  | .enter w =>
    match (s.thread w).runAt with
    | .locked f =>
      if s.AtRun c w (.locked f) then
        if s.m_state f ≠ .term then some ((s.setRunAt w (.resuming f)).resume c w f)
        -- the fiber has ended: the task is dropped, and the mutex released
        else some ({ s with m_mutex := Function.update s.m_mutex f none }.setRunAt w .loop)
      else none
    | .wrapped f =>
      if s.AtRun c w (.wrapped f) then some ((s.setRunAt w (.resuming f)).resume c w f) else none
    | _ => none
  | .swap w => s.swap w
  | .back w =>
    match (s.thread w).runAt with
    | .resuming f =>
      if s.AtRun c w (.resuming f) then
        if f = .idle w then some (s.setRunAt w .loop)
        else some ({ s with m_mutex := Function.update s.m_mutex f none }.setRunAt w .loop)
      else none
    | _ => none
  | .yield w =>
    let th := s.thread w
    if IsGuest th.executing ∧ th.switch = none ∧ s.m_state th.executing ≠ .term then
      -- `Fiber::GetThis()->yield()`
      some (s.yield c w th.t_fiber)
    else none
  | .finish w =>
    let th := s.thread w
    if (IsGuest th.executing ∨ th.executing = .scheduling w ∧ th.runAt = .exited) ∧
        th.switch = none ∧ s.m_state th.executing ≠ .term then
      -- the fiber that `MainFunc` has been entered with
      some { s with m_state := Function.update s.m_state th.executing .term }
    else none
  | .last w =>
    let th := s.thread w
    if th.switch = none ∧ s.m_state th.executing = .term then some (s.yield c w th.executing)
    else none

end Fibers

end Dag
