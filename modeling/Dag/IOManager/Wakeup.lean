import Dag.Scheduler.Conservation

/-!
# Waking idle workers

A worker of an `IOManager` that finds nothing to run blocks in `epoll_wait`. `tickle` writes a byte
to a pipe that every `epoll_wait` watches, but only when it sees an idle worker, and
`schedulerLock` calls it only when the queue was empty. The count of idle workers and the queue are
read apart from each other: a worker that has found the queue empty is not yet counted.

The scheduler below is the one of `Dag.Scheduler.Tasks`; what is added is where a thread is in
`tickle`, where a worker is in `idle`, and the bytes in the pipe. Tasks run by a worker that add
tasks, timers or events are threads of their own here. Workers see any events, timeouts and
interrupts from `epoll_wait`, and read the pipe at any moment between two waits.

## Main definitions

* `Thread`, `Tickling`, `IdleAt`, `Wakeup`: the state
* `Wakeup.step`: the steps
* `Wakeup.Stuck`: a task waits, and nothing but a timeout will look at it
-/

namespace Dag

open Foundation

/-- A thread: one of the workers, or another one. -/
inductive Thread (n : ℕ)
  | worker (w : Fin n)
  | external (c : ℕ)
  deriving DecidableEq, Repr

/-- Where a thread is in `tickle`: before the test for idle workers, or before the write. -/
inductive Tickling
  | check
  | write
  deriving DecidableEq, Repr

/-- Where a worker is in `idle`. -/
inductive IdleAt
  /-- before the test of `stopping` -/
  | loop
  /-- before `epoll_wait` -/
  | poll
  /-- in `epoll_wait` -/
  | blocked
  /-- behind `epoll_wait`, before the yield -/
  | woken
  deriving DecidableEq, Repr

/-- A scheduler with `n` workers, with what `tickle` and `idle` add to its state. -/
structure Wakeup (n : ℕ) where
  core : Scheduler n
  tickling : Thread n → Option Tickling
  idleAt : Fin n → IdleAt
  pipe : ℕ

namespace Wakeup

variable {n : ℕ}

/-- The workers are about to run, and the pipe is empty. -/
def start (n : ℕ) : Wakeup n where
  core := Scheduler.start n
  tickling := fun _ => none
  idleAt := fun _ => .loop
  pipe := 0

/-- Thread `θ` is at `p` in a call of `tickle`, or out of it. -/
def setTickling (s : Wakeup n) (θ : Thread n) (p : Option Tickling) : Wakeup n :=
  { s with tickling := Function.update s.tickling θ p }

/-- Worker `w` is at `p` in `idle`. -/
def setIdleAt (s : Wakeup n) (w : Fin n) (p : IdleAt) : Wakeup n :=
  { s with idleAt := Function.update s.idleAt w p }

/-- A call of `tickle`, when `need_tickle` or `tickle_me` asks for it. -/
def callTickle (s : Wakeup n) (θ : Thread n) (need : Bool) : Wakeup n :=
  s.setTickling θ (if need then some .check else none)

/-- Worker `w` is in `idle` at `p`, and not in a call from there. -/
def InIdle (s : Wakeup n) (w : Fin n) (p : IdleAt) : Prop :=
  s.core.phase w = .idle ∧ s.idleAt w = p ∧ s.tickling (.worker w) = none

instance (s : Wakeup n) (w : Fin n) (p : IdleAt) : Decidable (s.InIdle w p) :=
  inferInstanceAs (Decidable (_ ∧ _ ∧ _))

/-- The steps. -/
inductive Act (n : ℕ)
  /-- the critical section of `schedulerLock(fc)` on a thread that is not a worker -/
  | schedulerLock (c : ℕ) (fc : FiberOrCb)
  /-- a call of `tickle` by `stop` or `onTimerInsertedAtFront` -/
  | tickle (c : ℕ)
  /-- the test for idle workers in `tickle` -/
  | check (θ : Thread n)
  /-- the write of `tickle` -/
  | write (θ : Thread n)
  /-- the critical section of `run` -/
  | dequeue (w : Fin n)
  | finish (w : Fin n) (term : Bool)
  | enterIdle (w : Fin n)
  /-- `stopping()` is false -/
  | poll (w : Fin n)
  /-- `stopping()` is true: the idle fiber ends -/
  | stop (w : Fin n)
  /-- the call of `epoll_wait` -/
  | block (w : Fin n)
  /-- `epoll_wait` is interrupted -/
  | interrupt (w : Fin n)
  /-- `epoll_wait` returns -/
  | wake (w : Fin n)
  /-- the pipe is read until it is empty -/
  | drain (w : Fin n)
  /-- the critical section of `schedulerLock(fc)` in `idle`, for a timer or an event -/
  | dispatch (w : Fin n) (fc : FiberOrCb)
  /-- the idle fiber yields -/
  | yield (w : Fin n)
  deriving DecidableEq, Repr

/-- One step. -/
def step (tid : Fin n → ℤ) (s : Wakeup n) : Act n → Option (Wakeup n)
  | .schedulerLock c fc =>
    if s.tickling (.external c) = none then
      -- the mutex is released before `tickle` is called
      let (need_tickle, core) := s.core.schedulerLock fc (-1)
      some ({ s with core := core }.callTickle (.external c) need_tickle)
    else none
  | .tickle c =>
    if s.tickling (.external c) = none then some (s.callTickle (.external c) true) else none
  | .check θ =>
    if s.tickling θ = some .check then
      -- the count of idle workers is read without the mutex
      some (s.setTickling θ (if s.core.hasIdleThreads then some .write else none))
    else none
  | .write θ =>
    if s.tickling θ = some .write then some ({ s with pipe := s.pipe + 1 }.setTickling θ none)
    else none
  | .dequeue w =>
    if s.tickling (.worker w) = none then
      -- the mutex of the queue is released here as well, before the worker counts itself as idle
      (s.core.dequeue tid w).map fun (tickle_me, core) =>
        { s with core := core }.callTickle (.worker w) tickle_me
    else none
  | .finish w term =>
    if s.tickling (.worker w) = none then
      (s.core.finish w term).map fun core => { s with core := core }
    else none
  | .enterIdle w =>
    if s.tickling (.worker w) = none then
      (s.core.enterIdle w).map fun core => { s with core := core }.setIdleAt w .loop
    else none
  | .poll w => if s.InIdle w .loop then some (s.setIdleAt w .poll) else none
  | .stop w =>
    if s.InIdle w .loop then (s.core.leaveIdle w true).map fun core => { s with core := core }
    else none
  | .block w => if s.InIdle w .poll then some (s.setIdleAt w .blocked) else none
  | .interrupt w => if s.InIdle w .blocked then some (s.setIdleAt w .poll) else none
  | .wake w => if s.InIdle w .blocked then some (s.setIdleAt w .woken) else none
  | .drain w => if s.InIdle w .woken then some { s with pipe := 0 } else none
  | .dispatch w fc =>
    if s.InIdle w .woken then
      let (need_tickle, core) := s.core.schedulerLock fc (-1)
      some ({ s with core := core }.callTickle (.worker w) need_tickle)
    else none
  | .yield w =>
    if s.InIdle w .woken then (s.core.leaveIdle w false).map fun core => { s with core := core }
    else none

/-- **Stuck**: a task waits in the queue, every worker is in `epoll_wait`, the pipe is empty, and no
thread is in a call of `tickle`. -/
def Stuck (s : Wakeup n) : Prop :=
  s.core.tasks ≠ [] ∧ (∀ w, s.core.phase w = .idle ∧ s.idleAt w = .blocked) ∧ s.pipe = 0 ∧
    ∀ θ, s.tickling θ = none

end Wakeup

end Dag
