import Dag.IOManager.Events
import Dag.IOManager.Wakeup
import Dag.Scheduler.Shutdown
import Dag.Timer.Reset

/-!
# When a worker of an IOManager ends

`IOManager::stopping` asks three questions one after another: whether there is no timer, whether
`m_pendingEvenCount` is zero, and, under the mutex of the queue, whether `Scheduler::stopping` holds.
In between, the other threads go on. A task may add timers and events, and end; a call that changes
the registered events counts them up or down apart from registering or clearing them.

The scheduler is that of `Dag.Scheduler.Shutdown`, the timers those of `Dag.Timer.Reset`, where a
`reset` is in flight between the two sections in which it holds the lock. Of the events only which are
registered is kept. The calls on them hold the lock of the context of their descriptor, which is the
place in the list `calls`, and each takes several steps. A call is made by a task, by a worker behind
`epoll_wait`, or by a thread that is not a worker.

## Main definitions

* `EventAt`, `EventCall`: a call on the events between two of its steps
* `Stopping`, `Stopping.step`: the state and the steps
* `Stopping.overtaken`: work has been added behind the readings of a worker
* `Stopping.Ends`: the idle fiber of a worker is about to be told that it may end
* `Stopping.Drained`: there is no timer, no registered event, and no task
-/

namespace Dag

open Foundation

/-- Where a call on the events is. -/
inductive EventAt
  /-- `addEvent`, behind the count -/
  | adding
  /-- `delEvent`, behind the count -/
  | deleting
  /-- `cancelEvent`, behind the count -/
  | cancelling
  /-- `cancelEvent` in `triggerEvent`, with the event cleared -/
  | cancelled
  /-- `cancelAll` or the dispatch in `triggerEvent`, with the event cleared -/
  | triggered
  /-- `cancelAll` or the dispatch, before the count -/
  | requeued
  deriving DecidableEq, Repr

/-- A call on an event of a descriptor. -/
structure EventCall (n : ℕ) where
  thread : Thread n
  fd : ℕ
  event : Event
  place : EventAt
  deriving DecidableEq, Repr

/-- Where the idle fiber of a worker is. -/
inductive CheckAt
  /-- before `stopping` -/
  | start
  /-- in `stopping`; there was no timer -/
  | timers
  /-- in `stopping`; there was no timer, and then no pending event -/
  | events
  /-- `stopping` was false -/
  | on
  deriving DecidableEq, Repr

/-- The scheduler with its timers and its events. `overtaken` is not part of the code: it says of a
worker in `stopping` that what it has read has been added to since. -/
structure Stopping (n : ℕ) (κ : Type) where
  base : Shutdown n
  timers : TimerThreads (Thread n) κ
  registered : Finset (ℕ × Event)
  pendingEvenCount : ℤ
  calls : List (EventCall n)
  check : Fin n → CheckAt
  overtaken : Fin n → Bool

namespace Stopping

variable {n : ℕ} {κ : Type}

/-- The workers are about to run, and there are no timers and no events. -/
def start (n : ℕ) (κ : Type) (now : ℤ) : Stopping n κ where
  base := Shutdown.start n
  timers := TimerThreads.start (TimerManager.construct now)
  registered := ∅
  pendingEvenCount := 0
  calls := []
  check := fun _ => .start
  overtaken := fun _ => false

/-- Worker `w` is in its idle fiber at `p`. -/
def InCheck (s : Stopping n κ) (w : Fin n) (p : CheckAt) : Prop :=
  s.base.core.phase w = .idle ∧ s.check w = p

instance (s : Stopping n κ) (w : Fin n) (p : CheckAt) : Decidable (s.InCheck w p) :=
  inferInstanceAs (Decidable (_ ∧ _))

/-- Worker `w` is in `stopping`, and has found that there was no timer. -/
def Checking (s : Stopping n κ) (w : Fin n) : Prop := s.InCheck w .timers ∨ s.InCheck w .events

instance (s : Stopping n κ) : DecidablePred s.Checking :=
  fun _ => inferInstanceAs (Decidable (_ ∨ _))

/-- The thread executes a task, or is not a worker. -/
def Task (s : Stopping n κ) : Thread n → Prop
  | .worker w => (s.base.core.phase w).Busy
  | .external _ => True

instance (s : Stopping n κ) : DecidablePred s.Task
  | .worker w => inferInstanceAs (Decidable (s.base.core.phase w).Busy)
  | .external _ => inferInstanceAs (Decidable True)

/-- The thread executes a task, is behind `epoll_wait`, or is not a worker. -/
def Runs (s : Stopping n κ) (θ : Thread n) : Prop :=
  s.Task θ ∨ ∃ w, θ = .worker w ∧ s.InCheck w .on

instance (s : Stopping n κ) : DecidablePred s.Runs :=
  fun θ => inferInstanceAs (Decidable (s.Task θ ∨ ∃ w, θ = .worker w ∧ s.InCheck w .on))

/-- The thread is in no call on the events. -/
def Outside (s : Stopping n κ) (θ : Thread n) : Prop := ∀ k ∈ s.calls, k.thread ≠ θ

instance (s : Stopping n κ) : DecidablePred s.Outside :=
  fun θ => inferInstanceAs (Decidable (∀ k ∈ s.calls, k.thread ≠ θ))

/-- The thread is in no call on the events, and not in `reset`. -/
def Between (s : Stopping n κ) (θ : Thread n) : Prop := s.Outside θ ∧ s.timers.phase θ = .idle

instance (s : Stopping n κ) : DecidablePred s.Between :=
  fun _ => inferInstanceAs (Decidable (_ ∧ _))

/-- The lock of the context of `fd` is free. -/
def Free (s : Stopping n κ) (fd : ℕ) : Prop := ∀ k ∈ s.calls, k.fd ≠ fd

instance (s : Stopping n κ) : DecidablePred s.Free :=
  fun fd => inferInstanceAs (Decidable (∀ k ∈ s.calls, k.fd ≠ fd))

/-- `schedulerLock(fc)`. -/
def schedulerLock (s : Stopping n κ) (fc : FiberOrCb) : Stopping n κ :=
  { s with base := { s.base with core := (s.base.core.schedulerLock fc (-1)).2 } }

/-- The steps. -/
inductive Act (n : ℕ) (κ : Type)
  /-- a step of the scheduler, other than that of an idle fiber -/
  | base (a : Shutdown.Act n)
  /-- a step of a call on the timers -/
  | timer (a : TimerAct (Thread n) κ)
  /-- `stopping` reads the timers -/
  | readTimers (w : Fin n) (now : ℤ)
  /-- `stopping` reads the count of pending events -/
  | readPending (w : Fin n)
  /-- `stopping` calls `Scheduler::stopping` -/
  | test (w : Fin n)
  /-- the idle fiber yields -/
  | yield (w : Fin n)
  | addEvent (θ : Thread n) (fd : ℕ) (event : Event)
  | delEvent (θ : Thread n) (fd : ℕ) (event : Event)
  | cancelEvent (θ : Thread n) (fd : ℕ) (event : Event)
  /-- `cancelAll`, or the dispatch in `idle`, comes to `triggerEvent` for an event -/
  | trigger (θ : Thread n) (fd : ℕ) (event : Event)
  /-- a call on the events goes on; `fc` is what its event context holds -/
  | proceed (θ : Thread n) (fc : FiberOrCb)
  deriving DecidableEq, Repr

/-- What holds of the worker that takes a step of the scheduler: it ends its task behind all calls,
and its idle fiber takes the steps below instead. -/
def Allowed (s : Stopping n κ) : Shutdown.Act n → Prop
  | .finish w _ => s.Between (.worker w)
  | .idle _ => False
  | _ => True

instance (s : Stopping n κ) : DecidablePred s.Allowed
  | .finish w _ => inferInstanceAs (Decidable (s.Between (.worker w)))
  | .idle _ => inferInstanceAs (Decidable False)
  | .stop | .schedulerLock .. | .push .. | .dequeue _ | .enterIdle _ =>
    inferInstanceAs (Decidable True)

/-- A worker that goes into its idle fiber is before `stopping`. -/
def enter (check : Fin n → CheckAt) : Shutdown.Act n → Fin n → CheckAt
  | .enterIdle w => Function.update check w .start
  | _ => check

/-- The workers of `p` are overtaken, too. -/
def overtake (overtaken : Fin n → Bool) (p : Fin n → Prop) [DecidablePred p] : Fin n → Bool :=
  fun w => overtaken w || decide (p w)

theorem overtake_eq_false {overtaken : Fin n → Bool} {p : Fin n → Prop} [DecidablePred p] {w : Fin n} :
    overtake overtaken p w = false ↔ overtaken w = false ∧ ¬ p w := by
  rw [overtake, Bool.or_eq_false_iff, decide_eq_false_iff_not]

/-- The call of a thread makes its next step. -/
def proceed (s : Stopping n κ) (k : EventCall n) (fc : FiberOrCb) : Stopping n κ :=
  let rest := s.calls.erase k
  match k.place with
  | .adding => { s with calls := rest, registered := insert (k.fd, k.event) s.registered }
  | .deleting => { s with calls := rest, registered := s.registered.erase (k.fd, k.event) }
  | .cancelling => { s with
      calls := { k with place := .cancelled } :: rest
      registered := s.registered.erase (k.fd, k.event) }
  | .cancelled => { s with calls := rest }.schedulerLock fc
  | .triggered => { s with calls := { k with place := .requeued } :: rest }.schedulerLock fc
  | .requeued => { s with calls := rest, pendingEvenCount := s.pendingEvenCount - 1 }

/-- One step. -/
def step (tid : Fin n → ℤ) (s : Stopping n κ) : Act n κ → Option (Stopping n κ)
  | .base a =>
    if s.Allowed a then
      (s.base.step tid a).map fun base => { s with base := base, check := enter s.check a }
    else none
  | .timer a =>
    if s.Runs a.thread ∧ s.Outside a.thread then
      (s.timers.step a).map fun timers => { s with
        timers := timers
        overtaken := if a.adds then overtake s.overtaken s.Checking else s.overtaken }
    else none
  | .readTimers w now =>
    -- a difference of time points that 64 bits do not hold is not computed
    if s.InCheck w .start ∧
        ∀ t ∈ s.timers.manager.timers, s.timers.manager.next t - now < 2 ^ 63 then
      let (timeout, manager) := s.timers.manager.getNextTimer now
      some { s with
        timers := s.timers.withManager manager
        check := Function.update s.check w (if timeout = 2 ^ 64 - 1 then .timers else .on)
        overtaken := Function.update s.overtaken w false }
    else none
  | .readPending w =>
    if s.InCheck w .timers then
      some { s with
        check := Function.update s.check w (if s.pendingEvenCount = 0 then .events else .on) }
    else none
  | .test w =>
    if s.InCheck w .events then
      if s.base.stopping then
        (s.base.core.leaveIdle w true).map fun core => { s with base := { s.base with core := core } }
      else some { s with check := Function.update s.check w .on }
    else none
  | .yield w =>
    if s.InCheck w .on ∧ s.Between (.worker w) then
      (s.base.core.leaveIdle w false).map fun core => { s with base := { s.base with core := core } }
    else none
  | .addEvent θ fd event =>
    -- `addEvent` asserts that the event is not registered
    if s.Task θ ∧ s.Between θ ∧ s.Free fd ∧ (fd, event) ∉ s.registered then
      some { s with
        pendingEvenCount := s.pendingEvenCount + 1
        calls := ⟨θ, fd, event, .adding⟩ :: s.calls
        overtaken := overtake s.overtaken fun w => s.InCheck w .events }
    else none
  | .delEvent θ fd event =>
    if s.Task θ ∧ s.Between θ ∧ s.Free fd ∧ (fd, event) ∈ s.registered then
      some { s with
        pendingEvenCount := s.pendingEvenCount - 1
        calls := ⟨θ, fd, event, .deleting⟩ :: s.calls }
    else none
  | .cancelEvent θ fd event =>
    if s.Task θ ∧ s.Between θ ∧ s.Free fd ∧ (fd, event) ∈ s.registered then
      some { s with
        pendingEvenCount := s.pendingEvenCount - 1
        calls := ⟨θ, fd, event, .cancelling⟩ :: s.calls }
    else none
  | .trigger θ fd event =>
    if s.Runs θ ∧ s.Between θ ∧ s.Free fd ∧ (fd, event) ∈ s.registered then
      some { s with
        registered := s.registered.erase (fd, event)
        calls := ⟨θ, fd, event, .triggered⟩ :: s.calls }
    else none
  | .proceed θ fc => (s.calls.find? fun k => k.thread = θ).map fun k => s.proceed k fc

/-- The call of `stopping` in the idle fiber of `w` is about to return true. -/
def Ends (s : Stopping n κ) (w : Fin n) : Prop := s.InCheck w .events ∧ s.base.stopping = true

/-- **Drained**: there is no timer, no registered event, no task in the queue, and no worker that
holds one. A callback that `listExpiredCb` has handed over is a task when it is in the queue. -/
structure Drained (s : Stopping n κ) : Prop where
  timers : s.timers.manager.timers = []
  registered : s.registered = ∅
  tasks : s.base.core.tasks = []
  not_busy : ∀ w, ¬ (s.base.core.phase w).Busy

end Stopping

end Dag
