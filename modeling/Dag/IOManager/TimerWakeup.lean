import Dag.IOManager.Wakeup
import Dag.Timer.Linked

/-!
# Waking workers for timers

A worker of an `IOManager` waits in `epoll_wait` until the first deadline that it has read by
`getNextTimer`, at most for five seconds. When `addTimer` puts a timer in front of the others it
calls `tickle`, so that some worker reads the deadlines anew; the flag `m_tickled` suppresses
further calls until a worker does.

The workers are those of `Dag.IOManager.Wakeup`, and the timers those of `Dag.Timer.Manager`. What is
added is the last reading of each worker at its place in `idle`, and the calls of `tickle` that
`addTimer` has made. A wait is counted from the reading of the clock in `getNextTimer`. A worker
reads the deadlines in `stopping`, and again before every `epoll_wait`; a wait of no time returns at
once. Behind `epoll_wait` it calls `listExpiredCb`, and adds tasks.

## Main definitions

* `Reading`: what `getNextTimer` has returned
* `TimerWakeup`, `TimerWakeup.step`: the workers with their timers, and the steps
* `TimerWakeup.Resting`: every worker is in `epoll_wait` or executes a task, and no wakeup is on its
  way
-/

namespace Dag

open Foundation

/-- What `getNextTimer` has returned, at the time `now`. -/
structure Reading where
  now : ℤ
  timeout : ℕ
  deriving DecidableEq, Repr

namespace Reading

/-- `next_timeout`: the time that `epoll_wait` is given, in milliseconds. -/
def next_timeout (r : Reading) : ℕ := min r.timeout 5000

/-- When `epoll_wait` returns by itself. -/
def returnsAt (r : Reading) : ℤ := r.now + r.next_timeout * 10 ^ 6

end Reading

/-- The workers with their timers. `notifying` are the threads in a call of `tickle` by
`onTimerInsertedAtFront`. -/
structure TimerWakeup (n : ℕ) (κ : Type) where
  wake : Wakeup n
  manager : TimerManager κ
  reading : Fin n → Option Reading
  notifying : List (Thread n)

namespace TimerWakeup

variable {n : ℕ} {κ : Type}

/-- The workers are about to run, and there are no timers. -/
def start (n : ℕ) (κ : Type) (now : ℤ) : TimerWakeup n κ where
  wake := Wakeup.start n
  manager := TimerManager.construct now
  reading := fun _ => none
  notifying := []

/-- The steps. -/
inductive Act (n : ℕ) (κ : Type)
  /-- a step that does not touch the timers -/
  | wake (a : Wakeup.Act n)
  /-- a call of `epoll_wait` that returns at once -/
  | pass (w : Fin n)
  /-- `getNextTimer`, in `stopping` or before `epoll_wait` -/
  | getNextTimer (w : Fin n) (now : ℤ)
  /-- `addTimer`, up to the call of `tickle` -/
  | addTimer (c : ℕ) (now : ℤ) (ms : ℕ) (cb : κ) (recurring : Bool)
  | cancel (t : ℕ)
  | listExpiredCb (w : Fin n) (fuel : ℕ) (now now' : ℤ)
  deriving DecidableEq, Repr

/-- What the worker has read before the step: `stopping()` has asked for the next timer, and is true
only if there was none; and `epoll_wait` has been given a time. -/
def Ready (s : TimerWakeup n κ) : Wakeup.Act n → Prop
  | .poll w => s.reading w ≠ none
  | .stop w => ∃ r ∈ s.reading w, r.timeout = 2 ^ 64 - 1
  | .block w => ∃ r ∈ s.reading w, r.next_timeout ≠ 0
  | _ => True

instance (s : TimerWakeup n κ) : DecidablePred s.Ready
  | .poll w => inferInstanceAs (Decidable (s.reading w ≠ none))
  | .stop w => inferInstanceAs (Decidable (∃ r ∈ s.reading w, r.timeout = 2 ^ 64 - 1))
  | .block w => inferInstanceAs (Decidable (∃ r ∈ s.reading w, r.next_timeout ≠ 0))
  | .schedulerLock .. | .tickle _ | .check _ | .write _ | .dequeue _ | .finish .. | .enterIdle _
  | .interrupt _ | .wake _ | .drain _ | .dispatch .. | .yield _ => inferInstanceAs (Decidable True)

/-- A worker that comes to a place in `idle` where it has not called `getNextTimer` yet. -/
def forget (f : Fin n → Option Reading) : Wakeup.Act n → Fin n → Option Reading
  | .enterIdle w | .poll w | .interrupt w => Function.update f w none
  | _ => f

/-- The workers have become `wake`. A notification ends with its call of `tickle`. -/
def setWake (s : TimerWakeup n κ) (wake : Wakeup n) : TimerWakeup n κ :=
  { s with
    wake := wake
    notifying := s.notifying.filter fun θ => (wake.tickling θ).isSome }

/-- One step. -/
def step (tid : Fin n → ℤ) (s : TimerWakeup n κ) : Act n κ → Option (TimerWakeup n κ)
  | .wake a =>
    if s.Ready a then
      (s.wake.step tid a).map fun wake => { s.setWake wake with reading := forget s.reading a }
    else none
  | .pass w =>
    if ∃ r ∈ s.reading w, r.next_timeout = 0 then
      ((s.wake.step tid (.block w)).bind fun wake => wake.step tid (.wake w)).map s.setWake
    else none
  | .getNextTimer w now =>
    if (s.wake.InIdle w .loop ∨ s.wake.InIdle w .poll) ∧ s.reading w = none then
      let (timeout, manager) := s.manager.getNextTimer now
      some { s with
        manager := manager
        reading := Function.update s.reading w (some ⟨now, timeout⟩) }
    else none
  | .addTimer c now ms cb recurring =>
    if s.wake.tickling (.external c) = none then
      let (at_front, manager) := s.manager.insertTimer now ms cb recurring
      some { s with
        manager := manager
        -- `onTimerInsertedAtFront` calls `tickle`
        wake := s.wake.callTickle (.external c) at_front
        notifying := if at_front then .external c :: s.notifying else s.notifying }
    else none
  | .cancel t =>
    if t < s.manager.count then some { s with manager := (s.manager.cancel t).2 } else none
  | .listExpiredCb w fuel now now' =>
    if s.wake.InIdle w .woken then
      (s.manager.listExpiredCb fuel now now').map fun r => { s with manager := r.2 }
    else none

/-- Worker `w` is in `epoll_wait`. -/
def Blocked (s : TimerWakeup n κ) (w : Fin n) : Prop :=
  s.wake.core.phase w = .idle ∧ s.wake.idleAt w = .blocked

instance (s : TimerWakeup n κ) : DecidablePred s.Blocked :=
  fun _ => inferInstanceAs (Decidable (_ ∧ _))

/-- **Resting**: a worker is in `epoll_wait`, every other worker is there or executes a task, the
pipe is empty, and no `addTimer` is between its insertion and the end of its notification. -/
structure Resting (s : TimerWakeup n κ) : Prop where
  blocked : ∃ w, s.Blocked w
  others : ∀ w, s.Blocked w ∨ (s.wake.core.phase w).Busy
  pipe : s.wake.pipe = 0
  notifying : s.notifying = []

/-- Some worker returns from `epoll_wait` by itself no later than `d`. -/
def ReturnsBy (s : TimerWakeup n κ) (d : ℤ) : Prop :=
  ∃ w, s.Blocked w ∧ ∃ r ∈ s.reading w, r.returnsAt ≤ d

instance (s : TimerWakeup n κ) : DecidablePred s.ReturnsBy :=
  fun d => inferInstanceAs (Decidable (∃ w, s.Blocked w ∧ ∃ r ∈ s.reading w, r.returnsAt ≤ d))

end TimerWakeup

end Dag
