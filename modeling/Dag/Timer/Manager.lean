import Dag.Foundation.OrderedSet
import Mathlib.Logic.Function.Basic
import Mathlib.Algebra.Order.Ring.Int

/-!
# Timers and their manager

A `TimerManager` keeps the pending timers in `m_timers`, a `std::set` ordered by the deadline
`m_next`. The set holds pointers: the deadlines it is ordered by are those of the timers as they
are now. Every operation takes the readings of the system clock that it makes as arguments.

Time points are nanoseconds since the epoch, in 64 bits, and so are periods once converted from
milliseconds; sums are read as wrapping around. A timer is named by a number, in the order in which
timers were made; `count` of them have been made.

## Main definitions

* `Timer`, `TimerManager`: the state
* `cancel`, `refresh`, `reset`: the operations of a timer
* `addTimer`, `getNextTimer`, `listExpiredCb`: the operations of the manager
* `TimerCall`, `TimerManager.step`: one call
-/

namespace Dag

open Foundation

variable {κ : Type}

/-- `t + std::chrono::milliseconds(ms)`. -/
def addMs (t : ℤ) (ms : ℕ) : ℤ := (t + ms * 10 ^ 6).bmod (2 ^ 64)

/-- `t - std::chrono::milliseconds(ms)`. -/
def subMs (t : ℤ) (ms : ℕ) : ℤ := (t - ms * 10 ^ 6).bmod (2 ^ 64)

/-- A timer, with callbacks in `κ`; `none` is the null callback. -/
structure Timer (κ : Type) where
  recurring : Bool
  ms : ℕ
  next : ℤ
  cb : Option κ
  deriving DecidableEq, Repr

/-- `Timer(ms, cb, recurring, manager)`, at `now`. -/
def Timer.construct (now : ℤ) (ms : ℕ) (cb : Option κ) (recurring : Bool) : Timer κ where
  recurring := recurring
  ms := ms
  next := addMs now ms
  cb := cb

/-- The manager, together with the timers made so far. -/
structure TimerManager (κ : Type) where
  timer : ℕ → Timer κ
  count : ℕ
  timers : List ℕ
  tickled : Bool
  previouseTime : ℤ

namespace TimerManager

/-- `TimerManager()`, at `now`. -/
def construct (now : ℤ) : TimerManager κ where
  timer := fun _ => ⟨false, 0, 0, none⟩
  count := 0
  timers := []
  tickled := false
  previouseTime := now

/-! ## The set of timers -/

/-- The deadline of a timer, which `Timer::Comparator` compares by. -/
def next (m : TimerManager κ) (t : ℕ) : ℤ := (m.timer t).next

/-- `m_timers.find(t)`: the member with the deadline of `t`. -/
def find (m : TimerManager κ) (t : ℕ) : Option ℕ := findKey m.next t m.timers

/-- `m_timers.erase(it)`. -/
def erase (m : TimerManager κ) (it : ℕ) : TimerManager κ := { m with timers := m.timers.erase it }

/-- `m_timers.insert(t)`. -/
def insert (m : TimerManager κ) (t : ℕ) : TimerManager κ :=
  { m with timers := insertKey m.next t m.timers }

/-- Assign the fields of a timer. -/
def setTimer (m : TimerManager κ) (t : ℕ) (x : Timer κ) : TimerManager κ :=
  { m with timer := Function.update m.timer t x }

/-! ## Operations of a timer -/

/-- `Timer::cancel()`. -/
def cancel (m : TimerManager κ) (t : ℕ) : Bool × TimerManager κ :=
  if (m.timer t).cb.isNone then (false, m)
  else
    -- `m_cb` is null before the timer is looked for
    let m := m.setTimer t { m.timer t with cb := none }
    match m.find t with
    | some it => (true, m.erase it)
    | none => (true, m)

/-- `Timer::refresh()`, at `now`. -/
def refresh (m : TimerManager κ) (now : ℤ) (t : ℕ) : Bool × TimerManager κ :=
  if (m.timer t).cb.isNone then (false, m)
  else
    match m.find t with
    | none => (false, m)
    | some it =>
      -- what is erased is the timer found, which has the deadline of `t`
      let m := m.erase it
      let m := m.setTimer t { m.timer t with next := addMs now (m.timer t).ms }
      (true, m.insert t)

/-- `TimerManager::addTimer(timer)`: whether `onTimerInsertedAtFront` is called. -/
def addTimerPtr (m : TimerManager κ) (t : ℕ) : Bool × TimerManager κ :=
  let m := m.insert t
  -- the iterator that `insert` returns is that of an equivalent member if there was one
  let at_front := decide (m.find t = m.timers.head?) && !m.tickled
  (at_front, { m with tickled := m.tickled || at_front })

/-- `Timer::reset(ms, from_now)`, at `now`. -/
def reset (m : TimerManager κ) (now : ℤ) (t ms : ℕ) (from_now : Bool) : Bool × TimerManager κ :=
  if ms = (m.timer t).ms ∧ from_now = false then (true, m)
  else if (m.timer t).cb.isNone then (false, m)
  else
    match m.find t with
    | none => (false, m)
    | some it =>
      let m := m.erase it
      let start := if from_now then now else subMs (m.timer t).next (m.timer t).ms
      let m := m.setTimer t { m.timer t with ms := ms, next := addMs start ms }
      (true, (m.addTimerPtr t).2)

/-! ## Operations of the manager -/

/-- `addTimer(ms, cb, recurring)`, at `now`: the new timer. -/
def addTimer (m : TimerManager κ) (now : ℤ) (ms : ℕ) (cb : Option κ) (recurring : Bool) :
    ℕ × TimerManager κ :=
  let t := m.count
  let m := { m.setTimer t (Timer.construct now ms cb recurring) with count := t + 1 }
  (t, (m.addTimerPtr t).2)

/-- `getNextTimer()`, at `now`: `~0ull`, or the milliseconds until the first deadline. -/
def getNextTimer (m : TimerManager κ) (now : ℤ) : ℕ × TimerManager κ :=
  let m := { m with tickled := false }
  match m.timers with
  | [] => (2 ^ 64 - 1, m)
  | t :: _ => (if m.next t ≤ now then 0 else ((m.next t - now) / 10 ^ 6).toNat, m)

/-- `hasTimer()`. -/
def hasTimer (m : TimerManager κ) : Bool := !m.timers.isEmpty

/-- `detectClockRollover()`, at `now`. -/
def detectClockRollover (m : TimerManager κ) (now : ℤ) : Bool × TimerManager κ :=
  (decide (now < subMs m.previouseTime (60 * 60 * 1000)), { m with previouseTime := now })

/-- The body of the loop of `listExpiredCb`, on the first timer of the set. -/
def expireFirst (m : TimerManager κ) (now : ℤ) (t : ℕ) : TimerManager κ :=
  let m := m.erase t
  -- an insertion that finds an equivalent member does nothing
  if (m.timer t).recurring then
    (m.setTimer t { m.timer t with next := addMs now (m.timer t).ms }).insert t
  else m.setTimer t { m.timer t with cb := none }

/-- The loop of `listExpiredCb`; `none` when it has not ended after `fuel` tests of its
condition. -/
def expireLoop (now : ℤ) (rollover : Bool) :
    ℕ → TimerManager κ → List (Option κ) → Option (List (Option κ) × TimerManager κ)
  | 0, _, _ => none
  | fuel + 1, m, cbs =>
    match m.timers with
    | [] => some (cbs, m)
    | t :: _ =>
      -- a rollover of the clock makes all timers due
      if rollover ∨ m.next t ≤ now then
        expireLoop now rollover fuel (m.expireFirst now t) (cbs ++ [(m.timer t).cb])
      else some (cbs, m)

/-- `listExpiredCb(cbs)`, at `now`, with the reading `now'` that `detectClockRollover` makes: the
callbacks appended. -/
def listExpiredCb (fuel : ℕ) (m : TimerManager κ) (now now' : ℤ) :
    Option (List (Option κ) × TimerManager κ) :=
  let (rollover, m) := m.detectClockRollover now'
  expireLoop now rollover fuel m []

/-! ## Calls -/

end TimerManager

/-- The calls on a manager and its timers, with the clock readings they make. Callbacks are not
null. -/
inductive TimerCall (κ : Type)
  | addTimer (now : ℤ) (ms : ℕ) (cb : κ) (recurring : Bool)
  | cancel (t : ℕ)
  | refresh (now : ℤ) (t : ℕ)
  | reset (now : ℤ) (t ms : ℕ) (from_now : Bool)
  | getNextTimer (now : ℤ)
  | listExpiredCb (fuel : ℕ) (now now' : ℤ)
  deriving DecidableEq, Repr

/-- The timer that a call is made on. -/
def TimerCall.timer? : TimerCall κ → Option ℕ
  | .cancel t => some t
  | .refresh _ t => some t
  | .reset _ t _ _ => some t
  | _ => none

namespace TimerManager

/-- One call, on a timer that has been made; refused when it does not return. -/
def step (m : TimerManager κ) (c : TimerCall κ) : Option (TimerManager κ) :=
  if ∃ t ∈ c.timer?, m.count ≤ t then none
  else
    match c with
    | .addTimer now ms cb recurring => some (m.addTimer now ms (some cb) recurring).2
    | .cancel t => some (m.cancel t).2
    | .refresh now t => some (m.refresh now t).2
    | .reset now t ms from_now => some (m.reset now t ms from_now).2
    | .getNextTimer now => some (m.getNextTimer now).2
    | .listExpiredCb fuel now now' => (listExpiredCb fuel m now now').map Prod.snd

end TimerManager

end Dag
