import Dag.Foundation.Run
import Dag.IOManager.Descriptor
import Dag.Timer.Manager

/-!
# Hooked reads and writes, and the hooked close

The hooked `read`, `write` and their kin all run `do_io` on a file descriptor: the raw call is made,
and when it returns `EAGAIN` the fiber registers the event with the `IOManager`, yields, and goes
back to `retry` once it is resumed. With a timeout a condition timer is armed before the event is
registered. Its callback sets the flag `cancelled`, and cancels the event. The hooked `close` cancels
all events of the descriptor, deletes its `FdCtx`, and closes it.

There is one file descriptor number `fd`, which may be closed and be given again by `socket` or
`accept`. Any number of calls of `do_io` are under way on it, and named by numbers; each is a fiber
of its own, and its callback is named by the same number. Workers are not told apart: any fiber that
is not suspended may take its next step. The operations of the `IOManager` and of the timers hold
their locks, and are one step each; the test of the flag in the callback, its assignment and the
`cancelEvent` are three.

The events are those of `Dag.IOManager.Events` and the timers those of `Dag.Timer.Manager`, together
with whatever other timers there are. The kernel drops a descriptor from its epoll set when it is
closed. `suspended`, `caught`, `late` and `vacated` record what has happened; no step reads them.

## Main definitions

* `FdCtx`: what the hook knows of a descriptor
* `DoIo`, `IoAt`: a call of `do_io`, and where it is
* `Callback`: the callbacks of timers
* `Hook`, `Hook.step`: the state and the steps
* `Hook.start`: the descriptor is open, and no call is under way

## Main results

* `Hook.changesCalls_of_step`: which steps change the calls, and how
-/

namespace Dag

open Foundation

/-! ## Contexts of descriptors -/

/-- `FdCtx`, as far as `do_io` reads it. -/
structure FdCtx where
  isSocket : Bool
  userNonblock : Bool
  isClosed : Bool
  recvTimeout : ℕ
  sendTimeout : ℕ
  deriving DecidableEq, Repr

namespace FdCtx

/-- `FdCtx(fd)`, for a descriptor that is a socket or not. -/
def construct (isSocket : Bool) : FdCtx := ⟨isSocket, false, false, 2 ^ 64 - 1, 2 ^ 64 - 1⟩

/-- `getTimeout(type)`: `SO_RCVTIMEO` is the type of `READ`, and `SO_SNDTIMEO` that of `WRITE`. -/
def getTimeout (ctx : FdCtx) : Event → ℕ
  | .read => ctx.recvTimeout
  | .write => ctx.sendTimeout

/-- `setTimeout(type, v)`. -/
def setTimeout (ctx : FdCtx) (v : ℕ) : Event → FdCtx
  | .read => { ctx with recvTimeout := v }
  | .write => { ctx with sendTimeout := v }

end FdCtx

/-! ## Calls of do_io -/

/-- What a raw call returns: `-1` with `EINTR`, `-1` with `EAGAIN`, or anything else. -/
inductive RawResult
  | eintr
  | eagain
  | other (n : ℤ)
  deriving DecidableEq, Repr

/-- The number that a raw call returns. -/
def RawResult.value : RawResult → ℤ
  | .eintr => -1
  | .eagain => -1
  | .other n => n

/-- Where a call of `do_io` is. -/
inductive IoAt
  /-- before the only raw call, on a descriptor that is not for the hook -/
  | plain
  /-- at `retry` -/
  | retry
  /-- the raw call has returned `EAGAIN` -/
  | blocked
  /-- before `addEvent` -/
  | armed
  /-- `addEvent` has failed -/
  | failed
  /-- `addEvent` has returned 0, for the registration of this number -/
  | registered (serial : ℕ)
  /-- in `yield` -/
  | parked (serial : ℕ)
  /-- behind `yield` -/
  | resumed
  /-- the timer has been cancelled, and the flag is to be tested -/
  | testing
  | done (n : ℤ)
  deriving DecidableEq, Repr

/-- A call of `do_io`, with its last timer, and the flag of its `timer_info`. It has been `suspended`
from its first successful `addEvent` on: its fiber, which yields next, can be resumed by others from
then on. It is `caught` when `close` has returned since then, and `late` when it has made a raw call
after that. -/
structure DoIo where
  event : Event
  timeout : ℕ
  timer : Option ℕ
  cancelled : Bool
  place : IoAt
  suspended : Bool
  caught : Bool
  late : Bool
  deriving DecidableEq, Repr

namespace DoIo

/-- The call has returned. -/
def isDone (d : DoIo) : Bool :=
  match d.place with
  | .done _ => true
  | _ => false

/-- The beginning of `do_io`, up to the first raw call. -/
def begin (ctx : Option FdCtx) (event : Event) : DoIo :=
  let (timeout, place) :=
    match ctx with
    | none => (2 ^ 64 - 1, .plain)
    | some ctx =>
      -- `EBADF`
      if ctx.isClosed then (2 ^ 64 - 1, .done (-1))
      else if !ctx.isSocket || ctx.userNonblock then (2 ^ 64 - 1, .plain)
      else (ctx.getTimeout event, IoAt.retry)
  ⟨event, timeout, none, false, place, false, false, false⟩

/-- The raw call. -/
def raw (d : DoIo) (r : RawResult) : Option DoIo :=
  match d.place with
  | .plain => some { d with place := .done r.value, late := d.late || d.caught }
  | .retry =>
    let place :=
      match r with
      | .eintr => .retry
      | .eagain => .blocked
      | .other n => .done n
    some { d with place := place, late := d.late || d.caught }
  | _ => none

/-- `yield`. -/
def yield (d : DoIo) : Option DoIo :=
  match d.place with
  | .registered serial => some { d with place := .parked serial }
  | _ => none

/-- The fiber is resumed, when its registration is one of those that were triggered. -/
def resume (d : DoIo) (pushed : List Pushed) : Option DoIo :=
  match d.place with
  | .parked serial =>
    if serial ∈ pushed.map Pushed.serial then some { d with place := .resumed } else none
  | _ => none

/-- The timer has been cancelled. -/
def cancelTimer (d : DoIo) : Option DoIo :=
  match d.place with
  | .failed => some { d with place := .done (-1) }
  | .resumed => some { d with place := .testing }
  | _ => none

/-- The test of the flag behind `yield`. -/
def test (d : DoIo) : Option DoIo :=
  match d.place with
  | .testing => some { d with place := if d.cancelled then .done (-1) else .retry }
  | _ => none

/-- `close` has returned. -/
def closed (d : DoIo) : DoIo := { d with caught := d.caught || (d.suspended && !d.isDone) }

end DoIo

/-! ## The state -/

/-- The callback of a timer: that of a call of `do_io`, or any other one. -/
inductive Callback
  | timeout (i : ℕ)
  | other
  deriving DecidableEq, Repr

/-- The calls whose callbacks are among those of `listExpiredCb`. -/
def Callback.timeouts (cbs : List (Option Callback)) : List ℕ :=
  cbs.filterMap fun cb =>
    match cb with
    | some (.timeout i) => some i
    | _ => none

/-- Where a hooked `close` is. -/
inductive CloseAt
  | out
  /-- `FdMgr` has given the `FdCtx` -/
  | looked
  /-- behind `cancelAll` -/
  | cancelled
  /-- behind `del`, or there was no `FdCtx` -/
  | deleted
  deriving DecidableEq, Repr

/-- The hook at one file descriptor number. `collected` are the calls whose callbacks have been taken
from the timers and have not started to run; `deciding` those whose callbacks have read the flag, and
`cancelling` those whose callbacks have set it. `vacated` holds from the return of `close` until the
next registration. -/
structure Hook where
  io : IOManager
  manager : TimerManager Callback
  ctx : Option FdCtx
  isOpen : Bool
  closing : CloseAt
  vacated : Bool
  calls : List DoIo
  collected : List ℕ
  deciding : List ℕ
  cancelling : List ℕ

namespace Hook

/-- The descriptor is open, no call is under way, and there are no timers. -/
def start (io : IOManager) (now : ℤ) (ctx : Option FdCtx) : Hook where
  io := io
  manager := TimerManager.construct now
  ctx := ctx
  isOpen := true
  closing := .out
  vacated := false
  calls := []
  collected := []
  deciding := []
  cancelling := []

/-! ## Steps -/

/-- The steps of a call of `do_io`. -/
inductive IoAct
  | raw (r : RawResult)
  | addConditionTimer (now : ℤ)
  /-- `addEvent`; the kernel may refuse it -/
  | addEvent (accepted : Bool)
  | yield
  | resume
  | cancelTimer
  | test
  deriving DecidableEq, Repr

/-- The steps. -/
inductive Act
  /-- `do_io` is called, and reads the `FdCtx` -/
  | call (event : Event)
  | io (i : ℕ) (a : IoAct)
  /-- a call on other timers -/
  | timer (c : TimerCall Callback)
  | listExpiredCb (fuel : ℕ) (now now' : ℤ)
  /-- a callback that was collected starts, and reads the flag -/
  | runCb (i : ℕ)
  /-- a callback sets the flag -/
  | setCancelled (i : ℕ)
  /-- a callback calls `cancelEvent` -/
  | cancelEvent (i : ℕ)
  | dispatch (ready : Ready)
  /-- `close` is called, and asks `FdMgr` -/
  | close
  | cancelAll
  | del
  /-- `close_f`, and the return of `close` -/
  | close_f
  /-- `socket_f` or `accept_f` gives the number -/
  | socket_f
  /-- `FdMgr::get(fd, true)` -/
  | get (isSocket : Bool)
  | setTimeout (type : Event) (v : ℕ)
  | setUserNonblock (v : Bool)
  deriving DecidableEq, Repr

/-- What `epoll_ctl` returns for the descriptor. -/
def answer (s : Hook) (fd : ℕ) : EpollOp → Bool := s.io.answerFor fd s.isOpen

/-- Assign the fields of a call. -/
def setCall (s : Hook) (i : ℕ) (d : DoIo) : Hook := { s with calls := s.calls.set i d }

/-- A call on the timers that another part of the program makes: on its own timers, with callbacks of
its own. -/
def Foreign (s : Hook) : TimerCall Callback → Prop
  | .addTimer _ _ cb _ => cb = .other
  | .cancel t | .refresh _ t | .reset _ t _ _ => ∀ d ∈ s.calls, d.timer ≠ some t
  | .getNextTimer _ => True
  | .listExpiredCb .. => False

instance (s : Hook) : DecidablePred s.Foreign
  | .addTimer _ _ cb _ => inferInstanceAs (Decidable (cb = .other))
  | .cancel t | .refresh _ t | .reset _ t _ _ =>
    inferInstanceAs (Decidable (∀ d ∈ s.calls, d.timer ≠ some t))
  | .getNextTimer _ => inferInstanceAs (Decidable True)
  | .listExpiredCb .. => inferInstanceAs (Decidable False)

/-- `addConditionTimer`, unless there is no timeout. -/
def arm (s : Hook) (i : ℕ) (d : DoIo) (now : ℤ) : Hook :=
  if d.timeout = 2 ^ 64 - 1 then s.setCall i { d with timer := none, place := .armed }
  else
    let (t, manager) := s.manager.addTimer now d.timeout (some (.timeout i)) false
    { s with manager := manager }.setCall i { d with timer := some t, place := .armed }

/-- `timer->cancel()`, if there is a timer. -/
def disarm (s : Hook) (d : DoIo) : Hook :=
  match d.timer with
  | some t => { s with manager := (s.manager.cancel t).2 }
  | none => s

/-- `addEvent` has returned `r`. -/
def added (s : Hook) (i : ℕ) (d : DoIo) (r : ℤ) (io : IOManager) : Hook :=
  if r = 0 then
    { s with io := io, vacated := false }.setCall i
      { d with place := .registered s.io.registered.length, suspended := true }
  else { s with io := io }.setCall i { d with place := .failed }

/-- One step of the call `i`. -/
def stepIo (fd : ℕ) (s : Hook) (i : ℕ) (d : DoIo) : IoAct → Option Hook
  | .raw r => (d.raw r).map (s.setCall i)
  | .addConditionTimer now => if d.place = .blocked then some (s.arm i d now) else none
  | .addEvent accepted =>
    if d.place = .armed then
      match IOManager.addEvent (fun op => accepted && s.answer fd op) fd d.event none (some 0) i
        s.io with
      | .ok r io => some (s.added i d r io)
      | _ => none
    else none
  | .yield => d.yield.map (s.setCall i)
  | .resume => (d.resume s.io.pushed).map (s.setCall i)
  | .cancelTimer => d.cancelTimer.map ((s.disarm d).setCall i)
  | .test => d.test.map (s.setCall i)

/-- The callback of the call `i` starts: it does nothing more if the `timer_info` is gone, or its
flag is set. -/
def runCb (s : Hook) (i : ℕ) (d : DoIo) : Hook :=
  { s with
    collected := s.collected.erase i
    deciding := if d.isDone || d.cancelled then s.deciding else i :: s.deciding }

/-- The callback of the call `i` sets the flag. -/
def setCancelled (s : Hook) (i : ℕ) (d : DoIo) : Hook :=
  { s with
    deciding := s.deciding.erase i
    cancelling := i :: s.cancelling }.setCall i { d with cancelled := true }

/-- `close_f` has closed the descriptor. -/
def closed (s : Hook) (fd : ℕ) : Hook :=
  { s with
    io := { s.io with interest := Function.update s.io.interest fd none }
    isOpen := false
    closing := .out
    vacated := true
    calls := s.calls.map DoIo.closed }

/-- One step, on the file descriptor number `fd`. -/
def step (fd : ℕ) (s : Hook) : Act → Option Hook
  | .call event => some { s with calls := s.calls ++ [DoIo.begin s.ctx event] }
  | .io i a => s.calls[i]?.bind fun d => s.stepIo fd i d a
  | .timer c =>
    if s.Foreign c then (s.manager.step c).map fun manager => { s with manager := manager }
    else none
  | .listExpiredCb fuel now now' =>
    (s.manager.listExpiredCb fuel now now').map fun r =>
      { s with manager := r.2, collected := s.collected ++ Callback.timeouts r.1 }
  | .runCb i => if i ∈ s.collected then s.calls[i]?.map (s.runCb i) else none
  | .setCancelled i => if i ∈ s.deciding then s.calls[i]?.map (s.setCancelled i) else none
  | .cancelEvent i =>
    if i ∈ s.cancelling then
      s.calls[i]?.bind fun d =>
        match IOManager.cancelEvent (s.answer fd) fd d.event s.io with
        | .ok _ io => some { s with io := io, cancelling := s.cancelling.erase i }
        | _ => none
    else none
  | .dispatch ready =>
    match IOManager.dispatch (s.answer fd) fd ready s.io with
    | .ok _ io => some { s with io := io }
    | _ => none
  | .close =>
    -- one `close` at a time, of a descriptor that is open
    if s.isOpen ∧ s.closing = .out then
      some { s with closing := if s.ctx.isSome then .looked else .deleted }
    else none
  | .cancelAll =>
    if s.closing = .looked then
      match IOManager.cancelAll (s.answer fd) fd s.io with
      | .ok _ io => some { s with io := io, closing := .cancelled }
      | _ => none
    else none
  | .del => if s.closing = .cancelled then some { s with ctx := none, closing := .deleted } else none
  | .close_f => if s.closing = .deleted then some (s.closed fd) else none
  | .socket_f => if s.isOpen then none else some { s with isOpen := true }
  | .get isSocket =>
    -- a context that is there is not made anew
    if s.isOpen then some { s with ctx := some (s.ctx.getD (FdCtx.construct isSocket)) } else none
  | .setTimeout type v => some { s with ctx := s.ctx.map fun ctx => ctx.setTimeout v type }
  | .setUserNonblock v => some { s with ctx := s.ctx.map fun ctx => { ctx with userNonblock := v } }

/-! ## What the operations on the events are called with -/

variable {fd i : ℕ} {s t : Hook} {d : DoIo}

theorem of_addEvent {accepted : Bool} (ht : s.stepIo fd i d (.addEvent accepted) = some t) :
    d.place = .armed ∧ ∃ r io, IOManager.addEvent (fun op => accepted && s.answer fd op) fd d.event
      none (some 0) i s.io = .ok r io ∧ t = s.added i d r io := by
  simp only [stepIo] at ht
  split_ifs at ht with hplace
  split at ht
  · rename_i r io hr
    exact ⟨hplace, r, io, hr, (Option.some.inj ht).symm⟩
  · cases ht

theorem of_cancelEvent (ht : step fd s (.cancelEvent i) = some t) :
    i ∈ s.cancelling ∧ ∃ d r io, s.calls[i]? = some d ∧
      IOManager.cancelEvent (s.answer fd) fd d.event s.io = .ok r io ∧
      t = { s with io := io, cancelling := s.cancelling.erase i } := by
  simp only [step] at ht
  split_ifs at ht with hmem
  obtain ⟨d, hi, ht⟩ := Option.bind_eq_some_iff.mp ht
  split at ht
  · rename_i r io hr
    exact ⟨hmem, d, r, io, hi, hr, (Option.some.inj ht).symm⟩
  · cases ht

theorem of_dispatch {ready : Ready} (ht : step fd s (.dispatch ready) = some t) :
    ∃ io, IOManager.dispatch (s.answer fd) fd ready s.io = .ok () io ∧ t = { s with io := io } := by
  simp only [step] at ht
  split at ht
  · rename_i io hr
    exact ⟨io, hr, (Option.some.inj ht).symm⟩
  · cases ht

theorem of_cancelAll (ht : step fd s .cancelAll = some t) :
    s.closing = .looked ∧ ∃ r io, IOManager.cancelAll (s.answer fd) fd s.io = .ok r io ∧
      t = { s with io := io, closing := .cancelled } := by
  simp only [step] at ht
  split_ifs at ht with hlooked
  split at ht
  · rename_i r io hr
    exact ⟨hlooked, r, io, hr, (Option.some.inj ht).symm⟩
  · cases ht

/-! ## What a step does to the calls -/

/-- How a step changes the list of calls. -/
inductive ChangesCalls (fd : ℕ) (s t : Hook) : Act → Prop
  | begun (event : Event) (h : t.calls = s.calls ++ [DoIo.begin s.ctx event]) :
    ChangesCalls fd s t (.call event)
  | stepped {i : ℕ} {d : DoIo} {a : IoAct} (hi : s.calls[i]? = some d)
    (h : s.stepIo fd i d a = some t) : ChangesCalls fd s t (.io i a)
  | flagged {i : ℕ} {d : DoIo} (hi : s.calls[i]? = some d)
    (h : t.calls = s.calls.set i { d with cancelled := true }) :
    ChangesCalls fd s t (.setCancelled i)
  | closed (h : t.calls = s.calls.map DoIo.closed) : ChangesCalls fd s t .close_f
  | kept {a : Act} (h : t.calls = s.calls) : ChangesCalls fd s t a

/-- Only the calls themselves, the callback that sets a flag, and `close_f` change the calls. -/
theorem changesCalls_of_step {a : Act} (ht : step fd s a = some t) : ChangesCalls fd s t a := by
  cases a with
  | call event =>
    obtain rfl := Option.some.inj ht
    exact .begun event rfl
  | io i a =>
    obtain ⟨d, hi, ht⟩ := Option.bind_eq_some_iff.mp ht
    exact .stepped hi ht
  | setCancelled i =>
    simp only [step] at ht
    split_ifs at ht
    obtain ⟨d, hi, rfl⟩ := Option.map_eq_some_iff.mp ht
    exact .flagged hi rfl
  | close_f =>
    simp only [step] at ht
    split_ifs at ht
    obtain rfl := Option.some.inj ht
    exact .closed rfl
  | runCb i =>
    simp only [step] at ht
    split_ifs at ht
    obtain ⟨d, -, rfl⟩ := Option.map_eq_some_iff.mp ht
    exact .kept rfl
  | timer c =>
    simp only [step] at ht
    split_ifs at ht
    obtain ⟨m, -, rfl⟩ := Option.map_eq_some_iff.mp ht
    exact .kept rfl
  | listExpiredCb fuel now now' =>
    obtain ⟨r, -, rfl⟩ := Option.map_eq_some_iff.mp ht
    exact .kept rfl
  | cancelEvent i =>
    obtain ⟨-, d, r, io, -, -, rfl⟩ := of_cancelEvent ht
    exact .kept rfl
  | dispatch ready =>
    obtain ⟨io, -, rfl⟩ := of_dispatch ht
    exact .kept rfl
  | cancelAll =>
    obtain ⟨-, r, io, -, rfl⟩ := of_cancelAll ht
    exact .kept rfl
  | close | del | socket_f | get isSocket =>
    simp only [step] at ht
    split_ifs at ht
    all_goals
      obtain rfl := Option.some.inj ht
      exact .kept rfl
  | setTimeout type v | setUserNonblock v =>
    obtain rfl := Option.some.inj ht
    exact .kept rfl

end Hook

end Dag
