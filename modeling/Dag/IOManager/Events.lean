import Dag.Foundation.Program
import Mathlib.Logic.Function.Basic
import Mathlib.Data.Int.Notation

/-!
# IO events: registrations and their dispatch

An `IOManager` keeps a context for every file descriptor: which of the events `READ` and `WRITE` are
registered, and for each of them what is to be scheduled when it happens, and on which scheduler.
The registered events are mirrored in the kernel's epoll set, and counted. The operations below hold
the lock of the context they work on, so that each is one step.

A file descriptor is a natural number, and its context the entry of that index in `m_fdContexts`.
Callbacks and fibers are named by numbers; a *ticket* is such a name with the number of the
registration that it came with, so that two registrations of one fiber are told apart. `registered`,
`pushed`, `dropped` and `failures` record what has happened, and the only thing an operation reads
of them is the number of the next registration.

What a call of `epoll_ctl` returns is an argument of the operation, which makes at most one call.

## Main definitions

* `EventContext`, `FdContext`, `IOManager`: the state
* `triggerEvent`, `addEvent`, `delEvent`, `cancelEvent`, `cancelAll`, `dispatch`: the operations
* `IOCall`, `IOManager.step`: one call
-/

namespace Dag

open Foundation

/-! ## Events -/

/-- The events that a context has: `READ` and `WRITE`. -/
inductive Event
  | read
  | write
  deriving DecidableEq, Repr

/-- A set of events, `NONE` when it is empty. -/
structure Events where
  read : Bool
  write : Bool
  deriving DecidableEq, Repr

namespace Events

/-- `NONE`. -/
def empty : Events := ⟨false, false⟩

def has (m : Events) : Event → Bool
  | .read => m.read
  | .write => m.write

def isNone (m : Events) : Bool := !m.read && !m.write

/-- `m | event`. -/
def add (m : Events) : Event → Events
  | .read => { m with read := true }
  | .write => { m with write := true }

/-- `m & ~event`. -/
def remove (m : Events) : Event → Events
  | .read => { m with read := false }
  | .write => { m with write := false }

/-- `m & k`. -/
def inter (m k : Events) : Events := ⟨m.read && k.read, m.write && k.write⟩

/-- `m & ~k`. -/
def diff (m k : Events) : Events := ⟨m.read && !k.read, m.write && !k.write⟩

/-- The number of bits that are set. -/
def count (m : Events) : ℕ := m.read.toNat + m.write.toNat

end Events

/-- What `epoll_wait` returns for a file descriptor: `EPOLLIN`, `EPOLLOUT`, `EPOLLERR` and
`EPOLLHUP`. -/
structure Ready where
  epollin : Bool
  epollout : Bool
  epollerr : Bool
  epollhup : Bool
  deriving DecidableEq, Repr

/-- The operations of `epoll_ctl`. -/
inductive EpollOp
  | add
  | mod
  | del
  deriving DecidableEq, Repr

/-! ## The state -/

/-- What a registration has to be scheduled for it. -/
inductive Waiter
  | fiber (f : ℕ)
  | cb (f : ℕ)
  deriving DecidableEq, Repr

/-- What `addEvent(fd, event, cb)` registers in the fiber `self`. -/
def Waiter.of (cb : Option ℕ) (self : ℕ) : Waiter :=
  match cb with
  | some f => .cb f
  | none => .fiber self

/-- The name of a fiber or callback, with the number of its registration. -/
structure Ticket where
  serial : ℕ
  name : ℕ
  deriving DecidableEq, Repr

/-- `EventContext`. -/
structure EventContext where
  scheduler : Option ℕ
  fiber : Option Ticket
  cb : Option Ticket
  deriving DecidableEq, Repr

/-- What `resetEventContext` leaves. -/
def EventContext.empty : EventContext := ⟨none, none, none⟩

/-- The event context of a registration: the callback if there is one, else the fiber. -/
def EventContext.of (serial : ℕ) (scheduler : Option ℕ) : Waiter → EventContext
  | .cb f => ⟨scheduler, none, some ⟨serial, f⟩⟩
  | .fiber f => ⟨scheduler, some ⟨serial, f⟩, none⟩

/-- What `triggerEvent` hands to `schedulerLock`: the callback if there is one, else the fiber. -/
def EventContext.task (ctx : EventContext) : Option (ℕ × Waiter) :=
  match ctx.cb with
  | some t => some (t.serial, .cb t.name)
  | none => ctx.fiber.map fun t => (t.serial, .fiber t.name)

/-- The numbers of the registrations whose callback or fiber it holds. -/
def EventContext.serials (ctx : EventContext) : List ℕ :=
  (ctx.cb.toList ++ ctx.fiber.toList).map Ticket.serial

/-- `FdContext`. -/
structure FdContext where
  fd : ℕ
  read : EventContext
  write : EventContext
  events : Events
  deriving DecidableEq, Repr

namespace FdContext

/-- A new context, for the file descriptor `fd`. -/
def fresh (fd : ℕ) : FdContext := ⟨fd, .empty, .empty, .empty⟩

def getEventContext (c : FdContext) : Event → EventContext
  | .read => c.read
  | .write => c.write

def setEventContext (c : FdContext) (ctx : EventContext) : Event → FdContext
  | .read => { c with read := ctx }
  | .write => { c with write := ctx }

/-- The event is registered, with the event context `ctx`. -/
def register (c : FdContext) (event : Event) (ctx : EventContext) : FdContext :=
  { c with events := c.events.add event }.setEventContext ctx event

/-- The event is not registered any more, and its event context is reset. -/
def unregister (c : FdContext) (event : Event) : FdContext :=
  { c with events := c.events.remove event }.setEventContext .empty event

end FdContext

/-- A successful registration. -/
structure Registration where
  fd : ℕ
  event : Event
  scheduler : Option ℕ
  waiter : Waiter
  deriving DecidableEq, Repr

/-- A task pushed to the queue of a scheduler, for the registration of this number. -/
structure Pushed where
  serial : ℕ
  scheduler : ℕ
  waiter : Waiter
  deriving DecidableEq, Repr

/-- The state of an `IOManager`; `interest fd` is what the kernel watches `fd` for, if it is in the
epoll set. -/
structure IOManager where
  fdContexts : List FdContext
  pendingEvenCount : ℤ
  interest : ℕ → Option Events
  registered : List Registration
  pushed : List Pushed
  dropped : List ℕ
  failures : ℕ

/-- Failed assertions and undefined behaviour. -/
inductive IOFault
  | assertFailed
  | nullScheduler
  | outOfRange
  deriving DecidableEq, Repr

namespace IOManager

/-- The operations; they throw no exceptions. -/
abbrev Op := Prog Empty IOFault IOManager

/-! ## Parts of the operations -/

/-- `contextResize(size)`, on the table: it is cut off at the size, or filled up to it with new
contexts. -/
def resize {α : Type} (new : ℕ → α) (size : ℕ) (table : List α) : List α :=
  table.take size ++ (List.range' table.length (size - table.length)).map new

/-- `IOManager()`: a table of 32 contexts. -/
def construct : IOManager where
  fdContexts := resize .fresh 32 []
  pendingEvenCount := 0
  interest := fun _ => none
  registered := []
  pushed := []
  dropped := []
  failures := 0

/-- `contextResize(size)`. -/
def contextResize (size : ℕ) : Op Unit := do
  let s ← Prog.get
  Prog.set { s with fdContexts := resize .fresh size s.fdContexts }

/-- `assert(b)`. -/
def assert (b : Bool) : Op Unit :=
  Prog.lift (if b then .ok () else .error .assertFailed)

/-- `m_fdContexts[fd]`. -/
def context (fd : ℕ) : Op FdContext := do
  let s ← Prog.get
  Prog.lift (match s.fdContexts[fd]? with
    | some c => .ok c
    | none => .error .outOfRange)

/-- Assign the fields of `m_fdContexts[fd]`. -/
def setContext (fd : ℕ) (c : FdContext) : Op Unit := do
  let s ← Prog.get
  Prog.set { s with fdContexts := s.fdContexts.set fd c }

/-- Change `m_pendingEvenCount` by `d`. -/
def addPending (d : ℤ) : Op Unit := do
  let s ← Prog.get
  Prog.set { s with pendingEvenCount := s.pendingEvenCount + d }

/-- `epoll_ctl(m_epfd, op, fd, events)`: whether it succeeds. -/
def epoll_ctl (answer : EpollOp → Bool) (op : EpollOp) (fd : ℕ) (events : Events) : Op Bool := do
  let s ← Prog.get
  if answer op then
    let watched := if op = .del then none else some events
    Prog.set { s with interest := Function.update s.interest fd watched }
    return true
  else
    Prog.set { s with failures := s.failures + 1 }
    return false

/-- `scheduler->schedulerLock(task)`: a task that is null is not pushed. -/
def schedulerLock (scheduler : Option ℕ) (task : Option (ℕ × Waiter)) : Op Unit := do
  let k ← Prog.lift (match scheduler with
    | some k => .ok k
    | none => .error .nullScheduler)
  let s ← Prog.get
  match task with
  | some (serial, waiter) => Prog.set { s with pushed := s.pushed ++ [⟨serial, k, waiter⟩] }
  | none => return

/-- `fd_ctx->triggerEvent(event)`. -/
def triggerEvent (fd : ℕ) (event : Event) : Op Unit := do
  let c ← context fd
  assert (c.events.has event)
  let ctx := c.getEventContext event
  -- the callback goes before the fiber
  schedulerLock ctx.scheduler ctx.task
  setContext fd (c.unregister event)

/-- The end of `addEvent`: the event is registered, with the next number. -/
def registerEvent (fd : ℕ) (event : Event) (scheduler : Option ℕ) (waiter : Waiter) : Op Unit := do
  let s ← Prog.get
  let c ← context fd
  let ctx := EventContext.of s.registered.length scheduler waiter
  Prog.set { s with registered := s.registered ++ [⟨fd, event, scheduler, waiter⟩] }
  setContext fd (c.register event ctx)

/-- The end of `delEvent`: the event is not registered any more, and nothing is scheduled. -/
def dropEvent (fd : ℕ) (event : Event) : Op Unit := do
  let s ← Prog.get
  let c ← context fd
  Prog.set { s with dropped := s.dropped ++ (c.getEventContext event).serials }
  setContext fd (c.unregister event)

/-- The lookup of `delEvent`, `cancelEvent` and `cancelAll`, which tests that the table is not
empty. -/
def lookup (fd : ℕ) : Op (Option FdContext) := do
  let s ← Prog.get
  if 0 < s.fdContexts.length then
    let c ← context fd
    return some c
  else return none

/-! ## The operations -/

/-- The part of `addEvent` that holds the lock of the context. -/
def addEventLocked (answer : EpollOp → Bool) (fd : ℕ) (event : Event) (cb : Option ℕ)
    (scheduler : Option ℕ) (self : ℕ) : Op ℤ := do
  let c ← context fd
  assert (!c.events.has event)
  let op := if c.events.isNone then .add else .mod
  if ← epoll_ctl answer op fd (c.events.add event) then
    addPending 1
    -- the counter goes up before the event context is looked at
    assert (c.getEventContext event = .empty)
    registerEvent fd event scheduler (.of cb self)
    return 0
  else return -1

/-- `addEvent(fd, event, cb)`, in the fiber `self` on a thread with the scheduler `scheduler`. -/
def addEvent (answer : EpollOp → Bool) (fd : ℕ) (event : Event) (cb : Option ℕ)
    (scheduler : Option ℕ) (self : ℕ) : Op ℤ := do
  let s ← Prog.get
  -- `contextResize(fd * 1.5)`
  if ¬ fd < s.fdContexts.length then contextResize (fd * 3 / 2)
  addEventLocked answer fd event cb scheduler self

/-- `delEvent(fd, event)`. -/
def delEvent (answer : EpollOp → Bool) (fd : ℕ) (event : Event) : Op Bool := do
  match ← lookup fd with
  | none => return false
  | some c =>
    if c.events.has event then
      let new_events := c.events.remove event
      let op := if new_events.isNone then .del else .mod
      -- a failure of `epoll_ctl` is reported, and then ignored
      let _ ← epoll_ctl answer op fd new_events
      addPending (-1)
      dropEvent fd event
      return true
    else return false

/-- `cancelEvent(fd, event)`. -/
def cancelEvent (answer : EpollOp → Bool) (fd : ℕ) (event : Event) : Op Bool := do
  match ← lookup fd with
  | none => return false
  | some c =>
    if c.events.has event then
      let new_events := c.events.remove event
      let op := if new_events.isNone then .del else .mod
      if ← epoll_ctl answer op fd new_events then
        -- counted down before the event is triggered
        addPending (-1)
        triggerEvent fd event
        return true
      else return false
    else return false

/-- Trigger the event and count it down, when `m` has it. -/
def triggerIf (m : Events) (fd : ℕ) (event : Event) : Op Unit := do
  if m.has event then
    triggerEvent fd event
    addPending (-1)

/-- `cancelAll(fd)`. -/
def cancelAll (answer : EpollOp → Bool) (fd : ℕ) : Op Bool := do
  match ← lookup fd with
  | none => return false
  | some c =>
    if c.events.isNone then return false
    else if ← epoll_ctl answer .del fd .empty then
      -- the mask is read again behind the first of the two triggers
      triggerIf c.events fd .read
      let c' ← context fd
      triggerIf c'.events fd .write
      let c'' ← context fd
      assert c''.events.isNone
      return true
    else return false

/-- `real_events` in `idle`: errors and hang-ups count as all the events registered. -/
def realEvents (registered : Events) (ready : Ready) : Events :=
  let widen := ready.epollerr || ready.epollhup
  ⟨ready.epollin || (widen && registered.read), ready.epollout || (widen && registered.write)⟩

/-- The dispatch of one event in `idle`. -/
def dispatch (answer : EpollOp → Bool) (fd : ℕ) (ready : Ready) : Op Unit := do
  let c ← context fd
  let real_events := realEvents c.events ready
  -- one event that is ready and registered is enough to go on
  if (c.events.inter real_events).isNone then return
  else
    let left_events := c.events.diff real_events
    let op := if left_events.isNone then .del else .mod
    if ← epoll_ctl answer op c.fd left_events then
      -- both tests are of what is ready, not of what is registered
      triggerIf real_events fd .read
      triggerIf real_events fd .write
    else return

end IOManager

/-! ## Calls -/

/-- The calls on an `IOManager`, and the dispatch of one event. -/
inductive IOCall
  | addEvent (fd : ℕ) (event : Event) (cb : Option ℕ) (scheduler : Option ℕ) (self : ℕ)
  | delEvent (fd : ℕ) (event : Event)
  | cancelEvent (fd : ℕ) (event : Event)
  | cancelAll (fd : ℕ)
  | dispatch (fd : ℕ) (ready : Ready)
  deriving DecidableEq, Repr

namespace IOManager

/-- The operation that a call makes. -/
def run (answer : EpollOp → Bool) : IOCall → Op Unit
  | .addEvent fd event cb scheduler self => do
    let _ ← addEvent answer fd event cb scheduler self
  | .delEvent fd event => do let _ ← delEvent answer fd event
  | .cancelEvent fd event => do let _ ← cancelEvent answer fd event
  | .cancelAll fd => do let _ ← cancelAll answer fd
  | .dispatch fd ready => dispatch answer fd ready

/-- One call, with the answers of `epoll_ctl`. -/
def step (s : IOManager) (c : (EpollOp → Bool) × IOCall) : Option IOManager :=
  (run c.1 c.2 s).state?

end IOManager

end Dag
