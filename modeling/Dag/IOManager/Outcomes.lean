import Dag.IOManager.Events

/-!
# IO events: what the operations do

The outcome of every operation of an `IOManager`, as a change of the state, under the conditions
that its branches test.

## Main definitions

* `withPending`, `withInterest`, `withFailure`: changes of the parts of the state
* `registering`, `dropping`, `triggered`, `taken`: what becomes of registrations

## Main results

* `triggerEvent_eq`, `triggerEvent_fault`: triggering an event, registered or not
* `addEventLocked_eq`, `delEvent_eq`, `cancelEvent_eq`, `cancelAll_eq`, `dispatch_eq`: the operations, when
  `epoll_ctl` succeeds
* `dispatch_fault`: the dispatch of an event with a direction that is not registered
-/

namespace Dag

open Foundation

namespace Events

/-- `(m & ~k) == m`: every event of `m` is one of `k`. -/
def Subset (m k : Events) : Prop := ∀ event, m.has event = true → k.has event = true

/-- `event` alone. -/
def only (event : Event) : Events := empty.add event

variable {m : Events} {event : Event}

theorem has_empty (event : Event) : empty.has event = false := by
  cases event <;> rfl

theorem has_add (m : Events) (e event : Event) :
    (m.add e).has event = (m.has event || decide (event = e)) := by
  cases e <;> cases event <;> simp [add, has]

theorem has_inter (m k : Events) (event : Event) :
    (m.inter k).has event = (m.has event && k.has event) := by
  cases event <;> rfl

theorem has_diff (m k : Events) (event : Event) :
    (m.diff k).has event = (m.has event && !k.has event) := by
  cases event <;> rfl

theorem has_only (e event : Event) : (only e).has event = decide (event = e) := by
  rw [only, has_add, has_empty, Bool.false_or]

theorem only_subset (h : m.has event = true) : (only event).Subset m := by
  intro e he
  rw [has_only, decide_eq_true_iff] at he
  rwa [he]

theorem diff_only (m : Events) (event : Event) : m.diff (only event) = m.remove event := by
  cases event <;> simp [only, empty, add, diff, remove]

theorem isNone_add (m : Events) (event : Event) : (m.add event).isNone = false := by
  cases event <;> simp [add, isNone]

theorem isNone_iff : m.isNone = true ↔ ∀ event, m.has event = false := by
  constructor
  · intro h event
    cases event <;> simp_all [has, isNone]
  · intro h
    have hread := h .read
    have hwrite := h .write
    simp_all [has, isNone]

theorem isNone_of_has (h : m.has event = true) : m.isNone = false := by
  refine eq_false_of_ne_true fun hnone => ?_
  rw [isNone_iff.mp hnone event] at h
  cases h

theorem isNone_of_inter {k : Events} (h : (m.inter k).isNone = false) : m.isNone = false := by
  refine eq_false_of_ne_true fun hnone => ne_true_of_eq_false h (isNone_iff.mpr fun event => ?_)
  rw [has_inter, isNone_iff.mp hnone event, Bool.false_and]

/-- A subset of `m` is what `m` has of it. -/
theorem inter_eq_right {k : Events} (h : k.Subset m) : m.inter k = k := by
  -- there are two events, so the sets are a few cases
  have hread := h .read
  have hwrite := h .write
  obtain ⟨r, w⟩ := m
  obtain ⟨kr, kw⟩ := k
  cases kr <;> cases kw <;> simp_all [has, inter]

theorem count_add (h : m.has event = false) : (m.add event).count = m.count + 1 := by
  cases event <;> simp_all [has, add, count]
  omega

/-- Clearing events that are set takes as many bits away. -/
theorem count_diff {k : Events} (h : k.Subset m) : (m.diff k).count + k.count = m.count := by
  have hread := h .read
  have hwrite := h .write
  obtain ⟨r, w⟩ := m
  obtain ⟨kr, kw⟩ := k
  cases r <;> cases w <;> cases kr <;> cases kw <;> simp_all [has, diff, count]

end Events

/-- The events of `m` are not registered any more, and their event contexts are reset. -/
def FdContext.clear (c : FdContext) (m : Events) : FdContext where
  fd := c.fd
  read := if m.read then .empty else c.read
  write := if m.write then .empty else c.write
  events := c.events.diff m

namespace FdContext

theorem getEventContext_register (c : FdContext) (e event : Event) (ctx : EventContext) :
    (c.register e ctx).getEventContext event =
      if event = e then ctx else c.getEventContext event := by
  cases e <;> cases event <;> rfl

theorem events_register (c : FdContext) (e : Event) (ctx : EventContext) :
    (c.register e ctx).events = c.events.add e := by
  cases e <;> rfl

theorem getEventContext_clear (c : FdContext) (m : Events) (event : Event) :
    (c.clear m).getEventContext event =
      if m.has event = true then .empty else c.getEventContext event := by
  cases event <;> rfl

theorem clear_only (c : FdContext) (event : Event) :
    c.clear (.only event) = c.unregister event := by
  cases event <;> simp [FdContext.clear, FdContext.unregister, FdContext.setEventContext,
    Events.only, Events.empty, Events.add, Events.diff, Events.remove]

theorem clear_empty (c : FdContext) : c.clear .empty = c := by
  simp [FdContext.clear, Events.empty, Events.diff]

end FdContext

namespace IOManager

variable {s : IOManager} {fd : ℕ} {c : FdContext} {event : Event} {answer : EpollOp → Bool}

/-! ## Changes of the state -/

/-- `m_pendingEvenCount` changes by `d`. -/
def withPending (s : IOManager) (d : ℤ) : IOManager :=
  { s with pendingEvenCount := s.pendingEvenCount + d }

/-- What the kernel is made to watch a file descriptor for. -/
def watched (m : Events) : Option Events := if m.isNone then none else some m

/-- The kernel watches `fd` for the events of `m`. -/
def withInterest (s : IOManager) (fd : ℕ) (m : Events) : IOManager :=
  { s with interest := Function.update s.interest fd (watched m) }

/-- What triggering an event pushes. -/
def pushes (ctx : EventContext) : List Pushed :=
  match ctx.scheduler with
  | some k => ctx.task.toList.map fun w => ⟨w.1, k, w.2⟩
  | none => []

/-- The event has been triggered. -/
def triggered (s : IOManager) (fd : ℕ) (c : FdContext) (event : Event) : IOManager :=
  { s with
    fdContexts := s.fdContexts.set fd (c.unregister event)
    pushed := s.pushed ++ pushes (c.getEventContext event) }

/-- The events of `m` have been triggered, and counted down. -/
def taken (s : IOManager) (fd : ℕ) (c : FdContext) (m : Events) : IOManager :=
  { s with
    fdContexts := s.fdContexts.set fd (c.clear m)
    pushed := s.pushed ++ (if m.read then pushes c.read else []) ++
      (if m.write then pushes c.write else [])
    pendingEvenCount := s.pendingEvenCount - m.count }

/-- The event has been registered. -/
def registering (s : IOManager) (fd : ℕ) (c : FdContext) (event : Event) (scheduler : Option ℕ)
    (waiter : Waiter) : IOManager :=
  { s with
    fdContexts := s.fdContexts.set fd
      (c.register event (.of s.registered.length scheduler waiter))
    registered := s.registered ++ [⟨fd, event, scheduler, waiter⟩] }

/-- The event has been dropped. -/
def dropping (s : IOManager) (fd : ℕ) (c : FdContext) (event : Event) : IOManager :=
  { s with
    fdContexts := s.fdContexts.set fd (c.unregister event)
    dropped := s.dropped ++ (c.getEventContext event).serials }

/-- A call of `epoll_ctl` has failed. -/
def withFailure (s : IOManager) : IOManager := { s with failures := s.failures + 1 }

/-! ## Growth of the table -/

/-- A table that is not cut off keeps its contexts. -/
theorem resize_of_le {α : Type} {new : ℕ → α} {size : ℕ} {table : List α}
    (h : table.length ≤ size) : resize new size table =
      table ++ (List.range' table.length (size - table.length)).map new := by
  rw [resize, List.take_of_length_le h]

theorem length_resize {α : Type} (new : ℕ → α) (size : ℕ) (table : List α) :
    (resize new size table).length = size := by
  simp [resize]
  omega

/-- A context of a table that has grown is an old one, or a new one at a new index. -/
theorem getElem?_resize {size : ℕ} {table : List FdContext} (h : table.length ≤ size)
    (hc : (resize .fresh size table)[fd]? = some c) :
    table[fd]? = some c ∨ (table[fd]? = none ∧ c = .fresh fd) := by
  rw [resize_of_le h] at hc
  by_cases hlt : fd < table.length
  · rw [List.getElem?_append_left hlt] at hc
    exact .inl hc
  · rw [List.getElem?_append_right (Nat.not_lt.mp hlt), List.getElem?_map,
      Option.map_eq_some_iff] at hc
    obtain ⟨fd', hfd', rfl⟩ := hc
    obtain ⟨-, rfl⟩ := List.getElem?_eq_some_iff.mp hfd'
    have heq : table.length + 1 * (fd - table.length) = fd := by omega
    rw [List.getElem_range', heq]
    exact .inr ⟨List.getElem?_eq_none (Nat.not_lt.mp hlt), rfl⟩

/-- A table that has grown has new contexts where it ended. -/
theorem getElem?_resize_fresh {size : ℕ} {table : List FdContext} (hle : table.length ≤ fd)
    (hlt : fd < size) : (resize .fresh size table)[fd]? = some (.fresh fd) := by
  have hgrow : table.length ≤ size := Nat.le_trans hle (Nat.le_of_lt hlt)
  have hbound : fd < (resize FdContext.fresh size table).length := by rwa [length_resize]
  rcases getElem?_resize hgrow (List.getElem?_eq_getElem hbound) with hold | ⟨-, hfresh⟩
  · rw [List.getElem?_eq_none hle] at hold
    cases hold
  · rw [List.getElem?_eq_getElem hbound, hfresh]

/-- The size that `addEvent` asks for is large enough, when no other thread has grown the table. -/
theorem length_le_grown {α : Type} {table : List α} (hlt : ¬ fd < table.length) :
    table.length ≤ fd * 3 / 2 := by
  omega

/-! ## Parts of the operations -/

theorem length_pos_of_context (hc : s.fdContexts[fd]? = some c) : fd < s.fdContexts.length :=
  (List.getElem?_eq_some_iff.mp hc).1

theorem context_eq (hc : s.fdContexts[fd]? = some c) : context fd s = .ok c s := by
  simp [context, hc]

theorem assert_eq {b : Bool} (h : b = true) : assert b s = .ok () s := by
  rw [assert, if_pos h]
  rfl

theorem addPending_eq (d : ℤ) (s : IOManager) : addPending d s = .ok () (s.withPending d) := rfl

/-- The operation of `epoll_ctl` that leaves the kernel watching for `m`, for a file descriptor that
is in the epoll set. -/
def modOrDel (m : Events) : EpollOp := if m.isNone then .del else .mod

/-- The operation of `epoll_ctl` that registers a further event, when `m` is registered. -/
def addOrMod (m : Events) : EpollOp := if m.isNone then .add else .mod

theorem epoll_ctl_modOrDel (s : IOManager) (fd : ℕ) {m : Events} (h : answer (modOrDel m) = true) :
    epoll_ctl answer (modOrDel m) fd m s = .ok true (s.withInterest fd m) := by
  have hwatched : (if modOrDel m = .del then none else some m) = watched m := by
    unfold modOrDel watched
    split_ifs <;> simp_all
  simp only [epoll_ctl, Prog.get_bind, h, if_true, Prog.set_bind, Prog.pure_apply, hwatched,
    withInterest]

theorem epoll_ctl_addOrMod (s : IOManager) (fd : ℕ) {m : Events}
    (h : answer (addOrMod m) = true) (event : Event) :
    epoll_ctl answer (addOrMod m) fd (m.add event) s =
      .ok true (s.withInterest fd (m.add event)) := by
  have hop : addOrMod m ≠ .del := by
    unfold addOrMod
    split_ifs <;> simp
  have hsome := Events.isNone_add m event
  simp only [epoll_ctl, Prog.get_bind, h, if_true, Prog.set_bind, Prog.pure_apply, if_neg hop,
    withInterest, watched, hsome, Bool.false_eq_true, if_false]

theorem epoll_ctl_false {op : EpollOp} (h : answer op = false) (events : Events) :
    epoll_ctl answer op fd events s = .ok false s.withFailure := by
  simp [epoll_ctl, h, withFailure]

theorem schedulerLock_eq {ctx : EventContext} (hk : ctx.scheduler ≠ none) :
    schedulerLock ctx.scheduler ctx.task s =
      .ok () { s with pushed := s.pushed ++ pushes ctx } := by
  obtain ⟨k, hk⟩ := Option.ne_none_iff_exists'.mp hk
  unfold schedulerLock pushes
  rw [hk]
  cases ctx.task with
  | none => simp
  | some w => simp

/-- **Triggering an event that is registered** schedules what waits for it, and leaves it not
registered. -/
theorem triggerEvent_eq (hc : s.fdContexts[fd]? = some c) (hev : c.events.has event = true)
    (hk : (c.getEventContext event).scheduler ≠ none) :
    triggerEvent fd event s = .ok () (s.triggered fd c event) := by
  rw [triggerEvent, Prog.bind_ok (context_eq hc), Prog.bind_ok (assert_eq hev),
    Prog.bind_ok (schedulerLock_eq hk)]
  rfl

/-- Triggering an event that is not registered fails the assertion. -/
theorem triggerEvent_fault (hc : s.fdContexts[fd]? = some c) (hev : c.events.has event = false) :
    triggerEvent fd event s = .fault .assertFailed := by
  rw [triggerEvent, Prog.bind_ok (context_eq hc), Prog.bind_fault]
  rw [assert, hev]
  rfl

theorem triggerIf_eq {m : Events} (hm : m.has event = true) (hc : s.fdContexts[fd]? = some c)
    (hev : c.events.has event = true) (hk : (c.getEventContext event).scheduler ≠ none) :
    triggerIf m fd event s = .ok () ((s.triggered fd c event).withPending (-1)) := by
  rw [triggerIf, if_pos hm, Prog.bind_ok (triggerEvent_eq hc hev hk), addPending_eq]

theorem taken_empty (hc : s.fdContexts[fd]? = some c) : s.taken fd c .empty = s := by
  have hset : s.fdContexts.set fd c = s.fdContexts := by
    obtain ⟨hlt, rfl⟩ := List.getElem?_eq_some_iff.mp hc
    exact List.set_getElem_self hlt
  rw [taken, FdContext.clear_empty, hset]
  simp [Events.empty, Events.count]

/-- Triggering an event and counting it down takes it. -/
theorem taken_only (s : IOManager) (fd : ℕ) (c : FdContext) (event : Event) :
    (s.triggered fd c event).withPending (-1) = s.taken fd c (.only event) := by
  rw [taken, FdContext.clear_only]
  cases event <;> simp [triggered, withPending, FdContext.getEventContext, Events.only,
    Events.empty, Events.add, Events.count, Int.sub_eq_add_neg]

theorem context_taken (hc : s.fdContexts[fd]? = some c) (m : Events) :
    (s.taken fd c m).fdContexts[fd]? = some (c.clear m) :=
  List.getElem?_set_self (length_pos_of_context hc)

/-- Taking the events of a set is taking `READ` first, and then `WRITE`. -/
theorem taken_taken (s : IOManager) (fd : ℕ) (c : FdContext) (m : Events) :
    (s.taken fd c (m.inter (.only .read))).taken fd (c.clear (m.inter (.only .read)))
      (m.inter (.only .write)) = s.taken fd c m := by
  obtain ⟨r, w⟩ := m
  cases r <;> cases w <;> simp [taken, FdContext.clear, Events.inter, Events.only, Events.empty,
    Events.add, Events.diff, Events.count]
  omega

/-- Taking `READ` leaves `WRITE` registered, if it was. -/
theorem has_write_clear (c : FdContext) (m : Events) :
    (c.clear (m.inter (.only .read))).events.has .write = c.events.has .write := by
  simp [FdContext.clear, Events.has_diff, Events.has_inter, Events.has_only]

theorem write_clear (c : FdContext) (m : Events) :
    (c.clear (m.inter (.only .read))).getEventContext .write = c.getEventContext .write := by
  simp [FdContext.getEventContext_clear, Events.has_inter, Events.has_only]

theorem triggerIf_skip {m : Events} (hm : m.has event = false) :
    triggerIf m fd event s = .ok () s := by
  rw [triggerIf, hm]
  rfl

/-- Triggering an event when `m` has it takes what `m` has of it. -/
theorem triggerIf_taken {m : Events} (hc : s.fdContexts[fd]? = some c)
    (hev : m.has event = true → c.events.has event = true)
    (hk : m.has event = true → (c.getEventContext event).scheduler ≠ none) :
    triggerIf m fd event s = .ok () (s.taken fd c (m.inter (.only event))) := by
  cases hm : m.has event with
  | true =>
    have honly : m.inter (.only event) = .only event := by
      cases event <;> simp_all [Events.has, Events.inter, Events.only, Events.empty, Events.add]
    rw [triggerIf_eq hm hc (hev hm) (hk hm), honly, taken_only]
  | false =>
    have hempty : m.inter (.only event) = .empty := by
      cases event <;> simp_all [Events.has, Events.inter, Events.only, Events.empty, Events.add]
    rw [triggerIf_skip hm, hempty, taken_empty hc]

theorem triggerIf_fault {m : Events} (hm : m.has event = true) (hc : s.fdContexts[fd]? = some c)
    (hev : c.events.has event = false) : triggerIf m fd event s = .fault .assertFailed := by
  rw [triggerIf, if_pos hm, Prog.bind_fault (triggerEvent_fault hc hev)]

theorem registerEvent_eq (hc : s.fdContexts[fd]? = some c) (scheduler : Option ℕ)
    (waiter : Waiter) :
    registerEvent fd event scheduler waiter s =
      .ok () (s.registering fd c event scheduler waiter) := by
  rw [registerEvent, Prog.get_bind, Prog.bind_ok (context_eq hc)]
  rfl

theorem dropEvent_eq (hc : s.fdContexts[fd]? = some c) :
    dropEvent fd event s = .ok () (s.dropping fd c event) := by
  rw [dropEvent, Prog.get_bind, Prog.bind_ok (context_eq hc)]
  rfl

theorem lookup_eq (hc : s.fdContexts[fd]? = some c) : lookup fd s = .ok (some c) s := by
  have hpos : 0 < s.fdContexts.length :=
    Nat.lt_of_le_of_lt (Nat.zero_le _) (length_pos_of_context hc)
  rw [lookup, Prog.get_bind, if_pos hpos, Prog.bind_ok (context_eq hc)]
  rfl

/-! ## The operations -/

theorem addEventLocked_eq (hc : s.fdContexts[fd]? = some c) (hev : c.events.has event = false)
    (ha : answer (addOrMod c.events) = true) (hctx : c.getEventContext event = .empty)
    (cb scheduler : Option ℕ) (self : ℕ) :
    addEventLocked answer fd event cb scheduler self s =
      .ok 0 (((s.withInterest fd (c.events.add event)).withPending 1).registering fd c event
        scheduler (.of cb self)) := by
  have hctl := epoll_ctl_addOrMod s fd ha event
  rw [addOrMod] at hctl
  rw [addEventLocked, Prog.bind_ok (context_eq hc), Prog.bind_ok (assert_eq (by rw [hev]; rfl)),
    Prog.bind_ok hctl, if_pos rfl, Prog.bind_ok (addPending_eq 1 _),
    Prog.bind_ok (assert_eq (decide_eq_true hctx)),
    Prog.bind_ok (registerEvent_eq (s := (s.withInterest fd (c.events.add event)).withPending 1)
      (c := c) hc scheduler _)]
  rfl

/-- In a table that is large enough, `addEvent` is what it does under the lock of the context. -/
theorem addEvent_of_lt (hlt : fd < s.fdContexts.length) (cb scheduler : Option ℕ) (self : ℕ) :
    addEvent answer fd event cb scheduler self s =
      addEventLocked answer fd event cb scheduler self s := by
  unfold addEvent
  rw [Prog.get_bind, if_neg (not_not.mpr hlt)]

/-- In a table that is too small, `addEvent` grows the table first. -/
theorem addEvent_of_not_lt (hlt : ¬ fd < s.fdContexts.length) (cb scheduler : Option ℕ)
    (self : ℕ) : addEvent answer fd event cb scheduler self s =
      addEventLocked answer fd event cb scheduler self
        { s with fdContexts := resize .fresh (fd * 3 / 2) s.fdContexts } := by
  unfold addEvent
  rw [Prog.get_bind, if_pos hlt]
  rfl

theorem delEvent_eq (hc : s.fdContexts[fd]? = some c) (hev : c.events.has event = true)
    (ha : answer (modOrDel (c.events.remove event)) = true) :
    delEvent answer fd event s =
      .ok true (((s.withInterest fd (c.events.remove event)).withPending (-1)).dropping fd c
        event) := by
  have hctl := epoll_ctl_modOrDel s fd ha
  rw [modOrDel] at hctl
  rw [delEvent, Prog.bind_ok (lookup_eq hc)]
  dsimp only
  rw [if_pos hev, Prog.bind_ok hctl, Prog.bind_ok (addPending_eq (-1) _),
    Prog.bind_ok (dropEvent_eq
      (s := (s.withInterest fd (c.events.remove event)).withPending (-1)) (c := c) hc)]
  rfl

theorem cancelEvent_eq (hc : s.fdContexts[fd]? = some c) (hev : c.events.has event = true)
    (ha : answer (modOrDel (c.events.remove event)) = true)
    (hk : (c.getEventContext event).scheduler ≠ none) :
    cancelEvent answer fd event s =
      .ok true ((s.withInterest fd (c.events.remove event)).taken fd c (.only event)) := by
  have hctl := epoll_ctl_modOrDel s fd ha
  rw [modOrDel] at hctl
  rw [cancelEvent, Prog.bind_ok (lookup_eq hc)]
  dsimp only
  rw [if_pos hev, Prog.bind_ok hctl, if_pos rfl, Prog.bind_ok (addPending_eq (-1) _),
    Prog.bind_ok (triggerEvent_eq
      (s := (s.withInterest fd (c.events.remove event)).withPending (-1)) (c := c) hc hev hk),
    ← taken_only]
  rfl

theorem triggerBoth_eq {m : Events} (hc : s.fdContexts[fd]? = some c)
    (hm : m.Subset c.events)
    (hk : ∀ event, m.has event = true → (c.getEventContext event).scheduler ≠ none) :
    (triggerIf m fd .read >>= fun _ => triggerIf m fd .write) s = .ok () (s.taken fd c m) := by
  rw [Prog.bind_ok (triggerIf_taken hc (hm .read) (hk .read)),
    triggerIf_taken (context_taken hc _) (fun h => (has_write_clear c m).trans (hm .write h))
      (fun h => write_clear c m ▸ hk .write h), taken_taken]

theorem cancelAll_eq (hc : s.fdContexts[fd]? = some c) (hev : c.events.isNone = false)
    (ha : answer .del = true)
    (hk : ∀ event, c.events.has event = true → (c.getEventContext event).scheduler ≠ none) :
    cancelAll answer fd s = .ok true ((s.withInterest fd .empty).taken fd c c.events) := by
  have hctl : epoll_ctl answer .del fd .empty s = .ok true (s.withInterest fd .empty) :=
    epoll_ctl_modOrDel s fd (m := .empty) ha
  have hskip : ¬ c.events.isNone = true := by simp [hev]
  rw [cancelAll, Prog.bind_ok (lookup_eq hc)]
  dsimp only
  rw [if_neg hskip, Prog.bind_ok hctl, if_pos rfl]
  set s₀ := s.withInterest fd .empty
  set c₁ := c.clear (c.events.inter (.only .read)) with hc₁
  -- the mask that is read for `WRITE` is the one without `READ`
  have hw : c₁.events.inter (.only .write) = c.events.inter (.only .write) := by
    simp [hc₁, FdContext.clear, Events.inter, Events.only, Events.empty, Events.add, Events.diff]
  have hnone : (c₁.clear (c.events.inter (.only .write))).events.isNone = true := by
    simp [hc₁, FdContext.clear, Events.inter, Events.only, Events.empty, Events.add, Events.diff,
      Events.isNone]
  have hc₀ : s₀.fdContexts[fd]? = some c := hc
  rw [Prog.bind_ok (triggerIf_taken hc₀ id (hk .read)),
    Prog.bind_ok (context_eq (context_taken hc₀ _)),
    Prog.bind_ok (triggerIf_taken (context_taken hc₀ _) id fun h =>
      write_clear c c.events ▸ hk .write ((has_write_clear c c.events).symm.trans h)),
    hw, Prog.bind_ok (context_eq (context_taken (context_taken hc₀ _) _)),
    Prog.bind_ok (assert_eq hnone), taken_taken]
  rfl

/-- The operations that remove a registration do nothing to an event that is not registered. -/
theorem delEvent_skip (hc : s.fdContexts[fd]? = some c) (hev : c.events.has event = false) :
    delEvent answer fd event s = .ok false s := by
  rw [delEvent, Prog.bind_ok (lookup_eq hc)]
  dsimp only
  rw [if_neg (ne_true_of_eq_false hev)]
  rfl

theorem cancelEvent_skip (hc : s.fdContexts[fd]? = some c) (hev : c.events.has event = false) :
    cancelEvent answer fd event s = .ok false s := by
  rw [cancelEvent, Prog.bind_ok (lookup_eq hc)]
  dsimp only
  rw [if_neg (ne_true_of_eq_false hev)]
  rfl

theorem cancelAll_skip (hc : s.fdContexts[fd]? = some c) (hev : c.events.isNone = true) :
    cancelAll answer fd s = .ok false s := by
  rw [cancelAll, Prog.bind_ok (lookup_eq hc)]
  dsimp only
  rw [if_pos hev]
  rfl

theorem dispatch_eq {ready : Ready} (hc : s.fdContexts[fd]? = some c) (hfd : c.fd = fd)
    (hready : (c.events.inter (realEvents c.events ready)).isNone = false)
    (hm : (realEvents c.events ready).Subset c.events)
    (ha : answer (modOrDel (c.events.diff (realEvents c.events ready))) = true)
    (hk : ∀ event, (realEvents c.events ready).has event = true →
      (c.getEventContext event).scheduler ≠ none) :
    dispatch answer fd ready s =
      .ok () ((s.withInterest fd (c.events.diff (realEvents c.events ready))).taken fd c
        (realEvents c.events ready)) := by
  have hctl := epoll_ctl_modOrDel s fd ha
  have hskip : ¬ (c.events.inter (realEvents c.events ready)).isNone = true := by simp [hready]
  rw [modOrDel] at hctl
  rw [dispatch, Prog.bind_ok (context_eq hc)]
  dsimp only
  rw [if_neg hskip, hfd, Prog.bind_ok hctl, if_pos rfl,
    triggerBoth_eq (s := s.withInterest fd _) hc hm hk]

/-- An event whose ready directions are not registered is passed over. -/
theorem dispatch_skip {ready : Ready} (hc : s.fdContexts[fd]? = some c)
    (hready : (c.events.inter (realEvents c.events ready)).isNone = true) :
    dispatch answer fd ready s = .ok () s := by
  rw [dispatch, Prog.bind_ok (context_eq hc)]
  dsimp only
  rw [if_pos hready]
  rfl

/-- When `epoll_ctl` fails, nothing is triggered. -/
theorem dispatch_refused {ready : Ready} (hc : s.fdContexts[fd]? = some c)
    (hready : (c.events.inter (realEvents c.events ready)).isNone = false)
    (ha : answer (modOrDel (c.events.diff (realEvents c.events ready))) = false) :
    dispatch answer fd ready s = .ok () s.withFailure := by
  have hctl : epoll_ctl answer _ c.fd (c.events.diff (realEvents c.events ready)) s = _ :=
    epoll_ctl_false ha _
  have hskip : ¬ (c.events.inter (realEvents c.events ready)).isNone = true := by simp [hready]
  rw [modOrDel] at hctl
  rw [dispatch, Prog.bind_ok (context_eq hc)]
  dsimp only
  rw [if_neg hskip, Prog.bind_ok hctl]
  rfl

/-- **A direction that is ready and not registered fails the assertion**, when another one that is
ready is registered. -/
theorem dispatch_fault {ready : Ready} (hc : s.fdContexts[fd]? = some c) (hfd : c.fd = fd)
    (hready : (c.events.inter (realEvents c.events ready)).isNone = false)
    (hm : ¬ (realEvents c.events ready).Subset c.events)
    (ha : answer (modOrDel (c.events.diff (realEvents c.events ready))) = true)
    (hk : ∀ event, c.events.has event = true → (c.getEventContext event).scheduler ≠ none) :
    dispatch answer fd ready s = .fault .assertFailed := by
  have hctl := epoll_ctl_modOrDel s fd ha
  have hskip : ¬ (c.events.inter (realEvents c.events ready)).isNone = true := by simp [hready]
  rw [modOrDel] at hctl
  rw [dispatch, Prog.bind_ok (context_eq hc)]
  dsimp only
  rw [if_neg hskip, hfd, Prog.bind_ok hctl, if_pos rfl]
  set s₀ := s.withInterest fd (c.events.diff (realEvents c.events ready))
  have hc₀ : s₀.fdContexts[fd]? = some c := hc
  set m := realEvents c.events ready
  by_cases hread : m.has .read = true → c.events.has .read = true
  · have hwrite : m.has .write = true ∧ c.events.has .write = false := by
      by_contra hcon
      refine hm fun event h => ?_
      cases event with
      | read => exact hread h
      | write => simpa [h] using hcon
    rw [Prog.bind_ok (triggerIf_taken hc₀ hread fun h => hk .read (hread h))]
    exact triggerIf_fault hwrite.1 (context_taken hc₀ _)
      ((has_write_clear c m).trans hwrite.2)
  · obtain ⟨h, hev⟩ := Classical.not_imp.mp hread
    exact Prog.bind_fault (triggerIf_fault h hc₀ (eq_false_of_ne_true hev))

/-! ## Calls -/

/-- The state that a call leaves behind is the one of its operation. -/
theorem state_of_ok {α : Type} {x : Op α} {a : α} {t : IOManager} (h : x s = .ok a t) :
    ((do let _ ← x : Op Unit) s).state? = some t := by
  rw [Prog.bind_ok h]
  rfl

end IOManager

end Dag
