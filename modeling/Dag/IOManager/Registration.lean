import Dag.Foundation.Run
import Dag.Foundation.Table
import Dag.IOManager.Outcomes

/-!
# IO events: mask, contexts, kernel and counter agree

The same fact, that an event is registered, is kept in four places: the bit of `events`, the event
context, what the kernel watches the file descriptor for, and `m_pendingEvenCount`. Five operations
update the four by hand. The kernel answers `epoll_ctl` as its documentation says: `ADD` succeeds for
a file descriptor that is not in the epoll set, `MOD` and `DEL` for one that is. An `addEvent` of a
file descriptor for which the table has no context grows the table.

## Main definitions

* `EventContext.Armed`: the event context has a scheduler, and one of callback and fiber
* `kernelAnswer`: what `epoll_ctl` returns
* `Registered`: the four agree, and no call of `epoll_ctl` has failed
* `Answered`, `Proper`: what the kernel answers, and what the callers of the operations promise
* `Inv`: the invariant that carries `Registered`

## Main results

* `Inv.register`, `Inv.drop`, `Inv.take`: the invariant under the three changes of registrations
* `Inv.step`: a proper call makes a step, which preserves the invariant
* `registered_of_exec`: a run of proper calls never faults, and the four agree at its end
-/

namespace Dag

open Foundation

/-! ## Contexts -/

/-- The event context has a scheduler, and exactly one of a callback and a fiber. -/
def EventContext.Armed (ctx : EventContext) : Prop :=
  ctx.scheduler ≠ none ∧ ctx.cb.isSome = !ctx.fiber.isSome

theorem EventContext.not_armed_empty : ¬ EventContext.empty.Armed := fun h => h.1 rfl

theorem EventContext.armed_of (serial : ℕ) {scheduler : Option ℕ} (h : scheduler ≠ none)
    (waiter : Waiter) : (EventContext.of serial scheduler waiter).Armed := by
  cases waiter <;> exact ⟨h, rfl⟩

/-- The context of `fd`: an event that is registered has an armed event context, and one that is not
has an event context that is reset. -/
structure FdContext.Good (c : FdContext) (fd : ℕ) : Prop where
  fd_eq : c.fd = fd
  armed : ∀ event, c.events.has event = true → (c.getEventContext event).Armed
  reset : ∀ event, c.events.has event = false → c.getEventContext event = .empty

namespace FdContext.Good

variable {c : FdContext} {fd : ℕ}

theorem fresh (fd : ℕ) : (FdContext.fresh fd).Good fd where
  fd_eq := rfl
  armed := fun event h => by cases event <;> cases h
  reset := fun event _ => by cases event <;> rfl

theorem armed_iff (hc : c.Good fd) (event : Event) :
    c.events.has event = true ↔ (c.getEventContext event).Armed := by
  constructor
  · exact hc.armed event
  · intro h
    by_contra hev
    rw [hc.reset event (eq_false_of_ne_true hev)] at h
    exact EventContext.not_armed_empty h

theorem scheduler (hc : c.Good fd) (event : Event) (hev : c.events.has event = true) :
    (c.getEventContext event).scheduler ≠ none :=
  (hc.armed event hev).1

theorem register (hc : c.Good fd) (e : Event) {ctx : EventContext} (hctx : ctx.Armed) :
    (c.register e ctx).Good fd where
  fd_eq := by cases e <;> exact hc.fd_eq
  armed := by
    intro event h
    rw [FdContext.getEventContext_register]
    split_ifs with he
    · exact hctx
    · rw [FdContext.events_register, Events.has_add, decide_eq_false he, Bool.or_false] at h
      exact hc.armed event h
  reset := by
    intro event h
    rw [FdContext.events_register, Events.has_add, Bool.or_eq_false_iff, decide_eq_false_iff_not]
      at h
    rw [FdContext.getEventContext_register, if_neg h.2]
    exact hc.reset event h.1

theorem clear (hc : c.Good fd) (m : Events) : (c.clear m).Good fd where
  fd_eq := hc.fd_eq
  armed := by
    intro event h
    rw [FdContext.clear, Events.has_diff, Bool.and_eq_true, Bool.not_eq_true'] at h
    rw [FdContext.getEventContext_clear, if_neg (ne_true_of_eq_false h.2)]
    exact hc.armed event h.1
  reset := by
    intro event h
    rw [FdContext.getEventContext_clear]
    split_ifs with hm
    · rfl
    · rw [FdContext.clear, Events.has_diff, eq_false_of_ne_true hm, Bool.not_false, Bool.and_true]
        at h
      exact hc.reset event h

end FdContext.Good

/-! ## The invariant -/

/-- What `epoll_ctl` returns for a file descriptor that the kernel watches for `k`. -/
def kernelAnswer (k : Option Events) : EpollOp → Bool
  | .add => k.isNone
  | .mod => k.isSome
  | .del => k.isSome

namespace IOManager

/-- The number of registered events, over all file descriptors. -/
def total (s : IOManager) : ℕ := (s.fdContexts.map fun c => c.events.count).sum

/-- New contexts have no events. -/
theorem total_grow {s : IOManager} {size : ℕ} (h : s.fdContexts.length ≤ size) :
    total { s with fdContexts := resize .fresh size s.fdContexts } = s.total := by
  have hzero : ∀ l : List ℕ, ((l.map FdContext.fresh).map fun c => c.events.count).sum = 0 := by
    intro l
    induction l with
    | nil => rfl
    | cons fd l ih => simpa [FdContext.fresh, Events.count, Events.empty] using ih
  simp only [total, resize_of_le h, List.map_append, List.sum_append, hzero, Nat.add_zero]

/-- Mask, event contexts, kernel and counter agree, and no call of `epoll_ctl` has failed. -/
structure Registered (s : IOManager) : Prop where
  armed : ∀ (fd : ℕ) (c : FdContext), s.fdContexts[fd]? = some c →
    ∀ event, c.events.has event = true ↔ (c.getEventContext event).Armed
  watched : ∀ (fd : ℕ) (c : FdContext), s.fdContexts[fd]? = some c → s.interest fd = watched c.events
  outside : ∀ fd, s.fdContexts[fd]? = none → s.interest fd = none
  counted : s.pendingEvenCount = s.total
  answered : s.failures = 0

/-- What carries `Registered` along a run: an event context that is not armed is reset, and the table
is not so small that it would be cut off where it is to grow. -/
structure Inv (s : IOManager) : Prop where
  good : ∀ (fd : ℕ) (c : FdContext), s.fdContexts[fd]? = some c → c.Good fd
  watched : ∀ (fd : ℕ) (c : FdContext), s.fdContexts[fd]? = some c →
    s.interest fd = IOManager.watched c.events
  outside : ∀ fd, s.fdContexts[fd]? = none → s.interest fd = none
  sized : 2 ≤ s.fdContexts.length
  counted : s.pendingEvenCount = s.total
  answered : s.failures = 0

variable {s t : IOManager} {fd : ℕ} {c c' : FdContext} {event : Event}

theorem Inv.registered (hi : Inv s) : s.Registered where
  armed := fun fd c hc => (hi.good fd c hc).armed_iff
  watched := hi.watched
  outside := hi.outside
  counted := hi.counted
  answered := hi.answered

theorem inv_construct : Inv construct := by
  have hfresh : ∀ {fd : ℕ} {c : FdContext}, construct.fdContexts[fd]? = some c → c = .fresh fd := by
    intro fd c hc
    rcases getElem?_resize (Nat.zero_le 32) hc with hold | ⟨-, rfl⟩
    · cases hold
    · rfl
  refine ⟨fun fd c hc => ?_, fun fd c hc => ?_, fun _ _ => rfl, by decide, by decide, rfl⟩
  · rw [hfresh hc]
    exact FdContext.Good.fresh fd
  · rw [hfresh hc]
    rfl

/-- **One context changes**, and with it the kernel's interest and the counter. -/
theorem Inv.change (hi : Inv s) (hc : s.fdContexts[fd]? = some c) (hgood : c'.Good fd)
    (hcontexts : t.fdContexts = s.fdContexts.set fd c')
    (hinterest : t.interest = Function.update s.interest fd (IOManager.watched c'.events))
    (hpending : t.pendingEvenCount + c.events.count = s.pendingEvenCount + c'.events.count)
    (hfailures : t.failures = s.failures) : Inv t where
  good := by
    intro fd' d hd
    rw [hcontexts] at hd
    rcases getElem?_set_eq_some hd with ⟨rfl, rfl⟩ | ⟨-, hd⟩
    · exact hgood
    · exact hi.good fd' d hd
  watched := by
    intro fd' d hd
    rw [hcontexts] at hd
    rw [hinterest]
    rcases getElem?_set_eq_some hd with ⟨rfl, rfl⟩ | ⟨hne, hd⟩
    · exact Function.update_self ..
    · rw [Function.update_of_ne hne]
      exact hi.watched fd' d hd
  outside := by
    intro fd' hd
    rw [hcontexts, List.getElem?_eq_none_iff, List.length_set] at hd
    have hne : fd' ≠ fd := Nat.ne_of_gt (Nat.lt_of_lt_of_le (length_pos_of_context hc) hd)
    rw [hinterest, Function.update_of_ne hne]
    exact hi.outside fd' (List.getElem?_eq_none hd)
  sized := by
    rw [hcontexts, List.length_set]
    exact hi.sized
  counted := by
    have hsum := sum_map_set hc c' fun c => c.events.count
    have hcounted := hi.counted
    rw [total] at hcounted ⊢
    rw [hcontexts]
    omega
  answered := hfailures.trans hi.answered

/-- **The table grows**, by contexts of file descriptors that the kernel does not watch. -/
theorem Inv.grow (hi : Inv s) {size : ℕ} (h : s.fdContexts.length ≤ size) :
    Inv { s with fdContexts := resize .fresh size s.fdContexts } where
  good := by
    intro fd c hc
    rcases getElem?_resize h hc with hold | ⟨-, rfl⟩
    · exact hi.good fd c hold
    · exact FdContext.Good.fresh fd
  watched := by
    intro fd c hc
    rcases getElem?_resize h hc with hold | ⟨hnone, rfl⟩
    · exact hi.watched fd c hold
    · exact hi.outside fd hnone
  outside := by
    intro fd hnone
    rw [List.getElem?_eq_none_iff, length_resize] at hnone
    exact hi.outside fd (List.getElem?_eq_none (Nat.le_trans h hnone))
  sized := by
    rw [length_resize]
    exact Nat.le_trans hi.sized h
  counted := by
    rw [total_grow h]
    exact hi.counted
  answered := hi.answered

theorem Inv.register (hi : Inv s) (hc : s.fdContexts[fd]? = some c)
    (hev : c.events.has event = false) {scheduler : Option ℕ} (hk : scheduler ≠ none)
    (waiter : Waiter) :
    Inv (((s.withInterest fd (c.events.add event)).withPending 1).registering fd c event scheduler
      waiter) := by
  refine hi.change hc ((hi.good fd c hc).register event (EventContext.armed_of _ hk waiter)) rfl
    ?_ ?_ rfl
  · rw [FdContext.events_register]
    rfl
  · rw [FdContext.events_register, Events.count_add hev]
    simp only [registering, withPending, withInterest]
    omega

theorem Inv.take (hi : Inv s) (hc : s.fdContexts[fd]? = some c) {m : Events}
    (hm : m.Subset c.events) :
    Inv ((s.withInterest fd (c.events.diff m)).taken fd c m) := by
  refine hi.change hc ((hi.good fd c hc).clear m) rfl rfl ?_ rfl
  have hcount := Events.count_diff hm
  simp only [taken, withInterest, FdContext.clear]
  omega

theorem Inv.drop (hi : Inv s) (hc : s.fdContexts[fd]? = some c)
    (hev : c.events.has event = true) :
    Inv (((s.withInterest fd (c.events.remove event)).withPending (-1)).dropping fd c event) := by
  have hm := Events.only_subset hev
  have hcount := Events.count_diff hm
  have hone : (Events.only event).count = 1 := by cases event <;> rfl
  refine hi.change hc ((hi.good fd c hc).clear (.only event)) ?_ ?_ ?_ rfl
  · rw [FdContext.clear_only]
    rfl
  · rw [← Events.diff_only]
    rfl
  · simp only [dropping, withPending, withInterest, FdContext.clear]
    omega

/-! ## The answers of the kernel -/

section Answers

variable (hi : Inv s) (hc : s.fdContexts[fd]? = some c)
include hi hc

theorem answer_addOrMod : kernelAnswer (s.interest fd) (addOrMod c.events) = true := by
  rw [hi.watched fd c hc, IOManager.watched, addOrMod]
  cases c.events.isNone <;> rfl

theorem answer_modOrDel (hev : c.events.isNone = false) (m : Events) :
    kernelAnswer (s.interest fd) (modOrDel m) = true := by
  rw [hi.watched fd c hc, IOManager.watched, modOrDel, hev]
  cases m.isNone <;> rfl

/-! ## The operations -/

theorem addEvent_inv (hev : c.events.has event = false) (cb : Option ℕ) {scheduler : Option ℕ}
    (hk : scheduler ≠ none) (self : ℕ) :
    ∃ t, addEvent (kernelAnswer (s.interest fd)) fd event cb scheduler self s = .ok 0 t ∧
      Inv t := by
  rw [addEvent_of_lt (length_pos_of_context hc)]
  exact ⟨_, addEventLocked_eq hc hev (answer_addOrMod hi hc) ((hi.good fd c hc).reset event hev) cb
    scheduler self, hi.register hc hev hk _⟩

theorem delEvent_inv (event : Event) :
    ∃ b t, delEvent (kernelAnswer (s.interest fd)) fd event s = .ok b t ∧ Inv t := by
  cases hev : c.events.has event with
  | false => exact ⟨false, s, delEvent_skip hc hev, hi⟩
  | true =>
    have ha := answer_modOrDel hi hc (Events.isNone_of_has hev) (c.events.remove event)
    exact ⟨true, _, delEvent_eq hc hev ha, hi.drop hc hev⟩

theorem cancelEvent_inv (event : Event) :
    ∃ b t, cancelEvent (kernelAnswer (s.interest fd)) fd event s = .ok b t ∧ Inv t := by
  cases hev : c.events.has event with
  | false => exact ⟨false, s, cancelEvent_skip hc hev, hi⟩
  | true =>
    have ha := answer_modOrDel hi hc (Events.isNone_of_has hev) (c.events.remove event)
    refine ⟨true, _, cancelEvent_eq hc hev ha ((hi.good fd c hc).scheduler event hev), ?_⟩
    rw [← Events.diff_only]
    exact hi.take hc (Events.only_subset hev)

theorem cancelAll_inv :
    ∃ b t, cancelAll (kernelAnswer (s.interest fd)) fd s = .ok b t ∧ Inv t := by
  cases hev : c.events.isNone with
  | true => exact ⟨false, s, cancelAll_skip hc hev, hi⟩
  | false =>
    have ha := answer_modOrDel hi hc hev .empty
    refine ⟨true, _, cancelAll_eq hc hev ha (hi.good fd c hc).scheduler, ?_⟩
    have hempty : c.events.diff c.events = .empty := by
      simp [Events.diff, Events.empty]
    rw [← hempty]
    exact hi.take hc fun _ h => h

theorem dispatch_inv {ready : Ready} (hm : (realEvents c.events ready).Subset c.events) :
    ∃ t, dispatch (kernelAnswer (s.interest fd)) fd ready s = .ok () t ∧ Inv t := by
  cases hready : (c.events.inter (realEvents c.events ready)).isNone with
  | true => exact ⟨s, dispatch_skip hc hready, hi⟩
  | false =>
    have hev := Events.isNone_of_inter hready
    exact ⟨_, dispatch_eq hc (hi.good fd c hc).fd_eq hready hm (answer_modOrDel hi hc hev _)
      fun e he => (hi.good fd c hc).scheduler e (hm e he), hi.take hc hm⟩

end Answers

/-- `addEvent` of a file descriptor that the table has no context of. -/
theorem addEvent_inv_grown (hi : Inv s) (hnone : s.fdContexts[fd]? = none) (event : Event)
    (cb : Option ℕ) {scheduler : Option ℕ} (hk : scheduler ≠ none) (self : ℕ) :
    ∃ t, addEvent (kernelAnswer (s.interest fd)) fd event cb scheduler self s = .ok 0 t ∧
      Inv t := by
  have hle : s.fdContexts.length ≤ fd := List.getElem?_eq_none_iff.mp hnone
  have hsized := hi.sized
  have hgrown : s.fdContexts.length ≤ fd * 3 / 2 := length_le_grown (Nat.not_lt.mpr hle)
  have hc := getElem?_resize_fresh hle (show fd < fd * 3 / 2 by omega)
  have hev : (FdContext.fresh fd).events.has event = false := by cases event <;> rfl
  have hrun := addEvent_inv (hi.grow hgrown) hc hev cb hk self
  rw [addEvent_of_lt (length_pos_of_context hc)] at hrun
  rw [addEvent_of_not_lt (Nat.not_lt.mpr hle)]
  exact hrun

/-! ## Runs -/

end IOManager

/-- The file descriptor of a call. -/
def IOCall.fd : IOCall → ℕ
  | .addEvent fd _ _ _ _ => fd
  | .delEvent fd _ => fd
  | .cancelEvent fd _ => fd
  | .cancelAll fd => fd
  | .dispatch fd _ => fd

/-- What its caller promises for a call on a file descriptor with the context `c`: only an event
that is not registered is added, by a thread that has a scheduler, and only registered events are
dispatched, with `EPOLLERR` and `EPOLLHUP`. -/
def IOCall.Promised (c : FdContext) : IOCall → Prop
  | .addEvent _ event _ scheduler _ => c.events.has event = false ∧ scheduler ≠ none
  | .dispatch _ ready =>
    (ready.epollin = true → c.events.read = true) ∧
      (ready.epollout = true → c.events.write = true)
  | _ => True

namespace IOManager

/-- The context that a call works on, if it finds one: where the table has none, `addEvent` makes a
new one. -/
def contextOf (s : IOManager) : IOCall → Option FdContext
  | .addEvent fd .. => some (s.fdContexts[fd]?.getD (.fresh fd))
  | call => s.fdContexts[call.fd]?

/-- A call that the kernel answers. -/
def Answered (s : IOManager) (a : (EpollOp → Bool) × IOCall) : Prop :=
  a.1 = kernelAnswer (s.interest a.2.fd)

/-- A call that finds a context and keeps its promise, answered by the kernel. -/
def Proper (s : IOManager) (a : (EpollOp → Bool) × IOCall) : Prop :=
  Answered s a ∧ ∃ c, s.contextOf a.2 = some c ∧ a.2.Promised c

theorem realEvents_subset {m : Events} {ready : Ready}
    (hin : ready.epollin = true → m.read = true) (hout : ready.epollout = true → m.write = true) :
    (realEvents m ready).Subset m := by
  rintro (_ | _) h
  · rcases Bool.or_eq_true_iff.mp h with h | h
    · exact hin h
    · exact (Bool.and_eq_true_iff.mp h).2
  · rcases Bool.or_eq_true_iff.mp h with h | h
    · exact hout h
    · exact (Bool.and_eq_true_iff.mp h).2

theorem Inv.step (hi : Inv s) {a : (EpollOp → Bool) × IOCall} (ha : Proper s a) :
    ∃ t, step s a = some t ∧ Inv t := by
  obtain ⟨answer, call⟩ := a
  obtain ⟨hanswer, c, hc, hp⟩ := ha
  replace hanswer : answer = kernelAnswer (s.interest call.fd) := hanswer
  subst hanswer
  -- one case for each operation, with what its caller has promised
  cases call with
  | addEvent fd event cb scheduler self =>
    cases hget : s.fdContexts[fd]? with
    | some d =>
      obtain rfl : d = c := by
        rw [contextOf, hget] at hc
        exact Option.some.inj hc
      obtain ⟨t, ht, hit⟩ := addEvent_inv hi hget hp.1 cb hp.2 self
      exact ⟨t, state_of_ok ht, hit⟩
    | none =>
      obtain ⟨t, ht, hit⟩ := addEvent_inv_grown hi hget event cb hp.2 self
      exact ⟨t, state_of_ok ht, hit⟩
  | delEvent fd event =>
    obtain ⟨b, t, ht, hit⟩ := delEvent_inv hi hc event
    exact ⟨t, state_of_ok ht, hit⟩
  | cancelEvent fd event =>
    obtain ⟨b, t, ht, hit⟩ := cancelEvent_inv hi hc event
    exact ⟨t, state_of_ok ht, hit⟩
  | cancelAll fd =>
    obtain ⟨b, t, ht, hit⟩ := cancelAll_inv hi hc
    exact ⟨t, state_of_ok ht, hit⟩
  | dispatch fd ready =>
    obtain ⟨t, ht, hit⟩ := dispatch_inv hi hc (realEvents_subset hp.1 hp.2)
    refine ⟨t, ?_, hit⟩
    rw [IOManager.step, run]
    exact congrArg Outcome.state? ht

/-- **Mask, event contexts, kernel and counter agree** after every run of proper calls: no such run
faults, and no call of `epoll_ctl` in it fails. -/
theorem registered_of_exec {calls : List ((EpollOp → Bool) × IOCall)}
    (hproper : Guarded step Proper construct calls) :
    ∃ s, exec step construct calls = some s ∧ s.Registered := by
  obtain ⟨s, hs, hi⟩ := exec_total_of_guarded (I := Inv) (fun _ _ hi ha => hi.step ha)
    inv_construct hproper
  exact ⟨s, hs, hi.registered⟩

/-- Both events of a file descriptor that the table is too small for are added, one is cancelled, and a
hang-up takes the other. -/
theorem registered_of_exec_hang_up :
    ∃ s, exec step construct [(kernelAnswer none, .addEvent 40 .read (some 1) (some 7) 3),
        (kernelAnswer (some ⟨true, false⟩), .addEvent 40 .write none (some 7) 3),
        (kernelAnswer (some ⟨true, true⟩), .cancelEvent 40 .write),
        (kernelAnswer (some ⟨true, false⟩), .dispatch 40 ⟨false, false, false, true⟩)] = some s ∧
      s.Registered := by
  refine registered_of_exec ⟨⟨rfl, _, rfl, rfl, nofun⟩, fun s₁ h₁ => ?_⟩
  obtain rfl := Option.some.inj h₁
  refine ⟨⟨rfl, _, rfl, rfl, nofun⟩, fun s₂ h₂ => ?_⟩
  obtain rfl := Option.some.inj h₂
  refine ⟨⟨rfl, _, rfl, trivial⟩, fun s₃ h₃ => ?_⟩
  obtain rfl := Option.some.inj h₃
  exact ⟨⟨rfl, _, rfl, nofun, nofun⟩, fun _ _ => trivial⟩

end IOManager

end Dag
