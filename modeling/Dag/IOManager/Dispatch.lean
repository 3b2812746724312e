import Dag.IOManager.Registration
import Dag.IOManager.Waiters

/-!
# IO events: stale readiness

Between the return of `epoll_wait` and the dispatch of what it reported, other threads may have
removed registrations. The dispatch tests whether any event that is ready is still registered, and
then triggers all those that are ready. It does what it should unless one event is ready and not
registered while the other is ready and registered; then it fails the assertion of `triggerEvent`.
Two more things can go wrong before anything is triggered: `epoll_ctl` may fail, and the event may have
been registered by a thread without a scheduler.

## Main definitions

* `due`: the events that a report makes ready and that are registered
* `Dispatched`: the state after a dispatch that triggered the events that are due, and no others
* `Mixed`: one event is reported without being registered, and the other is due
* `Clear`: the condition under which a dispatch does what it should
* `Counted`: the counter is the number of events that are registered

## Main results

* `Counted.step`: every call keeps the count, whatever `epoll_ctl` answers
* `dispatch_of_mixed`: what becomes of a mixed report
* `dispatched_iff`: after every run, a dispatch is right if and only if the condition is met
* `not_dispatched_of_cancelEvent`: a report that a `cancelEvent` has made mixed
-/

namespace Dag

open Foundation

namespace IOManager

variable {s t : IOManager} {fd : ℕ} {c : FdContext} {ready : Ready}

/-- The events that are registered, and reported as ready; errors and hang-ups make all ready. -/
def due (registered : Events) (ready : Ready) : Events where
  read := registered.read && (ready.epollin || ready.epollerr || ready.epollhup)
  write := registered.write && (ready.epollout || ready.epollerr || ready.epollhup)

/-- `t` is `s` after the events of `m` of `fd`, whose context is `c`, have been triggered, and no
others: their event contexts are reset, what was to be scheduled for them is pushed, and they are
counted down. -/
structure Dispatched (s t : IOManager) (fd : ℕ) (c : FdContext) (m : Events) : Prop where
  contexts : t.fdContexts = s.fdContexts.set fd (c.clear m)
  pushed : t.pushed = s.pushed ++ (if m.read then pushes c.read else []) ++
    (if m.write then pushes c.write else [])
  counted : t.pendingEvenCount = s.pendingEvenCount - m.count
  nonneg : 0 ≤ t.pendingEvenCount

/-- One event is reported without being registered, and the other is registered and ready. -/
def Mixed (registered : Events) (ready : Ready) : Prop :=
  (ready.epollin = true ∧ registered.read = false ∧ (due registered ready).write = true) ∨
    (ready.epollout = true ∧ registered.write = false ∧ (due registered ready).read = true)

/-- **The condition**: nothing is due; or the report is not mixed, `epoll_ctl` succeeds, and what is
due was registered with a scheduler. -/
def Clear (answer : EpollOp → Bool) (c : FdContext) (ready : Ready) : Prop :=
  (due c.events ready).isNone = true ∨
    (¬ Mixed c.events ready ∧ answer (modOrDel (c.events.diff (due c.events ready))) = true ∧
      ∀ event, (due c.events ready).has event = true →
        (c.getEventContext event).scheduler ≠ none)

/-! ## Reports -/

theorem due_eq_inter (m : Events) (ready : Ready) : due m ready = m.inter (realEvents m ready) := by
  obtain ⟨r, w⟩ := m
  cases r <;> cases w <;> simp [due, Events.inter, realEvents, Bool.or_assoc]

/-- A report that is not mixed makes no registered event ready, or registered events only. -/
theorem not_mixed_iff {m : Events} :
    ¬ Mixed m ready ↔ (m.inter (realEvents m ready)).isNone = true ∨
      (realEvents m ready).Subset m := by
  obtain ⟨r, w⟩ := m
  obtain ⟨i, o, e, h⟩ := ready
  -- widening adds registered events only, so `EPOLLIN` and `EPOLLOUT` decide
  have hsubset : (realEvents ⟨r, w⟩ ⟨i, o, e, h⟩).Subset ⟨r, w⟩ ↔
      (i = true → r = true) ∧ (o = true → w = true) := by
    constructor
    · intro hall
      exact ⟨fun hi => hall .read (by simp [realEvents, Events.has, hi]),
        fun ho => hall .write (by simp [realEvents, Events.has, ho])⟩
    · exact fun hall => realEvents_subset hall.1 hall.2
  rw [hsubset, ← due_eq_inter]
  cases r <;> cases w <;> simp [Mixed, due, Events.isNone, imp_iff_or_not]

theorem diff_due (m : Events) (ready : Ready) :
    m.diff (due m ready) = m.diff (realEvents m ready) := by
  obtain ⟨r, w⟩ := m
  rw [due_eq_inter]
  cases r <;> cases w <;> simp [Events.diff, Events.inter]

/-! ## The count -/

/-- The counter is the number of events that are registered, and every context is in its place. -/
structure Counted (s : IOManager) : Prop where
  fd_eq : ∀ (fd : ℕ) (c : FdContext), s.fdContexts[fd]? = some c → c.fd = fd
  counted : s.pendingEvenCount = s.total

/-- One context changes, and the counter with it. -/
theorem Counted.change (h : Counted s) (hc : s.fdContexts[fd]? = some c) {c' : FdContext}
    (hfd : c'.fd = c.fd) (hcontexts : t.fdContexts = s.fdContexts.set fd c')
    (hpending : t.pendingEvenCount + c.events.count = s.pendingEvenCount + c'.events.count) :
    Counted t where
  fd_eq := by
    intro fd' d hd
    rw [hcontexts] at hd
    rcases getElem?_set_eq_some hd with ⟨rfl, rfl⟩ | ⟨-, hd⟩
    · exact hfd.trans (h.fd_eq _ c hc)
    · exact h.fd_eq fd' d hd
  counted := by
    have hsum := sum_map_set hc c' fun c => c.events.count
    have hcounted := h.counted
    rw [total] at hcounted ⊢
    rw [hcontexts]
    omega

/-- An event is not registered any more, and is counted down. -/
theorem Counted.unregister (h : Counted s) (hc : s.fdContexts[fd]? = some c) {event : Event}
    (hev : c.events.has event = true)
    (hcontexts : t.fdContexts = s.fdContexts.set fd (c.unregister event))
    (hpending : t.pendingEvenCount = s.pendingEvenCount - 1) : Counted t := by
  have hcount := Events.count_diff (Events.only_subset hev)
  have hone : (Events.only event).count = 1 := by cases event <;> rfl
  rw [← FdContext.clear_only] at hcontexts
  have hfd : (c.clear (.only event)).fd = c.fd := rfl
  refine h.change hc hfd hcontexts ?_
  simp only [FdContext.clear]
  omega

theorem Counted.grow (h : Counted s) {size : ℕ} (hle : s.fdContexts.length ≤ size) :
    Counted { s with fdContexts := resize .fresh size s.fdContexts } where
  fd_eq := by
    intro fd c hc
    rcases getElem?_resize hle hc with hold | ⟨-, rfl⟩
    · exact h.fd_eq fd c hold
    · rfl
  counted := by
    rw [total_grow hle]
    exact h.counted

theorem counted_construct : Counted construct where
  fd_eq := fun fd c hc => (inv_construct.good fd c hc).fd_eq
  counted := inv_construct.counted

theorem Counted.fail (h : Counted s) : Counted s.withFailure := ⟨h.fd_eq, h.counted⟩

theorem stable_counted : Stable Counted where
  interest := fun _ _ h => ⟨h.fd_eq, h.counted⟩
  triggered := by
    refine fun fd event => Keeps.of_ok fun s x t h hx => ?_
    obtain ⟨_, u, hu, hpending⟩ := Prog.of_bind_ok hx
    obtain ⟨c, hc, hev, -, rfl⟩ := of_triggerEvent hu
    rw [addPending_eq] at hpending
    obtain ⟨-, rfl⟩ := Outcome.ok.inj hpending
    exact h.unregister hc hev rfl rfl
  cancelled := by
    refine fun fd event => Keeps.of_ok fun s x t h hx => ?_
    rw [Prog.bind_ok (addPending_eq (-1) s)] at hx
    obtain ⟨c, hc, hev, -, rfl⟩ := of_triggerEvent hx
    exact h.unregister (s := s) hc hev rfl rfl

section Step

variable {answer : EpollOp → Bool} {event : Event}

theorem keeps_addEventLocked_counted (fd : ℕ) (event : Event) (cb scheduler : Option ℕ) (self : ℕ) :
    Keeps Counted (addEventLocked answer fd event cb scheduler self) := by
  refine Keeps.of_ok fun s r t h hr => ?_
  obtain ⟨c, hc, hev, ⟨-, k, rfl⟩ | ⟨-, rfl⟩⟩ := of_addEventLocked hr
  · have hcount := Events.count_add hev
    refine h.change hc ?_ rfl ?_
    · cases event <;> rfl
    · rw [FdContext.events_register]
      simp only [registering, withPending]
      omega
  · exact h.fail

theorem Counted.addEvent {cb scheduler : Option ℕ} {self : ℕ} {r : ℤ} (h : Counted s)
    (hr : addEvent answer fd event cb scheduler self s = .ok r t) : Counted t := by
  by_cases hlt : fd < s.fdContexts.length
  · rw [addEvent_of_lt hlt] at hr
    exact Keeps.of_state (keeps_addEventLocked_counted fd event cb scheduler self) h
      (congrArg Outcome.state? hr)
  · rw [addEvent_of_not_lt hlt] at hr
    exact Keeps.of_state (keeps_addEventLocked_counted fd event cb scheduler self)
      (h.grow (length_le_grown hlt)) (congrArg Outcome.state? hr)

theorem Counted.delEvent {b : Bool} (h : Counted s) (hb : delEvent answer fd event s = .ok b t) :
    Counted t := by
  obtain ⟨r, s₁, hlookup, h₁⟩ := Prog.of_bind_ok hb
  obtain ⟨rfl, hfound⟩ := of_lookup hlookup
  cases r with
  | none =>
    obtain ⟨-, rfl⟩ := Outcome.ok.inj h₁
    exact h
  | some c =>
    have hc := hfound c rfl
    dsimp only at h₁
    by_cases hev : c.events.has event = true
    · rw [if_pos hev] at h₁
      obtain ⟨a, s₂, hctl, h₂⟩ := Prog.of_bind_ok h₁
      rw [Prog.bind_ok (addPending_eq (-1) _)] at h₂
      obtain ⟨_, s₃, hdrop, h₃⟩ := Prog.of_bind_ok h₂
      obtain ⟨c', hc', rfl⟩ := of_dropEvent hdrop
      obtain ⟨-, rfl⟩ := Outcome.ok.inj h₃
      -- the event is dropped whatever `epoll_ctl` has answered
      rcases of_epoll_ctl hctl with ⟨-, k, rfl⟩ | ⟨-, rfl⟩
      · obtain rfl := Option.some.inj (hc.symm.trans hc')
        exact h.unregister hc hev rfl rfl
      · obtain rfl := Option.some.inj (hc.symm.trans hc')
        exact h.unregister hc hev rfl rfl
    · rw [if_neg hev] at h₁
      obtain ⟨-, rfl⟩ := Outcome.ok.inj h₁
      exact h

/-- **One call keeps the count**, whatever `epoll_ctl` answers. -/
theorem Counted.step (h : Counted s) {call : IOCall}
    (ht : IOManager.step s (answer, call) = some t) : Counted t := by
  have hcases : ∀ {u}, (u = s.withFailure ∨ Counted u) → Counted u := by
    rintro u (rfl | hu)
    · exact h.fail
    · exact hu
  cases call with
  | addEvent fd event cb scheduler self =>
    obtain ⟨r, hr⟩ := of_state ht
    exact h.addEvent hr
  | delEvent fd event =>
    obtain ⟨b, hb⟩ := of_state ht
    exact h.delEvent hb
  | cancelEvent fd event =>
    obtain ⟨b, hb⟩ := of_state ht
    exact hcases (stable_counted.cancelEvent h hb)
  | cancelAll fd =>
    obtain ⟨b, hb⟩ := of_state ht
    exact hcases (stable_counted.cancelAll h hb)
  | dispatch fd ready =>
    cases hx : IOManager.dispatch answer fd ready s with
    | ok x u =>
      obtain rfl : u = t := Option.some.inj ((congrArg Outcome.state? hx).symm.trans ht)
      exact hcases (stable_counted.dispatch h hx)
    | throw e u => exact e.elim
    | fault f => cases (congrArg Outcome.state? hx).symm.trans ht

end Step

/-! ## The dispatch -/

section Dispatch

variable {answer : EpollOp → Bool} {event : Event} {m : Events}

theorem Counted.nonneg (h : Counted s) : 0 ≤ s.pendingEvenCount := by
  rw [h.counted]
  exact Int.natCast_nonneg _

theorem dispatched_skip (h : Counted s) (hc : s.fdContexts[fd]? = some c)
    (hnone : (due c.events ready).isNone = true) : Dispatched s s fd c (due c.events ready) := by
  have hempty : due c.events ready = .empty := by
    have hread := Events.isNone_iff.mp hnone .read
    have hwrite := Events.isNone_iff.mp hnone .write
    exact congrArg₂ Events.mk hread hwrite
  have htaken := taken_empty hc
  rw [hempty]
  refine ⟨?_, ?_, ?_, h.nonneg⟩
  · exact (congrArg fdContexts htaken).symm
  · exact (congrArg IOManager.pushed htaken).symm
  · exact (congrArg pendingEvenCount htaken).symm

/-- What has been triggered when `triggerIf` has returned. -/
theorem of_triggerIf {x : Unit} (h : triggerIf m fd event s = .ok x t) (hm : m.has event = true) :
    ∃ c, s.fdContexts[fd]? = some c ∧ c.events.has event = true ∧
      (c.getEventContext event).scheduler ≠ none := by
  rw [triggerIf, if_pos hm] at h
  obtain ⟨_, u, hu, -⟩ := Prog.of_bind_ok h
  obtain ⟨c, hc, hev, hk, -⟩ := of_triggerEvent hu
  exact ⟨c, hc, hev, hk⟩

/-- Both triggers have returned: each event of `m` was registered with a scheduler. -/
theorem of_triggerBoth {x : Unit} (hc : s.fdContexts[fd]? = some c)
    (h : (triggerIf m fd .read >>= fun _ => triggerIf m fd .write) s = .ok x t) :
    ∀ event, m.has event = true →
      c.events.has event = true ∧ (c.getEventContext event).scheduler ≠ none := by
  obtain ⟨_, u, hread, hwrite⟩ := Prog.of_bind_ok h
  have hfirst : m.has .read = true →
      c.events.has .read = true ∧ (c.getEventContext .read).scheduler ≠ none := by
    intro hm
    obtain ⟨d, hd, hev, hk⟩ := of_triggerIf hread hm
    obtain rfl := Option.some.inj (hc.symm.trans hd)
    exact ⟨hev, hk⟩
  rintro (_ | _) hm
  · exact hfirst hm
  · -- `READ` has left the event context of `WRITE` as it was
    rw [triggerIf_taken hc (fun hm => (hfirst hm).1) fun hm => (hfirst hm).2] at hread
    obtain ⟨-, rfl⟩ := Outcome.ok.inj hread
    obtain ⟨d, hd, hev, hk⟩ := of_triggerIf hwrite hm
    obtain rfl := Option.some.inj ((context_taken hc _).symm.trans hd)
    exact ⟨(has_write_clear c m).symm.trans hev, write_clear c m ▸ hk⟩

/-- A dispatch that has returned, when something was due and `epoll_ctl` has succeeded. -/
theorem of_dispatch_ok {x : Unit} (hc : s.fdContexts[fd]? = some c)
    (hready : (c.events.inter (realEvents c.events ready)).isNone = false)
    (ha : answer (modOrDel (c.events.diff (realEvents c.events ready))) = true)
    (h : dispatch answer fd ready s = .ok x t) :
    ∀ event, (realEvents c.events ready).has event = true →
      c.events.has event = true ∧ (c.getEventContext event).scheduler ≠ none := by
  have hctl := epoll_ctl_modOrDel s c.fd ha
  have hskip : ¬ (c.events.inter (realEvents c.events ready)).isNone = true := by simp [hready]
  rw [modOrDel] at hctl
  rw [dispatch, Prog.bind_ok (context_eq hc)] at h
  dsimp only at h
  rw [if_neg hskip, Prog.bind_ok hctl, if_pos rfl] at h
  exact of_triggerBoth (s := s.withInterest c.fd _) hc h

/-- **A mixed report** fails the assertion of `triggerEvent`. -/
theorem dispatch_of_mixed (hc : s.fdContexts[fd]? = some c) (hfd : c.fd = fd)
    (hmixed : Mixed c.events ready)
    (ha : answer (modOrDel (c.events.diff (due c.events ready))) = true)
    (hk : ∀ event, c.events.has event = true → (c.getEventContext event).scheduler ≠ none) :
    dispatch answer fd ready s = .fault .assertFailed := by
  have hnot := mt not_mixed_iff.mpr (not_not.mpr hmixed)
  rw [not_or] at hnot
  rw [diff_due] at ha
  exact dispatch_fault hc hfd (eq_false_of_ne_true hnot.1) hnot.2 ha hk

theorem dispatched_of_clear (h : Counted s) (hc : s.fdContexts[fd]? = some c)
    (hclear : Clear answer c ready) :
    ∃ t, dispatch answer fd ready s = .ok () t ∧ Dispatched s t fd c (due c.events ready) := by
  by_cases hnone : (due c.events ready).isNone = true
  · exact ⟨s, dispatch_skip hc (due_eq_inter c.events ready ▸ hnone), dispatched_skip h hc hnone⟩
  · obtain ⟨hmixed, ha, hk⟩ := hclear.resolve_left hnone
    rw [due_eq_inter] at hnone
    -- all that is ready is registered, so what is due is what is ready
    have hm := (not_mixed_iff.mp hmixed).resolve_left hnone
    have hdue : due c.events ready = realEvents c.events ready := by
      rw [due_eq_inter, Events.inter_eq_right hm]
    rw [diff_due] at ha
    rw [hdue] at hk ⊢
    have hrun := dispatch_eq hc (h.fd_eq fd c hc) (eq_false_of_ne_true hnone) hm ha hk
    refine ⟨_, hrun, rfl, rfl, rfl, ?_⟩
    rcases stable_counted.dispatch h hrun with hfail | hcounted
    · have hpending := congrArg pendingEvenCount hfail
      rw [hpending]
      exact h.nonneg
    · exact hcounted.nonneg

theorem clear_of_dispatched (hc : s.fdContexts[fd]? = some c)
    (ht : dispatch answer fd ready s = .ok () t)
    (hd : Dispatched s t fd c (due c.events ready)) : Clear answer c ready := by
  rw [Clear, or_iff_not_imp_left]
  intro hnone
  have hready : (c.events.inter (realEvents c.events ready)).isNone = false := by
    rw [← due_eq_inter]
    exact eq_false_of_ne_true hnone
  rw [diff_due]
  cases ha : answer (modOrDel (c.events.diff (realEvents c.events ready))) with
  | true =>
    have hall := of_dispatch_ok hc hready ha ht
    refine ⟨not_mixed_iff.mpr (.inr fun event he => (hall event he).1), rfl, fun event he => ?_⟩
    rw [due_eq_inter, Events.has_inter, Bool.and_eq_true] at he
    exact (hall event he.2).2
  | false =>
    rw [dispatch_refused hc hready ha] at ht
    obtain ⟨-, rfl⟩ := Outcome.ok.inj ht
    obtain ⟨event, he⟩ : ∃ event, (due c.events ready).has event = true := by
      by_contra hno
      refine hnone (Events.isNone_iff.mpr fun event => ?_)
      exact eq_false_of_ne_true fun he => hno ⟨event, he⟩
    have hsame : s.fdContexts[fd]? = some (c.clear (due c.events ready)) := by
      have hcontexts : s.fdContexts = s.fdContexts.set fd (c.clear (due c.events ready)) := hd.contexts
      rw [hcontexts]
      exact List.getElem?_set_self (length_pos_of_context hc)
    have hevents := congrArg FdContext.events (Option.some.inj (hc.symm.trans hsame))
    have hgone : c.events.has event = false := by
      rw [hevents, FdContext.clear, Events.has_diff, he, Bool.not_true, Bool.and_false]
    rw [due_eq_inter, Events.has_inter, hgone, Bool.false_and] at he
    cases he

end Dispatch

/-! ## Runs -/

/-- **Stale readiness**: after every run, whatever `epoll_ctl` has answered and answers, and whatever
has been reported before for a file descriptor, its dispatch triggers the events that are due and no
others, if and only if nothing is due, or the report is not mixed, `epoll_ctl` succeeds and what is
due has a scheduler. -/
theorem dispatched_iff {calls : List ((EpollOp → Bool) × IOCall)}
    (h : exec step construct calls = some s) (hc : s.fdContexts[fd]? = some c)
    (answer : EpollOp → Bool) (ready : Ready) :
    (∃ t, dispatch answer fd ready s = .ok () t ∧ Dispatched s t fd c (due c.events ready)) ↔
      Clear answer c ready := by
  have hcounted : Counted s :=
    exec_invariant (fun _ _ _ hi ht => Counted.step hi ht) counted_construct h
  constructor
  · rintro ⟨t, ht, hd⟩
    exact clear_of_dispatched hc ht hd
  · exact dispatched_of_clear hcounted hc

/-- A hang-up of a file descriptor that has both events registered, and needed a larger table. -/
theorem dispatched_iff_hang_up :
    ∃ s c, exec step construct [(fun _ => false, .addEvent 5 .read (some 1) (some 7) 3),
        (fun _ => true, .addEvent 40 .read (some 1) (some 7) 3),
        (fun _ => true, .addEvent 40 .write none (some 7) 3)] = some s ∧
      s.fdContexts[40]? = some c ∧
      ∃ t, dispatch (kernelAnswer (s.interest 40)) 40 ⟨false, false, false, true⟩ s = .ok () t ∧
        Dispatched s t 40 c ⟨true, true⟩ := by
  obtain ⟨s, c, hs, hc, hevents, hinterest, hk⟩ : ∃ s c,
      exec step construct [(fun _ => false, .addEvent 5 .read (some 1) (some 7) 3),
        (fun _ => true, .addEvent 40 .read (some 1) (some 7) 3),
        (fun _ => true, .addEvent 40 .write none (some 7) 3)] = some s ∧
      s.fdContexts[40]? = some c ∧ c.events = ⟨true, true⟩ ∧ s.interest 40 = some ⟨true, true⟩ ∧
        ∀ event, (c.getEventContext event).scheduler = some 7 := by
    refine ⟨_, _, rfl, rfl, rfl, rfl, ?_⟩
    rintro (_ | _) <;> rfl
  have hdue : due c.events ⟨false, false, false, true⟩ = ⟨true, true⟩ := by rw [hevents]; rfl
  refine ⟨s, c, hs, hc, hdue ▸ (dispatched_iff hs hc _ _).mpr (.inr ⟨?_, ?_, ?_⟩)⟩
  · rintro (⟨h, -⟩ | ⟨h, -⟩) <;> cases h
  · rw [hevents, hinterest]; rfl
  · intro event _
    rw [hk event]
    exact nofun

/-- **A report that has become mixed**: both events are registered and reported as ready, and then
one is cancelled before the dispatch. -/
theorem not_dispatched_of_cancelEvent :
    ¬ ∀ (calls : List ((EpollOp → Bool) × IOCall)) (s : IOManager) (fd : ℕ) (c : FdContext)
      (ready : Ready), Guarded step Answered construct calls → exec step construct calls = some s →
      s.fdContexts[fd]? = some c →
      ∃ t, dispatch (kernelAnswer (s.interest fd)) fd ready s = .ok () t ∧
        Dispatched s t fd c (due c.events ready) := by
  intro hall
  have hanswered : Guarded step Answered construct
      [(kernelAnswer none, .addEvent 5 .read (some 1) (some 7) 3),
        (kernelAnswer (some ⟨true, false⟩), .addEvent 5 .write none (some 7) 3),
        (kernelAnswer (some ⟨true, true⟩), .cancelEvent 5 .write)] := by
    refine ⟨rfl, fun s₁ h₁ => ?_⟩
    obtain rfl := Option.some.inj h₁
    refine ⟨rfl, fun s₂ h₂ => ?_⟩
    obtain rfl := Option.some.inj h₂
    exact ⟨rfl, fun _ _ => trivial⟩
  obtain ⟨t, ht, -⟩ := hall _ _ 5 _ ⟨true, true, false, false⟩ hanswered rfl rfl
  cases ht

end IOManager

end Dag
