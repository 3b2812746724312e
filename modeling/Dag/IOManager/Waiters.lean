import Dag.Foundation.Run
import Dag.Foundation.Table
import Dag.IOManager.Outcomes

/-!
# IO events: waiters are conserved

Every registration has a number, and its callback or fiber is at any time in exactly one place: in
the event context it was registered in, in the queue of the scheduler recorded with it, or nowhere
any more, after a `delEvent` that returned `true`. This does not depend on what `epoll_ctl` answers.

## Main definitions

* `held s`: the numbers of the registrations that the event contexts hold
* `Conserved`: every registration is in exactly one of the three places
* `Unchanged s t`: the registrations, masks and records of `t` are those of `s`
* `Tracked`: the invariant that carries `Conserved`

## Main results

* `Tracked.register`, `Tracked.trigger`, `Tracked.drop`: the invariant under the changes
* `keeps_triggerEvent`, `keeps_dropEvent`: the parts of the operations that move waiters
* `addEvent_cases`: what an `addEvent` has done when it has returned
* `waiters_conserved_of_exec`: conservation along every run, and what a failed `epoll_ctl` leaves unchanged
-/

namespace Dag

open Foundation

/-! ## Places -/

/-- The numbers of the registrations whose callbacks and fibers a context holds. -/
def FdContext.serials (c : FdContext) : List ℕ := c.read.serials ++ c.write.serials

theorem EventContext.serials_of (i : ℕ) (scheduler : Option ℕ) (waiter : Waiter) :
    (EventContext.of i scheduler waiter).serials = [i] := by
  cases waiter <;> rfl

/-- A change of one event context changes what the context holds by what that one holds. -/
theorem FdContext.count_serials (c : FdContext) (event : Event) (i : ℕ) :
    c.serials.count i = (c.unregister event).serials.count i +
      (c.getEventContext event).serials.count i := by
  have hempty : EventContext.empty.serials = [] := rfl
  cases event <;> simp [FdContext.serials, FdContext.unregister, FdContext.setEventContext,
    FdContext.getEventContext, hempty, Nat.add_comm]

theorem FdContext.count_serials_register (c : FdContext) (event : Event) (ctx : EventContext)
    (i : ℕ) : (c.register event ctx).serials.count i =
      (c.unregister event).serials.count i + ctx.serials.count i := by
  have hempty : EventContext.empty.serials = [] := rfl
  cases event <;> simp [FdContext.serials, FdContext.unregister, FdContext.register,
    FdContext.setEventContext, hempty, Nat.add_comm]

namespace IOManager

/-- The numbers of the registrations that the event contexts hold. -/
def held (s : IOManager) : List ℕ := s.fdContexts.flatMap FdContext.serials

/-- **Every registration is in exactly one of three places**: held by its own event context, pushed
to the queue of its scheduler, or dropped. -/
structure Conserved (s : IOManager) : Prop where
  once : ∀ i < s.registered.length,
    s.held.count i + (s.pushed.map Pushed.serial).count i + s.dropped.count i = 1
  registered : ∀ (i : ℕ) (r : Registration), s.registered[i]? = some r → i ∈ s.held →
    ∃ c, s.fdContexts[r.fd]? = some c ∧ c.events.has r.event = true ∧
      c.getEventContext r.event = .of i r.scheduler r.waiter
  pushed : ∀ p ∈ s.pushed, ∃ r : Registration, s.registered[p.serial]? = some r ∧
    r.scheduler = some p.scheduler ∧ r.waiter = p.waiter

/-- The event context of `event` is that of a registration if the event is registered, and reset if
it is not. -/
def Holds (registered : List Registration) (fd : ℕ) (c : FdContext) (event : Event) : Prop :=
  if c.events.has event = true then
    ∃ i scheduler waiter, registered[i]? = some ⟨fd, event, scheduler, waiter⟩ ∧
      c.getEventContext event = .of i scheduler waiter
  else c.getEventContext event = .empty

/-- What carries `Conserved` along a run. -/
structure Tracked (s : IOManager) : Prop where
  holds : ∀ (fd : ℕ) (c : FdContext), s.fdContexts[fd]? = some c →
    ∀ event, Holds s.registered fd c event
  pushed : ∀ p ∈ s.pushed, ∃ r : Registration, s.registered[p.serial]? = some r ∧
    r.scheduler = some p.scheduler ∧ r.waiter = p.waiter
  once : ∀ i, s.held.count i + (s.pushed.map Pushed.serial).count i + s.dropped.count i =
    if i < s.registered.length then 1 else 0

variable {s t : IOManager} {fd : ℕ} {c : FdContext} {event : Event} {answer : EpollOp → Bool}
  {registered : List Registration}

theorem Holds.of_has (h : Holds registered fd c event) (hev : c.events.has event = true) :
    ∃ i scheduler waiter, registered[i]? = some ⟨fd, event, scheduler, waiter⟩ ∧
      c.getEventContext event = .of i scheduler waiter := by
  rwa [Holds, if_pos hev] at h

theorem Holds.of_not_has (h : Holds registered fd c event) (hev : c.events.has event = false) :
    c.getEventContext event = .empty := by
  rwa [Holds, if_neg (ne_true_of_eq_false hev)] at h

theorem Holds.fresh (registered : List Registration) (fd : ℕ) (event : Event) :
    Holds registered fd (.fresh fd) event := by
  cases event <;> rfl

theorem Holds.clear (h : Holds registered fd c event) (m : Events) :
    Holds registered fd (c.clear m) event := by
  rw [Holds, FdContext.getEventContext_clear, FdContext.clear, Events.has_diff]
  cases hm : m.has event with
  | true => simp
  | false => simpa [Holds] using h

theorem Holds.append (h : Holds registered fd c event) (r : Registration) :
    Holds (registered ++ [r]) fd c event := by
  cases hev : c.events.has event with
  | true =>
    obtain ⟨i, scheduler, waiter, hi, hctx⟩ := h.of_has hev
    rw [Holds, if_pos hev]
    exact ⟨i, scheduler, waiter,
      List.getElem?_append_left (List.getElem?_eq_some_iff.mp hi).1 ▸ hi, hctx⟩
  | false =>
    rw [Holds, if_neg (ne_true_of_eq_false hev)]
    exact h.of_not_has hev

/-- What an event context holds is of a registration whose event it is. -/
theorem Holds.serials (h : Holds registered fd c event) {i : ℕ}
    (hi : i ∈ (c.getEventContext event).serials) :
    ∃ scheduler waiter, registered[i]? = some ⟨fd, event, scheduler, waiter⟩ ∧
      c.events.has event = true ∧ c.getEventContext event = .of i scheduler waiter := by
  cases hev : c.events.has event with
  | true =>
    obtain ⟨j, scheduler, waiter, hj, hctx⟩ := h.of_has hev
    rw [hctx, EventContext.serials_of, List.mem_singleton] at hi
    subst hi
    exact ⟨scheduler, waiter, hj, rfl, hctx⟩
  | false =>
    rw [h.of_not_has hev] at hi
    cases hi

theorem Tracked.conserved (ht : Tracked s) : Conserved s where
  once := fun i hi => (ht.once i).trans (if_pos hi)
  registered := by
    intro i r hr hi
    obtain ⟨c, hmem, hic⟩ := List.mem_flatMap.mp hi
    obtain ⟨fd, hc⟩ := List.mem_iff_getElem?.mp hmem
    -- what holds the waiter is one of the two event contexts of one context
    obtain ⟨event, hev⟩ : ∃ event, i ∈ (c.getEventContext event).serials := by
      rcases List.mem_append.mp hic with h | h
      · exact ⟨.read, h⟩
      · exact ⟨.write, h⟩
    obtain ⟨scheduler, waiter, hr', hhas, hctx⟩ := (ht.holds fd c hc event).serials hev
    obtain rfl := Option.some.inj (hr.symm.trans hr')
    exact ⟨c, hc, hhas, hctx⟩
  pushed := ht.pushed

/-! ## The changes -/

/-- One context changes. -/
theorem Tracked.holds_set (ht : Tracked s) {c' : FdContext}
    (h : ∀ event, Holds registered fd c' event)
    (hmono : ∀ fd c event, Holds s.registered fd c event → Holds registered fd c event) :
    ∀ (fd' : ℕ) (d : FdContext), (s.fdContexts.set fd c')[fd']? = some d →
      ∀ event, Holds registered fd' d event := by
  intro fd' d hd event
  rcases getElem?_set_eq_some hd with ⟨rfl, rfl⟩ | ⟨-, hd⟩
  · exact h event
  · exact hmono fd' d event (ht.holds fd' d hd event)

theorem Tracked.unregister (ht : Tracked s) (hc : s.fdContexts[fd]? = some c) (event e : Event) :
    Holds s.registered fd (c.unregister event) e := by
  rw [← FdContext.clear_only]
  exact (ht.holds fd c hc e).clear _

theorem count_held_unregister (hc : s.fdContexts[fd]? = some c) (event : Event) (i : ℕ) :
    s.held.count i = ((s.fdContexts.set fd (c.unregister event)).flatMap FdContext.serials).count i +
      (c.getEventContext event).serials.count i := by
  have hset := count_flatMap_set hc (c.unregister event) FdContext.serials i
  have hcount := c.count_serials event i
  rw [held]
  omega

theorem Tracked.drop (ht : Tracked s) (hc : s.fdContexts[fd]? = some c) (event : Event) :
    Tracked (s.dropping fd c event) where
  holds := ht.holds_set (ht.unregister hc event) fun _ _ _ h => h
  pushed := ht.pushed
  once := by
    intro i
    refine Eq.trans ?_ (ht.once i)
    have hheld := count_held_unregister hc event i
    simp only [dropping, held, List.count_append] at hheld ⊢
    omega

theorem Tracked.trigger (ht : Tracked s) (hc : s.fdContexts[fd]? = some c)
    (hev : c.events.has event = true) (hk : (c.getEventContext event).scheduler ≠ none) :
    Tracked (s.triggered fd c event) := by
  obtain ⟨i, scheduler, waiter, hr, hctx⟩ := (ht.holds fd c hc event).of_has hev
  obtain ⟨k, hk⟩ := Option.ne_none_iff_exists'.mp hk
  obtain rfl : scheduler = some k := by
    rw [← hk, hctx]
    cases waiter <;> rfl
  have hpushes : pushes (c.getEventContext event) = [⟨i, k, waiter⟩] := by
    rw [hctx]
    cases waiter <;> rfl
  refine ⟨ht.holds_set (ht.unregister hc event) fun _ _ _ h => h, ?_, fun j => ?_⟩
  · intro p hp
    simp only [triggered, hpushes] at hp
    rcases List.mem_append.mp hp with hp | hp
    · exact ht.pushed p hp
    · obtain rfl := List.mem_singleton.mp hp
      exact ⟨_, hr, rfl, rfl⟩
  · refine Eq.trans ?_ (ht.once j)
    have hheld := count_held_unregister hc event j
    rw [hctx, EventContext.serials_of] at hheld
    simp only [triggered, held, hpushes, List.map_append, List.map_cons, List.map_nil,
      List.count_append] at hheld ⊢
    omega

theorem Tracked.register (ht : Tracked s) (hc : s.fdContexts[fd]? = some c)
    (hev : c.events.has event = false) (scheduler : Option ℕ) (waiter : Waiter) :
    Tracked (s.registering fd c event scheduler waiter) := by
  have hlast : (s.registered ++ [⟨fd, event, scheduler, waiter⟩])[s.registered.length]? =
      some ⟨fd, event, scheduler, waiter⟩ := List.getElem?_concat_length
  refine ⟨ht.holds_set (fun e => ?_) fun _ _ _ h => h.append _, fun p hp => ?_, fun i => ?_⟩
  · rw [Holds, FdContext.events_register, FdContext.getEventContext_register, Events.has_add]
    by_cases he : e = event
    · subst he
      rw [decide_eq_true rfl, Bool.or_true, if_pos rfl, if_pos rfl]
      exact ⟨_, scheduler, waiter, hlast, rfl⟩
    · rw [decide_eq_false he, Bool.or_false, if_neg he]
      exact (ht.holds fd c hc e).append _
  · obtain ⟨r, hr, hk, hw⟩ := ht.pushed p hp
    refine ⟨r, ?_, hk, hw⟩
    exact (List.getElem?_append_left (List.getElem?_eq_some_iff.mp hr).1).trans hr
  · have honce := ht.once i
    have hempty := (ht.holds fd c hc event).of_not_has hev
    have hset := count_flatMap_set hc (c.register event
      (.of s.registered.length scheduler waiter)) FdContext.serials i
    have hold := c.count_serials event i
    rw [hempty] at hold
    rw [FdContext.count_serials_register, EventContext.serials_of] at hset
    have hnil : EventContext.empty.serials.count i = 0 := rfl
    have hone : [s.registered.length].count i = if i = s.registered.length then 1 else 0 := by
      by_cases hi : i = s.registered.length
      · simp [hi]
      · rw [if_neg hi]
        exact List.count_eq_zero_of_not_mem fun hmem => hi (List.mem_singleton.mp hmem)
    simp only [registering, held, List.length_append, List.length_singleton] at honce hset ⊢
    split_ifs at honce hone ⊢ <;> omega

theorem Tracked.grow (ht : Tracked s) {size : ℕ} (h : s.fdContexts.length ≤ size) :
    Tracked { s with fdContexts := resize .fresh size s.fdContexts } := by
  refine ⟨fun fd c hc event => ?_, ht.pushed, fun i => ?_⟩
  · rcases getElem?_resize h hc with hold | ⟨-, rfl⟩
    · exact ht.holds fd c hold event
    · exact Holds.fresh _ fd event
  · refine Eq.trans ?_ (ht.once i)
    have hnone : ∀ l : List ℕ, (l.map FdContext.fresh).flatMap FdContext.serials = [] := by
      intro l
      rw [List.flatMap_map]
      exact List.flatMap_eq_nil_iff.mpr fun _ _ => rfl
    simp only [held, resize_of_le h, List.flatMap_append, hnone, List.append_nil]

theorem tracked_construct : Tracked construct := by
  have hnil : Tracked { construct with fdContexts := [] } :=
    ⟨nofun, nofun, fun i => rfl⟩
  exact hnil.grow (Nat.zero_le 32)

/-! ## What has happened when an operation has returned -/

section Returned

variable {u : IOManager} {m : Events} {op : EpollOp}

theorem of_context (h : context fd s = .ok c t) : s.fdContexts[fd]? = some c ∧ t = s := by
  cases hc : s.fdContexts[fd]? with
  | some c' =>
    rw [context_eq hc] at h
    obtain ⟨rfl, rfl⟩ := Outcome.ok.inj h
    exact ⟨rfl, rfl⟩
  | none => simp [context, hc] at h

theorem of_assert {b : Bool} {x : Unit} (h : assert b s = .ok x t) : b = true ∧ t = s := by
  cases b with
  | true => exact ⟨rfl, (Outcome.ok.inj h).2.symm⟩
  | false => cases h

theorem of_lookup {r : Option FdContext} (h : lookup fd s = .ok r t) :
    t = s ∧ ∀ c, r = some c → s.fdContexts[fd]? = some c := by
  rw [lookup, Prog.get_bind] at h
  split_ifs at h with hpos
  · obtain ⟨c, u, hc, hu⟩ := Prog.of_bind_ok h
    obtain ⟨hc, rfl⟩ := of_context hc
    obtain ⟨rfl, rfl⟩ := Outcome.ok.inj hu
    refine ⟨rfl, fun c' hc' => ?_⟩
    rwa [← Option.some.inj hc']
  · obtain ⟨rfl, rfl⟩ := Outcome.ok.inj h
    refine ⟨rfl, fun c hc => ?_⟩
    cases hc

theorem of_epoll_ctl {b : Bool} (h : epoll_ctl answer op fd m s = .ok b t) :
    (b = true ∧ ∃ k, t = { s with interest := k }) ∨ (b = false ∧ t = s.withFailure) := by
  cases ha : answer op with
  | true =>
    simp only [epoll_ctl, Prog.get_bind, ha, if_true, Prog.set_bind, Prog.pure_apply] at h
    obtain ⟨rfl, rfl⟩ := Outcome.ok.inj h
    exact .inl ⟨rfl, _, rfl⟩
  | false =>
    rw [epoll_ctl_false ha] at h
    obtain ⟨rfl, rfl⟩ := Outcome.ok.inj h
    exact .inr ⟨rfl, rfl⟩

theorem of_triggerEvent {x : Unit} (h : triggerEvent fd event s = .ok x t) :
    ∃ c, s.fdContexts[fd]? = some c ∧ c.events.has event = true ∧
      (c.getEventContext event).scheduler ≠ none ∧ t = s.triggered fd c event := by
  obtain ⟨c, s₁, hcontext, h₁⟩ := Prog.of_bind_ok h
  obtain ⟨hc, rfl⟩ := of_context hcontext
  obtain ⟨_, s₂, hassert, h₂⟩ := Prog.of_bind_ok h₁
  obtain ⟨hev, rfl⟩ := of_assert hassert
  have hk : (c.getEventContext event).scheduler ≠ none := by
    intro hk
    dsimp only at h₂
    rw [hk] at h₂
    cases h₂
  rw [triggerEvent_eq hc hev hk] at h
  exact ⟨c, hc, hev, hk, (Outcome.ok.inj h).2.symm⟩

theorem of_dropEvent {x : Unit} (h : dropEvent fd event s = .ok x t) :
    ∃ c, s.fdContexts[fd]? = some c ∧ t = s.dropping fd c event := by
  have h₁ := h
  rw [dropEvent, Prog.get_bind] at h₁
  obtain ⟨c, s₁, hcontext, -⟩ := Prog.of_bind_ok h₁
  obtain ⟨hc, -⟩ := of_context hcontext
  rw [dropEvent_eq hc] at h
  exact ⟨c, hc, (Outcome.ok.inj h).2.symm⟩

theorem of_addEventLocked {cb scheduler : Option ℕ} {self : ℕ} {r : ℤ}
    (h : addEventLocked answer fd event cb scheduler self s = .ok r t) :
    ∃ c, s.fdContexts[fd]? = some c ∧ c.events.has event = false ∧
      ((r = 0 ∧ ∃ k, t = ({ s with interest := k }.withPending 1).registering fd c event scheduler
        (.of cb self)) ∨ (r = -1 ∧ t = s.withFailure)) := by
  obtain ⟨c, s₁, hcontext, h₁⟩ := Prog.of_bind_ok h
  obtain ⟨hc, rfl⟩ := of_context hcontext
  obtain ⟨_, s₂, hassert, h₂⟩ := Prog.of_bind_ok h₁
  obtain ⟨hev, rfl⟩ := of_assert hassert
  obtain ⟨b, s₃, hctl, h₃⟩ := Prog.of_bind_ok h₂
  refine ⟨c, hc, by simpa using hev, ?_⟩
  -- after `epoll_ctl` has succeeded nothing but the second assertion can fail
  rcases of_epoll_ctl hctl with ⟨rfl, k, rfl⟩ | ⟨rfl, rfl⟩
  · rw [if_pos rfl, Prog.bind_ok (addPending_eq 1 _)] at h₃
    obtain ⟨_, s₄, hreset, h₄⟩ := Prog.of_bind_ok h₃
    obtain ⟨-, rfl⟩ := of_assert hreset
    rw [Prog.bind_ok (registerEvent_eq (s := withPending { s₂ with interest := k } 1) (c := c) hc
      scheduler _)] at h₄
    obtain ⟨rfl, rfl⟩ := Outcome.ok.inj h₄
    exact .inl ⟨rfl, k, rfl⟩
  · obtain ⟨rfl, rfl⟩ := Outcome.ok.inj h₃
    exact .inr ⟨rfl, rfl⟩

end Returned

/-! ## The operations keep track -/

theorem keeps_addPending (d : ℤ) : Keeps Tracked (addPending d) :=
  fun _ ht => ⟨ht.holds, ht.pushed, ht.once⟩

theorem Tracked.fail (ht : Tracked s) : Tracked s.withFailure := ⟨ht.holds, ht.pushed, ht.once⟩

theorem keeps_epoll_ctl (op : EpollOp) (fd : ℕ) (m : Events) :
    Keeps Tracked (epoll_ctl answer op fd m) := by
  refine Keeps.of_ok fun s b t ht h => ?_
  rcases of_epoll_ctl h with ⟨-, k, rfl⟩ | ⟨-, rfl⟩
  · exact ⟨ht.holds, ht.pushed, ht.once⟩
  · exact ht.fail

theorem keeps_context {I : IOManager → Prop} (fd : ℕ) : Keeps I (context fd) := by
  refine Keeps.of_ok fun s c t ht h => ?_
  obtain ⟨-, rfl⟩ := of_context h
  exact ht

theorem keeps_lookup {I : IOManager → Prop} (fd : ℕ) : Keeps I (lookup fd) := by
  refine Keeps.of_ok fun s c t ht h => ?_
  obtain ⟨rfl, -⟩ := of_lookup h
  exact ht

theorem keeps_assert {I : IOManager → Prop} (b : Bool) : Keeps I (assert b) := Keeps.lift _

theorem keeps_dropEvent (fd : ℕ) (event : Event) : Keeps Tracked (dropEvent fd event) := by
  refine Keeps.of_ok fun s x t ht h => ?_
  obtain ⟨c, hc, rfl⟩ := of_dropEvent h
  exact ht.drop hc event

theorem keeps_triggerEvent (fd : ℕ) (event : Event) : Keeps Tracked (triggerEvent fd event) := by
  refine Keeps.of_ok fun s x t ht h => ?_
  obtain ⟨c, hc, hev, hk, rfl⟩ := of_triggerEvent h
  exact ht.trigger hc hev hk

theorem keeps_addEventLocked (fd : ℕ) (event : Event) (cb scheduler : Option ℕ) (self : ℕ) :
    Keeps Tracked (addEventLocked answer fd event cb scheduler self) := by
  refine Keeps.of_ok fun s r t ht h => ?_
  obtain ⟨c, hc, hev, ⟨-, k, rfl⟩ | ⟨-, rfl⟩⟩ := of_addEventLocked h
  · have ht' : Tracked (withPending { s with interest := k } 1) :=
      ⟨ht.holds, ht.pushed, ht.once⟩
    exact ht'.register hc hev scheduler _
  · exact ht.fail

theorem keeps_addEvent (fd : ℕ) (event : Event) (cb scheduler : Option ℕ) (self : ℕ) :
    Keeps Tracked (addEvent answer fd event cb scheduler self) := by
  intro s ht
  by_cases hlt : fd < s.fdContexts.length
  · rw [addEvent_of_lt hlt]
    exact keeps_addEventLocked fd event cb scheduler self s ht
  · rw [addEvent_of_not_lt hlt]
    exact keeps_addEventLocked fd event cb scheduler self _ (ht.grow (length_le_grown hlt))

theorem keeps_delEvent (fd : ℕ) (event : Event) : Keeps Tracked (delEvent answer fd event) := by
  refine Keeps.bind (keeps_lookup fd) fun r => ?_
  cases r with
  | none => exact Keeps.pure false
  | some c =>
    dsimp only
    by_cases hev : c.events.has event = true
    · rw [if_pos hev]
      refine Keeps.bind (keeps_epoll_ctl _ fd _) fun _ => Keeps.bind (keeps_addPending _) fun _ => ?_
      exact Keeps.bind (keeps_dropEvent fd event) fun _ => Keeps.pure true
    · rw [if_neg hev]
      exact Keeps.pure false

/-- An invariant that does not depend on the kernel, and that is kept when an event is triggered and
counted down, in either order. -/
structure Stable (I : IOManager → Prop) : Prop where
  interest : ∀ s k, I s → I { s with interest := k }
  triggered : ∀ fd event, Keeps I (triggerEvent fd event >>= fun _ => addPending (-1))
  cancelled : ∀ fd event, Keeps I (addPending (-1) >>= fun _ => triggerEvent fd event)

/-- An invariant that each of the two keeps. -/
theorem Stable.of_keeps {I : IOManager → Prop} (hinterest : ∀ s k, I s → I { s with interest := k })
    (hpending : ∀ d, Keeps I (addPending d))
    (htrigger : ∀ fd event, Keeps I (triggerEvent fd event)) : Stable I where
  interest := hinterest
  triggered := fun fd event => Keeps.bind (htrigger fd event) fun _ => hpending (-1)
  cancelled := fun fd event => Keeps.bind (hpending (-1)) fun _ => htrigger fd event

namespace Stable

variable {I : IOManager → Prop} (hI : Stable I)
include hI

theorem triggerIf (m : Events) (fd : ℕ) (event : Event) : Keeps I (triggerIf m fd event) := by
  unfold IOManager.triggerIf
  split_ifs
  · exact hI.triggered fd event
  · exact Keeps.pure ()

/-- What is done after a call of `epoll_ctl` is done only if the call has succeeded. -/
theorem answered {α : Type} {y : Op α} {a a' : α} {op : EpollOp} {m : Events} (hs : I s)
    (hy : Keeps I y)
    (h : (epoll_ctl answer op fd m >>= fun b => if b = true then y else pure a) s = .ok a' t) :
    t = s.withFailure ∨ I t := by
  obtain ⟨b, u, hctl, hu⟩ := Prog.of_bind_ok h
  rcases of_epoll_ctl hctl with ⟨rfl, k, rfl⟩ | ⟨rfl, rfl⟩
  · rw [if_pos rfl] at hu
    exact .inr (hy.of_state (hI.interest s k hs) (congrArg Outcome.state? hu))
  · obtain ⟨-, rfl⟩ := Outcome.ok.inj hu
    exact .inl rfl

theorem cancelEvent {b : Bool} (hs : I s) (h : cancelEvent answer fd event s = .ok b t) :
    t = s.withFailure ∨ I t := by
  obtain ⟨r, u, hr, hu⟩ := Prog.of_bind_ok h
  obtain ⟨rfl, -⟩ := of_lookup hr
  cases r with
  | none =>
    obtain ⟨-, rfl⟩ := Outcome.ok.inj hu
    exact .inr hs
  | some c =>
    dsimp only at hu
    by_cases hev : c.events.has event = true
    · rw [if_pos hev] at hu
      have hbody := Keeps.bind (hI.cancelled fd event) fun _ => Keeps.pure true
      rw [Prog.bind_bind] at hbody
      exact hI.answered hs hbody hu
    · rw [if_neg hev] at hu
      obtain ⟨-, rfl⟩ := Outcome.ok.inj hu
      exact .inr hs

theorem cancelAll {b : Bool} (hs : I s) (h : cancelAll answer fd s = .ok b t) :
    t = s.withFailure ∨ I t := by
  obtain ⟨r, u, hr, hu⟩ := Prog.of_bind_ok h
  obtain ⟨rfl, -⟩ := of_lookup hr
  cases r with
  | none =>
    obtain ⟨-, rfl⟩ := Outcome.ok.inj hu
    exact .inr hs
  | some c =>
    dsimp only at hu
    by_cases hev : c.events.isNone = true
    · rw [if_pos hev] at hu
      obtain ⟨-, rfl⟩ := Outcome.ok.inj hu
      exact .inr hs
    · rw [if_neg hev] at hu
      refine hI.answered hs ?_ hu
      refine Keeps.bind (hI.triggerIf _ fd .read) fun _ => Keeps.bind (keeps_context fd) fun _ => ?_
      refine Keeps.bind (hI.triggerIf _ fd .write) fun _ => Keeps.bind (keeps_context fd) fun _ => ?_
      exact Keeps.bind (keeps_assert _) fun _ => Keeps.pure true

theorem dispatch {ready : Ready} {x : Unit} (hs : I s) (h : dispatch answer fd ready s = .ok x t) :
    t = s.withFailure ∨ I t := by
  obtain ⟨c, u, hc, hu⟩ := Prog.of_bind_ok h
  obtain ⟨-, rfl⟩ := of_context hc
  dsimp only at hu
  by_cases hready : (c.events.inter (realEvents c.events ready)).isNone = true
  · rw [if_pos hready] at hu
    obtain ⟨-, rfl⟩ := Outcome.ok.inj hu
    exact .inr hs
  · rw [if_neg hready] at hu
    exact hI.answered hs (Keeps.bind (hI.triggerIf _ fd .read) fun _ =>
      hI.triggerIf _ fd .write) hu

end Stable

theorem stable_tracked : Stable Tracked :=
  .of_keeps (fun _ _ ht => ⟨ht.holds, ht.pushed, ht.once⟩) keeps_addPending keeps_triggerEvent

/-! ## The records -/

/-- Nothing has been registered or dropped, and no call of `epoll_ctl` has failed. -/
structure Moved (s t : IOManager) : Prop where
  registered : t.registered = s.registered
  dropped : t.dropped = s.dropped
  failures : t.failures = s.failures

theorem stable_moved (s : IOManager) : Stable (Moved s) := by
  refine .of_keeps (fun _ _ h => ⟨h.registered, h.dropped, h.failures⟩)
    (fun _ _ h => ⟨h.registered, h.dropped, h.failures⟩) fun fd event => ?_
  refine Keeps.of_ok fun t x u h hu => ?_
  obtain ⟨c, -, -, -, rfl⟩ := of_triggerEvent hu
  exact ⟨h.registered, h.dropped, h.failures⟩

/-- The registrations, the masks, the counter and the records of `t` are those of `s`, and the table
of `t` has at most got further contexts that hold nothing. -/
structure Unchanged (s t : IOManager) : Prop where
  contexts : ∃ n, t.fdContexts =
    s.fdContexts ++ (List.range' s.fdContexts.length n).map FdContext.fresh
  pending : t.pendingEvenCount = s.pendingEvenCount
  registered : t.registered = s.registered
  pushed : t.pushed = s.pushed
  dropped : t.dropped = s.dropped

theorem Unchanged.fail (s : IOManager) : Unchanged s s.withFailure :=
  ⟨⟨0, (List.append_nil _).symm⟩, rfl, rfl, rfl, rfl⟩

/-- What a call that leads from `s` to `t` has registered and dropped, and what it has left
unchanged. -/
def Accounted (answer : EpollOp → Bool) (s t : IOManager) : IOCall → Prop
  | .addEvent fd event cb scheduler self =>
    (addEvent answer fd event cb scheduler self s = .ok 0 t ∧ t.dropped = s.dropped ∧
        t.registered = s.registered ++ [⟨fd, event, scheduler, .of cb self⟩]) ∨
      (addEvent answer fd event cb scheduler self s = .ok (-1) t ∧ Unchanged s t)
  | .delEvent fd event =>
    t.registered = s.registered ∧ (delEvent answer fd event s = .ok true t ∨ t = s)
  | .cancelEvent _ _ | .cancelAll _ | .dispatch _ _ =>
    t.registered = s.registered ∧ t.dropped = s.dropped ∧
      (t.failures ≠ s.failures → Unchanged s t)

theorem accounted_addEvent {cb scheduler : Option ℕ} {self : ℕ} {r : ℤ}
    (h : addEvent answer fd event cb scheduler self s = .ok r t) :
    Accounted answer s t (.addEvent fd event cb scheduler self) := by
  by_cases hlt : fd < s.fdContexts.length
  · have h' := h
    rw [addEvent_of_lt hlt] at h'
    obtain ⟨c, -, -, ⟨rfl, k, rfl⟩ | ⟨rfl, rfl⟩⟩ := of_addEventLocked h'
    · exact .inl ⟨h, rfl, rfl⟩
    · exact .inr ⟨h, Unchanged.fail s⟩
  · have h' := h
    rw [addEvent_of_not_lt hlt] at h'
    obtain ⟨c, -, -, ⟨rfl, k, rfl⟩ | ⟨rfl, rfl⟩⟩ := of_addEventLocked h'
    · exact .inl ⟨h, rfl, rfl⟩
    · exact .inr ⟨h, ⟨_, resize_of_le (length_le_grown hlt)⟩, rfl, rfl, rfl, rfl⟩

theorem accounted_delEvent {b : Bool} (h : delEvent answer fd event s = .ok b t) :
    Accounted answer s t (.delEvent fd event) := by
  obtain ⟨r, s₁, hlookup, h₁⟩ := Prog.of_bind_ok h
  obtain ⟨rfl, -⟩ := of_lookup hlookup
  cases r with
  | none => exact ⟨congrArg registered (Outcome.ok.inj h₁).2.symm, .inr (Outcome.ok.inj h₁).2.symm⟩
  | some c =>
    dsimp only at h₁
    by_cases hev : c.events.has event = true
    · rw [if_pos hev] at h₁
      obtain ⟨a, s₂, hctl, h₂⟩ := Prog.of_bind_ok h₁
      rw [Prog.bind_ok (addPending_eq (-1) _)] at h₂
      obtain ⟨_, s₃, hdrop, h₃⟩ := Prog.of_bind_ok h₂
      obtain ⟨c', -, rfl⟩ := of_dropEvent hdrop
      obtain ⟨rfl, rfl⟩ := Outcome.ok.inj h₃
      -- the event is dropped whatever `epoll_ctl` has answered
      refine ⟨?_, .inl h⟩
      rcases of_epoll_ctl hctl with ⟨-, k, rfl⟩ | ⟨-, rfl⟩ <;> rfl
    · rw [if_neg hev] at h₁
      exact ⟨congrArg registered (Outcome.ok.inj h₁).2.symm, .inr (Outcome.ok.inj h₁).2.symm⟩

theorem accounted_of_moved (h : t = s.withFailure ∨ Moved s t) :
    t.registered = s.registered ∧ t.dropped = s.dropped ∧
      (t.failures ≠ s.failures → Unchanged s t) := by
  rcases h with rfl | h
  · exact ⟨rfl, rfl, fun _ => Unchanged.fail s⟩
  · exact ⟨h.registered, h.dropped, fun hne => absurd h.failures hne⟩

/-! ## Runs -/

theorem of_state {α : Type} {x : Op α} (h : ((do let _ ← x : Op Unit) s).state? = some t) :
    ∃ a, x s = .ok a t := by
  rw [Prog.bind_apply] at h
  cases hx : x s with
  | ok a u =>
    rw [hx] at h
    obtain rfl := Option.some.inj h
    exact ⟨a, rfl⟩
  | throw e u => exact e.elim
  | fault f =>
    rw [hx] at h
    cases h

/-- **One call** keeps track of every registration, and accounts for what it did. -/
theorem Tracked.step (ht : Tracked s) {call : IOCall}
    (h : IOManager.step s (answer, call) = some t) : Tracked t ∧ Accounted answer s t call := by
  have hmoved : Moved s s := ⟨rfl, rfl, rfl⟩
  have htracked : ∀ {u}, (u = s.withFailure ∨ Tracked u) → Tracked u := by
    rintro u (rfl | hu)
    · exact ht.fail
    · exact hu
  -- a removal is two invariants: `Tracked`, and `Moved` from where the call started
  cases call with
  | addEvent fd event cb scheduler self =>
    obtain ⟨r, hr⟩ := of_state h
    exact ⟨(keeps_addEvent fd event cb scheduler self).of_state ht (congrArg Outcome.state? hr),
      accounted_addEvent hr⟩
  | delEvent fd event =>
    obtain ⟨b, hb⟩ := of_state h
    exact ⟨(keeps_delEvent fd event).of_state ht (congrArg Outcome.state? hb),
      accounted_delEvent hb⟩
  | cancelEvent fd event =>
    obtain ⟨b, hb⟩ := of_state h
    exact ⟨htracked (stable_tracked.cancelEvent ht hb),
      accounted_of_moved ((stable_moved s).cancelEvent hmoved hb)⟩
  | cancelAll fd =>
    obtain ⟨b, hb⟩ := of_state h
    exact ⟨htracked (stable_tracked.cancelAll ht hb),
      accounted_of_moved ((stable_moved s).cancelAll hmoved hb)⟩
  | dispatch fd ready =>
    cases hx : IOManager.dispatch answer fd ready s with
    | ok x u =>
      obtain rfl : u = t := Option.some.inj ((congrArg Outcome.state? hx).symm.trans h)
      exact ⟨htracked (stable_tracked.dispatch ht hx),
        accounted_of_moved ((stable_moved s).dispatch hmoved hx)⟩
    | throw e u => exact e.elim
    | fault f => cases (congrArg Outcome.state? hx).symm.trans h

/-- **Waiters are conserved** along every run, whatever `epoll_ctl` answers: every registration is
in exactly one place, and every further call accounts for what it registers, drops and leaves
unchanged. -/
theorem waiters_conserved_of_exec {calls : List ((EpollOp → Bool) × IOCall)}
    (h : exec step construct calls = some s) :
    Conserved s ∧ ∀ answer call t, step s (answer, call) = some t → Accounted answer s t call := by
  have ht : Tracked s :=
    exec_invariant (fun _ _ _ ht hstep => (ht.step hstep).1) tracked_construct h
  exact ⟨ht.conserved, fun _ _ _ hstep => (ht.step hstep).2⟩

/-- A callback that a `cancelEvent` pushes, and a fiber whose event is cancelled in vain. -/
theorem waiters_conserved_of_exec_cancelEvent :
    ∃ s, exec step construct [(fun _ => true, .addEvent 5 .read (some 1) (some 7) 3),
        (fun _ => true, .addEvent 40 .write none (some 7) 3),
        (fun _ => true, .cancelEvent 5 .read),
        (fun _ => false, .cancelEvent 40 .write)] = some s ∧
      Conserved s ∧ s.held = [1] ∧ s.pushed = [⟨0, 7, .cb 1⟩] := by
  obtain ⟨s, hs⟩ : ∃ s, exec step construct [(fun _ => true, .addEvent 5 .read (some 1) (some 7) 3),
      (fun _ => true, .addEvent 40 .write none (some 7) 3), (fun _ => true, .cancelEvent 5 .read),
      (fun _ => false, .cancelEvent 40 .write)] = some s := ⟨_, rfl⟩
  refine ⟨s, hs, (waiters_conserved_of_exec hs).1, ?_⟩
  obtain rfl := Option.some.inj hs
  exact ⟨rfl, rfl⟩

end IOManager

end Dag
