import Dag.IOManager.Registration
import Dag.IOManager.Waiters

/-!
# IO events: the operations on one file descriptor

What the operations on a file descriptor leave of its two event contexts, when the kernel answers
for a descriptor that is open, and refuses one that is closed. The table may be too small to have a
context of the descriptor; nothing is registered on it then.

## Main definitions

* `eventsOf`, `eventContext`: the mask of a file descriptor, and what an event of it holds
* `Vacant`: nothing waits for the file descriptor
* `At`: mask, event contexts, kernel and counter agree at the file descriptor
* `others`: the number of events registered elsewhere

## Main results

* `At.addEvent`, `At.cancelEvent`, `At.cancelAll`, `At.dispatch`: what the operations leave
-/

namespace Dag

open Foundation

namespace IOManager

/-- The events registered on `fd`; `NONE` while the table has no context of it. -/
def eventsOf (s : IOManager) (fd : ℕ) : Events :=
  match s.fdContexts[fd]? with
  | some c => c.events
  | none => .empty

/-- The event context of an event of `fd`. -/
def eventContext (s : IOManager) (fd : ℕ) (event : Event) : EventContext :=
  match s.fdContexts[fd]? with
  | some c => c.getEventContext event
  | none => .empty

/-- Nothing waits for an event of `fd`. -/
def Vacant (s : IOManager) (fd : ℕ) : Prop := ∀ event, s.eventContext fd event = .empty

/-- Mask, event contexts, kernel and counter agree at `fd`. -/
structure At (s : IOManager) (fd : ℕ) : Prop where
  good : ∀ c, s.fdContexts[fd]? = some c → c.Good fd
  interest : s.interest fd = watched (s.eventsOf fd)
  counted : s.pendingEvenCount = s.total

/-- What `epoll_ctl` returns for `fd`: a file descriptor that is closed is refused. -/
def answerFor (s : IOManager) (fd : ℕ) (isOpen : Bool) (op : EpollOp) : Bool :=
  isOpen && kernelAnswer (s.interest fd) op

variable {s t : IOManager} {fd self : ℕ} {c c' : FdContext} {event : Event} {b : Bool}

theorem eventsOf_eq (hc : s.fdContexts[fd]? = some c) : s.eventsOf fd = c.events := by
  rw [eventsOf, hc]

theorem eventContext_eq (hc : s.fdContexts[fd]? = some c) (event : Event) :
    s.eventContext fd event = c.getEventContext event := by
  rw [eventContext, hc]

/-- Where nothing waits, no event is registered. -/
theorem At.isNone (hs : s.At fd) (hv : s.Vacant fd) : (s.eventsOf fd).isNone = true := by
  cases hc : s.fdContexts[fd]? with
  | none =>
    rw [eventsOf, hc]
    rfl
  | some c =>
    rw [eventsOf_eq hc, Events.isNone_iff]
    intro event
    by_contra hev
    have harmed := (hs.good c hc).armed event (eq_true_of_ne_false hev)
    rw [← eventContext_eq hc, hv event] at harmed
    exact EventContext.not_armed_empty harmed

/-- What waits is registered: where no event is, nothing waits. -/
theorem At.vacant (hs : s.At fd) (hnone : (s.eventsOf fd).isNone = true) : s.Vacant fd := by
  intro event
  cases hc : s.fdContexts[fd]? with
  | none =>
    rw [eventContext, hc]
  | some c =>
    rw [eventsOf_eq hc, Events.isNone_iff] at hnone
    rw [eventContext_eq hc]
    exact (hs.good c hc).reset event (hnone event)

theorem Inv.at (hi : Inv s) (hc : s.fdContexts[fd]? = some c) : s.At fd where
  good := hi.good fd
  interest := by rw [eventsOf_eq hc, hi.watched fd c hc]
  counted := hi.counted

theorem at_construct (fd : ℕ) : construct.At fd := by
  cases hc : construct.fdContexts[fd]? with
  | some c => exact inv_construct.at hc
  | none =>
    refine ⟨fun c hc' => ?_, ?_, inv_construct.counted⟩
    · rw [hc] at hc'
      cases hc'
    · rw [eventsOf, hc]
      rfl

/-- One context changes, and with it the kernel's interest and the counter. -/
theorem At.change (hs : s.At fd) (hc : s.fdContexts[fd]? = some c) (hgood : c'.Good fd)
    (hcontexts : t.fdContexts = s.fdContexts.set fd c')
    (hinterest : t.interest fd = watched c'.events)
    (hpending : t.pendingEvenCount + c.events.count = s.pendingEvenCount + c'.events.count) :
    t.At fd := by
  have hc' : t.fdContexts[fd]? = some c' := by
    rw [hcontexts]
    exact List.getElem?_set_self (length_pos_of_context hc)
  refine ⟨fun d hd => ?_, ?_, ?_⟩
  · obtain rfl := Option.some.inj (hc'.symm.trans hd)
    exact hgood
  · rw [eventsOf_eq hc', hinterest]
  · have hsum := sum_map_set hc c' fun c => c.events.count
    have hcounted := hs.counted
    rw [total] at hcounted ⊢
    rw [hcontexts]
    omega

theorem At.fail (hs : s.At fd) : s.withFailure.At fd := ⟨hs.good, hs.interest, hs.counted⟩

/-- The number of registered events of the other file descriptors. -/
def others (s : IOManager) (fd : ℕ) : ℕ :=
  ((s.fdContexts.set fd (.fresh fd)).map fun c => c.events.count).sum

/-- Where nothing waits, only the events of the other file descriptors are counted. -/
theorem At.pending_eq (hs : s.At fd) (hv : s.Vacant fd) : s.pendingEvenCount = s.others fd := by
  have hcounted := hs.counted
  rw [total] at hcounted
  rw [others]
  cases hc : s.fdContexts[fd]? with
  | none =>
    rw [List.set_eq_of_length_le (List.getElem?_eq_none_iff.mp hc)]
    exact hcounted
  | some c =>
    have hnone := hs.isNone hv
    rw [eventsOf_eq hc, Events.isNone_iff] at hnone
    have hread : c.events.read = false := hnone .read
    have hwrite : c.events.write = false := hnone .write
    have hsum := sum_map_set hc (.fresh fd) fun c => c.events.count
    have hzero : (FdContext.fresh fd).events.count = 0 := rfl
    simp only [Events.count, hread, hwrite, Bool.toNat_false] at hsum hzero hcounted ⊢
    omega

/-! ## Growth of the table -/

/-- New contexts hold nothing. -/
theorem eventContext_grow {size : ℕ} (h : s.fdContexts.length ≤ size) (fd : ℕ) :
    eventContext { s with fdContexts := resize .fresh size s.fdContexts } fd =
        s.eventContext fd ∧
      eventsOf { s with fdContexts := resize .fresh size s.fdContexts } fd = s.eventsOf fd := by
  unfold eventContext eventsOf
  dsimp only
  cases hc : (resize .fresh size s.fdContexts)[fd]? with
  | none =>
    have hlen : s.fdContexts.length ≤ fd := by
      rw [List.getElem?_eq_none_iff, length_resize] at hc
      exact Nat.le_trans h hc
    rw [List.getElem?_eq_none hlen]
    exact ⟨rfl, rfl⟩
  | some c =>
    rcases getElem?_resize h hc with hold | ⟨hnone, rfl⟩
    · rw [hold]
      exact ⟨rfl, rfl⟩
    · rw [hnone]
      refine ⟨funext fun event => ?_, rfl⟩
      cases event <;> rfl

theorem At.grow (hs : s.At fd) {size : ℕ} (h : s.fdContexts.length ≤ size) :
    At { s with fdContexts := resize .fresh size s.fdContexts } fd where
  good := by
    intro c hc
    rcases getElem?_resize h hc with hold | ⟨-, rfl⟩
    · exact hs.good c hold
    · exact FdContext.Good.fresh fd
  interest := by
    rw [(eventContext_grow h fd).2]
    exact hs.interest
  counted := by
    rw [total_grow h]
    exact hs.counted

/-! ## The operations -/

theorem eventContext_set (hc : s.fdContexts[fd]? = some c)
    (hcontexts : t.fdContexts = s.fdContexts.set fd c') (event : Event) :
    t.eventContext fd event = c'.getEventContext event := by
  refine eventContext_eq ?_ event
  rw [hcontexts]
  exact List.getElem?_set_self (length_pos_of_context hc)

/-- Events of a set are taken: their event contexts are reset, and the others stay. -/
theorem At.take (hs : s.At fd) (hc : s.fdContexts[fd]? = some c) {m : Events}
    (hm : m.Subset c.events) :
    ((s.withInterest fd (c.events.diff m)).taken fd c m).At fd ∧
      ∀ event, ((s.withInterest fd (c.events.diff m)).taken fd c m).eventContext fd event =
        if m.has event = true then .empty else s.eventContext fd event := by
  have hcount := Events.count_diff hm
  constructor
  · refine hs.change hc ((hs.good c hc).clear m) rfl (Function.update_self ..) ?_
    simp only [taken, withInterest, FdContext.clear]
    omega
  · intro event
    have hset : ((s.withInterest fd (c.events.diff m)).taken fd c m).eventContext fd event =
        (c.clear m).getEventContext event := eventContext_set hc rfl event
    rw [hset, FdContext.getEventContext_clear, eventContext_eq hc]

/-- What an `addEvent` leaves that has returned. -/
structure Added (s t : IOManager) (fd : ℕ) (event : Event) (self : ℕ) (b : Bool) (r : ℤ) :
    Prop where
  agree : t.At fd
  outcome : (r = 0 ∧ b = true ∧ t.eventContext fd = Function.update (s.eventContext fd) event
      (.of s.registered.length (some 0) (.fiber self))) ∨
    (r = -1 ∧ t.eventContext fd = s.eventContext fd)

section Added

variable {answer : EpollOp → Bool} {accepted : Bool} {r : ℤ}

theorem At.addEventLocked (hs : s.At fd) (ha : ∀ op, answer op = (accepted && s.answerFor fd b op))
    (h : addEventLocked answer fd event none (some 0) self s = .ok r t) :
    Added s t fd event self (accepted && b) r ∧ s.eventContext fd event = .empty := by
  obtain ⟨c, hc, hev, -⟩ := of_addEventLocked h
  have hempty := (hs.good c hc).reset event hev
  refine ⟨?_, by rwa [eventContext_eq hc]⟩
  cases hop : answer (addOrMod c.events) with
  | true =>
    rw [addEventLocked_eq hc hev hop hempty] at h
    obtain ⟨rfl, rfl⟩ := Outcome.ok.inj h
    have hopen : (accepted && b) = true := by
      rw [ha, answerFor, Bool.and_eq_true, Bool.and_eq_true] at hop
      exact Bool.and_eq_true_iff.mpr ⟨hop.1, hop.2.1⟩
    refine ⟨?_, .inl ⟨rfl, hopen, funext fun e => ?_⟩⟩
    · refine hs.change hc ((hs.good c hc).register event
        (EventContext.armed_of s.registered.length (Option.some_ne_none 0) (.fiber self))) rfl ?_ ?_
      · rw [FdContext.events_register]
        exact Function.update_self ..
      · rw [FdContext.events_register, Events.count_add hev]
        simp only [registering, withPending, withInterest]
        omega
    · rw [eventContext_set hc rfl, FdContext.getEventContext_register, Function.update_apply,
        eventContext_eq hc]
      rfl
  | false =>
    -- `epoll_ctl` fails behind the assertion, and nothing is done
    have hctl : epoll_ctl answer (addOrMod c.events) fd (c.events.add event) s =
        .ok false s.withFailure := epoll_ctl_false hop _
    rw [addOrMod] at hctl
    rw [IOManager.addEventLocked, Prog.bind_ok (context_eq hc),
      Prog.bind_ok (assert_eq (by rw [hev]; rfl)), Prog.bind_ok hctl] at h
    obtain ⟨rfl, rfl⟩ := Outcome.ok.inj h
    exact ⟨hs.fail, .inr ⟨rfl, rfl⟩⟩

/-- **`addEvent` registers the event, or leaves everything as it is.** -/
theorem At.addEvent (hs : s.At fd) (ha : ∀ op, answer op = (accepted && s.answerFor fd b op))
    (h : addEvent answer fd event none (some 0) self s = .ok r t) :
    Added s t fd event self (accepted && b) r ∧ s.eventContext fd event = .empty := by
  by_cases hlt : fd < s.fdContexts.length
  · rw [addEvent_of_lt hlt] at h
    exact hs.addEventLocked ha h
  · rw [addEvent_of_not_lt hlt] at h
    have hle := length_le_grown hlt
    obtain ⟨⟨hat, hout⟩, hempty⟩ := (hs.grow hle).addEventLocked ha h
    rw [(eventContext_grow hle fd).1] at hout hempty
    exact ⟨⟨hat, hout⟩, hempty⟩

end Added

/-- Every event context of `fd` is what it was, or reset. -/
def Removes (s t : IOManager) (fd : ℕ) : Prop :=
  ∀ event, t.eventContext fd event = s.eventContext fd event ∨ t.eventContext fd event = .empty

theorem Removes.vacant (h : Removes s t fd) (hv : s.Vacant fd) : t.Vacant fd := by
  intro event
  rcases h event with heq | hempty
  · rw [heq, hv event]
  · exact hempty

theorem removes_update (h : t.eventContext fd = Function.update (s.eventContext fd) event .empty) :
    Removes s t fd := by
  intro e
  by_cases he : e = event
  · rw [h, he, Function.update_self]
    exact .inr rfl
  · rw [h, Function.update_of_ne he]
    exact .inl rfl

theorem answerFor_modOrDel (hs : s.At fd) (hb : b = true) (hc : s.fdContexts[fd]? = some c)
    (hev : c.events.isNone = false) (m : Events) : s.answerFor fd b (modOrDel m) = true := by
  rw [answerFor, hb, hs.interest, eventsOf_eq hc, watched, modOrDel, hev]
  cases m.isNone <;> rfl

/-- A closed file descriptor for which nothing waits has no event registered. -/
theorem open_of_has (hs : s.At fd) (hv : b = false → s.Vacant fd)
    (hc : s.fdContexts[fd]? = some c) (hev : c.events.isNone = false) : b = true := by
  cases b with
  | true => rfl
  | false =>
    have hnone := hs.isNone (hv rfl)
    rw [eventsOf_eq hc, hev] at hnone
    cases hnone

/-- A lookup that returns has found the context, or the table is empty. -/
theorem lookup_cases {r : Option FdContext} {u : IOManager} (h : lookup fd s = .ok r u) :
    u = s ∧ ((∃ c, r = some c ∧ s.fdContexts[fd]? = some c) ∨ (r = none ∧ s.Vacant fd)) := by
  obtain ⟨rfl, hr⟩ := of_lookup h
  refine ⟨rfl, ?_⟩
  cases r with
  | some c => exact .inl ⟨c, rfl, hr c rfl⟩
  | none =>
    refine .inr ⟨rfl, fun event => ?_⟩
    have hnil : u.fdContexts = [] := by
      rw [lookup, Prog.get_bind] at h
      split_ifs at h with hpos
      · obtain ⟨c, v, hc, hv⟩ := Prog.of_bind_ok h
        cases hv
      · exact List.length_eq_zero_iff.mp (Nat.eq_zero_of_not_pos hpos)
    rw [eventContext, hnil]
    rfl

/-- **`cancelEvent` leaves the event not registered.** -/
theorem At.cancelEvent (hs : s.At fd) (hv : b = false → s.Vacant fd) {r : Bool}
    (h : cancelEvent (s.answerFor fd b) fd event s = .ok r t) :
    t.At fd ∧ t.eventContext fd = Function.update (s.eventContext fd) event .empty := by
  have hsame : s.eventContext fd event = .empty →
      s.eventContext fd = Function.update (s.eventContext fd) event .empty := fun hempty => by
    rw [← hempty, Function.update_eq_self]
  obtain ⟨r', u, hlookup, hu⟩ := Prog.of_bind_ok h
  obtain ⟨rfl, ⟨c, -, hc⟩ | ⟨rfl, hvacant⟩⟩ := lookup_cases hlookup
  · cases hev : c.events.has event with
    | true =>
      have hnone := Events.isNone_of_has hev
      have ha := answerFor_modOrDel hs (open_of_has hs hv hc hnone) hc hnone (c.events.remove event)
      rw [cancelEvent_eq hc hev ha ((hs.good c hc).scheduler event hev), ← Events.diff_only] at h
      obtain ⟨-, rfl⟩ := Outcome.ok.inj h
      obtain ⟨hat, hctx⟩ := hs.take hc (Events.only_subset hev)
      refine ⟨hat, funext fun e => ?_⟩
      rw [hctx, Events.has_only, Function.update_apply]
      by_cases he : e = event
      · simp [he]
      · simp [he]
    | false =>
      rw [cancelEvent_skip hc hev] at h
      obtain ⟨-, rfl⟩ := Outcome.ok.inj h
      refine ⟨hs, hsame ?_⟩
      rw [eventContext_eq hc]
      exact (hs.good c hc).reset event hev
  · obtain ⟨-, rfl⟩ := Outcome.ok.inj hu
    exact ⟨hs, hsame (hvacant event)⟩

/-- **`cancelAll` leaves nothing that waits.** -/
theorem At.cancelAll (hs : s.At fd) (hv : b = false → s.Vacant fd) {r : Bool}
    (h : cancelAll (s.answerFor fd b) fd s = .ok r t) : t.At fd ∧ t.Vacant fd := by
  obtain ⟨r', u, hlookup, hu⟩ := Prog.of_bind_ok h
  obtain ⟨rfl, ⟨c, -, hc⟩ | ⟨rfl, hvacant⟩⟩ := lookup_cases hlookup
  · have hgood := hs.good c hc
    cases hnone : c.events.isNone with
    | true =>
      rw [cancelAll_skip hc hnone] at h
      obtain ⟨-, rfl⟩ := Outcome.ok.inj h
      refine ⟨hs, fun event => ?_⟩
      rw [eventContext_eq hc]
      exact hgood.reset event (Events.isNone_iff.mp hnone event)
    | false =>
      have ha := answerFor_modOrDel hs (open_of_has hs hv hc hnone) hc hnone .empty
      have hdiff : c.events.diff c.events = .empty := by simp [Events.diff, Events.empty]
      rw [cancelAll_eq hc hnone ha hgood.scheduler, ← hdiff] at h
      obtain ⟨-, rfl⟩ := Outcome.ok.inj h
      obtain ⟨hat, hctx⟩ := hs.take (m := c.events) hc fun _ hev => hev
      refine ⟨hat, fun event => ?_⟩
      rw [hctx, eventContext_eq hc]
      split_ifs with hev
      · rfl
      · exact hgood.reset event (eq_false_of_ne_true hev)
  · obtain ⟨-, rfl⟩ := Outcome.ok.inj hu
    exact ⟨hs, hvacant⟩

theorem At.dispatch (hs : s.At fd) (hv : b = false → s.Vacant fd) {ready : Ready}
    (h : dispatch (s.answerFor fd b) fd ready s = .ok () t) : t.At fd ∧ Removes s t fd := by
  obtain ⟨c, u, hcontext, -⟩ := Prog.of_bind_ok h
  obtain ⟨hc, -⟩ := of_context hcontext
  have hgood := hs.good c hc
  cases hready : (c.events.inter (realEvents c.events ready)).isNone with
  | true =>
    rw [dispatch_skip hc hready] at h
    obtain ⟨-, rfl⟩ := Outcome.ok.inj h
    exact ⟨hs, fun event => .inl rfl⟩
  | false =>
    have hnone := Events.isNone_of_inter hready
    have ha := answerFor_modOrDel hs (open_of_has hs hv hc hnone) hc hnone
      (c.events.diff (realEvents c.events ready))
    by_cases hm : (realEvents c.events ready).Subset c.events
    · rw [dispatch_eq hc hgood.fd_eq hready hm ha fun e he => hgood.scheduler e (hm e he)] at h
      obtain ⟨-, rfl⟩ := Outcome.ok.inj h
      obtain ⟨hat, hctx⟩ := hs.take hc hm
      refine ⟨hat, fun event => ?_⟩
      rw [hctx]
      split_ifs
      · exact .inr rfl
      · exact .inl rfl
    · rw [dispatch_fault hc hgood.fd_eq hready hm ha hgood.scheduler] at h
      cases h

end IOManager

end Dag
