import Dag.IOManager.Stopping

/-!
# What is left when a worker ends

The count of pending events is the number of registered events, up to the calls that are between
their steps. When it is zero, no event is registered but by calls that are about to clear it. What
`stopping` has read stays so as long as nobody adds a timer or an event behind its back; a task that
does so, and then ends, is not noticed. The second section of `reset` adds a timer, too.

## Main definitions

* `Stopping.Tallied`: the count, the registered events and the calls agree
* `Stopping.Unhurried`: nothing has gone behind the back of a worker that is in `stopping`

## Main results

* `Stopping.Inv.step`: every step keeps the invariant
* `Stopping.drained_of_exec`: nothing is left when a worker ends that nobody has overtaken
* `Stopping.sleeper_left`: a task that goes to sleep in between is left, and so is a timer that is
  reset
-/

namespace Dag

open Foundation

namespace Stopping

variable {n : ℕ} {κ : Type}

/-! ## The count of pending events -/

/-- The call has counted an event that is not registered. -/
def CountedUp (k : EventCall n) : Bool :=
  match k.place with
  | .adding | .triggered | .requeued => true
  | .deleting | .cancelling | .cancelled => false

/-- The call has counted down an event that is still registered. -/
def CountedDown (k : EventCall n) : Bool :=
  match k.place with
  | .deleting | .cancelling => true
  | .adding | .cancelled | .triggered | .requeued => false

/-- The calls hold the locks of different contexts; an event that is counted down is still
registered, and one that is being added is not yet. -/
structure Placed (registered : Finset (ℕ × Event)) (calls : List (EventCall n)) : Prop where
  fds : (calls.map EventCall.fd).Nodup
  removes : ∀ k ∈ calls, CountedDown k → (k.fd, k.event) ∈ registered
  adds : ∀ k ∈ calls, k.place = .adding → (k.fd, k.event) ∉ registered

/-- **The count of pending events**, the registered events and the calls agree. -/
structure Tallied (registered : Finset (ℕ × Event)) (pending : ℤ) (calls : List (EventCall n)) :
    Prop where
  placed : Placed registered calls
  counted : pending + calls.countP CountedDown = registered.card + calls.countP CountedUp

/-- Every registered event is about to be cleared, and none is about to be registered. -/
def Settled (registered : Finset (ℕ × Event)) (calls : List (EventCall n)) : Prop :=
  (∀ e ∈ registered, ∃ k ∈ calls, CountedDown k ∧ (k.fd, k.event) = e) ∧
    ∀ k ∈ calls, k.place ≠ .adding

section Tally

variable {registered registered' : Finset (ℕ × Event)} {pending : ℤ} {calls : List (EventCall n)}
  {k k' : EventCall n} {fd : ℕ} {event : Event}

theorem tallied_nil : Tallied (n := n) ∅ 0 [] where
  placed := ⟨List.nodup_nil, nofun, nofun⟩
  counted := rfl

/-- **A count of zero**: the registered events are those of the calls that have counted them down. -/
theorem Tallied.settled (h : Tallied registered 0 calls) : Settled registered calls := by
  obtain ⟨⟨hfds, hremoves, -⟩, hcounted⟩ := h
  have hnodup : ((calls.filter CountedDown).map fun k => (k.fd, k.event)).Nodup := by
    refine List.Nodup.of_map Prod.fst ?_
    rw [List.map_map]
    exact hfds.sublist (List.filter_sublist.map _)
  have hsubset : ((calls.filter CountedDown).map fun k => (k.fd, k.event)).toFinset ⊆ registered := by
    intro e he
    obtain ⟨k, hk, rfl⟩ := List.mem_map.mp (List.mem_toFinset.mp he)
    obtain ⟨hmem, hdown⟩ := List.mem_filter.mp hk
    exact hremoves k hmem hdown
  have hcard : ((calls.filter CountedDown).map fun k => (k.fd, k.event)).toFinset.card =
      calls.countP CountedDown := by
    rw [List.toFinset_card_of_nodup hnodup, List.length_map, List.countP_eq_length_filter]
  have hle := Finset.card_le_card hsubset
  constructor
  · intro e he
    rw [← Finset.eq_of_subset_of_card_le hsubset (by omega)] at he
    obtain ⟨k, hk, rfl⟩ := List.mem_map.mp (List.mem_toFinset.mp he)
    obtain ⟨hmem, hdown⟩ := List.mem_filter.mp hk
    exact ⟨k, hmem, hdown, rfl⟩
  · intro k hk hadding
    have hup : 0 < calls.countP CountedUp :=
      List.countP_pos_iff.mpr ⟨k, hk, by simp [CountedUp, hadding]⟩
    omega

/-- Two calls are on different descriptors. -/
theorem Placed.free_of_erase (h : Placed registered calls) (hk : k ∈ calls) :
    ∀ k' ∈ calls.erase k, k'.fd ≠ k.fd := by
  intro k' hk' hfd
  have hnodup := (List.perm_cons_erase hk).map EventCall.fd |>.nodup_iff.mp h.fds
  exact (List.nodup_cons.mp hnodup).1 (List.mem_map.mpr ⟨k', hk', hfd⟩)

theorem Placed.erase (h : Placed registered calls) (k : EventCall n) :
    Placed registered (calls.erase k) where
  fds := h.fds.sublist (List.erase_sublist.map _)
  removes := fun k' hk' => h.removes k' (List.mem_of_mem_erase hk')
  adds := fun k' hk' => h.adds k' (List.mem_of_mem_erase hk')

theorem Placed.cons (h : Placed registered calls) (hfree : ∀ k' ∈ calls, k'.fd ≠ k.fd)
    (hdown : CountedDown k → (k.fd, k.event) ∈ registered)
    (hadd : k.place = .adding → (k.fd, k.event) ∉ registered) : Placed registered (k :: calls) := by
  refine ⟨?_, fun k' hk' => ?_, fun k' hk' => ?_⟩
  · refine List.nodup_cons.mpr ⟨fun hmem => ?_, h.fds⟩
    obtain ⟨k', hk', hfd⟩ := List.mem_map.mp hmem
    exact hfree k' hk' hfd
  · rcases List.mem_cons.mp hk' with rfl | hk'
    · exact hdown
    · exact h.removes k' hk'
  · rcases List.mem_cons.mp hk' with rfl | hk'
    · exact hadd
    · exact h.adds k' hk'

/-- The events of a descriptor change that no call is on. -/
theorem Placed.congr (h : Placed registered calls) (hfree : ∀ k ∈ calls, k.fd ≠ fd)
    (hother : ∀ e : ℕ × Event, e.1 ≠ fd → (e ∈ registered' ↔ e ∈ registered)) :
    Placed registered' calls where
  fds := h.fds
  removes := fun k hk hdown => (hother _ (hfree k hk)).mpr (h.removes k hk hdown)
  adds := fun k hk hadd hmem => h.adds k hk hadd ((hother _ (hfree k hk)).mp hmem)

theorem mem_insert_of_fd_ne {e : ℕ × Event} (h : e.1 ≠ fd) :
    e ∈ insert (fd, event) registered ↔ e ∈ registered := by
  rw [Finset.mem_insert, or_iff_right]
  rintro rfl
  exact h rfl

theorem mem_erase_of_fd_ne {e : ℕ × Event} (h : e.1 ≠ fd) :
    e ∈ registered.erase (fd, event) ↔ e ∈ registered := by
  rw [Finset.mem_erase, and_iff_right]
  rintro rfl
  exact h rfl

theorem countP_of_mem (p : EventCall n → Bool) (hk : k ∈ calls) :
    calls.countP p = (calls.erase k).countP p + if p k then 1 else 0 := by
  rw [(List.perm_cons_erase hk).countP_eq, List.countP_cons]

/-- The count, with the part of one call apart. -/
theorem Tallied.counted_of_mem (h : Tallied registered pending calls) (hk : k ∈ calls) :
    pending + ((calls.erase k).countP CountedDown + if CountedDown k then 1 else 0 : ℕ) =
      registered.card + ((calls.erase k).countP CountedUp + if CountedUp k then 1 else 0 : ℕ) := by
  rw [← countP_of_mem CountedDown hk, ← countP_of_mem CountedUp hk]
  exact h.counted

/-- A call is not both ahead of the count and behind it. -/
theorem countedUp_of_countedDown (h : CountedDown k = true) : CountedUp k = false := by
  unfold CountedDown at h
  unfold CountedUp
  cases hp : k.place <;> simp_all

/-- `addEvent` counts an event up. -/
theorem Tallied.add (h : Tallied registered pending calls) (hfree : ∀ k' ∈ calls, k'.fd ≠ k.fd)
    (hk : k.place = .adding) (hmem : (k.fd, k.event) ∉ registered) :
    Tallied registered (pending + 1) (k :: calls) := by
  have hup : CountedUp k = true := by simp [CountedUp, hk]
  have hdown : CountedDown k = false := by simp [CountedDown, hk]
  refine ⟨h.placed.cons hfree (by simp [hdown]) fun _ => hmem, ?_⟩
  have hcounted := h.counted
  simp only [List.countP_cons, hup, hdown, if_true, Bool.false_eq_true, if_false]
  omega

/-- `delEvent` and `cancelEvent` count an event down. -/
theorem Tallied.remove (h : Tallied registered pending calls) (hfree : ∀ k' ∈ calls, k'.fd ≠ k.fd)
    (hk : CountedDown k = true) (hmem : (k.fd, k.event) ∈ registered) :
    Tallied registered (pending - 1) (k :: calls) := by
  have hadd : k.place ≠ .adding := by
    intro hadding
    simp [CountedDown, hadding] at hk
  have hup := countedUp_of_countedDown hk
  refine ⟨h.placed.cons hfree (fun _ => hmem) fun hadding => absurd hadding hadd, ?_⟩
  have hcounted := h.counted
  simp only [List.countP_cons, hup, hk, if_true, Bool.false_eq_true, if_false]
  omega

/-- An event is triggered. -/
theorem Tallied.trigger (h : Tallied registered pending calls) (hfree : ∀ k' ∈ calls, k'.fd ≠ k.fd)
    (hk : k.place = .triggered) (hmem : (k.fd, k.event) ∈ registered) :
    Tallied (registered.erase (k.fd, k.event)) pending (k :: calls) := by
  have hup : CountedUp k = true := by simp [CountedUp, hk]
  have hdown : CountedDown k = false := by simp [CountedDown, hk]
  have hcard := Finset.card_erase_add_one hmem
  refine ⟨(h.placed.congr hfree fun e he => mem_erase_of_fd_ne he).cons hfree (by simp [hdown])
    (by simp [hk]), ?_⟩
  have hcounted := h.counted
  simp only [List.countP_cons, hup, hdown, if_true, Bool.false_eq_true, if_false]
  omega

/-- A call that has no part in the count is gone. -/
theorem Tallied.drop (h : Tallied registered pending calls) (hk : k ∈ calls)
    (hup : CountedUp k = false) (hdown : CountedDown k = false) :
    Tallied registered pending (calls.erase k) := by
  refine ⟨h.placed.erase k, ?_⟩
  have hcounted := h.counted_of_mem hk
  rw [hup, hdown] at hcounted
  simpa using hcounted

/-- The next step of `addEvent`: the event is registered. -/
theorem Tallied.register (h : Tallied registered pending calls) (hk : k ∈ calls)
    (hplace : k.place = .adding) :
    Tallied (insert (k.fd, k.event) registered) pending (calls.erase k) := by
  have hup : CountedUp k = true := by simp [CountedUp, hplace]
  have hdown : CountedDown k = false := by simp [CountedDown, hplace]
  have hcard := Finset.card_insert_of_notMem (h.placed.adds k hk hplace)
  refine ⟨(h.placed.erase k).congr (h.placed.free_of_erase hk) fun e he => mem_insert_of_fd_ne he, ?_⟩
  have hcounted := h.counted_of_mem hk
  rw [hup, hdown] at hcounted
  simp only [if_true, Bool.false_eq_true, if_false] at hcounted
  omega

/-- The next step of `delEvent` and `cancelEvent`: the event is cleared. -/
theorem Tallied.clear (h : Tallied registered pending calls) (hk : k ∈ calls)
    (hdown : CountedDown k = true) :
    Tallied (registered.erase (k.fd, k.event)) pending (calls.erase k) := by
  have hup := countedUp_of_countedDown hdown
  have hcard := Finset.card_erase_add_one (h.placed.removes k hk hdown)
  refine ⟨(h.placed.erase k).congr (h.placed.free_of_erase hk) fun e he => mem_erase_of_fd_ne he, ?_⟩
  have hcounted := h.counted_of_mem hk
  rw [hup, hdown] at hcounted
  simp only [if_true, Bool.false_eq_true, if_false] at hcounted
  omega

/-- The last step of `cancelAll` and the dispatch: the event is counted down. -/
theorem Tallied.uncount (h : Tallied registered pending calls) (hk : k ∈ calls)
    (hplace : k.place = .requeued) : Tallied registered (pending - 1) (calls.erase k) := by
  have hup : CountedUp k = true := by simp [CountedUp, hplace]
  have hdown : CountedDown k = false := by simp [CountedDown, hplace]
  refine ⟨h.placed.erase k, ?_⟩
  have hcounted := h.counted_of_mem hk
  rw [hup, hdown] at hcounted
  simp only [if_true, Bool.false_eq_true, if_false] at hcounted
  omega

/-- A call goes on with the lock, and the same part in the count. -/
theorem Tallied.cons (h : Tallied registered pending calls) (hfree : ∀ k' ∈ calls, k'.fd ≠ k.fd)
    (hup : CountedUp k = false) (hdown : CountedDown k = false) :
    Tallied registered pending (k :: calls) := by
  refine ⟨h.placed.cons hfree (by simp [hdown]) ?_, ?_⟩
  · intro hadding
    simp [CountedUp, hadding] at hup
  · simpa [List.countP_cons, hup, hdown] using h.counted

/-- `triggerEvent` has handed the waiter over. -/
theorem Tallied.requeue (h : Tallied registered pending calls) (hk : k ∈ calls)
    (hplace : k.place = .triggered) :
    Tallied registered pending ({ k with place := .requeued } :: calls.erase k) := by
  have hup : CountedUp k = true := by simp [CountedUp, hplace]
  have hdown : CountedDown k = false := by simp [CountedDown, hplace]
  have hplaced : Placed registered ({ k with place := .requeued } :: calls.erase k) :=
    (h.placed.erase k).cons (h.placed.free_of_erase hk) nofun nofun
  refine ⟨hplaced, ?_⟩
  have hcounted := h.counted_of_mem hk
  rw [hup, hdown] at hcounted
  simpa [List.countP_cons, CountedUp, CountedDown] using hcounted

theorem Settled.cons (h : Settled registered calls) (hk : k.place ≠ .adding) :
    Settled registered (k :: calls) := by
  refine ⟨fun e he => ?_, fun k' hk' => ?_⟩
  · obtain ⟨k', hk', hdown, heq⟩ := h.1 e he
    exact ⟨k', List.mem_cons_of_mem _ hk', hdown, heq⟩
  · rcases List.mem_cons.mp hk' with rfl | hk'
    · exact hk
    · exact h.2 k' hk'

/-- A call that is not about to clear an event is gone. -/
theorem Settled.drop (h : Settled registered calls) (hk : CountedDown k = false) :
    Settled registered (calls.erase k) := by
  refine ⟨fun e he => ?_, fun k' hk' => h.2 k' (List.mem_of_mem_erase hk')⟩
  obtain ⟨k', hk', hdown, heq⟩ := h.1 e he
  have hne : k' ≠ k := by
    rintro rfl
    rw [hk] at hdown
    cases hdown
  exact ⟨k', (List.mem_erase_of_ne hne).mpr hk', hdown, heq⟩

/-- A call clears its event. -/
theorem Settled.clear (h : Settled registered calls) :
    Settled (registered.erase (k.fd, k.event)) (calls.erase k) := by
  refine ⟨fun e he => ?_, fun k' hk' => h.2 k' (List.mem_of_mem_erase hk')⟩
  obtain ⟨hne, hmem⟩ := Finset.mem_erase.mp he
  obtain ⟨k', hk', hdown, heq⟩ := h.1 e hmem
  have hother : k' ≠ k := by
    rintro rfl
    exact hne heq.symm
  exact ⟨k', (List.mem_erase_of_ne hother).mpr hk', hdown, heq⟩

end Tally

/-! ## The invariant -/

section Inv

variable (tid : Fin n → ℤ) (s : Stopping n κ)

/-- **The invariant**: the count is what it should be; a worker in a call on the events executes a
task, or dispatches; and what a worker in `stopping` has read still holds, unless it is overtaken. -/
structure Inv : Prop where
  conserved : Scheduler.Conserved tid s.base.core
  tallied : Tallied s.registered s.pendingEvenCount s.calls
  callers : ∀ k ∈ s.calls, ∀ w, k.thread = .worker w →
    (s.base.core.phase w).Busy ∨ s.InCheck w .on ∧ CountedDown k = false
  timers : ∀ w, s.Checking w → s.overtaken w = false → s.timers.manager.timers = []
  events : ∀ w, s.InCheck w .events → s.overtaken w = false → Settled s.registered s.calls

/-- **Nothing has gone behind the back of worker `w`** when it asks `Scheduler::stopping`: since it has
read that there was no timer, none has been added, and since it has read that no event was pending,
nobody has started to add one; and no thread other than a worker is in `delEvent` or `cancelEvent`
between the count and the clearing. -/
structure Unhurried (w : Fin n) : Prop where
  overtaken : s.overtaken w = false
  workers : ∀ k ∈ s.calls, CountedDown k → ∃ v, k.thread = .worker v

end Inv

section Step

variable {tid : Fin n → ℤ} {s t : Stopping n κ} {a : Act n κ} {w v : Fin n} {θ : Thread n}
  {fd : ℕ} {event : Event} {fc : FiberOrCb}

theorem inv_start (tid : Fin n → ℤ) (now : ℤ) : Inv tid (start n κ now) where
  conserved := Scheduler.conserved_start tid
  tallied := tallied_nil
  callers := nofun
  timers := fun _ _ _ => rfl
  events := fun _ h => by cases h.1

/-- **What the invariant says when a worker ends**: no task is executed, so that a call that clears
an event is one of a thread that is not a worker. -/
theorem Inv.drained (h : s.Inv tid) (hends : s.Ends w) (hu : s.Unhurried w) :
    s.Drained := by
  obtain ⟨hevents, hstopping⟩ := hends
  obtain ⟨-, htasks, hbusy⟩ := (Shutdown.quiet_of_stopping h.conserved).mp hstopping
  obtain ⟨hcleared, -⟩ := h.events w hevents hu.overtaken
  refine ⟨h.timers w (Or.inr hevents) hu.overtaken, ?_, htasks, hbusy⟩
  refine Finset.eq_empty_of_forall_notMem fun e he => ?_
  obtain ⟨k, hk, hdown, -⟩ := hcleared e he
  obtain ⟨v, hv⟩ := hu.workers k hk hdown
  rcases h.callers k hk v hv with hv | ⟨-, hno⟩
  · exact hbusy v hv
  · rw [hdown] at hno
    cases hno

/-- A worker that neither executes a task nor dispatches is in no call. -/
theorem Inv.outside (h : s.Inv tid) (hbusy : ¬ (s.base.core.phase w).Busy)
    (hon : ¬ s.InCheck w .on) : s.Outside (.worker w) := by
  intro k hk hkw
  rcases h.callers k hk w hkw with hb | ⟨hin, -⟩
  · exact hbusy hb
  · exact hon hin

/-- **Workers move on**: each is where it was, or was in no call, and has read what holds. -/
theorem Inv.moved (h : s.Inv tid) (hconserved : Scheduler.Conserved tid t.base.core)
    (htimers : t.timers.manager.timers = s.timers.manager.timers)
    (hregistered : t.registered = s.registered)
    (hpending : t.pendingEvenCount = s.pendingEvenCount) (hcalls : t.calls = s.calls)
    (hworkers : ∀ v, (t.base.core.phase v = s.base.core.phase v ∧ t.check v = s.check v ∧
        t.overtaken v = s.overtaken v) ∨
      s.Outside (.worker v) ∧
        (t.Checking v → t.overtaken v = false → s.timers.manager.timers = []) ∧
        (t.InCheck v .events → t.overtaken v = false → Settled s.registered s.calls)) :
    t.Inv tid := by
  refine ⟨hconserved, ?_, fun k hk v hv => ?_, fun v hv hno => ?_, fun v hv hno => ?_⟩
  · rw [hregistered, hpending, hcalls]
    exact h.tallied
  · rw [hcalls] at hk
    rcases hworkers v with ⟨hphase, hcheck, -⟩ | ⟨houtside, -⟩
    · rw [hphase, InCheck, hphase, hcheck]
      exact h.callers k hk v hv
    · exact absurd hv (houtside k hk)
  · rw [htimers]
    rcases hworkers v with ⟨hphase, hcheck, hovertaken⟩ | ⟨-, hread, -⟩
    · rw [Checking, InCheck, InCheck, hphase, hcheck] at hv
      exact h.timers v hv (hovertaken.symm.trans hno)
    · exact hread hv hno
  · rw [hregistered, hcalls]
    rcases hworkers v with ⟨hphase, hcheck, hovertaken⟩ | ⟨-, -, hread⟩
    · rw [InCheck, hphase, hcheck] at hv
      exact h.events v hv (hovertaken.symm.trans hno)
    · exact hread hv hno

/-- One worker moves on, to a place where it has read nothing. -/
theorem Inv.moved_one (h : s.Inv tid) {base : Shutdown n} {check : Fin n → CheckAt}
    (hconserved : Scheduler.Conserved tid base.core) (houtside : s.Outside (.worker w))
    (hother : ∀ v, v ≠ w → base.core.phase v = s.base.core.phase v ∧ check v = s.check v)
    (hself : base.core.phase w = .idle → check w = .start ∨ check w = .on) :
    Inv tid { s with base := base, check := check } := by
  refine h.moved hconserved rfl rfl rfl rfl fun v => ?_
  by_cases hvw : v = w
  · subst hvw
    have hnot : ∀ p, p ≠ .start → p ≠ .on →
        ¬ InCheck { s with base := base, check := check } v p := by
      rintro p hstart hon ⟨hidle, hp⟩
      rcases hself hidle with hc | hc
      · exact hstart (hp.symm.trans hc)
      · exact hon (hp.symm.trans hc)
    refine Or.inr ⟨houtside, fun hc => ?_, fun hc => absurd hc (hnot .events (by simp) (by simp))⟩
    rcases hc with hc | hc
    · exact absurd hc (hnot .timers (by simp) (by simp))
    · exact absurd hc (hnot .events (by simp) (by simp))
  · exact Or.inl ⟨(hother v hvw).1, (hother v hvw).2, rfl⟩

/-- A step of the scheduler. -/
theorem Inv.base (h : s.Inv tid) {b : Shutdown.Act n} {base : Shutdown n} (hallowed : s.Allowed b)
    (hb : s.base.step tid b = some base) :
    Inv tid { s with base := base, check := enter s.check b } := by
  have hconserved : Scheduler.Conserved tid base.core := by
    rcases Shutdown.core_step hb with hcore | ⟨c, hc, -⟩
    · rw [hcore]
      exact h.conserved
    · exact h.conserved.step hc
  have hstill : base.core.phase = s.base.core.phase → enter s.check b = s.check →
      Inv tid { s with base := base, check := enter s.check b } := by
    intro hphase hcheck
    exact h.moved hconserved rfl rfl rfl rfl
      fun v => Or.inl ⟨congrFun hphase v, congrFun hcheck v, rfl⟩
  cases b with
  | stop =>
    simp only [Shutdown.step] at hb
    split_ifs at hb
    · obtain rfl := Option.some.inj hb
      exact hstill rfl rfl
    · obtain rfl := Option.some.inj hb
      exact hstill rfl rfl
  | schedulerLock fc thread =>
    obtain rfl := Option.some.inj hb
    exact hstill (Scheduler.schedulerLock_phase fc thread) rfl
  | push w fc thread =>
    simp only [Shutdown.step] at hb
    split_ifs at hb
    obtain rfl := Option.some.inj hb
    exact hstill (Scheduler.schedulerLock_phase fc thread) rfl
  | dequeue w =>
    obtain ⟨⟨tickle_me, core⟩, hcore, rfl⟩ := Option.map_eq_some_iff.mp hb
    obtain ⟨hscan, hcases⟩ := Scheduler.dequeue_cases hcore
    have houtside : s.Outside (.worker w) :=
      h.outside (by rw [hscan]; exact id) fun hin => by rw [InCheck, hscan] at hin; cases hin.1
    rcases hcases with ⟨pre, e, post, -, -, -, rfl⟩ | ⟨-, rfl⟩
    · refine h.moved_one hconserved houtside
        (fun v hv => ⟨Function.update_of_ne hv .., rfl⟩) fun hidle => ?_
      cases (Function.update_self w _ s.base.core.phase).symm.trans hidle
    · refine h.moved_one hconserved houtside
        (fun v hv => ⟨Function.update_of_ne hv .., rfl⟩) fun hidle => ?_
      cases (Function.update_self w _ s.base.core.phase).symm.trans hidle
  | finish w term =>
    obtain ⟨core, hcore, rfl⟩ := Option.map_eq_some_iff.mp hb
    obtain ⟨e, -, rfl⟩ := Scheduler.finish_cases hcore
    refine h.moved_one hconserved hallowed.1
      (fun v hv => ⟨Function.update_of_ne hv .., rfl⟩) fun hidle => ?_
    cases (Function.update_self w _ s.base.core.phase).symm.trans hidle
  | enterIdle w =>
    obtain ⟨core, hcore, rfl⟩ := Option.map_eq_some_iff.mp hb
    obtain ⟨hspare, hcases⟩ := Scheduler.enterIdle_cases hcore
    have houtside : s.Outside (.worker w) :=
      h.outside (by rw [hspare]; exact id) fun hin => by rw [InCheck, hspare] at hin; cases hin.1
    have hstart : enter s.check (.enterIdle w) w = .start := Function.update_self ..
    rcases hcases with ⟨-, rfl⟩ | ⟨-, rfl⟩
    · exact h.moved_one hconserved houtside
        (fun v hv => ⟨Function.update_of_ne hv .., Function.update_of_ne hv ..⟩)
        fun _ => Or.inl hstart
    · exact h.moved_one hconserved houtside
        (fun v hv => ⟨Function.update_of_ne hv .., Function.update_of_ne hv ..⟩)
        fun _ => Or.inl hstart
  | idle w => exact hallowed.elim

/-- A step of a call on the timers. -/
theorem Inv.timer (h : s.Inv tid) {b : TimerAct (Thread n) κ} {timers : TimerThreads (Thread n) κ}
    (hb : s.timers.step b = some timers) :
    Inv tid { s with
      timers := timers
      overtaken := if b.adds then overtake s.overtaken s.Checking else s.overtaken } := by
  cases hadds : b.adds with
  | true =>
    -- the workers that have found no timer are overtaken
    refine ⟨h.conserved, h.tallied, h.callers, fun w hw hno => ?_, fun w hw hno => ?_⟩
    · exact absurd hw (overtake_eq_false.mp hno).2
    · exact absurd (Or.inr hw) (overtake_eq_false.mp hno).2
  | false =>
    exact ⟨h.conserved, h.tallied, h.callers,
      fun w hw hno => TimerThreads.timers_nil_of_step (h.timers w hw hno) hadds hb, h.events⟩

/-- A worker in `stopping` has read something. -/
theorem Inv.looked (h : s.Inv tid) {p q : CheckAt} (hin : s.InCheck w p) (hp : p ≠ .on)
    {timers : TimerThreads (Thread n) κ} {overtaken : Fin n → Bool}
    (hmanager : timers.manager.timers = s.timers.manager.timers)
    (hother : ∀ v, v ≠ w → overtaken v = s.overtaken v)
    (htimers : q = .timers ∨ q = .events → overtaken w = false → s.timers.manager.timers = [])
    (hevents : q = .events → overtaken w = false → Settled s.registered s.calls) :
    Inv tid { s with
      timers := timers
      check := Function.update s.check w q
      overtaken := overtaken } := by
  refine h.moved h.conserved hmanager rfl rfl rfl fun v => ?_
  by_cases hvw : v = w
  · subst hvw
    have hself : Function.update s.check v q v = q := Function.update_self ..
    refine Or.inr ⟨?_, fun hc => htimers ?_, fun hc => hevents (hself.symm.trans hc.2)⟩
    · refine h.outside (by rw [hin.1]; exact id) fun hon => ?_
      exact hp (hin.2.symm.trans hon.2)
    · exact hc.imp (fun hc => hself.symm.trans hc.2) fun hc => hself.symm.trans hc.2
  · exact Or.inl ⟨rfl, Function.update_of_ne hvw .., hother v hvw⟩

/-- `stopping` reads the timers. -/
theorem Inv.readTimers (h : s.Inv tid) {now : ℤ}
    (ht : s.step tid (.readTimers w now) = some t) : t.Inv tid := by
  simp only [step] at ht
  split at ht
  · rename_i hcond
    obtain ⟨hstart, hnow⟩ := hcond
    obtain rfl := Option.some.inj ht
    refine h.looked hstart (by simp) ?_ (fun v hv => Function.update_of_ne hv ..) (fun hq _ => ?_)
      fun hq _ => ?_
    · unfold TimerManager.getNextTimer
      dsimp only
      split <;> simp_all
    · refine TimerManager.timers_nil_of_getNextTimer ?_ hnow
      by_contra hsome
      rw [if_neg hsome] at hq
      rcases hq with hq | hq <;> cases hq
    · split_ifs at hq
  · cases ht

/-- `stopping` reads the count of pending events. -/
theorem Inv.readPending (h : s.Inv tid) (ht : s.step tid (.readPending w) = some t) :
    t.Inv tid := by
  simp only [step] at ht
  split at ht
  · rename_i hin
    obtain rfl := Option.some.inj ht
    refine h.looked hin (by simp) rfl (fun _ _ => rfl) (fun _ => h.timers w (Or.inl hin))
      fun hq _ => ?_
    have hzero : s.pendingEvenCount = 0 := by
      by_contra hsome
      rw [if_neg hsome] at hq
      cases hq
    have htallied := h.tallied
    rw [hzero] at htallied
    exact htallied.settled
  · cases ht

/-- The idle fiber gives control back. -/
theorem Inv.leaveIdle (h : s.Inv tid) {term : Bool} {core : Scheduler n}
    (houtside : s.Outside (.worker w)) (hcore : s.base.core.leaveIdle w term = some core) :
    Inv tid { s with base := { s.base with core := core } } := by
  have hstep : s.base.core.step tid (.leaveIdle w term) = some core := hcore
  obtain ⟨-, rfl⟩ := Scheduler.leaveIdle_cases hcore
  refine h.moved_one (h.conserved.step hstep) houtside
    (fun v hv => ⟨Function.update_of_ne hv .., rfl⟩) fun hidle => ?_
  cases (Function.update_self w _ s.base.core.phase).symm.trans hidle

/-- `stopping` calls `Scheduler::stopping`. -/
theorem Inv.test (h : s.Inv tid) (ht : s.step tid (.test w) = some t) : t.Inv tid := by
  simp only [step] at ht
  split_ifs at ht with hin hstopping
  · obtain ⟨core, hcore, rfl⟩ := Option.map_eq_some_iff.mp ht
    refine h.leaveIdle (h.outside (by rw [hin.1]; exact id) fun hon => ?_) hcore
    cases hin.2.symm.trans hon.2
  · obtain rfl := Option.some.inj ht
    exact h.looked hin (by simp) rfl (fun _ _ => rfl) (by simp) (by simp)

/-- A call on the events starts. -/
theorem Inv.begins (h : s.Inv tid) {k : EventCall n} {registered : Finset (ℕ × Event)} {pending : ℤ}
    (htallied : Tallied registered pending (k :: s.calls)) {overtaken : Fin n → Bool}
    (hevents : ∀ w, s.InCheck w .events → overtaken w = true)
    (hovertaken : ∀ w, overtaken w = false → s.overtaken w = false)
    (hcaller : ∀ w, k.thread = .worker w →
      (s.base.core.phase w).Busy ∨ s.InCheck w .on ∧ CountedDown k = false) :
    Inv tid { s with
      registered := registered
      pendingEvenCount := pending
      calls := k :: s.calls
      overtaken := overtaken } := by
  refine ⟨h.conserved, htallied, fun k' hk' w hw => ?_,
    fun w hw hno => h.timers w hw (hovertaken w hno), fun w hw hno => ?_⟩
  · rcases List.mem_cons.mp hk' with rfl | hk'
    · exact hcaller w hw
    · exact h.callers k' hk' w hw
  · cases (hevents w hw).symm.trans hno

/-- A call on the events goes on, or ends. -/
theorem Inv.goesOn (h : s.Inv tid) {k : EventCall n} (hk : k ∈ s.calls)
    {registered : Finset (ℕ × Event)} {pending : ℤ} {calls : List (EventCall n)}
    (htallied : Tallied registered pending calls)
    (hcalls : ∀ k' ∈ calls, k' ∈ s.calls ∨ k'.thread = k.thread ∧ CountedDown k' = false)
    (hevents : Settled s.registered s.calls → Settled registered calls) :
    Inv tid { s with
      registered := registered
      pendingEvenCount := pending
      calls := calls } := by
  refine ⟨h.conserved, htallied, fun k' hk' w hw => ?_, h.timers,
    fun w hw hno => hevents (h.events w hw hno)⟩
  rcases hcalls k' hk' with hold | ⟨hthread, hdown⟩
  · exact h.callers k' hold w hw
  · exact (h.callers k hk w (hthread ▸ hw)).imp_right fun hin => ⟨hin.1, hdown⟩

theorem Inv.schedulerLock (h : s.Inv tid) (fc : FiberOrCb) : (s.schedulerLock fc).Inv tid := by
  have hstep : s.base.core.step tid (.schedulerLock fc (-1)) =
      some (s.base.core.schedulerLock fc (-1)).2 := rfl
  refine h.moved (h.conserved.step hstep) rfl rfl rfl rfl fun v => Or.inl ⟨?_, rfl, rfl⟩
  exact congrFun (Scheduler.schedulerLock_phase fc (-1)) v

/-- A registered event whose context nobody has locked is a pending one. -/
theorem Inv.overtaken_of_events (h : s.Inv tid) (hfree : s.Free fd)
    (hmem : (fd, event) ∈ s.registered) (w : Fin n) (hw : s.InCheck w .events) :
    s.overtaken w = true := by
  refine eq_true_of_ne_false fun hno => ?_
  obtain ⟨k, hk, -, heq⟩ := (h.events w hw hno).1 _ hmem
  exact hfree k hk (Prod.mk.inj heq).1

theorem busy_of_task (hθ : s.Task θ) (hw : θ = .worker w) : (s.base.core.phase w).Busy := by
  subst hw
  exact hθ

/-- A step of a call on the events. -/
theorem Inv.proceed (h : s.Inv tid) {k : EventCall n} (hk : k ∈ s.calls) (fc : FiberOrCb) :
    (s.proceed k fc).Inv tid := by
  have hrest : ∀ k' ∈ s.calls.erase k, k' ∈ s.calls ∨ k'.thread = k.thread ∧ CountedDown k' = false :=
    fun k' hk' => Or.inl (List.mem_of_mem_erase hk')
  have hfree := h.tallied.placed.free_of_erase hk
  unfold Stopping.proceed
  cases hplace : k.place with
  | adding =>
    refine h.goesOn hk (h.tallied.register hk hplace) hrest fun hsettled => ?_
    exact absurd hplace (hsettled.2 k hk)
  | deleting =>
    exact h.goesOn hk (h.tallied.clear hk (by simp [CountedDown, hplace])) hrest Settled.clear
  | cancelling =>
    have htallied := h.tallied.clear hk (by simp [CountedDown, hplace])
    have hcons := htallied.cons (k := { k with place := .cancelled }) hfree rfl rfl
    refine h.goesOn hk hcons (fun k' hk' => ?_) fun hsettled => hsettled.clear.cons (by simp)
    rcases List.mem_cons.mp hk' with rfl | hk'
    · exact Or.inr ⟨rfl, rfl⟩
    · exact hrest k' hk'
  | cancelled =>
    have hup : CountedUp k = false := by simp [CountedUp, hplace]
    have hdown : CountedDown k = false := by simp [CountedDown, hplace]
    exact (h.goesOn hk (h.tallied.drop hk hup hdown) hrest fun hs => hs.drop hdown).schedulerLock fc
  | triggered =>
    have hdown : CountedDown k = false := by simp [CountedDown, hplace]
    refine Inv.schedulerLock (h.goesOn hk (h.tallied.requeue hk hplace) (fun k' hk' => ?_)
      fun hs => (hs.drop hdown).cons (by simp)) fc
    rcases List.mem_cons.mp hk' with rfl | hk'
    · exact Or.inr ⟨rfl, rfl⟩
    · exact hrest k' hk'
  | requeued =>
    have hdown : CountedDown k = false := by simp [CountedDown, hplace]
    exact h.goesOn hk (h.tallied.uncount hk hplace) hrest fun hs => hs.drop hdown

/-- **The step lemma.** -/
theorem Inv.step (h : s.Inv tid) (ht : s.step tid a = some t) : t.Inv tid := by
  cases a with
  | base b =>
    simp only [Stopping.step] at ht
    split_ifs at ht with hallowed
    obtain ⟨base, hb, rfl⟩ := Option.map_eq_some_iff.mp ht
    exact h.base hallowed hb
  | timer b =>
    simp only [Stopping.step] at ht
    split at ht
    · obtain ⟨timers, hb, rfl⟩ := Option.map_eq_some_iff.mp ht
      exact h.timer hb
    · cases ht
  | readTimers w now => exact h.readTimers ht
  | readPending w => exact h.readPending ht
  | test w => exact h.test ht
  | yield w =>
    simp only [Stopping.step] at ht
    split_ifs at ht with hcond
    obtain ⟨core, hcore, rfl⟩ := Option.map_eq_some_iff.mp ht
    exact h.leaveIdle hcond.2.1 hcore
  | addEvent θ fd event =>
    simp only [Stopping.step] at ht
    split_ifs at ht with hcond
    obtain rfl := Option.some.inj ht
    obtain ⟨htask, -, hfree, hmem⟩ := hcond
    refine h.begins ?_ (fun w hw => ?_) (fun w hno => (overtake_eq_false.mp hno).1)
      fun w hw => Or.inl (busy_of_task htask hw)
    · exact h.tallied.add hfree rfl hmem
    · exact eq_true_of_ne_false fun hno => (overtake_eq_false.mp hno).2 hw
  | delEvent θ fd event | cancelEvent θ fd event =>
    simp only [Stopping.step] at ht
    split_ifs at ht with hcond
    obtain rfl := Option.some.inj ht
    obtain ⟨htask, -, hfree, hmem⟩ := hcond
    refine h.begins ?_ (h.overtaken_of_events hfree hmem) (fun _ hno => hno)
      fun w hw => Or.inl (busy_of_task htask hw)
    exact h.tallied.remove hfree rfl hmem
  | trigger θ fd event =>
    simp only [Stopping.step] at ht
    split_ifs at ht with hcond
    obtain rfl := Option.some.inj ht
    obtain ⟨hruns, -, hfree, hmem⟩ := hcond
    have htallied := h.tallied.trigger (k := ⟨θ, fd, event, .triggered⟩) hfree rfl hmem
    refine h.begins htallied (h.overtaken_of_events hfree hmem) (fun _ hno => hno) fun w hw => ?_
    rcases hruns with htask | ⟨v, hv, hon⟩
    · exact Or.inl (busy_of_task htask hw)
    · obtain rfl := Thread.worker.inj (hw.symm.trans hv)
      exact Or.inr ⟨hon, rfl⟩
  | proceed θ fc =>
    obtain ⟨k, hk, rfl⟩ := Option.map_eq_some_iff.mp ht
    exact h.proceed (List.mem_of_find?_eq_some hk) fc

end Step

/-! ## Runs -/

section Runs

variable {tid : Fin n → ℤ} {s : Stopping n κ} {w : Fin n}

/-- **Nothing is left when a worker ends.** After every run, whenever the call of `stopping` in an idle
fiber is about to return true, and nothing has gone behind the back of its worker, there is no timer,
no registered event, no task in the queue and no worker that holds one. -/
theorem drained_of_exec {as : List (Act n κ)} {now : ℤ}
    (h : exec (step tid) (start n κ now) as = some s) (hends : s.Ends w) (hu : s.Unhurried w) :
    s.Drained :=
  (exec_invariant (I := Inv tid) (fun _ _ _ hi ht => hi.step ht) (inv_start tid now) h).drained hends
    hu

/-- A task that adds a timer, resets it and cancels it, with an event that is deleted again; and then
the end of the worker. -/
def workDone (w : Fin 1) : List (Act 1 Unit) :=
  [.base (.schedulerLock (.cb (some 7)) (-1)), .base (.dequeue w), .addEvent (.worker w) 5 .read,
    .proceed (.worker w) (.cb none), .timer (.call (.worker w) (.addTimer 0 10 () false)),
    .base .stop, .timer (.enter (.worker w) 0 20 true), .timer (.unlink (.worker w)),
    .timer (.assign (.worker w) 3), .timer (.link (.worker w)), .delEvent (.worker w) 5 .read,
    .proceed (.worker w) (.cb none), .timer (.call (.worker w) (.cancel 0)),
    .base (.finish w false), .base (.dequeue w), .base (.enterIdle w), .readTimers w 5,
    .readPending w]

theorem drained_of_exec_one_worker :
    ∃ s : Stopping 1 Unit, exec (step fun _ => 7) (start 1 Unit 0) (workDone 0) = some s ∧
      s.Ends 0 ∧ s.Drained := by
  obtain ⟨s, hs⟩ : ∃ s : Stopping 1 Unit,
      exec (step fun _ => 7) (start 1 Unit 0) (workDone 0) = some s := ⟨_, rfl⟩
  have hends : s.Ends 0 := by
    obtain rfl := Option.some.inj hs
    exact ⟨by decide, by decide⟩
  have hu : s.Unhurried 0 := by
    obtain rfl := Option.some.inj hs
    exact ⟨by decide, by decide⟩
  exact ⟨s, hs, hends, drained_of_exec hs hends hu⟩

/-- Once `m_stopping` is set, only tasks add timers, events and tasks. -/
def OnlyTasks (s : Stopping n κ) : Act n κ → Prop
  | .timer a => a.adds = true → s.base.m_stopping = true → ∃ w, a.thread = .worker w ∧ s.Task a.thread
  | .addEvent θ _ _ => s.base.m_stopping = true → ∃ w, θ = .worker w ∧ s.Task θ
  | .base b => s.base.OnlyTasks b
  | _ => True

instance (s : Stopping n κ) : DecidablePred s.OnlyTasks
  | .timer a => inferInstanceAs (Decidable
      (a.adds = true → s.base.m_stopping = true → ∃ w, a.thread = .worker w ∧ s.Task a.thread))
  | .addEvent θ _ _ => inferInstanceAs
      (Decidable (s.base.m_stopping = true → ∃ w, θ = .worker w ∧ s.Task θ))
  | .base b => inferInstanceAs (Decidable (s.base.OnlyTasks b))
  | .readTimers .. | .readPending _ | .test _ | .yield _ | .delEvent .. | .cancelEvent ..
  | .trigger .. | .proceed .. => inferInstanceAs (Decidable True)

/-- Worker 0 has read that there is no timer and no pending event; the task of worker 1 goes to
sleep for a second; and the queue is tested. -/
def sleepBehind : List (Act 2 Unit) :=
  [.base (.schedulerLock (.fiber (some 5)) (-1)), .base (.dequeue 1), .base .stop,
    .base (.dequeue 0), .base (.enterIdle 0), .readTimers 0 0, .readPending 0,
    .timer (.call (.worker 1) (.addTimer 0 1000 () false)), .base (.finish 1 false)]

/-- The task of worker 1 resets a timer; worker 0 reads that there is none between the two sections;
the timer is put back; and the queue is tested. -/
def resetBehind : List (Act 2 Unit) :=
  [.timer (.call (.external 0) (.addTimer 0 1000 () false)),
    .base (.schedulerLock (.fiber (some 5)) (-1)), .base (.dequeue 1), .base .stop,
    .base (.dequeue 0), .base (.enterIdle 0), .timer (.enter (.worker 1) 0 2000 true),
    .timer (.unlink (.worker 1)), .readTimers 0 0, .readPending 0, .timer (.assign (.worker 1) 0),
    .timer (.link (.worker 1)), .base (.finish 1 false)]

/-- **A task that goes to sleep behind a worker's back** is left when the worker ends, and so is a
timer that is put back behind it. -/
theorem sleeper_left :
    (∃ s : Stopping 2 Unit, exec (step fun w => w) (start 2 Unit 0) sleepBehind = some s ∧
      Guarded (step fun w => w) OnlyTasks (start 2 Unit 0) sleepBehind ∧ s.Ends 0 ∧ ¬ s.Drained) ∧
    ∃ s : Stopping 2 Unit, exec (step fun w => w) (start 2 Unit 0) resetBehind = some s ∧
      Guarded (step fun w => w) OnlyTasks (start 2 Unit 0) resetBehind ∧ s.Ends 0 ∧
      ¬ s.Drained := by
  constructor
  · exact ⟨_, rfl, by decide, ⟨by decide, by decide⟩, fun h => absurd h.timers (by decide)⟩
  · exact ⟨_, rfl, by decide, ⟨by decide, by decide⟩, fun h => absurd h.timers (by decide)⟩

end Runs

end Stopping

end Dag
