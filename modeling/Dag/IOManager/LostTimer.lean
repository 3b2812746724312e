import Dag.IOManager.TimerWakeup
import Dag.IOManager.LostWakeup

/-!
# When no wakeup for a timer is lost

A deadline is covered when a byte is in the pipe or a notification is on its way, when a worker will
read the deadlines before it waits again or returns in time, or when no worker waits at all. Two
kinds of steps leave a deadline uncovered while a worker waits for longer: a worker that was to read
the deadlines, the only one, takes a task instead; and a new first timer is not notified since
`m_tickled` is still set from an earlier one.

## Main definitions

* `TimerWakeup.Covers`, `TimerWakeup.Waits`, `TimerWakeup.CoveredBy`: what covers a deadline
* `TimerWakeup.Attended`: the step does not leave a deadline to nobody
* `TimerWakeup.Inv`: the invariant

## Main results

* `TimerWakeup.Inv.step`: every attended step keeps the invariant
* `TimerWakeup.returnsBy_of_exec`: in a run of attended steps no wakeup for a timer is lost
* `TimerWakeup.timer_not_noticed`: a worker that has been woken for a timer takes a task
-/

namespace Dag

open Foundation

/-- A wait that has been given the time until the first deadline is over by every deadline. -/
theorem Reading.returnsAt_le {κ : Type} {m : TimerManager κ} {now : ℤ} {t : ℕ}
    (h : m.Linked) (ht : t ∈ m.timers) :
    (⟨now, (m.getNextTimer now).1⟩ : Reading).next_timeout = 0 ∨
      (⟨now, (m.getNextTimer now).1⟩ : Reading).returnsAt ≤ m.next t := by
  cases hl : m.timers with
  | nil => simp [hl] at ht
  | cons u l =>
    have hfirst : m.next u ≤ m.next t := by
      have hordered := h.ordered
      rw [hl] at ht hordered
      rcases List.mem_cons.mp ht with rfl | ht
      · exact le_refl _
      · exact le_of_lt ((List.pairwise_cons.mp hordered).1 t ht)
    simp only [TimerManager.getNextTimer, hl, Reading.returnsAt, Reading.next_timeout]
    split_ifs with hdue
    · exact Or.inl rfl
    · change ¬ m.next u ≤ now at hdue
      right
      change now + ((min ((m.next u - now) / 10 ^ 6).toNat 5000 : ℕ) : ℤ) * 10 ^ 6 ≤ m.next t
      omega

namespace TimerWakeup

variable {n : ℕ} {κ : Type} {tid : Fin n → ℤ} {s t : TimerWakeup n κ} {a : Act n κ} {w v : Fin n}
  {d d' : ℤ}

/-! ## Covered deadlines -/

section Covered

/-- A worker reads the deadlines before it waits again, or its wait is over by `d`, or it has left
`run`. A worker that executes a task does nothing for a timer. -/
def ReadsBy (phase : Phase) (idleAt : IdleAt) (reading : Option Reading) (d : ℤ) : Prop :=
  match phase, idleAt with
  | .scan, _ | .spare, _ | .exited, _ => True
  | .hold _, _ => False
  | .idle, .loop | .idle, .woken => True
  | .idle, .poll => ∀ r ∈ reading, r.next_timeout = 0 ∨ r.returnsAt ≤ d
  | .idle, .blocked => ∃ r ∈ reading, r.returnsAt ≤ d

instance : ∀ phase idleAt reading d, Decidable (ReadsBy phase idleAt reading d)
  | .scan, _, _, _ | .spare, _, _, _ | .exited, _, _, _ => isTrue trivial
  | .hold _, _, _, _ => isFalse id
  | .idle, .loop, _, _ | .idle, .woken, _, _ => isTrue trivial
  | .idle, .poll, reading, d =>
    inferInstanceAs (Decidable (∀ r ∈ reading, r.next_timeout = 0 ∨ r.returnsAt ≤ d))
  | .idle, .blocked, reading, d => inferInstanceAs (Decidable (∃ r ∈ reading, r.returnsAt ≤ d))

variable (tid s)

/-- Worker `w` covers the deadline. -/
def Covers (w : Fin n) (d : ℤ) : Prop :=
  ReadsBy (s.wake.core.phase w) (s.wake.idleAt w) (s.reading w) d

/-- Worker `w` waits, or has read the deadlines and is about to. -/
def Waits (w : Fin n) : Prop :=
  s.wake.core.phase w = .idle ∧
    (s.wake.idleAt w = .blocked ∨ s.wake.idleAt w = .poll ∧ s.reading w ≠ none)

/-- **The deadline is covered**, by the workers that `p` admits: a wakeup is on its way, or one of
these workers covers it, or none of them waits. -/
def CoveredBy (p : Fin n → Prop) (d : ℤ) : Prop :=
  s.wake.pipe ≠ 0 ∨ s.notifying ≠ [] ∨ (∃ w, p w ∧ s.Covers w d) ∨ ∀ w, p w → ¬ s.Waits w

/-- **The step does not leave a deadline to nobody**: a worker takes a task only if the deadlines
are covered without it, and a timer is put in front of the others while `m_tickled` is set only if
its deadline is covered. -/
def Attended : Act n κ → Prop
  | .wake (.dequeue w) => (scan (tid w) s.wake.core.tasks).found ≠ none →
      ∀ t ∈ s.manager.timers, s.CoveredBy (· ≠ w) (s.manager.next t)
  | .addTimer _ now ms _ _ => s.manager.tickled = true →
      (∀ t ∈ s.manager.timers, addMs now ms < s.manager.next t) →
        s.CoveredBy (fun _ => True) (addMs now ms)
  | _ => True

instance (w : Fin n) (d : ℤ) : Decidable (s.Covers w d) :=
  inferInstanceAs (Decidable (ReadsBy ..))

instance : DecidablePred s.Waits := fun _ => inferInstanceAs (Decidable (_ ∧ (_ ∨ _ ∧ _)))

instance (p : Fin n → Prop) [DecidablePred p] (d : ℤ) : Decidable (s.CoveredBy p d) :=
  inferInstanceAs (Decidable (_ ∨ _ ∨ _ ∨ _))

instance : DecidablePred (s.Attended tid)
  | .wake (.dequeue w) => inferInstanceAs (Decidable
      ((scan (tid w) s.wake.core.tasks).found ≠ none →
        ∀ t ∈ s.manager.timers, s.CoveredBy (· ≠ w) (s.manager.next t)))
  | .addTimer _ now ms _ _ => inferInstanceAs (Decidable
      (s.manager.tickled = true → (∀ t ∈ s.manager.timers, addMs now ms < s.manager.next t) →
        s.CoveredBy (fun _ => True) (addMs now ms)))
  | .wake (.schedulerLock ..) | .wake (.tickle _) | .wake (.check _) | .wake (.write _)
  | .wake (.finish ..) | .wake (.enterIdle _) | .wake (.poll _) | .wake (.stop _)
  | .wake (.block _) | .wake (.interrupt _) | .wake (.wake _) | .wake (.drain _)
  | .wake (.dispatch ..) | .wake (.yield _) | .pass _ | .getNextTimer .. | .cancel _
  | .listExpiredCb .. => inferInstanceAs (Decidable True)

/-- **The invariant**: every deadline is covered. -/
structure Inv : Prop where
  conserved : Scheduler.Conserved tid s.wake.core
  linked : s.manager.Linked
  notifying : ∀ θ ∈ s.notifying, s.wake.tickling θ ≠ none
  covered : ∀ t ∈ s.manager.timers, s.CoveredBy (fun _ => True) (s.manager.next t)

end Covered

theorem inv_start (tid : Fin n → ℤ) (now : ℤ) : Inv tid (start n κ now) where
  conserved := Scheduler.conserved_start tid
  linked := TimerManager.linked_construct now
  notifying := nofun
  covered := nofun

/-- **What the invariant says at rest**: the deadline that is covered is covered by a worker in
`epoll_wait`. -/
theorem Inv.returnsBy (h : s.Inv tid) (hrest : s.Resting) {u : ℕ} (hu : u ∈ s.manager.timers) :
    s.ReturnsBy (s.manager.next u) := by
  obtain ⟨w, hw⟩ := hrest.blocked
  rcases h.covered u hu with hpipe | hnotifying | ⟨v, -, hv⟩ | hwaits
  · exact absurd hrest.pipe hpipe
  · exact absurd hrest.notifying hnotifying
  · refine ⟨v, ?_⟩
    rcases hrest.others v with hblocked | hbusy
    · rw [Covers, hblocked.1, hblocked.2] at hv
      exact ⟨hblocked, hv⟩
    · rw [Covers] at hv
      cases hphase : s.wake.core.phase v with
      | hold e =>
        rw [hphase] at hv
        exact hv.elim
      | scan | spare | idle | exited =>
        rw [hphase] at hbusy
        exact hbusy.elim
  · exact absurd ⟨hw.1, Or.inl hw.2⟩ (hwaits w trivial)

/-! ## What keeps a deadline covered -/

section Keep

theorem coveredBy_of_covers (h : s.Covers w d) : s.CoveredBy (fun _ => True) d :=
  Or.inr (Or.inr (Or.inl ⟨w, trivial, h⟩))

theorem covers_of_scan (h : s.wake.core.phase w = .scan) : s.Covers w d := by
  rw [Covers, h]
  trivial

theorem covers_of_spare (h : s.wake.core.phase w = .spare) : s.Covers w d := by
  rw [Covers, h]
  trivial

theorem covers_of_exited (h : s.wake.core.phase w = .exited) : s.Covers w d := by
  rw [Covers, h]
  trivial

theorem covers_of_loop (h : s.wake.core.phase w = .idle) (hat : s.wake.idleAt w = .loop) :
    s.Covers w d := by
  rw [Covers, h, hat]
  trivial

theorem covers_of_woken (h : s.wake.core.phase w = .idle) (hat : s.wake.idleAt w = .woken) :
    s.Covers w d := by
  rw [Covers, h, hat]
  trivial

/-- A worker that has not read the deadlines reads them before it waits. -/
theorem covers_of_unread (h : s.wake.core.phase w = .idle) (hat : s.wake.idleAt w = .poll)
    (hreading : s.reading w = none) : s.Covers w d := by
  rw [Covers, h, hat]
  intro r hr
  rw [hreading] at hr
  cases hr

theorem covers_of_blocked (h : s.wake.core.phase w = .idle) (hat : s.wake.idleAt w = .blocked)
    (hr : ∃ r ∈ s.reading w, r.returnsAt ≤ d) : s.Covers w d := by
  rw [Covers, h, hat]
  exact hr

/-- Only the phase of a worker, its place in `idle` and its reading tell what it covers. -/
theorem Covers.congr (h : s.Covers w d) (hphase : t.wake.core.phase w = s.wake.core.phase w)
    (hat : t.wake.idleAt w = s.wake.idleAt w) (hreading : t.reading w = s.reading w) :
    t.Covers w d := by
  rwa [Covers, hphase, hat, hreading]

theorem Waits.congr (h : t.Waits w) (hphase : t.wake.core.phase w = s.wake.core.phase w)
    (hat : t.wake.idleAt w = s.wake.idleAt w) (hreading : t.reading w = s.reading w) :
    s.Waits w := by
  rwa [Waits, ← hphase, ← hat, ← hreading]

/-- What covers a deadline covers every later one. -/
theorem Covers.mono (h : s.Covers w d) (hd : d ≤ d') : s.Covers w d' := by
  rw [Covers] at h ⊢
  cases hphase : s.wake.core.phase w with
  | scan | spare | exited => trivial
  | hold e =>
    rw [hphase] at h
    exact h
  | idle =>
    rw [hphase] at h
    cases hat : s.wake.idleAt w with
    | loop | woken => trivial
    | poll =>
      rw [hat] at h
      exact fun r hr => (h r hr).imp_right fun hle => le_trans hle hd
    | blocked =>
      rw [hat] at h
      obtain ⟨r, hr, hle⟩ := h
      exact ⟨r, hr, le_trans hle hd⟩

theorem CoveredBy.mono {p : Fin n → Prop} (h : s.CoveredBy p d) (hd : d ≤ d') :
    s.CoveredBy p d' := by
  rcases h with hpipe | hnotifying | ⟨w, hp, hw⟩ | hwaits
  · exact Or.inl hpipe
  · exact Or.inr (Or.inl hnotifying)
  · exact Or.inr (Or.inr (Or.inl ⟨w, hp, hw.mono hd⟩))
  · exact Or.inr (Or.inr (Or.inr hwaits))

/-- **The frame rule**: a deadline stays covered when no wakeup is taken away, the workers that
cover it still do, and no worker waits that did not. -/
theorem CoveredBy.of {p : Fin n → Prop} (h : s.CoveredBy p d)
    (hpipe : s.wake.pipe ≠ 0 → t.wake.pipe ≠ 0) (hnotifying : s.notifying ≠ [] → t.notifying ≠ [])
    (hcovers : ∀ v, p v → s.Covers v d → t.Covers v d)
    (hwaits : ∀ v, t.Waits v → p v ∧ s.Waits v) : t.CoveredBy (fun _ => True) d := by
  rcases h with h | h | ⟨v, hp, hv⟩ | h
  · exact Or.inl (hpipe h)
  · exact Or.inr (Or.inl (hnotifying h))
  · exact coveredBy_of_covers (hcovers v hp hv)
  · refine Or.inr (Or.inr (Or.inr fun v _ hv => ?_))
    obtain ⟨hp, hs⟩ := hwaits v hv
    exact h v hp hs

/-- The notifications that are not over stay. -/
theorem setWake_notifying {wake : Wakeup n} (h : ∀ θ ∈ s.notifying, wake.tickling θ ≠ none) :
    (s.setWake wake).notifying = s.notifying := by
  refine List.filter_eq_self.mpr fun θ hθ => ?_
  exact Option.isSome_iff_ne_none.mpr (h θ hθ)

/-- A thread that was in no call of `tickle` goes into one, or not. -/
theorem Inv.callTickle_notifying (h : s.Inv tid) (wake : Wakeup n) {θ : Thread n} {need : Bool}
    (hθ : s.wake.tickling θ = none) (hsame : wake.tickling = s.wake.tickling) :
    (s.setWake (wake.callTickle θ need)).notifying = s.notifying := by
  refine setWake_notifying fun θ' hθ' => ?_
  have hne : θ' ≠ θ := by
    rintro rfl
    exact h.notifying _ hθ' hθ
  change Function.update wake.tickling θ _ θ' ≠ none
  rw [Function.update_of_ne hne, hsame]
  exact h.notifying θ' hθ'

end Keep

/-! ## The steps of the workers -/

section Wake

variable {wake : Wakeup n} {θ : Thread n}

/-- The workers after a step that does not touch the timers. -/
def afterWake (s : TimerWakeup n κ) (a : Wakeup.Act n) (wake : Wakeup n) : TimerWakeup n κ :=
  { s.setWake wake with reading := forget s.reading a }

theorem mem_afterWake_notifying {a : Wakeup.Act n}
    (hθ : θ ∈ (s.afterWake a wake).notifying) : wake.tickling θ ≠ none :=
  Option.isSome_iff_ne_none.mp (List.mem_filter.mp hθ).2

/-- A task comes in, or `tickle` is called: no worker moves. -/
theorem Inv.covered_callTickle (h : s.Inv tid) {b : Wakeup.Act n} {core : Scheduler n} {need : Bool}
    (hθ : s.wake.tickling θ = none) (hphase : core.phase = s.wake.core.phase)
    (hb : forget s.reading b = s.reading) (hd : s.CoveredBy (fun _ => True) d) :
    (s.afterWake b ({ s.wake with core := core }.callTickle θ need)).CoveredBy (fun _ => True) d := by
  have hkeep : (s.afterWake b ({ s.wake with core := core }.callTickle θ need)).notifying =
      s.notifying := h.callTickle_notifying { s.wake with core := core } hθ rfl
  refine hd.of id (fun hne => by rwa [hkeep]) (fun v _ hv => ?_) fun v hv => ⟨trivial, ?_⟩
  · exact hv.congr (congrFun hphase v) rfl (congrFun hb v)
  · exact hv.congr (congrFun hphase v) rfl (congrFun hb v)

/-- The test for idle workers: it finds one and goes on, or no worker waits. -/
theorem Inv.covered_check (h : s.Inv tid) (hd : s.CoveredBy (fun _ => True) d) :
    (s.afterWake (.check θ) (s.wake.setTickling θ
      (if s.wake.core.hasIdleThreads then some .write else none))).CoveredBy (fun _ => True) d := by
  by_cases hidle : s.wake.core.hasIdleThreads = true
  · rw [if_pos hidle]
    have hkeep : (s.afterWake (.check θ) (s.wake.setTickling θ (some .write))).notifying =
        s.notifying := by
      refine setWake_notifying fun θ' hθ' => ?_
      change Function.update s.wake.tickling θ (some .write) θ' ≠ none
      rw [Function.update_apply]
      split_ifs
      · exact Option.some_ne_none _
      · exact h.notifying θ' hθ'
    exact hd.of id (fun hne => by rwa [hkeep]) (fun v _ hv => hv) fun v hv => ⟨trivial, hv⟩
  · have hnone : ∀ w, ¬ (s.wake.core.phase w).Idle := by
      rw [← census_eq_zero]
      have hcount := h.conserved.idle_eq
      rw [Scheduler.hasIdleThreads, decide_eq_true_eq] at hidle
      omega
    refine Or.inr (Or.inr (Or.inr fun v _ hv => hnone v ?_))
    have hphase : s.wake.core.phase v = .idle := hv.1
    rw [hphase]
    trivial

/-- What the scan of the queue makes of the worker. -/
theorem dequeue_phase {core core' : Scheduler n} {tickle_me : Bool}
    (h : core.dequeue tid w = some (tickle_me, core')) :
    (∃ e, (scan (tid w) core.tasks).found = some e ∧
        core'.phase = Function.update core.phase w (.hold e)) ∨
      core'.phase = Function.update core.phase w .spare := by
  unfold Scheduler.dequeue at h
  split at h
  · dsimp only at h
    split at h
    · rename_i e he
      obtain ⟨-, rfl⟩ := Prod.mk.inj (Option.some.inj h)
      exact Or.inl ⟨e, he, rfl⟩
    · obtain ⟨-, rfl⟩ := Prod.mk.inj (Option.some.inj h)
      exact Or.inr rfl
  · cases h

/-- The scan of the queue: the worker takes a task, and the deadlines are covered without it, or it
goes on to `idle`. -/
theorem Inv.covered_dequeue (h : s.Inv tid) {tickle_me : Bool} {core : Scheduler n}
    (hθ : s.wake.tickling (.worker w) = none)
    (hcore : s.wake.core.dequeue tid w = some (tickle_me, core))
    (hd : (scan (tid w) s.wake.core.tasks).found ≠ none → s.CoveredBy (· ≠ w) d) :
    (s.afterWake (.dequeue w)
      ({ s.wake with core := core }.callTickle (.worker w) tickle_me)).CoveredBy (fun _ => True) d := by
  rcases dequeue_phase hcore with ⟨e, he, hphase⟩ | hphase
  · have hkeep : (s.afterWake (.dequeue w)
        ({ s.wake with core := core }.callTickle (.worker w) tickle_me)).notifying = s.notifying :=
      h.callTickle_notifying { s.wake with core := core } hθ rfl
    refine (hd (by rw [he]; exact Option.some_ne_none e)).of id (fun hne => by rwa [hkeep])
      (fun v hv hcovers => ?_) fun v hwaits => ?_
    · exact hcovers.congr ((congrFun hphase v).trans (Function.update_of_ne hv ..)) rfl rfl
    · have hvw : v ≠ w := by
        rintro rfl
        have hidle : core.phase v = .idle := hwaits.1
        rw [hphase, Function.update_self] at hidle
        cases hidle
      exact ⟨hvw, hwaits.congr ((congrFun hphase v).trans (Function.update_of_ne hvw ..)) rfl rfl⟩
  · have hspare : core.phase w = .spare := by rw [hphase, Function.update_self]
    exact coveredBy_of_covers (covers_of_spare hspare)

/-- The call of `epoll_wait`, after the deadlines have been read. -/
theorem Inv.covered_block (h : s.Inv tid) (hat : s.wake.InIdle w .poll)
    (hready : s.Ready (.block w)) (hd : s.CoveredBy (fun _ => True) d) :
    (s.afterWake (.block w) (s.wake.setIdleAt w .blocked)).CoveredBy (fun _ => True) d := by
  have hkeep : (s.afterWake (.block w) (s.wake.setIdleAt w .blocked)).notifying = s.notifying :=
    setWake_notifying h.notifying
  obtain ⟨r, hr, hpos⟩ := hready
  have hother : ∀ v, v ≠ w → (s.wake.setIdleAt w .blocked).idleAt v = s.wake.idleAt v :=
    fun v hv => Function.update_of_ne hv ..
  refine hd.of id (fun hne => by rwa [hkeep]) (fun v _ hcovers => ?_) fun v hwaits => ⟨trivial, ?_⟩
  · by_cases hvw : v = w
    · subst hvw
      rw [Covers, hat.1, hat.2.1] at hcovers
      refine covers_of_blocked hat.1 (Function.update_self v ..) ?_
      exact ⟨r, hr, (hcovers r hr).resolve_left hpos⟩
    · exact hcovers.congr rfl (hother v hvw) rfl
  · by_cases hvw : v = w
    · subst hvw
      refine ⟨hat.1, Or.inr ⟨hat.2.1, fun hnone => ?_⟩⟩
      rw [hnone] at hr
      cases hr
    · exact hwaits.congr rfl (hother v hvw) rfl

/-- **What the workers do keeps a deadline covered**, when the worker that takes a task leaves it
covered. -/
theorem Inv.covered_wake (h : s.Inv tid) {b : Wakeup.Act n} (hready : s.Ready b)
    (hb : s.wake.step tid b = some wake)
    (hdequeue : ∀ w, b = .dequeue w → (scan (tid w) s.wake.core.tasks).found ≠ none →
      s.CoveredBy (· ≠ w) d)
    (hd : s.CoveredBy (fun _ => True) d) :
    (s.afterWake b wake).CoveredBy (fun _ => True) d := by
  cases b with
  | schedulerLock c fc =>
    simp only [Wakeup.step] at hb
    split_ifs at hb with hθ
    obtain rfl := Option.some.inj hb
    exact h.covered_callTickle hθ (Scheduler.schedulerLock_phase fc (-1)) rfl hd
  | dispatch w fc =>
    simp only [Wakeup.step] at hb
    split_ifs at hb with hat
    obtain rfl := Option.some.inj hb
    exact h.covered_callTickle hat.2.2 (Scheduler.schedulerLock_phase fc (-1)) rfl hd
  | tickle c =>
    simp only [Wakeup.step] at hb
    split_ifs at hb with hθ
    obtain rfl := Option.some.inj hb
    exact h.covered_callTickle hθ rfl rfl hd
  | check θ =>
    simp only [Wakeup.step] at hb
    split_ifs at hb
    all_goals
      obtain rfl := Option.some.inj hb
      have hcheck := h.covered_check (θ := θ) hd
      simpa [*] using hcheck
  | write θ =>
    simp only [Wakeup.step] at hb
    split_ifs at hb
    obtain rfl := Option.some.inj hb
    exact Or.inl (Nat.succ_ne_zero s.wake.pipe)
  | dequeue w =>
    simp only [Wakeup.step] at hb
    split_ifs at hb with hθ
    obtain ⟨⟨tickle_me, core⟩, hcore, rfl⟩ := Option.map_eq_some_iff.mp hb
    exact h.covered_dequeue hθ hcore (hdequeue w rfl)
  | block w =>
    simp only [Wakeup.step] at hb
    split_ifs at hb with hat
    obtain rfl := Option.some.inj hb
    exact h.covered_block hat hready hd
  | finish w term =>
    simp only [Wakeup.step] at hb
    split_ifs at hb
    obtain ⟨core, hcore, rfl⟩ := Option.map_eq_some_iff.mp hb
    obtain ⟨e, -, rfl⟩ := Scheduler.finish_cases hcore
    exact coveredBy_of_covers (covers_of_scan (Function.update_self w ..))
  | enterIdle w =>
    simp only [Wakeup.step] at hb
    split_ifs at hb
    obtain ⟨core, hcore, rfl⟩ := Option.map_eq_some_iff.mp hb
    obtain ⟨-, ⟨-, rfl⟩ | ⟨-, rfl⟩⟩ := Scheduler.enterIdle_cases hcore
    · exact coveredBy_of_covers (covers_of_exited (Function.update_self w ..))
    · exact coveredBy_of_covers
        (covers_of_loop (Function.update_self w ..) (Function.update_self w ..))
  | stop w =>
    simp only [Wakeup.step] at hb
    split_ifs at hb
    obtain ⟨core, hcore, rfl⟩ := Option.map_eq_some_iff.mp hb
    obtain ⟨-, rfl⟩ := Scheduler.leaveIdle_cases hcore
    exact coveredBy_of_covers (covers_of_scan (Function.update_self w ..))
  | yield w =>
    simp only [Wakeup.step] at hb
    split_ifs at hb
    obtain ⟨core, hcore, rfl⟩ := Option.map_eq_some_iff.mp hb
    obtain ⟨-, rfl⟩ := Scheduler.leaveIdle_cases hcore
    exact coveredBy_of_covers (covers_of_scan (Function.update_self w ..))
  | poll w =>
    simp only [Wakeup.step] at hb
    split_ifs at hb with hat
    obtain rfl := Option.some.inj hb
    exact coveredBy_of_covers
      (covers_of_unread hat.1 (Function.update_self w ..) (Function.update_self w ..))
  | interrupt w =>
    simp only [Wakeup.step] at hb
    split_ifs at hb with hat
    obtain rfl := Option.some.inj hb
    exact coveredBy_of_covers
      (covers_of_unread hat.1 (Function.update_self w ..) (Function.update_self w ..))
  | wake w =>
    simp only [Wakeup.step] at hb
    split_ifs at hb with hat
    obtain rfl := Option.some.inj hb
    exact coveredBy_of_covers (covers_of_woken hat.1 (Function.update_self w ..))
  | drain w =>
    simp only [Wakeup.step] at hb
    split_ifs at hb with hat
    obtain rfl := Option.some.inj hb
    exact coveredBy_of_covers (covers_of_woken hat.1 hat.2.1)

/-- The scheduler inside takes a step of its own, or none. -/
theorem conserved_wake (h : Scheduler.Conserved tid s.wake.core) {b : Wakeup.Act n}
    (hb : s.wake.step tid b = some wake) : Scheduler.Conserved tid wake.core := by
  rcases Wakeup.core_step hb with hcore | ⟨c, -, hc⟩
  · rw [hcore]
    exact h
  · exact h.step hc

end Wake

/-! ## One step -/

section Step

/-- A call of `epoll_wait` that returns at once leaves the worker behind it. -/
theorem Inv.pass (h : s.Inv tid) (ht : s.step tid (.pass w) = some t) : t.Inv tid := by
  simp only [step] at ht
  split_ifs at ht
  obtain ⟨wake, hwake, rfl⟩ := Option.map_eq_some_iff.mp ht
  obtain ⟨wake₁, hblock, hreturn⟩ := Option.bind_eq_some_iff.mp hwake
  have hconserved := conserved_wake h.conserved hblock
  simp only [Wakeup.step] at hblock hreturn
  split_ifs at hblock with hat
  split_ifs at hreturn with hblocked
  obtain rfl := Option.some.inj hblock
  obtain rfl := Option.some.inj hreturn
  refine ⟨hconserved, h.linked, fun θ hθ => ?_, fun u _ => ?_⟩
  · exact h.notifying θ (List.mem_of_mem_filter hθ)
  · exact coveredBy_of_covers (covers_of_woken hat.1 (Function.update_self w ..))

/-- A worker reads the deadlines, and then covers them. -/
theorem Inv.getNextTimer (h : s.Inv tid) {now : ℤ}
    (ht : s.step tid (.getNextTimer w now) = some t) : t.Inv tid := by
  simp only [step] at ht
  split_ifs at ht with hcond
  obtain rfl := Option.some.inj ht
  obtain ⟨hat, -⟩ := hcond
  have hmanager : (s.manager.getNextTimer now).2 = { s.manager with tickled := false } := by
    unfold TimerManager.getNextTimer
    dsimp only
    split <;> rfl
  rw [hmanager]
  refine ⟨h.conserved, ⟨h.linked.ordered, h.linked.lt_count⟩, h.notifying, fun u hu => ?_⟩
  refine coveredBy_of_covers (w := w) ?_
  rcases hat with hloop | hpoll
  · exact covers_of_loop hloop.1 hloop.2.1
  · have hphase : s.wake.core.phase w = .idle := hpoll.1
    have hidle : s.wake.idleAt w = .poll := hpoll.2.1
    unfold Covers
    simp only [hphase, hidle, Function.update_self]
    intro r hr
    obtain rfl := Option.some.inj hr
    exact Reading.returnsAt_le h.linked hu

/-- The state behind `addTimer`. -/
def added (s : TimerWakeup n κ) (c : ℕ) (at_front : Bool) (manager : TimerManager κ) :
    TimerWakeup n κ :=
  { s with
    manager := manager
    wake := s.wake.callTickle (.external c) at_front
    notifying := if at_front then .external c :: s.notifying else s.notifying }

theorem mem_added_notifying {c : ℕ} {at_front : Bool} {manager : TimerManager κ} {θ : Thread n}
    (hθ : θ ∈ (s.added c at_front manager).notifying) :
    θ ∈ s.notifying ∨ at_front = true ∧ θ = .external c := by
  cases at_front with
  | false => exact Or.inl hθ
  | true => exact (List.mem_cons.mp hθ).symm.imp_right fun heq => ⟨rfl, heq⟩

/-- What covered a deadline before `addTimer` does so behind it. -/
theorem CoveredBy.added (h : s.CoveredBy (fun _ => True) d) (c : ℕ) (at_front : Bool)
    (manager : TimerManager κ) : (s.added c at_front manager).CoveredBy (fun _ => True) d := by
  refine h.of id (fun hne => ?_) (fun v _ hv => hv) fun v hv => ⟨trivial, hv⟩
  cases at_front with
  | false => exact hne
  | true => exact List.cons_ne_nil _ _

/-- **A new timer** is covered by what covers an earlier one, or by its own notification, or, when
`m_tickled` has suppressed that, as the guard says. -/
theorem Inv.addTimer (h : s.Inv tid) {c : ℕ} {now : ℤ} {ms : ℕ} {cb : κ} {recurring : Bool}
    (ha : s.Attended tid (.addTimer c now ms cb recurring))
    (hθ : s.wake.tickling (.external c) = none) :
    (s.added c (s.manager.insertTimer now ms cb recurring).1
      (s.manager.insertTimer now ms cb recurring).2).Inv tid := by
  refine ⟨h.conserved, h.linked.insertTimer, fun θ hθ' => ?_, fun u hu => ?_⟩
  · rcases mem_added_notifying hθ' with hmem | ⟨hfront, rfl⟩
    · have hne : θ ≠ .external c := by
        rintro rfl
        exact h.notifying _ hmem hθ
      exact (Function.update_of_ne hne ..).trans_ne (h.notifying θ hmem)
    · rw [hfront]
      exact (Function.update_self ..).trans_ne (Option.some_ne_none _)
  · rcases TimerManager.mem_insertTimer hu with rfl | hu
    · change CoveredBy _ _ ((s.manager.insertTimer now ms cb recurring).2.next s.manager.count)
      rw [TimerManager.insertTimer_next_self]
      by_cases hfirst : ∀ u ∈ s.manager.timers, addMs now ms < s.manager.next u
      · cases htickled : s.manager.tickled with
        | true => exact (ha htickled hfirst).added ..
        | false =>
          refine Or.inr (Or.inl ?_)
          rw [h.linked.insertTimer_front hfirst htickled]
          exact List.cons_ne_nil _ _
      · simp only [not_forall, not_lt] at hfirst
        obtain ⟨v, hv, hle⟩ := hfirst
        exact ((h.covered v hv).mono hle).added ..
    · change CoveredBy _ _ ((s.manager.insertTimer now ms cb recurring).2.next u)
      rw [h.linked.insertTimer_next now ms cb recurring hu]
      exact (h.covered u hu).added ..

/-- **The step lemma.** -/
theorem Inv.step (h : s.Inv tid) (ha : s.Attended tid a) (ht : s.step tid a = some t) :
    t.Inv tid := by
  cases a with
  | wake b =>
    simp only [TimerWakeup.step] at ht
    split_ifs at ht with hready
    obtain ⟨wake, hb, rfl⟩ := Option.map_eq_some_iff.mp ht
    refine ⟨conserved_wake h.conserved hb, h.linked, fun θ hθ => mem_afterWake_notifying hθ,
      fun u hu => ?_⟩
    refine h.covered_wake hready hb (fun w hw hfound => ?_) (h.covered u hu)
    subst hw
    exact ha hfound u hu
  | pass w => exact h.pass ht
  | getNextTimer w now => exact h.getNextTimer ht
  | addTimer c now ms cb recurring =>
    simp only [TimerWakeup.step] at ht
    split at ht
    · rename_i hθ
      obtain rfl := Option.some.inj ht
      exact h.addTimer ha hθ
    · cases ht
  | cancel u =>
    simp only [TimerWakeup.step] at ht
    split_ifs at ht
    obtain rfl := Option.some.inj ht
    obtain ⟨hlinked, hmem⟩ := h.linked.cancel u
    refine ⟨h.conserved, hlinked, h.notifying, fun v hv => ?_⟩
    obtain ⟨hold, hnext⟩ := hmem v hv
    change s.CoveredBy _ ((s.manager.cancel u).2.next v)
    rw [hnext]
    exact h.covered v hold
  | listExpiredCb w fuel now now' =>
    simp only [TimerWakeup.step] at ht
    split_ifs at ht with hat
    obtain ⟨⟨cbs, manager⟩, hr, rfl⟩ := Option.map_eq_some_iff.mp ht
    exact ⟨h.conserved, h.linked.listExpiredCb hr, h.notifying,
      fun u _ => coveredBy_of_covers (covers_of_woken hat.1 hat.2.1)⟩

end Step

/-! ## Runs -/

/-- **No wakeup for a timer is lost** in a run of attended steps: whenever every worker is in
`epoll_wait` or executes a task, some worker is there, the pipe is empty and no notification is on
its way, some worker returns from `epoll_wait` by itself before the first deadline has passed. -/
theorem returnsBy_of_exec {as : List (Act n κ)} {now : ℤ}
    (hg : Guarded (step tid) (Attended tid) (start n κ now) as)
    (h : exec (step tid) (start n κ now) as = some s) (hrest : s.Resting) :
    ∀ u ∈ s.manager.timers, s.ReturnsBy (s.manager.next u) := by
  intro u hu
  exact (exec_invariant_of_guarded (I := Inv tid)
    (fun _ _ _ hi hg ht => hi.step hg ht) (inv_start tid now) hg h).returnsBy hrest hu

/-- A timer that is added before the worker reads the deadlines, and waits. -/
theorem returnsBy_of_exec_one_worker :
    ∃ s : TimerWakeup 1 Unit,
      exec (step fun _ => 7) (start 1 Unit 0)
        [.addTimer 0 0 100 () false, .wake (.check (.external 0)), .wake (.dequeue 0),
          .wake (.enterIdle 0), .getNextTimer 0 0, .wake (.poll 0), .getNextTimer 0 0,
          .wake (.block 0)] = some s ∧
      s.manager.timers = [0] ∧ s.ReturnsBy (s.manager.next 0) := by
  obtain ⟨s, hs⟩ : ∃ s : TimerWakeup 1 Unit,
      exec (step fun _ => 7) (start 1 Unit 0)
        [.addTimer 0 0 100 () false, .wake (.check (.external 0)), .wake (.dequeue 0),
          .wake (.enterIdle 0), .getNextTimer 0 0, .wake (.poll 0), .getNextTimer 0 0,
          .wake (.block 0)] = some s := ⟨_, rfl⟩
  have hmain := returnsBy_of_exec (by decide) hs
  refine ⟨s, hs, ?_, hmain ?_ 0 ?_⟩
  all_goals obtain rfl := Option.some.inj hs
  · rfl
  · exact ⟨by decide, by decide, rfl, rfl⟩
  · decide

/-- **A worker that has been woken for a timer takes a task.** Worker 1 has read that there are no
timers when one is added; worker 0 is woken, finds a task that has come in, and executes it, and
worker 1 waits for five seconds. -/
theorem timer_not_noticed :
    ¬ ∀ (n : ℕ) (tid : Fin n → ℤ) (now : ℤ) (as : List (Act n Unit)) (s : TimerWakeup n Unit),
      exec (step tid) (start n Unit now) as = some s → s.Resting →
        ∀ u ∈ s.manager.timers, s.ReturnsBy (s.manager.next u) := by
  intro hall
  have hbad := hall 2 (fun w => w) 0
    [.wake (.dequeue 0), .wake (.enterIdle 0), .getNextTimer 0 0, .wake (.poll 0),
      .getNextTimer 0 0, .wake (.block 0), .wake (.dequeue 1), .wake (.enterIdle 1),
      .getNextTimer 1 0, .wake (.poll 1), .getNextTimer 1 0,
      .addTimer 0 0 100 () false, .wake (.check (.external 0)), .wake (.write (.external 0)),
      .wake (.wake 0),
      .wake (.schedulerLock 1 (.cb (some 1))), .wake (.check (.external 1)),
      .wake (.write (.external 1)),
      .wake (.drain 0), .wake (.yield 0), .wake (.dequeue 0), .wake (.block 1)] _ rfl
    ⟨⟨1, by decide⟩, by decide, rfl, rfl⟩ 0 (by decide)
  exact absurd hbad (by decide)

end TimerWakeup

end Dag
