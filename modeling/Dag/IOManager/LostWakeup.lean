import Dag.IOManager.Wakeup

/-!
# When no wakeup is lost

While tasks wait, there is a byte in the pipe, or a thread in a call of `tickle`, or a worker that
will look at the queue before it blocks. One step breaks this: the test for idle workers in `tickle`,
when every worker is behind its scan of the queue but not counted as idle yet.

## Main definitions

* `Missed`: the test that finds no idle worker while all workers are about to be idle
* `Looks`: the worker will look at the queue before it blocks again
* `Awake`: the invariant

## Main results

* `core_step`: the scheduler itself takes a step of its own, or none
* `Awake.step`: every step other than a missed test keeps the invariant
* `not_stuck_of_exec`: a run without a missed test does not get stuck
* `stuck_of_missed`: a run with one does
-/

namespace Dag

open Foundation

namespace Wakeup

variable {n : ℕ} {tid : Fin n → ℤ} {s t : Wakeup n} {a : Act n} {w v : Fin n} {θ : Thread n}

/-- **A missed test**: the call of `tickle` by thread `θ` is the only thing that would make a
worker look at the waiting tasks, and every worker is behind its scan of the queue but not counted
as idle yet. -/
def Missed (s : Wakeup n) (θ : Thread n) : Prop :=
  s.core.tasks ≠ [] ∧ s.pipe = 0 ∧ (∀ θ', θ' ≠ θ → s.tickling θ' = none) ∧
    ∀ w, s.core.phase w = .spare ∧ s.core.idleTerm w = false

/-- The step is no missed test. -/
def Noticed (s : Wakeup n) : Act n → Prop
  | .check θ => ¬ s.Missed θ
  | _ => True

/-! ## The scheduler inside -/

/-- The step of a scheduler does not pin a task to a thread. -/
def Unpinning : Scheduler.Act n → Prop
  | .schedulerLock _ thread => thread = -1
  | _ => True

/-- **The scheduler inside takes a step of its own, or none**, so that what holds along its runs
holds here. -/
theorem core_step (ht : s.step tid a = some t) :
    t.core = s.core ∨ ∃ b, Unpinning b ∧ s.core.step tid b = some t.core := by
  cases a with
  | schedulerLock c fc =>
    simp only [step] at ht
    split_ifs at ht
    obtain rfl := Option.some.inj ht
    exact Or.inr ⟨.schedulerLock fc (-1), rfl, rfl⟩
  | dispatch w fc =>
    simp only [step] at ht
    split_ifs at ht
    obtain rfl := Option.some.inj ht
    exact Or.inr ⟨.schedulerLock fc (-1), rfl, rfl⟩
  | dequeue w =>
    simp only [step] at ht
    split_ifs at ht
    obtain ⟨⟨tickle_me, core⟩, hcore, rfl⟩ := Option.map_eq_some_iff.mp ht
    exact Or.inr ⟨.dequeue w, trivial, Option.map_eq_some_iff.mpr ⟨_, hcore, rfl⟩⟩
  | finish w term =>
    simp only [step] at ht
    split_ifs at ht
    obtain ⟨core, hcore, rfl⟩ := Option.map_eq_some_iff.mp ht
    exact Or.inr ⟨.finish w term, trivial, hcore⟩
  | enterIdle w =>
    simp only [step] at ht
    split_ifs at ht
    obtain ⟨core, hcore, rfl⟩ := Option.map_eq_some_iff.mp ht
    exact Or.inr ⟨.enterIdle w, trivial, hcore⟩
  | stop w =>
    simp only [step] at ht
    split_ifs at ht
    obtain ⟨core, hcore, rfl⟩ := Option.map_eq_some_iff.mp ht
    exact Or.inr ⟨.leaveIdle w true, trivial, hcore⟩
  | yield w =>
    simp only [step] at ht
    split_ifs at ht
    obtain ⟨core, hcore, rfl⟩ := Option.map_eq_some_iff.mp ht
    exact Or.inr ⟨.leaveIdle w false, trivial, hcore⟩
  | tickle c | check θ | write θ | poll w | block w | interrupt w | wake w | drain w =>
    simp only [step] at ht
    split_ifs at ht
    all_goals
      obtain rfl := Option.some.inj ht
      exact Or.inl rfl

/-! ## The invariant -/

/-- The worker will look at the queue before it blocks again, or never blocks again. -/
def Looks (s : Wakeup n) (w : Fin n) : Prop :=
  match s.core.phase w with
  | .scan | .hold _ | .exited => True
  | .spare => s.core.idleTerm w = true
  | .idle => s.idleAt w = .woken

/-- Something will make a worker look at the queue. -/
def Stirs (s : Wakeup n) : Prop :=
  s.pipe ≠ 0 ∨ (∃ θ, s.tickling θ ≠ none) ∨ ∃ w, s.Looks w

/-- **The invariant**: tasks do not wait unnoticed. -/
structure Awake (tid : Fin n → ℤ) (s : Wakeup n) : Prop where
  conserved : Scheduler.Conserved tid s.core
  unpinned : ∀ e ∈ s.core.tasks, e.Unpinned
  stirs : s.core.tasks ≠ [] → s.Stirs

theorem awake_start (tid : Fin n → ℤ) : Awake tid (start n) where
  conserved := Scheduler.conserved_start tid
  unpinned := nofun
  stirs := fun h => absurd rfl h

/-- Nothing is stuck in a state of the invariant. -/
theorem Awake.not_stuck (h : Awake tid s) : ¬ s.Stuck := by
  rintro ⟨htasks, hblocked, hpipe, htickling⟩
  rcases h.stirs htasks with hp | ⟨θ, hθ⟩ | ⟨w, hw⟩
  · exact hp hpipe
  · exact hθ (htickling θ)
  · obtain ⟨hidle, hat⟩ := hblocked w
    rw [Looks, hidle, hat] at hw
    cases hw

/-! ## What stirs -/

theorem Stirs.of_looks (h : s.Looks w) : s.Stirs := Or.inr (Or.inr ⟨w, h⟩)

theorem stirs_callTickle (s : Wakeup n) (θ : Thread n) : (s.callTickle θ true).Stirs := by
  refine Or.inr (Or.inl ⟨θ, ?_⟩)
  change Function.update s.tickling θ (some .check) θ ≠ none
  rw [Function.update_self]
  exact Option.some_ne_none _

/-- A thread that is not in `tickle` does not go into it. -/
theorem Stirs.callTickle_false (h : s.Stirs) (hθ : s.tickling θ = none) :
    (s.callTickle θ false).Stirs := by
  have hsame : s.callTickle θ false = s := by
    have hupd : Function.update s.tickling θ none = s.tickling := by
      rw [← hθ, Function.update_eq_self]
    change { s with tickling := Function.update s.tickling θ none } = s
    rw [hupd]
  rwa [hsame]

/-- Only the phase of the worker, its idle fiber and its place in `idle` tell whether it looks. -/
theorem looks_congr (hphase : t.core.phase w = s.core.phase w)
    (hterm : t.core.idleTerm w = s.core.idleTerm w) (hat : t.idleAt w = s.idleAt w) :
    t.Looks w ↔ s.Looks w := by
  rw [Looks, Looks, hphase, hterm, hat]

/-- A step of a worker that does not look at the queue leaves the others as they are. -/
theorem Stirs.of_other (h : s.Stirs) (hw : ¬ s.Looks w) (hpipe : t.pipe = s.pipe)
    (htickling : t.tickling = s.tickling)
    (hother : ∀ v, v ≠ w → t.core.phase v = s.core.phase v ∧
      t.core.idleTerm v = s.core.idleTerm v ∧ t.idleAt v = s.idleAt v) : t.Stirs := by
  rcases h with hp | ⟨θ, hθ⟩ | ⟨v, hv⟩
  · exact Or.inl (hpipe ▸ hp)
  · exact Or.inr (Or.inl ⟨θ, htickling ▸ hθ⟩)
  · have hne : v ≠ w := fun heq => hw (heq ▸ hv)
    obtain ⟨hphase, hterm, hat⟩ := hother v hne
    exact Stirs.of_looks ((looks_congr hphase hterm hat).mpr hv)

/-- A worker in `idle` looks when it is behind `epoll_wait`. -/
theorem looks_iff_woken (hw : s.core.phase w = .idle) : s.Looks w ↔ s.idleAt w = .woken := by
  rw [Looks, hw]

theorem looks_of_scan (hw : s.core.phase w = .scan) : s.Looks w := by
  rw [Looks, hw]
  trivial

/-- A worker moves on in `idle`, from a place before the end of `epoll_wait`. -/
theorem Stirs.setIdleAt (h : s.Stirs) {p q : IdleAt} (hw : s.InIdle w p) (hp : p ≠ .woken) :
    (s.setIdleAt w q).Stirs := by
  refine h.of_other (w := w) ?_ rfl rfl fun v hv => ⟨rfl, rfl, Function.update_of_ne hv ..⟩
  rw [looks_iff_woken hw.1, hw.2.1]
  exact hp

/-- A task added by `schedulerLock`: the queue was empty, and `tickle` is called, or it was not. -/
theorem stirs_schedulerLock {fc : FiberOrCb} (hθ : s.tickling θ = none)
    (h : s.core.tasks ≠ [] → s.Stirs) :
    ({ s with core := (s.core.schedulerLock fc (-1)).2 }.callTickle θ
      (s.core.schedulerLock fc (-1)).1).Stirs := by
  have hneed : (s.core.schedulerLock fc (-1)).1 = s.core.tasks.isEmpty := by
    unfold Scheduler.schedulerLock
    dsimp only
    split_ifs <;> rfl
  rw [hneed]
  -- `need_tickle` is that the queue was empty
  cases htasks : s.core.tasks with
  | nil => exact stirs_callTickle _ θ
  | cons e es =>
    refine Stirs.callTickle_false ?_ hθ
    rcases h (htasks ▸ List.cons_ne_nil e es) with hp | ⟨θ', hθ'⟩ | ⟨w, hw⟩
    · exact Or.inl hp
    · exact Or.inr (Or.inl ⟨θ', hθ'⟩)
    · apply Stirs.of_looks (w := w)
      refine (looks_congr (s := s) ?_ ?_ ?_).mpr hw
      · exact congrFun (Scheduler.schedulerLock_phase fc (-1)) w
      · exact congrFun (Scheduler.schedulerLock_idleTerm fc (-1)) w
      · rfl

/-- The test for idle workers, when it is not missed. -/
theorem Awake.stirs_check (h : Awake tid s)
    (hnoticed : ¬ s.Missed θ) (htasks : s.core.tasks ≠ []) :
    (s.setTickling θ (if s.core.hasIdleThreads then some .write else none)).Stirs := by
  by_cases hidle : s.core.hasIdleThreads = true
  · rw [if_pos hidle]
    refine Or.inr (Or.inl ⟨θ, ?_⟩)
    change Function.update s.tickling θ (some .write) θ ≠ none
    rw [Function.update_self]
    exact Option.some_ne_none _
  · rw [if_neg hidle]
    have hnone : ∀ w, ¬ (s.core.phase w).Idle := by
      rw [← census_eq_zero]
      have hcount := h.conserved.idle_eq
      rw [Scheduler.hasIdleThreads, decide_eq_true_eq] at hidle
      omega
    by_contra hstirs
    -- if nothing else stirred, this would be a missed test
    refine hnoticed ⟨htasks, ?_, fun θ' hne => ?_, fun w => ?_⟩
    · by_contra hp
      exact hstirs (Or.inl hp)
    · by_contra hθ'
      refine hstirs (Or.inr (Or.inl ⟨θ', ?_⟩))
      change Function.update s.tickling θ none θ' ≠ none
      rwa [Function.update_of_ne hne]
    · have hlooks : ¬ s.Looks w := fun hw => hstirs (Stirs.of_looks (w := w) hw)
      rw [Looks] at hlooks
      cases hw : s.core.phase w with
      | spare =>
        rw [hw] at hlooks
        exact ⟨rfl, Bool.eq_false_iff.mpr hlooks⟩
      | idle => exact absurd (hw ▸ trivial) (hnone w)
      | scan | hold e | exited =>
        rw [hw] at hlooks
        exact absurd trivial hlooks

/-! ## One step -/

/-- The scan of a queue without pinned tasks takes the first task, if there is one. -/
theorem Awake.stirs_dequeue (h : Awake tid s) {tickle_me : Bool} {core : Scheduler n}
    (hcore : s.core.dequeue tid w = some (tickle_me, core)) (htasks : core.tasks ≠ []) :
    ({ s with core := core }.callTickle (.worker w) tickle_me).Stirs := by
  obtain ⟨_, ⟨pre, e, post, _, _, _, rfl⟩ | ⟨hall, rfl⟩⟩ := Scheduler.dequeue_cases hcore
  · apply Stirs.of_looks (w := w)
    rw [Looks]
    change match Function.update s.core.phase w (.hold e) w with
      | .scan | .hold _ | .exited => True
      | .spare => _
      | .idle => _
    rw [Function.update_self]
    trivial
  · -- a task that is not pinned is not passed over
    obtain ⟨e, he⟩ := List.exists_mem_of_ne_nil _ htasks
    exact absurd (h.unpinned e he) (hall e he)

/-- A worker that has nothing to run goes into `idle`, or out of `run`. -/
theorem Stirs.enterIdle (h : s.Stirs) {core : Scheduler n}
    (hcore : s.core.enterIdle w = some core) :
    ({ s with core := core }.setIdleAt w .loop).Stirs := by
  obtain ⟨hw, ⟨hterm, rfl⟩ | ⟨hterm, rfl⟩⟩ := Scheduler.enterIdle_cases hcore
  · apply Stirs.of_looks (w := w)
    rw [Looks]
    change match Function.update s.core.phase w .exited w with
      | .scan | .hold _ | .exited => True
      | .spare => _
      | .idle => _
    rw [Function.update_self]
    trivial
  · refine h.of_other (w := w) ?_ rfl rfl fun v hv => ⟨Function.update_of_ne hv .., rfl,
      Function.update_of_ne hv ..⟩
    rw [Looks, hw]
    exact Bool.eq_false_iff.mp hterm

/-- What stirs after a step that is no missed test. -/
theorem Awake.stirs_step (h : Awake tid s) (hnoticed : s.Noticed a) (ht : s.step tid a = some t)
    (htasks : t.core.tasks ≠ []) : t.Stirs := by
  -- a step stirs by itself, or leaves what stirred before
  cases a with
  | schedulerLock c fc =>
    simp only [step] at ht
    split_ifs at ht with hθ
    obtain rfl := Option.some.inj ht
    exact stirs_schedulerLock hθ h.stirs
  | dispatch w fc =>
    simp only [step] at ht
    split_ifs at ht with hw
    obtain rfl := Option.some.inj ht
    exact stirs_schedulerLock hw.2.2 h.stirs
  | tickle c =>
    simp only [step] at ht
    split_ifs at ht
    obtain rfl := Option.some.inj ht
    exact stirs_callTickle s (.external c)
  | check θ =>
    simp only [step] at ht
    split_ifs at ht
    all_goals
      obtain rfl := Option.some.inj ht
      have hstirs := h.stirs_check (θ := θ) hnoticed htasks
      simpa [*] using hstirs
  | write θ =>
    simp only [step] at ht
    split_ifs at ht
    obtain rfl := Option.some.inj ht
    exact Or.inl (Nat.succ_ne_zero s.pipe)
  | dequeue w =>
    simp only [step] at ht
    split_ifs at ht
    obtain ⟨⟨tickle_me, core⟩, hcore, rfl⟩ := Option.map_eq_some_iff.mp ht
    exact h.stirs_dequeue hcore htasks
  | finish w term =>
    simp only [step] at ht
    split_ifs at ht
    obtain ⟨core, hcore, rfl⟩ := Option.map_eq_some_iff.mp ht
    obtain ⟨e, _, rfl⟩ := Scheduler.finish_cases hcore
    exact Stirs.of_looks (looks_of_scan (Function.update_self w _ s.core.phase))
  | enterIdle w =>
    simp only [step] at ht
    split_ifs at ht
    obtain ⟨core, hcore, rfl⟩ := Option.map_eq_some_iff.mp ht
    refine (h.stirs ?_).enterIdle hcore
    obtain ⟨_, ⟨_, rfl⟩ | ⟨_, rfl⟩⟩ := Scheduler.enterIdle_cases hcore
    · exact htasks
    · exact htasks
  | stop w =>
    simp only [step] at ht
    split_ifs at ht
    obtain ⟨core, hcore, rfl⟩ := Option.map_eq_some_iff.mp ht
    obtain ⟨_, rfl⟩ := Scheduler.leaveIdle_cases hcore
    exact Stirs.of_looks (looks_of_scan (Function.update_self w _ s.core.phase))
  | yield w =>
    simp only [step] at ht
    split_ifs at ht
    obtain ⟨core, hcore, rfl⟩ := Option.map_eq_some_iff.mp ht
    obtain ⟨_, rfl⟩ := Scheduler.leaveIdle_cases hcore
    exact Stirs.of_looks (looks_of_scan (Function.update_self w _ s.core.phase))
  | poll w =>
    simp only [step] at ht
    split_ifs at ht with hw
    obtain rfl := Option.some.inj ht
    exact (h.stirs htasks).setIdleAt hw nofun
  | block w =>
    simp only [step] at ht
    split_ifs at ht with hw
    obtain rfl := Option.some.inj ht
    exact (h.stirs htasks).setIdleAt hw nofun
  | interrupt w =>
    simp only [step] at ht
    split_ifs at ht with hw
    obtain rfl := Option.some.inj ht
    exact (h.stirs htasks).setIdleAt hw nofun
  | wake w =>
    simp only [step] at ht
    split_ifs at ht with hw
    obtain rfl := Option.some.inj ht
    have hwoken : (s.setIdleAt w .woken).idleAt w = .woken := Function.update_self ..
    exact Stirs.of_looks ((looks_iff_woken (s := s.setIdleAt w .woken) hw.1).mpr hwoken)
  | drain w =>
    simp only [step] at ht
    split_ifs at ht with hw
    obtain rfl := Option.some.inj ht
    exact Stirs.of_looks (w := w) ((looks_iff_woken hw.1).mpr hw.2.1)

/-- A step of the scheduler adds the task of `schedulerLock`, and no other. -/
theorem unpinned_core_step {core core' : Scheduler n} {b : Scheduler.Act n} (hb : Unpinning b)
    (h : ∀ e ∈ core.tasks, e.Unpinned) (ht : core.step tid b = some core') :
    ∀ e ∈ core'.tasks, e.Unpinned := by
  cases b with
  | schedulerLock fc thread =>
    obtain rfl := Option.some.inj ht
    intro e he
    rcases Scheduler.mem_schedulerLock he with he | htask
    · exact h e he
    · rw [Entry.Unpinned, htask, show thread = -1 from hb]
      cases fc <;> rfl
  | dequeue w =>
    obtain ⟨⟨tickle_me, core''⟩, hcore, rfl⟩ := Option.map_eq_some_iff.mp ht
    obtain ⟨_, ⟨pre, e, post, htasks, _, _, rfl⟩ | ⟨_, rfl⟩⟩ := Scheduler.dequeue_cases hcore
    · intro x hx
      apply h x
      rw [htasks]
      rcases List.mem_append.mp hx with hx | hx
      · exact List.mem_append_left _ hx
      · exact List.mem_append_right _ (List.mem_cons_of_mem _ hx)
    · exact h
  | finish w term =>
    obtain ⟨e, _, rfl⟩ := Scheduler.finish_cases ht
    exact h
  | enterIdle w =>
    obtain ⟨_, ⟨_, rfl⟩ | ⟨_, rfl⟩⟩ := Scheduler.enterIdle_cases ht
    · exact h
    · exact h
  | leaveIdle w term =>
    obtain ⟨_, rfl⟩ := Scheduler.leaveIdle_cases ht
    exact h

/-- The step lemma. -/
theorem Awake.step (h : Awake tid s) (hnoticed : s.Noticed a) (ht : s.step tid a = some t) :
    Awake tid t where
  conserved := by
    rcases core_step ht with hcore | ⟨b, _, hb⟩
    · rw [hcore]
      exact h.conserved
    · exact h.conserved.step hb
  unpinned := by
    rcases core_step ht with hcore | ⟨b, hpin, hb⟩
    · rw [hcore]
      exact h.unpinned
    · exact unpinned_core_step hpin h.unpinned hb
  stirs := h.stirs_step hnoticed ht

/-! ## Runs -/

/-- **No wakeup is lost** in a run without a missed test: never does a task wait while every worker
is in `epoll_wait`, the pipe is empty, and nobody is in a call of `tickle`. -/
theorem not_stuck_of_exec {as : List (Act n)} (hnoticed : Guarded (step tid) Noticed (start n) as)
    (h : exec (step tid) (start n) as = some s) : ¬ s.Stuck :=
  (exec_invariant_of_guarded (I := Awake tid) (fun _ _ _ hi hg ht => hi.step hg ht)
    (awake_start tid) hnoticed h).not_stuck

/-- A run of one worker and one other thread without a missed test. -/
theorem not_stuck_of_exec_one_worker :
    ∃ s : Wakeup 1, exec (step fun _ => 7) (start 1) [.dequeue 0, .enterIdle 0, .poll 0, .block 0,
        .schedulerLock 0 (.cb (some 1)), .check (.external 0), .write (.external 0)] = some s ∧
      s.core.tasks ≠ [] ∧ ¬ s.Stuck := by
  obtain ⟨s, hs⟩ : ∃ s : Wakeup 1, exec (step fun _ => 7) (start 1) [.dequeue 0, .enterIdle 0,
      .poll 0, .block 0, .schedulerLock 0 (.cb (some 1)), .check (.external 0),
      .write (.external 0)] = some s := ⟨_, rfl⟩
  refine ⟨s, hs, ?_, not_stuck_of_exec ?_ hs⟩
  · obtain rfl := Option.some.inj hs
    exact List.cons_ne_nil _ _
  · refine ⟨trivial, fun s₁ h₁ => ⟨trivial, fun s₂ h₂ => ⟨trivial, fun s₃ h₃ => ⟨trivial,
      fun s₄ h₄ => ⟨trivial, fun s₅ h₅ => ⟨?_, fun s₆ h₆ => ⟨trivial, fun _ _ => trivial⟩⟩⟩⟩⟩⟩⟩
    rintro ⟨_, _, _, hspare⟩
    obtain rfl := Option.some.inj h₁
    obtain rfl := Option.some.inj h₂
    obtain rfl := Option.some.inj h₃
    obtain rfl := Option.some.inj h₄
    obtain rfl := Option.some.inj h₅
    exact absurd (hspare 0).1 (by decide)

/-- **A run with a missed test gets stuck**: the worker finds the queue empty, a thread adds a task
and finds no idle worker, and then the worker goes to wait. -/
theorem stuck_of_missed :
    ¬ ∀ (n : ℕ) (tid : Fin n → ℤ) (as : List (Act n)) (s : Wakeup n),
      exec (step tid) (start n) as = some s → ¬ s.Stuck := by
  intro hall
  refine hall 1 (fun _ => 7) [.dequeue 0, .schedulerLock 0 (.cb (some 1)), .check (.external 0),
    .enterIdle 0, .poll 0, .block 0] _ rfl ⟨List.cons_ne_nil _ _, by decide, rfl, fun θ => ?_⟩
  cases θ with
  | worker w =>
    obtain rfl := Subsingleton.elim w 0
    rfl
  | external c =>
    by_cases hc : c = 0
    · subst hc
      rfl
    · have hne : (Thread.external c : Thread 1) ≠ .external 0 := fun heq => hc (Thread.external.inj heq)
      exact (Function.update_of_ne hne ..).trans (Function.update_of_ne hne ..)

end Wakeup

end Dag
