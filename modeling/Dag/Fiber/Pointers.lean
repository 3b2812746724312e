import Dag.Fiber.Discipline

/-!
# The pointers of the scheduler

The tasks in the queue hold the fibers of tasks by shared pointers, and so do the local variables
`task` and `cb_fiber` of `Scheduler::run`, from the queue until behind the return of the resume.
Each step of the scheduler puts a pointer into the queue, makes a fiber with a pointer to it, hands
one on or lets one go; and of the tasks, it uses only those that it points to.

## Main definitions

* `Fibers.PointsTo`: the pointers of the scheduler
* `Fibers.letsGo`: the pointer that a step lets go
* `Fibers.uses`: the fibers whose memory a step reads or writes

## Main results

* `Fibers.step_pointers`: what a step does with the pointers
* `Fibers.Modes.pointsTo_of_uses`: what a step uses of the tasks, the scheduler points to
* `Fibers.m_state_of_notMem_uses`: what a step does not use stays in its state
-/

namespace Dag

open Foundation

/-- The fiber, if it is that of a task. -/
def FiberId.asTask {n : ℕ} : FiberId n → Option (FiberId n)
  | .user i => some (.user i)
  | .made k => some (.made k)
  | .main _ | .scheduling _ | .idle _ => none

/-- The task's fiber that the local variables of `run` point to, `task.fiber` or `cb_fiber`. -/
def RunAt.task {n : ℕ} : RunAt n → Option (FiberId n)
  | .waiting f | .locked f | .wrapped f | .resuming f => f.asTask
  | .loop | .exited => none

namespace Fibers

variable {n : ℕ}

/-- A task in the queue points to the fiber, or a local variable of some `run` does. -/
def PointsTo (s : Fibers n) (f : FiberId n) : Prop :=
  some f ∈ s.m_tasks ∨ ∃ w, (s.thread w).runAt.task = some f

instance (s : Fibers n) : DecidablePred s.PointsTo :=
  fun f => inferInstanceAs (Decidable (some f ∈ s.m_tasks ∨ ∃ w, (s.thread w).runAt.task = some f))

/-- The fiber that a local variable of `run` points to, and behind the step does not. -/
def letsGo (s : Fibers n) : Act n → Option (FiberId n)
  | .enter w =>
    match (s.thread w).runAt with
    | .locked f => if s.m_state f = .term then f.asTask else none
    | _ => none
  | .back w => (s.thread w).runAt.task
  | _ => none

/-- The fibers that a step uses: their mutex, their state, their context. -/
def uses (s : Fibers n) : Act n → List (FiberId n)
  | .schedulerLock _ | .dequeue _ _ => []
  | .stop w => [.scheduling w]
  | .spare w => [.idle w]
  | .lock w | .enter w | .back w =>
    match (s.thread w).runAt with
    | .waiting f | .locked f | .wrapped f | .resuming f => [f]
    | .loop | .exited => []
  | .swap w =>
    match (s.thread w).switch with
    | some (.resume save load) | some (.yield save load) => [save, load]
    | none => []
  | .yield w => [(s.thread w).t_fiber]
  | .finish w | .last w => [(s.thread w).executing]

section Pointers

variable {c : FiberSetup n} {s t : Fibers n} {mode : Fin n → Mode n} {w : Fin n} {f g : FiberId n}
  {a : Act n} {b : RunAt n}

theorem asTask_of_isTask (h : s.IsTask f) : f.asTask = some f := by
  cases f with
  | user | made => rfl
  | main | scheduling | idle => exact h.elim

/-- What `PointsTo` is about. -/
structure SamePointers (s t : Fibers n) : Prop where
  m_tasks : t.m_tasks = s.m_tasks
  runAt : ∀ v, (t.thread v).runAt = (s.thread v).runAt
  created : t.created = s.created

theorem SamePointers.pointsTo_iff (h : SamePointers s t) : t.PointsTo f ↔ s.PointsTo f := by
  simp only [PointsTo, h.m_tasks, h.runAt]

theorem SamePointers.trans {u : Fibers n} (h : SamePointers s t) (h' : SamePointers t u) :
    SamePointers s u :=
  ⟨h'.m_tasks.trans h.m_tasks, fun v => (h'.runAt v).trans (h.runAt v),
    h'.created.trans h.created⟩

/-- A thread stays where it is in `run`. -/
theorem samePointers_of_update {th : FiberThread n}
    (hthread : t.thread = Function.update s.thread w th) (hrun : th.runAt = (s.thread w).runAt)
    (htasks : t.m_tasks = s.m_tasks) (hcreated : t.created = s.created) : SamePointers s t := by
  refine ⟨htasks, ?_, hcreated⟩
  intro v
  rw [hthread]
  by_cases hv : v = w
  · rw [hv, Function.update_self, hrun]
  · rw [Function.update_of_ne hv]

theorem samePointers_resume : SamePointers s (s.resume c w f) := by
  simp only [resume]
  split_ifs
  · exact samePointers_of_update rfl rfl rfl rfl
  · exact ⟨rfl, fun _ => rfl, rfl⟩

theorem samePointers_yield : SamePointers s (s.yield c w f) := by
  rw [Fibers.yield]
  split_ifs
  · exact samePointers_of_update rfl rfl rfl rfl
  · exact samePointers_of_update rfl rfl rfl rfl
  · exact ⟨rfl, fun _ => rfl, rfl⟩

theorem samePointers_swap (ht : s.swap w = some t) : SamePointers s t := by
  simp only [Fibers.swap] at ht
  split at ht
  · obtain ⟨flow, -, rfl⟩ := Option.map_eq_some_iff.mp ht
    exact samePointers_of_update rfl rfl rfl rfl
  · obtain ⟨flow, -, rfl⟩ := Option.map_eq_some_iff.mp ht
    exact samePointers_of_update rfl rfl rfl rfl
  · cases ht

/-- The pointers, with those of one thread apart. -/
theorem pointsTo_iff (s : Fibers n) (w : Fin n) (f : FiberId n) : s.PointsTo f ↔
    some f ∈ s.m_tasks ∨ (s.thread w).runAt.task = some f ∨
      ∃ v, v ≠ w ∧ (s.thread v).runAt.task = some f := by
  rw [PointsTo]
  apply or_congr_right
  constructor
  · rintro ⟨v, hv⟩
    by_cases hvw : v = w
    · exact .inl (hvw ▸ hv)
    · exact .inr ⟨v, hvw, hv⟩
  · rintro (hw | ⟨v, -, hv⟩)
    · exact ⟨w, hw⟩
    · exact ⟨v, hv⟩

theorem pointsTo_setRunAt : (s.setRunAt w b).PointsTo f ↔
    some f ∈ s.m_tasks ∨ b.task = some f ∨ ∃ v, v ≠ w ∧ (s.thread v).runAt.task = some f := by
  rw [pointsTo_iff _ w, setRunAt, setThread_self]
  apply or_congr_right
  apply or_congr_right
  apply exists_congr
  intro v
  apply and_congr_right
  intro hv
  rw [setThread_of_ne _ hv]

/-- A thread that goes on in `run` with the same pointer. -/
theorem pointsTo_setRunAt_of_eq (h : b.task = (s.thread w).runAt.task) :
    (s.setRunAt w b).PointsTo f ↔ s.PointsTo f := by
  rw [pointsTo_setRunAt, pointsTo_iff s w, h]

/-- A thread whose pointer goes: of the other fibers nothing changes. -/
theorem pointsTo_setRunAt_of_ne (hb : b.task = none) (h : (s.thread w).runAt.task ≠ some f) :
    (s.setRunAt w b).PointsTo f ↔ s.PointsTo f := by
  rw [pointsTo_setRunAt, pointsTo_iff s w, hb]
  simp [h]

theorem mem_eraseIdx_iff {α : Type} {l : List α} {k : ℕ} {x y : α} (hk : l[k]? = some x) :
    y ∈ l ↔ y ∈ l.eraseIdx k ∨ y = x := by
  rw [List.mem_iff_getElem?, List.mem_eraseIdx_iff_getElem?]
  constructor
  · rintro ⟨i, hi⟩
    by_cases hik : i = k
    · rw [hik, hk] at hi
      exact .inr (Option.some.inj hi).symm
    · exact .inl ⟨i, hik, hi⟩
  · rintro (⟨i, -, hi⟩ | rfl)
    · exact ⟨i, hi⟩
    · exact ⟨k, hk⟩

/-- **What a step does with the pointers of the scheduler**: it adds one of the task that is put
into the queue, or one of the fiber that it makes for a callback, or it lets one go, at most. -/
theorem step_pointers (hqueue : ∀ x, some x ∈ s.m_tasks → s.IsTask x) (ht : s.step c a = some t) :
    (∃ f, a = .schedulerLock (some f) ∧ s.letsGo a = none ∧ s.IsTask f ∧ t.created = s.created ∧
      ∀ g, t.PointsTo g ↔ s.PointsTo g ∨ g = f) ∨
    (s.letsGo a = none ∧ t.created = s.created + 1 ∧
      ∀ g, t.PointsTo g ↔ s.PointsTo g ∨ g = .made s.created) ∨
    (t.created = s.created ∧ (∀ g, s.letsGo a = some g → s.PointsTo g) ∧
      ∀ g, s.letsGo a ≠ some g → (t.PointsTo g ↔ s.PointsTo g)) := by
  have same : s.letsGo a = none → SamePointers s t →
      t.created = s.created ∧ (∀ g, s.letsGo a = some g → s.PointsTo g) ∧
        ∀ g, s.letsGo a ≠ some g → (t.PointsTo g ↔ s.PointsTo g) := by
    intro hnone h
    rw [hnone]
    exact ⟨h.created, by rintro g ⟨⟩, fun g _ => h.pointsTo_iff⟩
  cases a with
  | schedulerLock task =>
    cases task with
    | none =>
      obtain rfl := Option.some.inj ht
      refine .inr (.inr ⟨rfl, by rintro g ⟨⟩, fun g _ => ?_⟩)
      simp [PointsTo]
    | some f =>
      simp only [step] at ht
      split_ifs at ht with htask
      obtain rfl := Option.some.inj ht
      refine .inl ⟨f, rfl, rfl, htask, rfl, fun g => ?_⟩
      simp only [PointsTo, List.mem_append, List.mem_singleton, Option.some.injEq]
      exact or_right_comm
  | stop w =>
    simp only [step] at ht
    split_ifs at ht
    obtain rfl := Option.some.inj ht
    refine .inr (.inr (same rfl (SamePointers.trans ?_ samePointers_resume)))
    exact samePointers_of_update rfl rfl rfl rfl
  | dequeue w k =>
    simp only [step] at ht
    split_ifs at ht with hrun
    have hloop : (s.thread w).runAt.task = none := by rw [hrun.2.2]; rfl
    split at ht
    next f hk =>
      obtain rfl := Option.some.inj ht
      have htask := hqueue f (List.mem_of_getElem? hk)
      refine .inr (.inr ⟨rfl, by rintro g ⟨⟩, fun g _ => ?_⟩)
      rw [pointsTo_setRunAt, pointsTo_iff s w, mem_eraseIdx_iff hk, hloop, or_assoc, RunAt.task,
        asTask_of_isTask htask, Option.some.injEq, Option.some.injEq, @eq_comm _ g f]
      simp
    next hk =>
      obtain rfl := Option.some.inj ht
      refine .inr (.inl ⟨rfl, rfl, fun g => ?_⟩)
      rw [pointsTo_setRunAt, pointsTo_iff s w, mem_eraseIdx_iff hk, hloop]
      simp [RunAt.task, FiberId.asTask, eq_comm, or_comm, or_left_comm]
    next => cases ht
  | spare w =>
    simp only [step] at ht
    split_ifs at ht with hrun hterm
    · obtain rfl := Option.some.inj ht
      refine .inr (.inr ⟨rfl, by rintro g ⟨⟩, fun g _ => pointsTo_setRunAt_of_eq ?_⟩)
      rw [hrun.2.2]
      rfl
    · obtain rfl := Option.some.inj ht
      refine .inr (.inr ⟨samePointers_resume.created, by rintro g ⟨⟩, fun g _ => ?_⟩)
      rw [samePointers_resume.pointsTo_iff]
      apply pointsTo_setRunAt_of_eq
      rw [hrun.2.2]
      rfl
  | lock w =>
    simp only [step] at ht
    split at ht
    next f hat =>
      split_ifs at ht
      obtain rfl := Option.some.inj ht
      refine .inr (.inr ⟨rfl, by rintro g ⟨⟩, fun g _ => pointsTo_setRunAt_of_eq ?_⟩)
      change _ = (s.thread w).runAt.task
      rw [hat]
      rfl
    next => cases ht
  | enter w =>
    simp only [step] at ht
    split at ht
    next f hat =>
      split_ifs at ht with hrun hterm
      · obtain rfl := Option.some.inj ht
        have hnone : s.letsGo (.enter w) = none := by simp [letsGo, hat, hterm]
        rw [hnone]
        refine .inr (.inr ⟨samePointers_resume.created, by rintro g ⟨⟩, fun g _ => ?_⟩)
        rw [samePointers_resume.pointsTo_iff]
        apply pointsTo_setRunAt_of_eq
        rw [hat]
        rfl
      · obtain rfl := Option.some.inj ht
        have hgo : s.letsGo (.enter w) = (s.thread w).runAt.task := by
          simp [letsGo, hat, not_not.mp hterm, RunAt.task]
        rw [hgo]
        refine .inr (.inr ⟨rfl, fun g hg => .inr ⟨w, hg⟩, fun g hg => ?_⟩)
        exact pointsTo_setRunAt_of_ne rfl hg
    next f hat =>
      split_ifs at ht with hrun
      obtain rfl := Option.some.inj ht
      have hnone : s.letsGo (.enter w) = none := by simp [letsGo, hat]
      rw [hnone]
      refine .inr (.inr ⟨samePointers_resume.created, by rintro g ⟨⟩, fun g _ => ?_⟩)
      rw [samePointers_resume.pointsTo_iff]
      apply pointsTo_setRunAt_of_eq
      rw [hat]
      rfl
    next => cases ht
  | swap w => exact .inr (.inr (same rfl (samePointers_swap ht)))
  | back w =>
    simp only [step] at ht
    split at ht
    next f hat =>
      split_ifs at ht with hrun hidle
      · obtain rfl := Option.some.inj ht
        refine .inr (.inr ⟨rfl, fun g hg => .inr ⟨w, hg⟩, fun g hg => ?_⟩)
        exact pointsTo_setRunAt_of_ne rfl hg
      · obtain rfl := Option.some.inj ht
        refine .inr (.inr ⟨rfl, fun g hg => .inr ⟨w, hg⟩, fun g hg => ?_⟩)
        exact pointsTo_setRunAt_of_ne rfl hg
    next => cases ht
  | yield w =>
    simp only [step] at ht
    split_ifs at ht
    obtain rfl := Option.some.inj ht
    exact .inr (.inr (same rfl samePointers_yield))
  | finish w =>
    simp only [step] at ht
    split_ifs at ht
    obtain rfl := Option.some.inj ht
    exact .inr (.inr (same rfl ⟨rfl, fun _ => rfl, rfl⟩))
  | last w =>
    simp only [step] at ht
    split_ifs at ht
    obtain rfl := Option.some.inj ht
    exact .inr (.inr (same rfl samePointers_yield))

end Pointers

/-! ## Pointers and modes -/

section Modes

variable {c : FiberSetup n} {s t : Fibers n} {mode : Fin n → Mode n} {w : Fin n} {f g : FiberId n}
  {a : Act n}

/-- The guest of a thread, if it is a task, is one that its `run` points to. -/
theorem Modes.task_of_holds (h : s.Modes c False mode) (hholds : (mode w).holds = some f) :
    (s.thread w).runAt.task = f.asTask := by
  obtain ⟨-, -, hat, -⟩ := h.thread_eq w
  rw [hat]
  cases hm : mode w with
  | home a =>
    rw [hm] at hholds
    cases a with
    | locked g | wrapped g | resuming g =>
      obtain rfl := Option.some.inj hholds
      rfl
    | loop | waiting | exited => cases hholds
  | entering g | inside g | leaving g =>
    rw [hm] at hholds
    obtain rfl := Option.some.inj hholds
    rfl
  | before | starting | closing | after =>
    rw [hm] at hholds
    cases hholds

/-- A thread that executes a task, outside of a switch. -/
theorem Modes.in_task (h : s.Modes c False mode) (htask : s.IsTask (s.thread w).executing)
    (hswitch : (s.thread w).switch = none) :
    mode w = .inside (s.thread w).executing ∧ (s.thread w).t_fiber = (s.thread w).executing ∧
      s.PointsTo (s.thread w).executing := by
  have hm := h.eq_inside (isGuest_of_isTask htask) hswitch
  have hholds : (mode w).holds = some (s.thread w).executing := by
    rw [hm]
    rfl
  exact ⟨hm, h.current hm, .inr ⟨w, (h.task_of_holds hholds).trans (asTask_of_isTask htask)⟩⟩

/-- **What a step uses** of the tasks, the scheduler points to. -/
theorem Modes.pointsTo_of_uses (h : s.Modes c False mode) (ht : s.step c a = some t)
    (hf : f ∈ s.uses a) (htask : f.asTask = some f) : s.PointsTo f := by
  have hrun : ∀ {w}, (s.thread w).runAt.task = f.asTask → s.PointsTo f :=
    fun hw => .inr ⟨_, hw.trans htask⟩
  cases a with
  | schedulerLock | dequeue => cases hf
  | stop w =>
    obtain rfl := List.mem_singleton.mp hf
    cases htask
  | spare w =>
    obtain rfl := List.mem_singleton.mp hf
    cases htask
  | lock w | enter w | back w =>
    cases hat : (s.thread w).runAt with
    | waiting g | locked g | wrapped g | resuming g =>
      simp only [uses, hat, List.mem_singleton] at hf
      rw [hf] at hrun ⊢
      exact hrun (w := w) (by rw [hat]; rfl)
    | loop | exited =>
      simp only [uses, hat] at hf
      cases hf
  | swap w =>
    obtain ⟨-, hswitch, -⟩ := h.thread_eq w
    have hslot : ∀ g : FiberId n, f = c.slotOf w g → s.PointsTo f := by
      rintro g rfl
      rcases slotOf_eq c w g with heq | heq
      · rw [heq] at htask
        cases htask
      · rw [heq] at htask
        cases htask
    cases hm : mode w with
    | starting | closing =>
      rw [hm] at hswitch
      simp only [uses, hswitch, Mode.thread, List.mem_cons, List.not_mem_nil, or_false] at hf
      obtain rfl | rfl := hf <;> cases htask
    | entering g =>
      have hholds : (mode w).holds = some g := by rw [hm]; rfl
      rw [hm] at hswitch
      simp only [uses, hswitch, Mode.thread, List.mem_cons, List.not_mem_nil, or_false] at hf
      obtain hf | rfl := hf
      · exact hslot g hf
      · exact hrun (h.task_of_holds hholds)
    | leaving g =>
      have hholds : (mode w).holds = some g := by rw [hm]; rfl
      rw [hm] at hswitch
      simp only [uses, hswitch, Mode.thread, List.mem_cons, List.not_mem_nil, or_false] at hf
      obtain rfl | hf := hf
      · exact hrun (h.task_of_holds hholds)
      · exact hslot g hf
    | before | home | inside | after =>
      rw [hm] at hswitch
      simp only [uses, hswitch, Mode.thread] at hf
      cases hf
  | yield w =>
    simp only [Fibers.step] at ht
    split_ifs at ht with hcond
    obtain ⟨hguest, hswitch, -⟩ := hcond
    have hm := h.eq_inside hguest hswitch
    obtain rfl := List.mem_singleton.mp hf
    rw [h.current hm] at hrun htask ⊢
    exact hrun (h.task_of_holds (by rw [hm]; rfl))
  | finish w =>
    simp only [Fibers.step] at ht
    split_ifs at ht with hcond
    obtain ⟨hguest | ⟨hexec, -⟩, hswitch, -⟩ := hcond
    · have hm := h.eq_inside hguest hswitch
      obtain rfl := List.mem_singleton.mp hf
      exact hrun (h.task_of_holds (by rw [hm]; rfl))
    · obtain rfl := List.mem_singleton.mp hf
      rw [hexec] at htask
      cases htask
  | last w =>
    simp only [Fibers.step] at ht
    split_ifs at ht with hcond
    obtain ⟨hswitch, hterm⟩ := hcond
    obtain rfl := List.mem_singleton.mp hf
    obtain hm | ⟨-, -, hexec⟩ := h.eq_of_term hterm hswitch
    · exact hrun (h.task_of_holds (by rw [hm]; rfl))
    · rw [hexec] at htask
      cases htask

/-- The fiber of a task that the scheduler does not point to is not running. -/
theorem Modes.not_running (h : s.Modes c False mode) (htask : f.asTask = some f)
    (hf : ¬ s.PointsTo f) : s.m_state f ≠ .running := by
  have hguest : IsGuest f := by
    cases f with
    | user | made => trivial
    | main | scheduling | idle => cases htask
  apply (h.rest f hguest _).1
  intro w hholds
  exact hf (.inr ⟨w, (h.task_of_holds hholds).trans htask⟩)

/-- A task that is executed, in a switch or not, is one that the scheduler points to. -/
theorem Modes.pointsTo_of_executing (h : s.Modes c False mode) (htask : f.asTask = some f)
    (hexec : (s.thread w).executing = f) : s.PointsTo f := by
  obtain ⟨hexec', -⟩ := h.thread_eq w
  rw [hexec] at hexec'
  have hholds : (mode w).holds = some f → s.PointsTo f :=
    fun hholds => .inr ⟨w, (h.task_of_holds hholds).trans htask⟩
  have hrun : f ≠ c.runFiber w := by
    rintro rfl
    rcases runFiber_eq c w with heq | heq <;> rw [heq] at htask <;> cases htask
  cases hm : mode w with
  | inside g | leaving g =>
    rw [hm] at hexec' hholds
    exact hholds (congrArg some hexec'.symm)
  | home | entering =>
    rw [hm] at hexec'
    exact absurd hexec' hrun
  | before | starting | closing | after =>
    rw [hm] at hexec'
    rw [hexec'] at htask
    cases htask

end Modes

theorem resume_m_state {c : FiberSetup n} {s : Fibers n} {w : Fin n} {f g : FiberId n} (h : f ≠ g) :
    (s.resume c w g).m_state f = s.m_state f := by
  simp only [resume]
  split_ifs
  · exact Function.update_of_ne h _ _
  · rfl

theorem yield_m_state {c : FiberSetup n} {s : Fibers n} {w : Fin n} {f g : FiberId n} (h : f ≠ g) :
    (s.yield c w g).m_state f = s.m_state f := by
  unfold Fibers.yield
  split_ifs
  · rfl
  · exact Function.update_of_ne h _ _
  · rfl

/-- A fiber that a step does not use stays in its state. -/
theorem m_state_of_notMem_uses {c : FiberSetup n} {s t : Fibers n} {f : FiberId n} {a : Act n}
    (ht : s.step c a = some t) (hf : f ∉ s.uses a) : t.m_state f = s.m_state f := by
  cases a with
  | schedulerLock task =>
    cases task with
    | none =>
      obtain rfl := Option.some.inj ht
      rfl
    | some g =>
      simp only [step] at ht
      split_ifs at ht
      obtain rfl := Option.some.inj ht
      rfl
  | dequeue w k =>
    simp only [step] at ht
    split_ifs at ht
    split at ht
    · obtain rfl := Option.some.inj ht
      rfl
    · obtain rfl := Option.some.inj ht
      rfl
    · cases ht
  | stop w =>
    simp only [step] at ht
    split_ifs at ht
    obtain rfl := Option.some.inj ht
    exact resume_m_state (List.ne_of_not_mem_cons hf)
  | spare w =>
    simp only [step] at ht
    split_ifs at ht
    · obtain rfl := Option.some.inj ht
      rfl
    · obtain rfl := Option.some.inj ht
      exact resume_m_state (List.ne_of_not_mem_cons hf)
  | lock w =>
    simp only [step] at ht
    split at ht
    · split_ifs at ht
      obtain rfl := Option.some.inj ht
      rfl
    · cases ht
  | enter w =>
    simp only [step] at ht
    split at ht
    next g hat =>
      simp only [uses, hat, List.mem_singleton] at hf
      split_ifs at ht
      · obtain rfl := Option.some.inj ht
        exact resume_m_state hf
      · obtain rfl := Option.some.inj ht
        rfl
    next g hat =>
      simp only [uses, hat, List.mem_singleton] at hf
      split_ifs at ht
      obtain rfl := Option.some.inj ht
      exact resume_m_state hf
    next => cases ht
  | swap w => rw [(swap_cases ht).2]
  | back w =>
    simp only [step] at ht
    split at ht
    · split_ifs at ht
      · obtain rfl := Option.some.inj ht
        rfl
      · obtain rfl := Option.some.inj ht
        rfl
    · cases ht
  | yield w =>
    simp only [step] at ht
    split_ifs at ht
    obtain rfl := Option.some.inj ht
    exact yield_m_state (List.ne_of_not_mem_cons hf)
  | finish w =>
    simp only [step] at ht
    split_ifs at ht
    obtain rfl := Option.some.inj ht
    exact Function.update_of_ne (List.ne_of_not_mem_cons hf) _ _
  | last w =>
    simp only [step] at ht
    split_ifs at ht
    obtain rfl := Option.some.inj ht
    exact yield_m_state (List.ne_of_not_mem_cons hf)

end Fibers

end Dag
