import Dag.Fiber.Switch
import Dag.Hook.Sleep
import Dag.Timer.Holders
import Dag.Foundation.Census

/-!
# Sleeping fibers

A fiber that calls the hooked `sleep`, `usleep` or `nanosleep` arms a timer and yields. Some worker
finds the timer expired in `idle`, and puts its callback into the queue; some worker takes the
callback, which puts the fiber into the queue; and some worker takes the fiber and resumes it. All
that may happen before the fiber has yielded: `run` resumes a fiber under its `m_mutex`, which is
held until the fiber has yielded.

The state here is the timers, the queue, and what each worker is doing; which of the tasks a worker
takes from the queue is left open, and so is when it looks for expired timers. Threads outside put
fibers and other callbacks into the queue, and use other timers of the same manager. The clock is read
before the lock of the timers is taken, by `addTimer` and once by `listExpiredCb`, so that these
readings may be older than others; `listExpiredCb` reads it again under the lock. The lists `launched`,
`slept` and `woken` record what has happened, and no step reads them; nor does one read `clock`, the
latest of the readings, and `due`, the time until which a fiber has asked to sleep.

## Main definitions

* `Sleepers`, `Sleepers.step`: the workers and the fibers
* `Sleepers.Careful`: a fiber is put into the queue by others only to start it, and no two timers
  have one deadline
* `Sleepers.Timely`: the clock does not go back, and the sleeps fit
* `Sleepers.Waiting`: the fiber is to be resumed
* `Sleepers.tokens`: how often the fiber is on its way to a resume

## Main results

* `Sleepers.Inv.step`: every step keeps the invariant
* `Sleepers.woken_of_exec`: every sleep is followed by one resume
* `Sleepers.punctual_of_exec`: which does not come early
-/

namespace Dag

open Foundation

/-- A callback: that of a sleep, which schedules its fiber, or another one. -/
inductive SleepCb
  | wake (f : ℕ)
  | other (c : ℕ)
  deriving DecidableEq, Repr

/-- A task in the queue. -/
inductive SleepTask
  | fiber (f : ℕ)
  | cb (c : SleepCb)
  deriving DecidableEq, Repr

/-- What a worker is doing. -/
inductive Duty
  /-- it looks for a task, or is in `idle` -/
  | free
  /-- in `idle`, with expired callbacks that are not in the queue yet -/
  | scheduling (cbs : List (Option SleepCb))
  /-- it has taken the fiber, and is before `resume` -/
  | taken (f : ℕ)
  /-- in the fiber -/
  | inside (f : ℕ)
  /-- in the fiber, which is in a sleep, behind `addTimer` -/
  | armed (f : ℕ)
  /-- in the callback -/
  | calling (c : SleepCb)
  deriving DecidableEq, Repr

/-- What a worker does with a task that it has taken. -/
def SleepTask.duty : SleepTask → Duty
  | .fiber f => .taken f
  | .cb c => .calling c

/-- The worker holds the fiber's `m_mutex`: it has resumed the fiber, which has not yielded. -/
def Duty.Runs (f : ℕ) (d : Duty) : Prop := d = .inside f ∨ d = .armed f

instance (f : ℕ) : DecidablePred (Duty.Runs f) := fun d =>
  inferInstanceAs (Decidable (d = .inside f ∨ d = .armed f))

/-- How often the worker is to bring the fiber to its resume. -/
def Duty.tokens (f : ℕ) : Duty → ℕ
  | .scheduling cbs => cbs.count (some (.wake f))
  | .taken g => if g = f then 1 else 0
  | .calling c => if c = .wake f then 1 else 0
  | .free | .inside _ | .armed _ => 0

/-- The task leads to a resume of the fiber. -/
def SleepTask.Wakes (f : ℕ) (task : SleepTask) : Prop := task = .fiber f ∨ task = .cb (.wake f)

instance (f : ℕ) : DecidablePred (SleepTask.Wakes f) := fun task =>
  inferInstanceAs (Decidable (task = .fiber f ∨ task = .cb (.wake f)))

/-- A resume of a fiber, the time until which it has asked to sleep, and the latest reading of the
clock. -/
structure Wake where
  fiber : ℕ
  due : ℤ
  clock : ℤ
  deriving DecidableEq, Repr

/-- A scheduler with `n` workers, its timers and its fibers. -/
structure Sleepers (n : ℕ) where
  manager : TimerManager SleepCb
  tasks : List SleepTask
  duty : Fin n → Duty
  m_state : ℕ → FiberState
  asserted : Bool
  dropped : List ℕ
  clock : ℤ
  due : ℕ → ℤ
  launched : List ℕ
  slept : List ℕ
  woken : List Wake

namespace Sleepers

variable {n : ℕ}

/-- Nothing has happened yet, at `now`. -/
def start (n : ℕ) (now : ℤ) : Sleepers n where
  manager := TimerManager.construct now
  tasks := []
  duty := fun _ => .free
  m_state := fun _ => .ready
  asserted := false
  dropped := []
  clock := now
  due := fun _ => now
  launched := []
  slept := []
  woken := []

/-- The steps. -/
inductive Act (n : ℕ)
  /-- `schedulerLock(fiber)`, of a fiber that is to start -/
  | launch (f : ℕ)
  /-- `schedulerLock(cb)`, of another callback -/
  | post (c : ℕ)
  /-- worker `w` takes the `k`-th task of the queue -/
  | dequeue (w : Fin n) (k : ℕ)
  /-- it locks the `m_mutex` of its fiber, and resumes it -/
  | resume (w : Fin n)
  /-- its fiber calls one of the hooked functions, up to `yield` -/
  | sleep (w : Fin n) (now : ℤ) (c : SleepCall)
  /-- and yields -/
  | yield (w : Fin n)
  /-- its fiber ends -/
  | finish (w : Fin n)
  /-- it runs its callback -/
  | call (w : Fin n)
  /-- it calls `listExpiredCb` -/
  | listExpiredCb (w : Fin n) (fuel : ℕ) (now now' : ℤ)
  /-- it calls `schedulerLock` for the next of the callbacks -/
  | schedule (w : Fin n)
  /-- another call on the timers -/
  | timer (c : TimerCall SleepCb)
  deriving DecidableEq, Repr

/-- A call on the timers that is not made by `idle`. -/
def Outside : TimerCall SleepCb → Prop
  | .listExpiredCb .. => False
  | _ => True

instance : DecidablePred Outside
  | .listExpiredCb .. => inferInstanceAs (Decidable False)
  | .addTimer .. | .cancel _ | .refresh .. | .reset .. | .getNextTimer _ =>
    inferInstanceAs (Decidable True)

/-- `Fiber::resume()`, on worker `w`. -/
def enter (s : Sleepers n) (w : Fin n) (f : ℕ) : Sleepers n :=
  { s with
    -- `assert(m_state==READY)`
    asserted := s.asserted || !decide (s.m_state f = .ready)
    m_state := Function.update s.m_state f .running
    woken := s.woken ++ [⟨f, s.due f, s.clock⟩]
    duty := Function.update s.duty w (.inside f) }

/-- One step. -/
def step (s : Sleepers n) : Act n → Option (Sleepers n)
  | .launch f => some { s with tasks := s.tasks ++ [.fiber f], launched := s.launched ++ [f] }
  | .post c => some { s with tasks := s.tasks ++ [.cb (.other c)] }
  | .dequeue w k =>
    if s.duty w = .free then
      (s.tasks[k]?).map fun task => { s with
        tasks := s.tasks.eraseIdx k
        duty := Function.update s.duty w task.duty }
    else none
  | .resume w =>
    match s.duty w with
    | .taken f =>
      -- the mutex is free
      if ∀ v, ¬ (s.duty v).Runs f then
        -- a fiber that has ended is dropped
        if s.m_state f ≠ .term then some (s.enter w f)
        else some { s with
          dropped := s.dropped ++ [f]
          duty := Function.update s.duty w .free }
      else none
    | _ => none
  | .sleep w now c =>
    match s.duty w with
    | .inside f => some { s with
        manager := (c.arm s.manager now (.wake f)).2
        clock := max s.clock now
        due := Function.update s.due f (now + c.requested)
        slept := s.slept ++ [f]
        duty := Function.update s.duty w (.armed f) }
    | _ => none
  | .yield w =>
    match s.duty w with
    | .armed f => some { s with
        m_state := Function.update s.m_state f .ready
        duty := Function.update s.duty w .free }
    | _ => none
  | .finish w =>
    match s.duty w with
    | .inside f => some { s with
        m_state := Function.update s.m_state f .term
        duty := Function.update s.duty w .free }
    | _ => none
  | .call w =>
    match s.duty w with
    | .calling (.wake f) => some { s with
        tasks := s.tasks ++ [.fiber f]
        duty := Function.update s.duty w .free }
    | .calling (.other _) => some { s with duty := Function.update s.duty w .free }
    | _ => none
  | .listExpiredCb w fuel now now' =>
    if s.duty w = .free then
      (s.manager.listExpiredCb fuel now now').map fun r => { s with
        manager := r.2
        clock := now'
        duty := Function.update s.duty w (.scheduling r.1) }
    else none
  | .schedule w =>
    match s.duty w with
    | .scheduling [] => some { s with duty := Function.update s.duty w .free }
    -- a null callback is not accepted
    | .scheduling (none :: cbs) => some { s with
        duty := Function.update s.duty w (.scheduling cbs) }
    | .scheduling (some c :: cbs) => some { s with
        tasks := s.tasks ++ [.cb c]
        duty := Function.update s.duty w (.scheduling cbs) }
    | _ => none
  | .timer c =>
    if Outside c then (s.manager.step c).map fun m => { s with manager := m } else none

/-! ## What is asked of the user, and of the clock -/

/-- The call is on none of the timers of sleeps, and adds none. -/
def Foreign (m : TimerManager SleepCb) (c : TimerCall SleepCb) : Prop :=
  (∀ t ∈ c.timer?, ∀ f, (m.timer t).cb ≠ some (.wake f)) ∧ ∀ f, ¬ c.Adds (.wake f)

/-- **A fiber is put into the queue by others only to start it, and no deadline is assigned that
another timer of the set has.** -/
def Careful (s : Sleepers n) : Act n → Prop
  | .launch f => f ∉ s.launched
  | .sleep _ now c => ∀ u ∈ s.manager.timers, s.manager.next u ≠ addMs now c.ms.toNat
  | .listExpiredCb _ fuel now now' => s.manager.Fresh (.listExpiredCb fuel now now')
  | .timer c => s.manager.Fresh c ∧ Foreign s.manager c
  | _ => True

instance : ∀ o : Option SleepCb, Decidable (∀ f, o ≠ some (.wake f))
  | none => isTrue nofun
  | some (.other _) => isTrue nofun
  | some (.wake f) => isFalse fun h => h f rfl

instance : ∀ c : TimerCall SleepCb, Decidable (∀ f, ¬ c.Adds (.wake f))
  | .addTimer _ _ (.wake f) _ => isFalse fun h => h f rfl
  | .addTimer _ _ (.other _) _ => isTrue nofun
  | .cancel _ | .refresh .. | .reset .. | .getNextTimer _ | .listExpiredCb .. =>
    isTrue fun _ => id

instance (m : TimerManager SleepCb) : DecidablePred (Foreign m) :=
  fun _ => inferInstanceAs (Decidable (_ ∧ _))

instance (s : Sleepers n) : DecidablePred s.Careful
  | .launch f => inferInstanceAs (Decidable (f ∉ s.launched))
  | .sleep _ now c => inferInstanceAs (Decidable
      (∀ u ∈ s.manager.timers, s.manager.next u ≠ addMs now c.ms.toNat))
  | .listExpiredCb _ fuel now now' =>
    inferInstanceAs (Decidable (s.manager.Fresh (.listExpiredCb fuel now now')))
  | .timer c => inferInstanceAs (Decidable (s.manager.Fresh c ∧ Foreign s.manager c))
  | .post _ | .dequeue .. | .resume _ | .yield _ | .finish _ | .call _ | .schedule _ =>
    inferInstanceAs (Decidable True)

/-- The clock does not go back, and fits in 64 bits: a reading under the lock is not before any other
one. A sleep is for whole milliseconds that fit. -/
def Timely (s : Sleepers n) : Act n → Prop
  | .sleep _ now c => 0 ≤ now ∧ c.Accepted ∧ c.Fits now
  | .listExpiredCb _ _ now now' => s.clock ≤ now' ∧ now ≤ now' ∧ now' < 2 ^ 63
  | _ => True

/-! ## On the way to a resume -/

/-- How often the queue and the workers are to bring the fiber to its resume. -/
def carried (tasks : List SleepTask) (duty : Fin n → Duty) (f : ℕ) : ℕ :=
  tasks.countP (fun task => task.Wakes f) + tally (Duty.tokens f) duty

/-- How often the fiber is on its way to a resume. -/
def tokens (s : Sleepers n) (f : ℕ) : ℕ :=
  s.manager.pending (.wake f) + carried s.tasks s.duty f

/-- The fiber is to be resumed: it is to start, or asleep, or in a sleep before it yields. -/
def Waiting (s : Sleepers n) (f : ℕ) : Prop :=
  f ∈ s.launched ∧ (s.m_state f = .ready ∨ ∃ w, s.duty w = .armed f)

instance (s : Sleepers n) : DecidablePred s.Waiting := fun _ => inferInstanceAs (Decidable (_ ∧ _))

/-- How often the fiber has been resumed. -/
def resumes (s : Sleepers n) (f : ℕ) : ℕ := s.woken.countP fun e => e.fiber = f

/-! ## What a change does to the tokens -/

section Tokens

variable {w : Fin n} {f : ℕ} {task : SleepTask} {tasks : List SleepTask} {duty : Fin n → Duty}

theorem tokens_le (s : Sleepers n) (w : Fin n) (f : ℕ) : (s.duty w).tokens f ≤ s.tokens f := by
  have hle := le_tally (Duty.tokens f) s.duty w
  rw [tokens, carried]
  omega

/-- A worker goes on with something else. -/
theorem carried_update (tasks : List SleepTask) (duty : Fin n → Duty) (w : Fin n) (d : Duty)
    (f : ℕ) : carried tasks (Function.update duty w d) f + (duty w).tokens f =
      carried tasks duty f + d.tokens f := by
  have htally := tally_update (Duty.tokens f) duty w d
  rw [carried, carried]
  omega

theorem carried_push (tasks : List SleepTask) (task : SleepTask) (duty : Fin n → Duty) (f : ℕ) :
    carried (tasks ++ [task]) duty f = carried tasks duty f + if task.Wakes f then 1 else 0 := by
  rw [carried, carried, List.countP_append, List.countP_singleton]
  simp only [decide_eq_true_eq]
  omega

theorem tokens_duty (task : SleepTask) (f : ℕ) :
    task.duty.tokens f = if task.Wakes f then 1 else 0 := by
  cases task with
  | fiber g => simp [SleepTask.duty, Duty.tokens, SleepTask.Wakes]
  | cb c => simp [SleepTask.duty, Duty.tokens, SleepTask.Wakes]

/-- A task is taken out of the queue. -/
theorem carried_take {k : ℕ} (hk : tasks[k]? = some task) (duty : Fin n → Duty) (f : ℕ) :
    carried (tasks.eraseIdx k) duty f + task.duty.tokens f = carried tasks duty f := by
  obtain ⟨hlt, rfl⟩ := List.getElem?_eq_some_iff.mp hk
  rw [carried, carried, tokens_duty, ← (List.getElem_cons_eraseIdx_perm hlt).countP_eq,
    List.countP_cons]
  simp only [decide_eq_true_eq]
  omega

/-- A worker takes a task, and has its token instead of the queue. -/
theorem carried_dequeue (hw : duty w = .free) {k : ℕ} (hk : tasks[k]? = some task) (f : ℕ) :
    carried (tasks.eraseIdx k) (Function.update duty w task.duty) f = carried tasks duty f := by
  have htake := carried_take hk duty f
  have hset := carried_update (tasks.eraseIdx k) duty w task.duty f
  rw [hw, Duty.tokens] at hset
  omega

/-- A worker puts a task into the queue, and has a token less. -/
theorem carried_pushed {d : Duty}
    (h : (duty w).tokens f = d.tokens f + if task.Wakes f then 1 else 0) :
    carried (tasks ++ [task]) (Function.update duty w d) f = carried tasks duty f := by
  have hpush := carried_push tasks task duty f
  have hset := carried_update (tasks ++ [task]) duty w d f
  omega

/-- A worker goes on with something else, with the same tokens. -/
theorem carried_turned {d : Duty} (h : (duty w).tokens f = d.tokens f) :
    carried tasks (Function.update duty w d) f = carried tasks duty f := by
  have hset := carried_update tasks duty w d f
  omega

theorem duty_not_runs (task : SleepTask) (f : ℕ) : ¬ task.duty.Runs f := by
  cases task <;> rintro (h | h) <;> cases h

end Tokens

/-! ## The invariant -/

/-- **The invariant**: a fiber is on its way to one resume when it is to be resumed, and else to
none. -/
structure Inv (s : Sleepers n) : Prop where
  timers : s.manager.Inv
  once : ∀ t ∈ s.manager.timers, ∀ f, (s.manager.timer t).cb = some (.wake f) →
    (s.manager.timer t).recurring = false
  running : ∀ w f, (s.duty w).Runs f → s.m_state f = .running
  alone : ∀ v w f, (s.duty v).Runs f → (s.duty w).Runs f → v = w
  unborn : ∀ f, f ∉ s.launched → s.m_state f = .ready
  one : ∀ f, s.Waiting f → s.tokens f = 1
  zero : ∀ f, ¬ s.Waiting f → s.tokens f = 0
  asserted : s.asserted = false
  dropped : s.dropped = []
  resumes : ∀ f, s.resumes f + s.tokens f = s.launched.count f + s.slept.count f

theorem inv_start (n : ℕ) (now : ℤ) : (start n now).Inv := by
  have hruns : ∀ w f, ¬ ((start n now).duty w).Runs f := by
    rintro w f (h | h) <;> cases h
  have htokens : ∀ f, (start n now).tokens f = 0 := by
    intro f
    have htally : tally (Duty.tokens f) (start n now).duty = 0 := tally_eq_zero.mpr fun _ => rfl
    rw [Sleepers.tokens, carried, htally]
    rfl
  refine ⟨TimerManager.inv_construct now, fun _ ht => absurd ht List.not_mem_nil,
    fun w f hw => absurd hw (hruns w f), fun v w f hv => absurd hv (hruns v f), fun _ _ => rfl,
    fun f hf => absurd hf.1 List.not_mem_nil, fun f _ => htokens f, rfl, rfl, fun f => ?_⟩
  rw [htokens]
  rfl

section Steps

variable {s t : Sleepers n} {w : Fin n} {d : Duty} {f g : ℕ} {a : Act n}

/-- A fiber that a worker runs is not to be resumed, unless it is in a sleep. -/
theorem Inv.not_waiting (h : s.Inv) (hw : s.duty w = .inside f) : ¬ s.Waiting f := by
  rintro ⟨-, hready | ⟨v, hv⟩⟩
  · have hrunning := h.running w f (Or.inl hw)
    cases hready.symm.trans hrunning
  · obtain rfl := h.alone v w f (Or.inr hv) (Or.inl hw)
    cases hv.symm.trans hw

theorem Inv.launched_of_runs (h : s.Inv) (hw : (s.duty w).Runs f) : f ∈ s.launched := by
  by_contra hout
  cases (h.running w f hw).symm.trans (h.unborn f hout)

/-- A fiber that a worker has taken is to be resumed. -/
theorem Inv.taken (h : s.Inv) (hw : s.duty w = .taken f) : s.Waiting f := by
  by_contra hnot
  have hle := tokens_le s w f
  rw [h.zero f hnot, hw, Duty.tokens, if_pos rfl] at hle
  exact Nat.not_succ_le_zero 0 hle

/-- When its mutex is free, it is ready. -/
theorem Inv.ready_of_taken (h : s.Inv) (hw : s.duty w = .taken f)
    (hfree : ∀ v, ¬ (s.duty v).Runs f) : s.m_state f = .ready := by
  obtain ⟨-, hready | ⟨v, hv⟩⟩ := h.taken hw
  · exact hready
  · exact absurd (Or.inr hv) (hfree v)

/-! ## Tokens that change hands -/

/-- A worker that runs no fiber goes on with something that is no fiber either. -/
theorem runs_update (hw : ∀ f, ¬ (s.duty w).Runs f) (hd : ∀ f, ¬ d.Runs f) (v : Fin n) (f : ℕ) :
    (Function.update s.duty w d v = .inside f ↔ s.duty v = .inside f) ∧
      (Function.update s.duty w d v = .armed f ↔ s.duty v = .armed f) := by
  by_cases hv : v = w
  · subst hv
    rw [Function.update_self]
    exact ⟨iff_of_false (fun h => hd f (Or.inl h)) fun h => hw f (Or.inl h),
      iff_of_false (fun h => hd f (Or.inr h)) fun h => hw f (Or.inr h)⟩
  · rw [Function.update_of_ne hv]
    exact ⟨Iff.rfl, Iff.rfl⟩

/-- **Tokens change hands**: the fibers stay where they are. -/
theorem Inv.moved (h : s.Inv) (hstate : t.m_state = s.m_state) (hlaunched : t.launched = s.launched)
    (hslept : t.slept = s.slept) (hwoken : t.woken = s.woken) (hasserted : t.asserted = s.asserted)
    (hdropped : t.dropped = s.dropped)
    (hduty : ∀ v f, (t.duty v = .inside f ↔ s.duty v = .inside f) ∧
      (t.duty v = .armed f ↔ s.duty v = .armed f))
    (htimers : t.manager.Inv)
    (honce : ∀ u ∈ t.manager.timers, ∀ f, (t.manager.timer u).cb = some (.wake f) →
      (t.manager.timer u).recurring = false)
    (htokens : ∀ f, t.tokens f = s.tokens f) : t.Inv := by
  have hruns : ∀ v f, (t.duty v).Runs f ↔ (s.duty v).Runs f := fun v f =>
    or_congr (hduty v f).1 (hduty v f).2
  have hwaiting : ∀ f, t.Waiting f ↔ s.Waiting f := by
    intro f
    rw [Waiting, Waiting, hlaunched, hstate]
    simp only [hduty]
  refine ⟨htimers, honce, fun v f hv => ?_, fun v v' f hv hv' => ?_, fun f hf => ?_, fun f hf => ?_,
    fun f hf => ?_, hasserted.trans h.asserted, hdropped.trans h.dropped, fun f => ?_⟩
  · rw [hstate]
    exact h.running v f ((hruns v f).mp hv)
  · exact h.alone v v' f ((hruns v f).mp hv) ((hruns v' f).mp hv')
  · rw [hstate]
    exact h.unborn f (hlaunched ▸ hf)
  · rw [htokens, h.one f ((hwaiting f).mp hf)]
  · rw [htokens, h.zero f fun hs => hf ((hwaiting f).mpr hs)]
  · rw [Sleepers.resumes, hwoken, hlaunched, hslept, htokens]
    exact h.resumes f

theorem Inv.post (h : s.Inv) (c : ℕ) :
    Inv { s with tasks := s.tasks ++ [.cb (.other c)] } := by
  refine h.moved rfl rfl rfl rfl rfl rfl (fun v f => ⟨Iff.rfl, Iff.rfl⟩) h.timers h.once fun f => ?_
  have hpush := carried_push s.tasks (.cb (.other c)) s.duty f
  rw [if_neg (by rintro (hf | hf) <;> cases hf)] at hpush
  rw [Sleepers.tokens, hpush]
  rfl

theorem Inv.dequeue (h : s.Inv) (hw : s.duty w = .free) {k : ℕ} {task : SleepTask}
    (hk : s.tasks[k]? = some task) :
    Inv { s with
      tasks := s.tasks.eraseIdx k
      duty := Function.update s.duty w task.duty } := by
  refine h.moved rfl rfl rfl rfl rfl rfl ?_ h.timers h.once fun f => ?_
  · exact runs_update (by rintro f (hf | hf) <;> cases hw.symm.trans hf) (duty_not_runs task)
  · rw [Sleepers.tokens, Sleepers.tokens, carried_dequeue hw hk]

/-- A worker that puts a callback or a fiber into the queue, and has a token less. -/
theorem Inv.pushed (h : s.Inv) (hw : ∀ f, ¬ (s.duty w).Runs f) (hd : ∀ f, ¬ d.Runs f)
    {task : SleepTask}
    (htokens : ∀ f, (s.duty w).tokens f = d.tokens f + if task.Wakes f then 1 else 0) :
    Inv { s with
      tasks := s.tasks ++ [task]
      duty := Function.update s.duty w d } := by
  refine h.moved rfl rfl rfl rfl rfl rfl (runs_update hw hd) h.timers h.once fun f => ?_
  rw [Sleepers.tokens, Sleepers.tokens, carried_pushed (htokens f)]

/-- A worker that goes on with something else, with the same tokens. -/
theorem Inv.turned (h : s.Inv) (hw : ∀ f, ¬ (s.duty w).Runs f) (hd : ∀ f, ¬ d.Runs f)
    (htokens : ∀ f, (s.duty w).tokens f = d.tokens f) :
    Inv { s with duty := Function.update s.duty w d } := by
  refine h.moved rfl rfl rfl rfl rfl rfl (runs_update hw hd) h.timers h.once fun f => ?_
  rw [Sleepers.tokens, Sleepers.tokens, carried_turned (htokens f)]

theorem Inv.listExpiredCb (h : s.Inv) (hw : s.duty w = .free) {fuel : ℕ} {now now' : ℤ}
    {cbs : List (Option SleepCb)} {m : TimerManager SleepCb}
    (hfresh : s.manager.Fresh (.listExpiredCb fuel now now'))
    (hr : s.manager.listExpiredCb fuel now now' = some (cbs, m)) :
    Inv { s with
      manager := m
      clock := now'
      duty := Function.update s.duty w (.scheduling cbs) } := by
  have hlinked := h.timers.loaded.linked
  have hdel := TimerManager.delivered_listExpiredCb hlinked hr
  refine h.moved rfl rfl rfl rfl rfl rfl ?_ (h.timers.listExpiredCb hfresh hr) ?_ fun f => ?_
  · exact runs_update (by rintro f (hf | hf) <;> cases hw.symm.trans hf)
      (by rintro f (hf | hf) <;> cases hf)
  · intro u hu f hcb
    obtain ⟨⟨hmem, hcb⟩, hexp⟩ := (hdel.holds_iff fun t ht hcb => h.once t ht f hcb).mp ⟨hu, hcb⟩
    change (m.timer u).recurring = false
    rw [(hdel.kept u hmem hexp).2]
    exact h.once u hmem f hcb
  · have hpending := hlinked.pending_listExpiredCb (x := .wake f) hr fun t ht hcb =>
      h.once t ht f hcb
    have hset := carried_update s.tasks s.duty w (.scheduling cbs) f
    rw [hw, Duty.tokens, Duty.tokens] at hset
    simp only [Sleepers.tokens]
    omega

theorem Inv.timer (h : s.Inv) {c : TimerCall SleepCb} {m : TimerManager SleepCb} (hc : Outside c)
    (hfresh : s.manager.Fresh c) (hforeign : Foreign s.manager c) (hm : s.manager.step c = some m) :
    Inv { s with manager := m } := by
  have hnot : ∀ fuel now now', c ≠ .listExpiredCb fuel now now' := by
    rintro fuel now now' rfl
    exact hc
  have hinv := h.timers.step hfresh hm
  refine h.moved rfl rfl rfl rfl rfl rfl (fun v f => ⟨Iff.rfl, Iff.rfl⟩) hinv ?_ fun f => ?_
  · intro u hu f hcb
    obtain ⟨hiff, hsame⟩ := h.timers.holds_iff_of_step (u := u) hm hnot
      (fun t ht => hforeign.1 t ht f) (hforeign.2 f)
    obtain ⟨hlt, hcb⟩ := hiff.mp (hinv.holds_iff.mp ⟨hu, hcb⟩)
    change (m.timer u).recurring = false
    rw [hsame hlt hcb]
    exact h.once u (h.timers.holds_iff.mpr ⟨hlt, hcb⟩).1 f hcb
  · have hpending := h.timers.pending_of_step hinv hm hnot
      (fun t ht => hforeign.1 t ht f) (hforeign.2 f)
    rw [Sleepers.tokens, Sleepers.tokens, ← hpending]

/-! ## Fibers that start, wake, sleep and end -/

theorem Inv.launch (h : s.Inv) (hnew : f ∉ s.launched) :
    Inv { s with tasks := s.tasks ++ [.fiber f], launched := s.launched ++ [f] } := by
  have hnot : ¬ s.Waiting f := fun hwait => hnew hwait.1
  have htokens : ∀ g, Sleepers.tokens { s with
      tasks := s.tasks ++ [.fiber f], launched := s.launched ++ [f] } g =
        s.tokens g + if f = g then 1 else 0 := by
    intro g
    have hpush := carried_push s.tasks (.fiber f) s.duty g
    have hwakes : (SleepTask.fiber f).Wakes g ↔ f = g := by simp [SleepTask.Wakes]
    simp only [hwakes] at hpush
    simp only [Sleepers.tokens]
    omega
  refine ⟨h.timers, h.once, h.running, h.alone, fun g hg => ?_, fun g hg => ?_, fun g hg => ?_,
    h.asserted, h.dropped, fun g => ?_⟩
  · exact h.unborn g fun hmem => hg (List.mem_append_left _ hmem)
  · rw [htokens]
    by_cases hfg : f = g
    · subst hfg
      rw [h.zero f hnot, if_pos rfl]
    · have hmem : g ∈ s.launched := (List.mem_append.mp hg.1).resolve_right fun hmem =>
        hfg (List.mem_singleton.mp hmem).symm
      rw [h.one g ⟨hmem, hg.2⟩, if_neg hfg]
  · have hfg : f ≠ g := by
      rintro rfl
      exact hg ⟨List.mem_append_right _ (List.mem_singleton_self f), Or.inl (h.unborn f hnew)⟩
    rw [htokens, if_neg hfg, h.zero g fun hwait => hg ⟨List.mem_append_left _ hwait.1, hwait.2⟩]
  · have hresumes := h.resumes g
    rw [htokens]
    simp only [Sleepers.resumes, List.count_append, List.count_singleton, beq_iff_eq] at hresumes ⊢
    omega

/-- A worker that turns to a fiber, or turns away from it: the others stay where they are. -/
theorem waiting_congr (hw : ∀ g, g ≠ f → ¬ (s.duty w).Runs g) (hd : ∀ g, g ≠ f → ¬ d.Runs g)
    {x : FiberState} (hlaunched : t.launched = s.launched)
    (hduty : t.duty = Function.update s.duty w d)
    (hstate : t.m_state = Function.update s.m_state f x) (hg : g ≠ f) :
    (t.Waiting g ↔ s.Waiting g) ∧ ∀ v, (t.duty v).Runs g ↔ (s.duty v).Runs g := by
  have hsame : ∀ v, (t.duty v).Runs g ↔ (s.duty v).Runs g := by
    intro v
    rw [hduty]
    by_cases hv : v = w
    · subst hv
      rw [Function.update_self]
      exact iff_of_false (hd g hg) (hw g hg)
    · rw [Function.update_of_ne hv]
  have harmed : (∃ v, t.duty v = .armed g) ↔ ∃ v, s.duty v = .armed g := by
    refine exists_congr fun v => ?_
    rw [hduty]
    by_cases hv : v = w
    · subst hv
      rw [Function.update_self]
      exact iff_of_false (fun h => hd g hg (Or.inr h)) fun h => hw g hg (Or.inr h)
    · rw [Function.update_of_ne hv]
  refine ⟨?_, hsame⟩
  rw [Waiting, Waiting, hlaunched, hstate, Function.update_of_ne hg, harmed]

/-- **A worker turns to a fiber, or turns away from it.** -/
theorem Inv.turns (h : s.Inv) {x : FiberState} (hmem : f ∈ s.launched)
    (hw : ∀ g, g ≠ f → ¬ (s.duty w).Runs g) (hd : ∀ g, g ≠ f → ¬ d.Runs g)
    (hlaunched : t.launched = s.launched) (hduty : t.duty = Function.update s.duty w d)
    (hstate : t.m_state = Function.update s.m_state f x)
    (halone : ∀ v, v ≠ w → ¬ (s.duty v).Runs f) (hrunning : d.Runs f → x = .running)
    (htimers : t.manager.Inv)
    (honce : ∀ u ∈ t.manager.timers, ∀ g, (t.manager.timer u).cb = some (.wake g) →
      (t.manager.timer u).recurring = false)
    (hothers : ∀ g, g ≠ f → t.tokens g = s.tokens g)
    (hone : x = .ready ∨ d = .armed f → t.tokens f = 1)
    (hzero : x ≠ .ready → d ≠ .armed f → t.tokens f = 0)
    (hasserted : t.asserted = false) (hdropped : t.dropped = [])
    (hresumes : ∀ g, t.resumes g + t.tokens g = t.launched.count g + t.slept.count g) : t.Inv := by
  have hself : t.m_state f = x := by rw [hstate, Function.update_self]
  have hdutyw : t.duty w = d := by rw [hduty, Function.update_self]
  have hdutyv : ∀ v, v ≠ w → t.duty v = s.duty v := fun v hv => by
    rw [hduty, Function.update_of_ne hv]
  have hout : ∀ v, v ≠ w → ¬ (t.duty v).Runs f := fun v hv => by
    rw [hdutyv v hv]
    exact halone v hv
  refine ⟨htimers, honce, fun v g hv => ?_, fun v v' g hv hv' => ?_, fun g hg => ?_, fun g hg => ?_,
    fun g hg => ?_, hasserted, hdropped, hresumes⟩
  · by_cases hgf : g = f
    · subst hgf
      have hvw : v = w := by
        by_contra hne
        exact hout v hne hv
      subst hvw
      rw [hself]
      exact hrunning (hdutyw ▸ hv)
    · rw [hstate, Function.update_of_ne hgf]
      exact h.running v g (((waiting_congr hw hd hlaunched hduty hstate hgf).2 v).mp hv)
  · by_cases hgf : g = f
    · subst hgf
      have hvw : ∀ v, (t.duty v).Runs g → v = w := fun v hv => by
        by_contra hne
        exact hout v hne hv
      rw [hvw v hv, hvw v' hv']
    · have hsame := (waiting_congr hw hd hlaunched hduty hstate hgf).2
      exact h.alone v v' g ((hsame v).mp hv) ((hsame v').mp hv')
  · rw [hlaunched] at hg
    have hgf : g ≠ f := fun heq => hg (heq ▸ hmem)
    rw [hstate, Function.update_of_ne hgf]
    exact h.unborn g hg
  · by_cases hgf : g = f
    · subst hgf
      obtain ⟨-, hready | ⟨v, hv⟩⟩ := hg
      · exact hone (Or.inl (hself.symm.trans hready))
      · have hvw : v = w := by
          by_contra hne
          exact hout v hne (Or.inr hv)
        subst hvw
        exact hone (Or.inr (hdutyw.symm.trans hv))
    · rw [hothers g hgf, h.one g ((waiting_congr hw hd hlaunched hduty hstate hgf).1.mp hg)]
  · by_cases hgf : g = f
    · subst hgf
      rw [Waiting, hlaunched, hself] at hg
      exact hzero (fun hready => hg ⟨hmem, Or.inl hready⟩)
        fun harmed => hg ⟨hmem, Or.inr ⟨w, hdutyw.trans harmed⟩⟩
    · rw [hothers g hgf, h.zero g fun hs =>
        hg ((waiting_congr hw hd hlaunched hduty hstate hgf).1.mpr hs)]

theorem Inv.enter (h : s.Inv) (hw : s.duty w = .taken f) (hfree : ∀ v, ¬ (s.duty v).Runs f) :
    (s.enter w f).Inv := by
  have htaken := h.taken hw
  have htokens : ∀ g, (s.enter w f).tokens g + (if f = g then 1 else 0) = s.tokens g := by
    intro g
    have hset := carried_update s.tasks s.duty w (.inside f) g
    rw [hw] at hset
    simp only [Duty.tokens] at hset
    simp only [Sleepers.tokens, Sleepers.enter]
    omega
  have hlast : (s.enter w f).tokens f = 0 := by
    have heq := htokens f
    rw [if_pos rfl, h.one f htaken] at heq
    omega
  refine h.turns (d := .inside f) (x := .running) htaken.1
    (by rintro g hg (hf | hf) <;> cases hw.symm.trans hf)
    (by rintro g hg (hf | hf) <;> cases hf; exact hg rfl) rfl rfl rfl (fun v _ => hfree v)
    (fun _ => rfl) h.timers h.once (fun g hg => ?_) ?_ (fun _ _ => hlast) ?_ h.dropped fun g => ?_
  · have heq := htokens g
    rw [if_neg fun heq => hg heq.symm] at heq
    exact heq
  · rintro (hf | hf) <;> cases hf
  · change (s.asserted || !decide (s.m_state f = .ready)) = false
    rw [h.asserted, h.ready_of_taken hw hfree]
    rfl
  · have hresumes := h.resumes g
    have heq := htokens g
    have hwoken : (s.enter w f).resumes g = s.resumes g + if f = g then 1 else 0 := by
      simp only [Sleepers.resumes, Sleepers.enter, List.countP_append, List.countP_singleton,
        decide_eq_true_eq]
    rw [hwoken]
    change _ = s.launched.count g + s.slept.count g
    omega

theorem Inv.sleep (h : s.Inv) (hw : s.duty w = .inside f) {now : ℤ} {c : SleepCall}
    (hfresh : ∀ u ∈ s.manager.timers, s.manager.next u ≠ addMs now c.ms.toNat) :
    Inv { s with
      manager := (c.arm s.manager now (.wake f)).2
      clock := max s.clock now
      due := Function.update s.due f (now + c.requested)
      slept := s.slept ++ [f]
      duty := Function.update s.duty w (.armed f) } := by
  have hlaunched := h.launched_of_runs (Or.inl hw)
  have hrunning := h.running w f (Or.inl hw)
  have hpending : ∀ g, (c.arm s.manager now (.wake f)).2.pending (.wake g) =
      s.manager.pending (.wake g) + if f = g then 1 else 0 := by
    intro g
    rw [SleepCall.arm, h.timers.pending_addTimer (.wake f) hfresh]
    simp only [SleepCb.wake.injEq]
  have htokens : ∀ g, Sleepers.tokens { s with
      manager := (c.arm s.manager now (.wake f)).2
      clock := max s.clock now
      due := Function.update s.due f (now + c.requested)
      slept := s.slept ++ [f]
      duty := Function.update s.duty w (.armed f) } g = s.tokens g + if f = g then 1 else 0 := by
    intro g
    have hset := carried_update s.tasks s.duty w (.armed f) g
    rw [hw] at hset
    simp only [Duty.tokens] at hset
    simp only [Sleepers.tokens, hpending]
    omega
  refine h.turns (d := .armed f) (x := .running) hlaunched
    (by rintro g hg (hf | hf) <;> cases hw.symm.trans hf; exact hg rfl)
    (by rintro g hg (hf | hf) <;> cases hf; exact hg rfl) rfl rfl ?_
    (fun v hv hruns => hv (h.alone v w f hruns (Or.inl hw))) (fun _ => rfl)
    (h.timers.addTimer _ _ hfresh) ?_ (fun g hg => ?_) (fun _ => ?_) (fun _ hne => absurd rfl hne)
    h.asserted h.dropped fun g => ?_
  · rw [← hrunning, Function.update_eq_self]
  · intro u hu g hcb
    rcases TimerManager.mem_insertTimer hu with rfl | hu
    · rw [SleepCall.arm] at hcb ⊢
      exact congrArg Timer.recurring (timer_addTimer_self ..)
    · have hold : (c.arm s.manager now (.wake f)).2.timer u = s.manager.timer u :=
        (TimerManager.keepsTimer_addTimer (h.timers.kept.1 u hu)).timer_eq
      rw [hold] at hcb ⊢
      exact h.once u hu g hcb
  · rw [htokens, if_neg fun heq => hg heq.symm, Nat.add_zero]
  · rw [htokens, if_pos rfl, h.zero f (h.not_waiting hw)]
  · have hresumes := h.resumes g
    rw [htokens]
    simp only [Sleepers.resumes, List.count_append, List.count_singleton, beq_iff_eq] at hresumes ⊢
    omega

/-- A worker whose fiber yields or ends. -/
theorem Inv.leave (h : s.Inv) (hw : (s.duty w).Runs f) {x : FiberState}
    (hready : x = .ready ↔ s.duty w = .armed f) :
    Inv { s with
      m_state := Function.update s.m_state f x
      duty := Function.update s.duty w .free } := by
  have hlaunched := h.launched_of_runs hw
  have hother : ∀ g, (s.duty w).Runs g → g = f := by
    rintro g (hg | hg) <;> rcases hw with hf | hf <;> cases hg.symm.trans hf <;> rfl
  have htokens : ∀ g, Sleepers.tokens { s with
      m_state := Function.update s.m_state f x
      duty := Function.update s.duty w .free } g = s.tokens g := by
    intro g
    have hnone : (s.duty w).tokens g = Duty.free.tokens g := by
      rcases hw with hf | hf <;> rw [hf] <;> rfl
    rw [Sleepers.tokens, Sleepers.tokens, carried_turned hnone]
  refine h.turns (d := .free) (x := x) hlaunched (fun g hg hruns => hg (hother g hruns))
    (by rintro g hg (hf | hf) <;> cases hf) rfl rfl rfl
    (fun v hv hruns => hv (h.alone v w f hruns hw)) (by rintro (hf | hf) <;> cases hf)
    h.timers h.once (fun g _ => htokens g) ?_ (fun hne _ => ?_) h.asserted h.dropped fun g => ?_
  · rintro (hx | hf)
    · rw [htokens, h.one f ⟨hlaunched, Or.inr ⟨w, hready.mp hx⟩⟩]
    · cases hf
  · rw [htokens]
    exact h.zero f (h.not_waiting (hw.resolve_right fun harmed => hne (hready.mpr harmed)))
  · rw [htokens]
    exact h.resumes g

/-! ## Runs -/

/-- The step lemma. -/
theorem Inv.step (h : s.Inv) (hg : s.Careful a) (ht : s.step a = some t) : t.Inv := by
  cases a with
  | launch f =>
    obtain rfl := Option.some.inj ht
    exact h.launch hg
  | post c =>
    obtain rfl := Option.some.inj ht
    exact h.post c
  | dequeue w k =>
    simp only [Sleepers.step] at ht
    split_ifs at ht with hw
    obtain ⟨task, hk, rfl⟩ := Option.map_eq_some_iff.mp ht
    exact h.dequeue hw hk
  | resume w =>
    simp only [Sleepers.step] at ht
    split at ht
    · rename_i f hw
      split_ifs at ht with hfree hterm
      · obtain rfl := Option.some.inj ht
        exact h.enter hw hfree
      · rw [not_not] at hterm
        cases hterm.symm.trans (h.ready_of_taken hw hfree)
    · cases ht
  | sleep w now c =>
    simp only [Sleepers.step] at ht
    split at ht
    · rename_i f hw
      obtain rfl := Option.some.inj ht
      exact h.sleep hw hg
    · cases ht
  | yield w =>
    simp only [Sleepers.step] at ht
    split at ht
    · rename_i f hw
      obtain rfl := Option.some.inj ht
      exact h.leave (Or.inr hw) (iff_of_true rfl hw)
    · cases ht
  | finish w =>
    simp only [Sleepers.step] at ht
    split at ht
    · rename_i f hw
      obtain rfl := Option.some.inj ht
      exact h.leave (Or.inl hw) (iff_of_false nofun fun harmed => by cases hw.symm.trans harmed)
    · cases ht
  | call w =>
    simp only [Sleepers.step] at ht
    split at ht
    · rename_i f hw
      obtain rfl := Option.some.inj ht
      refine h.pushed (by rintro g (hf | hf) <;> cases hw.symm.trans hf)
        (by rintro g (hf | hf) <;> cases hf) fun g => ?_
      rw [hw]
      simp [Duty.tokens, SleepTask.Wakes]
    · rename_i c hw
      obtain rfl := Option.some.inj ht
      refine h.turned (by rintro g (hf | hf) <;> cases hw.symm.trans hf)
        (by rintro g (hf | hf) <;> cases hf) fun g => ?_
      rw [hw]
      rfl
    · cases ht
  | listExpiredCb w fuel now now' =>
    simp only [Sleepers.step] at ht
    split_ifs at ht with hw
    obtain ⟨⟨cbs, m⟩, hr, rfl⟩ := Option.map_eq_some_iff.mp ht
    exact h.listExpiredCb hw hg hr
  | schedule w =>
    simp only [Sleepers.step] at ht
    split at ht
    · rename_i hw
      obtain rfl := Option.some.inj ht
      refine h.turned (by rintro g (hf | hf) <;> cases hw.symm.trans hf)
        (by rintro g (hf | hf) <;> cases hf) fun g => ?_
      rw [hw]
      rfl
    · rename_i cbs hw
      obtain rfl := Option.some.inj ht
      refine h.turned (by rintro g (hf | hf) <;> cases hw.symm.trans hf)
        (by rintro g (hf | hf) <;> cases hf) fun g => ?_
      rw [hw]
      simp [Duty.tokens]
    · rename_i c cbs hw
      obtain rfl := Option.some.inj ht
      refine h.pushed (by rintro g (hf | hf) <;> cases hw.symm.trans hf)
        (by rintro g (hf | hf) <;> cases hf) fun g => ?_
      rw [hw]
      simp [Duty.tokens, SleepTask.Wakes, List.count_cons]
    · cases ht
  | timer c =>
    simp only [Sleepers.step] at ht
    split_ifs at ht with hc
    obtain ⟨m, hm, rfl⟩ := Option.map_eq_some_iff.mp ht
    exact h.timer hc hg.1 hg.2 hm

end Steps

/-- **Every sleep is followed by one resume.** In every interleaving in which a fiber is put into
the queue by others only to start it, and no two timers have one deadline: a fiber is resumed once
for its start and once for each sleep, but for the one that it is in, and is on its way to one
resume exactly when it is to be resumed. Every resume finds its fiber ready, and none is dropped.
When there are no timers, no tasks, and nothing that a worker is doing, no fiber sleeps. -/
theorem woken_of_exec {now : ℤ} {as : List (Act n)} {s : Sleepers n}
    (hg : Guarded step Careful (start n now) as) (hs : exec step (start n now) as = some s) :
    (∀ f, s.resumes f + (if s.Waiting f then 1 else 0) = s.launched.count f + s.slept.count f ∧
      s.tokens f = if s.Waiting f then 1 else 0) ∧
    s.asserted = false ∧ s.dropped = [] ∧
    (s.manager.timers = [] → s.tasks = [] → (∀ w, s.duty w = .free) → ∀ f, ¬ s.Waiting f) := by
  have hinv : s.Inv := exec_invariant_of_guarded (fun _ _ _ h hg ht => Inv.step h hg ht)
    (inv_start n now) hg hs
  have htokens : ∀ f, s.tokens f = if s.Waiting f then 1 else 0 := by
    intro f
    split_ifs with hwait
    · exact hinv.one f hwait
    · exact hinv.zero f hwait
  refine ⟨fun f => ⟨?_, htokens f⟩, hinv.asserted, hinv.dropped,
    fun htimers htasks hduty f hwait => ?_⟩
  · rw [← htokens f]
    exact hinv.resumes f
  · have htally : tally (Duty.tokens f) s.duty = 0 :=
      tally_eq_zero.mpr fun w => by rw [hduty w]; rfl
    have hone := hinv.one f hwait
    rw [Sleepers.tokens, carried, htasks, htally, TimerManager.pending, TimerManager.holders,
      htimers] at hone
    cases hone

/-- The fiber sleeps for a second. Its timer is found expired, and the fiber taken by worker `w`,
before it has yielded on worker `v`. -/
def sleepOnce (v w : Fin n) : List (Act n) :=
  [.launch 7, .dequeue v 0, .resume v, .sleep v 5 (.sleep 1),
    .listExpiredCb w 2 1000000005 1000000005, .schedule w, .schedule w, .dequeue w 0, .call w,
    .dequeue w 0, .yield v, .resume w]

theorem woken_of_exec_two_workers :
    ∃ s : Sleepers 2, exec step (start 2 0) (sleepOnce 0 1) = some s ∧ s.asserted = false ∧
      s.resumes 7 + (if s.Waiting 7 then 1 else 0) = s.launched.count 7 + s.slept.count 7 ∧
      s.resumes 7 = 2 := by
  obtain ⟨s, hs⟩ : ∃ s, exec step (start 2 0) (sleepOnce 0 1) = some s := ⟨_, rfl⟩
  have hwoken := woken_of_exec (by decide) hs
  refine ⟨s, hs, hwoken.2.1, (hwoken.1 7).1, ?_⟩
  obtain rfl := Option.some.inj hs
  rfl

example : exec step (start 2 0) ((sleepOnce 0 1).take 10 ++ [.resume 1]) = none := rfl

end Sleepers

end Dag
