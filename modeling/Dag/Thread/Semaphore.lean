import Dag.Foundation.Run
import Mathlib.Algebra.Order.Ring.Int
import Mathlib.Data.Finset.Erase
import Mathlib.Data.Finset.Insert
import Mathlib.Data.Int.Notation
import Mathlib.Tactic.Common

/-!
# The semaphore, and the start of a thread

A `Semaphore` is a counter under a mutex, with a condition variable. `wait` blocks on the condition
variable until a predicate on the counter holds, and decrements; `signal` increments and notifies
one waiter. The predicate that the source passes to the condition variable is `count == 0`, where a
semaphore needs `count > 0`: a waiter passes exactly when it should not.

A thread in `wait` is *awake* when it is about to evaluate the predicate, and *asleep* when it is
blocked on the condition variable; evaluating the predicate and blocking or decrementing is one step,
as is `signal`, since both hold the mutex. A waiter that is asleep may be woken for no reason.

A `Thread` starts with a semaphore of count 0: its constructor creates the thread and waits, the new
thread stores its id and signals.

## Main definitions

* `Semaphore`, `Semaphore.step`: the state, and the steps of any number of threads
* `Semaphore.Law`: what a semaphore of initial count `c` promises of a state
* `ThreadStart`, `ThreadStart.step`: the constructor of a thread and the thread that it creates

## Main results

* `Semaphore.Counted`: what the counter is, along every run
* `Semaphore.law_along_iff_of_exec`: the law holds in every state of a run exactly when no thread
  of the run calls `wait` and its signals do not overflow the counter
* `ThreadStart.not_ready_of_returns`, `ThreadStart.blocked_of_ready`: the constructor returns before
  the new thread has signalled, or never
* `ThreadStart.canReturn_iff`: and until then it can return
-/

namespace Dag

open Foundation

/-- A semaphore, with the threads in `wait`. The counter is an `int` of 32 bits. The numbers of
completed waits and signals are recorded, and no step reads them. -/
structure Semaphore where
  count : ℤ
  awake : Finset ℕ
  asleep : Finset ℕ
  completed : ℕ
  signalled : ℕ
  deriving DecidableEq

namespace Semaphore

/-- `Semaphore(count_)`. -/
def construct (count_ : ℤ) : Semaphore := ⟨count_, ∅, ∅, 0, 0⟩

/-- The thread is in `wait`. -/
def InWait (s : Semaphore) (t : ℕ) : Prop := t ∈ s.awake ∨ t ∈ s.asleep

instance (s : Semaphore) (t : ℕ) : Decidable (s.InWait t) :=
  inferInstanceAs (Decidable (_ ∨ _))

/-- The steps of threads that use the semaphore. -/
inductive Act
  /-- a call of `wait`, up to the first evaluation of the predicate -/
  | wait (t : ℕ)
  /-- an evaluation of the predicate, with what `wait` does then -/
  | test (t : ℕ)
  /-- a spurious wakeup -/
  | wakeup (t : ℕ)
  /-- `signal`, with the waiter that `notify_one` wakes, if there is one -/
  | signal (t : ℕ) (woken : Option ℕ)
  deriving DecidableEq, Repr

/-- The step is a call of `signal`. -/
def Act.isSignal : Act → Bool
  | .signal _ _ => true
  | _ => false

/-- The evaluation of the predicate by a thread that holds the mutex: it decrements and leaves
`wait`, or blocks. -/
def test (s : Semaphore) (t : ℕ) : Semaphore :=
  if s.count = 0 then
    { s with count := s.count - 1, awake := s.awake.erase t, completed := s.completed + 1 }
  else { s with awake := s.awake.erase t, asleep := insert t s.asleep }

/-- A waiter returns from the condition variable. -/
def wake (s : Semaphore) (t : ℕ) : Semaphore :=
  { s with awake := insert t s.awake, asleep := s.asleep.erase t }

/-- `count++`. At the largest `int` it is undefined, and wraps around here. -/
def increment (s : Semaphore) : Semaphore :=
  { s with count := (s.count + 1).bmod (2 ^ 32), signalled := s.signalled + 1 }

/-- One step. -/
def step (s : Semaphore) : Act → Option Semaphore
  | .wait t => if s.InWait t then none else some { s with awake := insert t s.awake }
  | .test t => if t ∈ s.awake then some (s.test t) else none
  | .wakeup t => if t ∈ s.asleep then some (s.wake t) else none
  | .signal t woken =>
    if s.InWait t then none
    else
      match woken with
      | some u => if u ∈ s.asleep then some (s.increment.wake u) else none
      -- a notification is lost only when nobody is asleep
      | none => if s.asleep = ∅ then some s.increment else none

/-! ## The law -/

/-- Thread `t` can complete its `wait`: steps of its own lead out of it. -/
def CanComplete (s : Semaphore) (t : ℕ) : Prop :=
  ∃ as u, (∀ a ∈ as, a = .wakeup t ∨ a = .test t) ∧ exec step s as = some u ∧
    s.completed < u.completed

/-- **The law of a semaphore** of initial count `c`. -/
structure Law (c : ℕ) (s : Semaphore) : Prop where
  completed_le : s.completed ≤ c + s.signalled
  count_nonneg : 0 ≤ s.count
  canComplete_iff : ∀ t, s.InWait t → (s.CanComplete t ↔ 0 < s.count)

/-! ## What a step does -/

section Step

variable {s u : Semaphore} {a : Act} {t : ℕ}

@[simp] theorem wake_count : (s.wake t).count = s.count := rfl
@[simp] theorem wake_completed : (s.wake t).completed = s.completed := rfl
@[simp] theorem wake_signalled : (s.wake t).signalled = s.signalled := rfl
@[simp] theorem increment_count : s.increment.count = (s.count + 1).bmod (2 ^ 32) := rfl
@[simp] theorem increment_completed : s.increment.completed = s.completed := rfl
@[simp] theorem increment_signalled : s.increment.signalled = s.signalled + 1 := rfl

/-- What a signal does to the counters. -/
theorem step_signal {woken : Option ℕ} (hu : s.step (.signal t woken) = some u) :
    u.count = (s.count + 1).bmod (2 ^ 32) ∧ u.completed = s.completed ∧
      u.signalled = s.signalled + 1 := by
  cases woken with
  | none =>
    simp only [step] at hu
    split_ifs at hu
    obtain rfl := Option.some.inj hu
    exact ⟨rfl, rfl, rfl⟩
  | some v =>
    simp only [step] at hu
    split_ifs at hu
    obtain rfl := Option.some.inj hu
    exact ⟨rfl, rfl, rfl⟩

/-- **The cases of a step**, for the counters: a waiter passes at count 0 only, and a signal
increments. -/
theorem step_cases (hu : s.step a = some u) :
    (u.count = s.count ∧ u.completed = s.completed ∧ u.signalled = s.signalled ∧
      a.isSignal = false) ∨
    (s.count = 0 ∧ (∃ t, a = .test t) ∧ u.count = -1 ∧ u.completed = s.completed + 1 ∧
      u.signalled = s.signalled) ∨
    ((∃ t woken, a = .signal t woken) ∧ u.count = (s.count + 1).bmod (2 ^ 32) ∧
      u.completed = s.completed ∧ u.signalled = s.signalled + 1) := by
  cases a with
  | wait t =>
    simp only [step] at hu
    split_ifs at hu
    obtain rfl := Option.some.inj hu
    exact Or.inl ⟨rfl, rfl, rfl, rfl⟩
  | test t =>
    simp only [step, test] at hu
    split_ifs at hu with hawake hzero
    · obtain rfl := Option.some.inj hu
      refine Or.inr (Or.inl ⟨hzero, ⟨t, rfl⟩, ?_, rfl, rfl⟩)
      simp [hzero]
    · obtain rfl := Option.some.inj hu
      exact Or.inl ⟨rfl, rfl, rfl, rfl⟩
  | wakeup t =>
    simp only [step] at hu
    split_ifs at hu
    obtain rfl := Option.some.inj hu
    exact Or.inl ⟨rfl, rfl, rfl, rfl⟩
  | signal t woken =>
    obtain ⟨h₁, h₂, h₃⟩ := step_signal hu
    exact Or.inr (Or.inr ⟨⟨t, woken, rfl⟩, h₁, h₂, h₃⟩)

/-- The signals of a run are what it adds to their number. -/
theorem signalled_eq_of_exec {as : List Act} : ∀ {s : Semaphore}, exec step s as = some u →
    u.signalled = s.signalled + as.countP Act.isSignal := by
  induction as with
  | nil =>
    intro s hu
    obtain rfl := Option.some.inj hu
    rfl
  | cons a as ih =>
    intro s hu
    obtain ⟨v, hv, hu⟩ := exec_cons_eq_some.mp hu
    rw [ih hu, List.countP_cons]
    rcases step_cases hv with ⟨-, -, h, ha⟩ | ⟨-, ⟨t, rfl⟩, -, -, h⟩ | ⟨⟨t, woken, rfl⟩, -, -, h⟩
    · simp [h, ha]
    · simp [h, Act.isSignal]
    · simp only [h, Act.isSignal, if_true]
      omega

/-- **What the counter is**, in 32 bits: the initial count and the signals, less the completed
waits. -/
def Counted (c : ℕ) (s : Semaphore) : Prop :=
  s.count = ((c : ℤ) + s.signalled - s.completed).bmod (2 ^ 32)

theorem counted_construct {c : ℕ} (hc : c < 2 ^ 31) : Counted c (construct c) := by
  simp only [Counted, construct, Nat.cast_zero, add_zero, sub_zero]
  exact (Int.bmod_eq_of_le (by omega) (by omega)).symm

theorem Counted.step {c : ℕ} (h : Counted c s) (hu : s.step a = some u) : Counted c u := by
  unfold Counted at h ⊢
  rcases step_cases hu with ⟨h₁, h₂, h₃, -⟩ | ⟨h₀, -, h₁, h₂, h₃⟩ | ⟨-, h₁, h₂, h₃⟩
  · rw [h₁, h₂, h₃, h]
  · have hsub : (c : ℤ) + u.signalled - u.completed = c + s.signalled - s.completed - 1 := by omega
    rw [h₁, hsub, ← Int.bmod_sub_bmod, ← h, h₀]
    rfl
  · have hadd : (c : ℤ) + u.signalled - u.completed = c + s.signalled - s.completed + 1 := by omega
    rw [h₁, hadd, h, Int.bmod_add_bmod]

/-- Without an overflow it is the number itself. -/
theorem Counted.count_eq {c : ℕ} (h : Counted c s) (hfit : c + s.signalled < 2 ^ 31)
    (hcompleted : s.completed ≤ 2 ^ 31) : s.count = c + s.signalled - s.completed :=
  h.trans (Int.bmod_eq_of_le (by omega) (by omega))

/-- A positive count lets nobody pass, and a step keeps it positive, unless it overflows. -/
theorem pos_step (h : 0 < s.count) (hfit : s.count + [a].countP Act.isSignal < 2 ^ 31)
    (hu : s.step a = some u) :
    0 < u.count ∧ u.completed = s.completed ∧ u.count = s.count + [a].countP Act.isSignal := by
  rcases step_cases hu with ⟨h₁, h₂, -, ha⟩ | ⟨h₀, -⟩ | ⟨⟨t, woken, rfl⟩, h₁, h₂, -⟩
  · exact ⟨by omega, h₂, by simp [h₁, ha]⟩
  · omega
  · have hone : [Act.signal t woken].countP Act.isSignal = 1 := rfl
    rw [hone, Nat.cast_one] at hfit ⊢
    rw [Int.bmod_eq_of_le (by omega) (by omega)] at h₁
    exact ⟨by omega, h₂, h₁⟩

/-- **A positive count is a lock**: from there on no wait completes, whatever the threads do, until
the counter overflows. -/
theorem completed_eq_of_pos {as : List Act} : ∀ {s : Semaphore}, 0 < s.count →
    s.count + as.countP Act.isSignal < 2 ^ 31 → exec step s as = some u →
    u.completed = s.completed := by
  induction as with
  | nil =>
    intro s _ _ hu
    obtain rfl := Option.some.inj hu
    rfl
  | cons a as ih =>
    intro s hpos hfit hu
    obtain ⟨v, hv, hu⟩ := exec_cons_eq_some.mp hu
    rw [← List.singleton_append, List.countP_append, Nat.cast_add] at hfit
    obtain ⟨hpos', hcompleted, hcount⟩ := pos_step hpos (by omega) hv
    rw [ih hpos' (by omega) hu, hcompleted]

/-- A thread in `wait` can complete exactly at count 0. -/
theorem canComplete_iff_count (ht : s.InWait t) : s.CanComplete t ↔ s.count = 0 := by
  constructor
  · rintro ⟨as, u, has, hu, hlt⟩
    by_contra hne
    -- its own steps leave the counter alone until one of them finds it 0
    have hkeep : u.count = s.count ∧ u.completed = s.completed := by
      have hown : Guarded step (fun _ a => a = .wakeup t ∨ a = .test t) s as :=
        guarded_of_forall_mem has s
      refine exec_invariant_of_guarded
        (I := fun v => v.count = s.count ∧ v.completed = s.completed) ?_ ⟨rfl, rfl⟩ hown hu
      rintro v a w ⟨hcount, hcompleted⟩ ha hw
      rcases step_cases hw with ⟨h₁, h₂, -, -⟩ | ⟨h₀, -⟩ | ⟨⟨r, woken, rfl⟩, -⟩
      · exact ⟨h₁.trans hcount, h₂.trans hcompleted⟩
      · exact absurd (hcount.symm.trans h₀) hne
      · rcases ha with ha | ha <;> cases ha
    omega
  · intro hzero
    rcases ht with ht | ht
    · refine ⟨[.test t], s.test t, ?_, ?_, ?_⟩
      · simp
      · simp [exec, step, ht]
      · simp [test, hzero]
    · refine ⟨[.wakeup t, .test t], (s.wake t).test t, ?_, ?_, ?_⟩
      · simp
      · simp [exec, step, ht, wake]
      · simp [test, hzero]

/-- The law fails in every state in which a thread is in `wait`. -/
theorem not_law_of_inWait {c : ℕ} (ht : s.InWait t) : ¬ Law c s := by
  intro h
  have hiff := h.canComplete_iff t ht
  rw [canComplete_iff_count ht] at hiff
  have hnonneg := h.count_nonneg
  omega

end Step

/-! ## Runs -/

section Runs

variable {c : ℕ} {as : List Act} {u : Semaphore}

theorem counted_of_exec (hc : c < 2 ^ 31) (hu : exec step (construct c) as = some u) :
    Counted c u :=
  exec_invariant (fun _ _ _ h ht => h.step ht) (counted_construct hc) hu

/-- Nobody is in `wait`, and nobody has been. -/
structure Unused (s : Semaphore) : Prop where
  awake : s.awake = ∅
  asleep : s.asleep = ∅
  completed : s.completed = 0

theorem Unused.step {s : Semaphore} {a : Act} (h : Unused s) (ha : ∀ t, a ≠ .wait t)
    (hu : s.step a = some u) : Unused u := by
  cases a with
  | wait t => exact absurd rfl (ha t)
  | test t => simp [Semaphore.step, h.awake] at hu
  | wakeup t => simp [Semaphore.step, h.asleep] at hu
  | signal t woken =>
    cases woken with
    | none =>
      simp only [Semaphore.step, InWait, h.awake, h.asleep] at hu
      obtain rfl := Option.some.inj (by simpa using hu)
      exact ⟨h.awake, h.asleep, h.completed⟩
    | some v => simp [Semaphore.step, h.asleep] at hu

theorem Unused.law {s : Semaphore} (h : Unused s) (hcount : 0 ≤ s.count) : Law c s where
  completed_le := by
    rw [h.completed]
    exact Nat.zero_le _
  count_nonneg := hcount
  canComplete_iff := by
    rintro t (ht | ht)
    · simp [h.awake] at ht
    · simp [h.asleep] at ht

theorem unused_of_exec (hno : ∀ t, Act.wait t ∉ as) (hu : exec step (construct c) as = some u) :
    Unused u := by
  have hguard : ∀ a ∈ as, ∀ t, a ≠ .wait t := fun a ha t heq => hno t (heq ▸ ha)
  exact exec_invariant_of_guarded (fun v b w hv hb hw => hv.step hb hw) ⟨rfl, rfl, rfl⟩
    (guarded_of_forall_mem hguard _) hu

/-- Where nobody has called `wait`, the counter is the initial count and the signals, in 32 bits. -/
theorem count_eq_bmod (hc : c < 2 ^ 31) (hno : ∀ t, Act.wait t ∉ as)
    (hu : exec step (construct c) as = some u) :
    u.count = ((c + as.countP Act.isSignal : ℕ) : ℤ).bmod (2 ^ 32) := by
  have hsignalled : u.signalled = as.countP Act.isSignal := by
    simpa [construct] using signalled_eq_of_exec hu
  have hcounted := counted_of_exec hc hu
  rw [Counted, (unused_of_exec hno hu).completed, hsignalled] at hcounted
  simpa using hcounted

/-- **When the law holds**: in all states of a run from initial count `c` the law holds exactly
when no thread of the run calls `wait`, and its signals do not overflow the counter. -/
theorem law_along_iff_of_exec (hc : c < 2 ^ 31) (hu : exec step (construct c) as = some u) :
    (∀ bs s, bs <+: as → exec step (construct c) bs = some s → Law c s) ↔
      (∀ t, Act.wait t ∉ as) ∧ c + as.countP Act.isSignal < 2 ^ 31 := by
  constructor
  · intro hlaw
    have hno : ∀ t, Act.wait t ∉ as := by
      intro t ht
      -- behind the first call of `wait` a thread is in `wait`
      obtain ⟨pre, post, rfl⟩ := List.append_of_mem ht
      rw [List.append_cons] at hu
      obtain ⟨s, hs, -⟩ := exec_append_eq_some.mp hu
      refine not_law_of_inWait (t := t) ?_ (hlaw _ s ⟨post, (List.append_cons ..).symm⟩ hs)
      obtain ⟨v, -, hs⟩ := exec_append_eq_some.mp hs
      obtain ⟨w, hw, hs⟩ := exec_cons_eq_some.mp hs
      obtain rfl := Option.some.inj hs
      simp only [step] at hw
      split_ifs at hw
      obtain rfl := Option.some.inj hw
      exact Or.inl (Finset.mem_insert_self _ _)
    refine ⟨hno, ?_⟩
    -- the first signal too many makes the counter negative
    have hfit : ∀ bs, bs <+: as → c + bs.countP Act.isSignal < 2 ^ 31 := by
      intro bs
      induction bs using List.reverseRecOn with
      | nil => exact fun _ => by simpa using hc
      | append_singleton bs a ih =>
        intro hbs
        have hlt := ih ((List.prefix_append bs [a]).trans hbs)
        obtain ⟨post, rfl⟩ := hbs
        obtain ⟨s, hs, -⟩ := exec_append_eq_some.mp hu
        have hnonneg := (hlaw _ s (List.prefix_append ..) hs).count_nonneg
        rw [count_eq_bmod hc (fun t ht => hno t (List.mem_append_left _ ht)) hs] at hnonneg
        rw [List.countP_append] at hnonneg ⊢
        have hone : [a].countP Act.isSignal ≤ 1 := List.countP_le_length
        by_contra hge
        obtain heq : c + (bs.countP Act.isSignal + [a].countP Act.isSignal) = 2 ^ 31 := by omega
        rw [heq] at hnonneg
        exact absurd hnonneg (by decide)
    exact hfit as (List.prefix_refl as)
  · rintro ⟨hno, hfit⟩ bs s hbs hs
    have hno' : ∀ t, Act.wait t ∉ bs := fun t ht => hno t (hbs.subset ht)
    refine (unused_of_exec hno' hs).law ?_
    have hle : bs.countP Act.isSignal ≤ as.countP Act.isSignal := hbs.sublist.countP_le
    rw [count_eq_bmod hc hno' hs, Int.bmod_eq_of_le (by omega) (by omega)]
    omega

theorem law_along_iff_of_exec_two_signals : Law 1 ⟨3, ∅, ∅, 0, 2⟩ := by
  have hu : exec step (construct (1 : ℕ)) [.signal 0 none, .signal 1 none] =
      some ⟨3, ∅, ∅, 0, 2⟩ := rfl
  exact (law_along_iff_of_exec (by decide) hu).mpr ⟨by simp, by decide⟩ _ _ (List.prefix_refl _) hu

/-- A semaphore of count 0 lets a waiter pass that nobody has signalled, and a waiter that has been
signalled does not pass. -/
theorem wait_passes_unsignalled :
    ¬ (∀ (c : ℕ) (as : List Act) (s : Semaphore), c < 2 ^ 31 →
      exec step (construct c) as = some s → Law c s) ∧
    exec step (construct 0) [.wait 0, .test 0] = some ⟨-1, ∅, ∅, 1, 0⟩ ∧
    exec step (construct 0) [.signal 1 none, .wait 0, .test 0] = some ⟨1, ∅, {0}, 0, 1⟩ := by
  refine ⟨fun h => ?_, by decide, by decide⟩
  have hlaw : Law 0 (⟨-1, ∅, ∅, 1, 0⟩ : Semaphore) := h 0 [.wait 0, .test 0] _ (by decide) (by decide)
  exact absurd hlaw.count_nonneg (by decide)

end Runs

end Semaphore

/-! ## The start of a thread -/

/-- Where the constructor of a `Thread` is. -/
inductive Creator
  /-- before `pthread_create` -/
  | creating
  /-- behind `pthread_create` -/
  | created
  /-- in `m_semaphore.wait()` -/
  | waiting
  | returned
  | threw
  deriving DecidableEq, Repr

/-- Where the new thread is in `Thread::run`. -/
inductive Created
  | absent
  /-- before it stores its id -/
  | started
  /-- before `m_semaphore.signal()` -/
  | named
  /-- behind it -/
  | ready
  deriving DecidableEq, Repr

/-- A `Thread` under construction. -/
structure ThreadStart where
  m_id : ℤ
  m_semaphore : Semaphore
  creator : Creator
  thread : Created
  deriving DecidableEq

namespace ThreadStart

/-- The members are initialised. -/
def start : ThreadStart := ⟨-1, .construct 0, .creating, .absent⟩

/-- The steps; in the semaphore the constructor is thread 0, and the new thread is thread 1. -/
inductive Act
  /-- `pthread_create` returns `rt` -/
  | create (rt : ℤ)
  | wait
  | test
  | wakeup
  /-- the new thread stores its id -/
  | setId (id : ℤ)
  | signal (woken : Option ℕ)
  deriving DecidableEq, Repr

/-- One step. -/
def step (s : ThreadStart) : Act → Option ThreadStart
  | .create rt =>
    if s.creator = .creating then
      if rt ≠ 0 then some { s with creator := .threw }
      else some { s with creator := .created, thread := .started }
    else none
  | .wait =>
    if s.creator = .created then
      (s.m_semaphore.step (.wait 0)).map fun m =>
        { s with m_semaphore := m, creator := .waiting }
    else none
  | .test =>
    if s.creator = .waiting then
      (s.m_semaphore.step (.test 0)).map fun m =>
        -- the constructor returns when its `wait` has completed
        { s with
          m_semaphore := m
          creator := if s.m_semaphore.completed < m.completed then .returned else .waiting }
    else none
  | .wakeup =>
    if s.creator = .waiting then
      (s.m_semaphore.step (.wakeup 0)).map fun m => { s with m_semaphore := m }
    else none
  | .setId id =>
    if s.thread = .started then some { s with m_id := id, thread := .named } else none
  | .signal woken =>
    if s.thread = .named then
      (s.m_semaphore.step (.signal 1 woken)).map fun m =>
        { s with m_semaphore := m, thread := .ready }
    else none

/-- The constructor has completed one wait when it has returned, and none before; the new thread
has signalled once when it is ready, and not before. -/
structure Timed (s : ThreadStart) : Prop where
  counted : s.m_semaphore.Counted 0
  completed_eq : s.m_semaphore.completed = if s.creator = .returned then 1 else 0
  signalled_eq : s.m_semaphore.signalled = if s.thread = .ready then 1 else 0
  absent : s.creator = .creating → s.thread = .absent

theorem timed_start : Timed start where
  counted := Semaphore.counted_construct (by decide)
  completed_eq := rfl
  signalled_eq := rfl
  absent := fun _ => rfl

section Step

variable {s t u : ThreadStart} {a : Act}

/-- The count is what the new thread has signalled, less what the constructor has taken. -/
theorem Timed.count_eq (h : Timed s) : s.m_semaphore.count =
    (if s.thread = .ready then 1 else 0) - if s.creator = .returned then 1 else 0 := by
  have hfit : 0 + s.m_semaphore.signalled < 2 ^ 31 := by
    rw [h.signalled_eq]
    split <;> decide
  have hcompleted : s.m_semaphore.completed ≤ 2 ^ 31 := by
    rw [h.completed_eq]
    split <;> decide
  rw [h.counted.count_eq hfit hcompleted, h.signalled_eq, h.completed_eq]
  push_cast
  rw [zero_add]

/-- The constructor's evaluation of the predicate: it returns when the new thread has not yet
signalled, and blocks when it has. -/
theorem test_cases (h : Timed s) (ht : s.step .test = some t) :
    s.creator = .waiting ∧ t = { s with
      m_semaphore := s.m_semaphore.test 0
      creator := if s.thread = .ready then .waiting else .returned } := by
  simp only [step] at ht
  split_ifs at ht with hwait
  refine ⟨hwait, ?_⟩
  obtain ⟨m, hm, rfl⟩ := Option.map_eq_some_iff.mp ht
  simp only [Semaphore.step] at hm
  split_ifs at hm with hawake
  obtain rfl := Option.some.inj hm
  have hcount := h.count_eq
  simp only [hwait, reduceCtorEq, if_false] at hcount
  by_cases hready : s.thread = .ready
  · have hne : s.m_semaphore.count ≠ 0 := by
      simp only [hready, if_true] at hcount
      omega
    simp [Semaphore.test, hne, hready]
  · have hzero : s.m_semaphore.count = 0 := by
      simp only [hready, if_false] at hcount
      omega
    simp [Semaphore.test, hzero, hready]

theorem Timed.step (h : Timed s) (ht : s.step a = some t) : Timed t := by
  have hcompleted := h.completed_eq
  have hsignalled := h.signalled_eq
  cases a with
  | create rt =>
    simp only [ThreadStart.step] at ht
    split_ifs at ht with hcreating hrt
    · obtain rfl := Option.some.inj ht
      exact ⟨h.counted, by simpa [hcreating] using hcompleted, hsignalled, nofun⟩
    · obtain rfl := Option.some.inj ht
      have habsent := h.absent hcreating
      exact ⟨h.counted, by simpa [hcreating] using hcompleted, by simpa [habsent] using hsignalled,
        nofun⟩
  | wait =>
    simp only [ThreadStart.step] at ht
    split_ifs at ht with hcreated
    obtain ⟨m, hm, rfl⟩ := Option.map_eq_some_iff.mp ht
    rcases Semaphore.step_cases hm with ⟨-, h₂, h₃, -⟩ | ⟨-, ⟨v, hv⟩, -⟩ | ⟨⟨v, woken, hv⟩, -⟩
    · exact ⟨h.counted.step hm, by simpa [hcreated] using h₂.trans hcompleted,
        h₃.trans hsignalled, nofun⟩
    · cases hv
    · cases hv
  | test =>
    obtain ⟨hwaiting, rfl⟩ := test_cases h ht
    simp only [ThreadStart.step, hwaiting, if_true, Option.map_eq_some_iff] at ht
    obtain ⟨m, hm, heq⟩ := ht
    obtain rfl : m = s.m_semaphore.test 0 := congrArg ThreadStart.m_semaphore heq
    have hcount := h.count_eq
    simp only [hwaiting, reduceCtorEq, if_false, sub_zero] at hcount
    refine ⟨h.counted.step hm, ?_, ?_, ?_⟩
    · by_cases hready : s.thread = .ready <;>
        simp [Semaphore.test, hcount, hready, hcompleted, hwaiting]
    · by_cases hready : s.thread = .ready <;>
        simp [Semaphore.test, hcount, hready, hsignalled]
    · intro hcreating
      by_cases hready : s.thread = .ready
      · simp [hready] at hcreating
      · simp [hready] at hcreating
  | wakeup =>
    simp only [ThreadStart.step] at ht
    split_ifs at ht with hwaiting
    obtain ⟨m, hm, rfl⟩ := Option.map_eq_some_iff.mp ht
    rcases Semaphore.step_cases hm with ⟨-, h₂, h₃, -⟩ | ⟨-, ⟨v, hv⟩, -⟩ | ⟨⟨v, woken, hv⟩, -⟩
    · exact ⟨h.counted.step hm, h₂.trans hcompleted, h₃.trans hsignalled, h.absent⟩
    · cases hv
    · cases hv
  | setId id =>
    simp only [ThreadStart.step] at ht
    split_ifs at ht with hstarted
    obtain rfl := Option.some.inj ht
    refine ⟨h.counted, hcompleted, by simpa [hstarted] using hsignalled, fun hcreating => ?_⟩
    exact absurd (hstarted.symm.trans (h.absent hcreating)) (by decide)
  | signal woken =>
    simp only [ThreadStart.step] at ht
    split_ifs at ht with hnamed
    obtain ⟨m, hm, rfl⟩ := Option.map_eq_some_iff.mp ht
    obtain ⟨-, h₂, h₃⟩ := Semaphore.step_signal hm
    refine ⟨h.counted.step hm, h₂.trans hcompleted, ?_, fun hcreating => ?_⟩
    · simp [h₃, hsignalled, hnamed]
    · exact absurd (hnamed.symm.trans (h.absent hcreating)) (by decide)

/-- Once the new thread has signalled, a constructor that has not returned does not return. -/
theorem not_returned_step (h : Timed s) (hready : s.thread = .ready) (hret : s.creator ≠ .returned)
    (ht : s.step a = some t) : t.thread = .ready ∧ t.creator ≠ .returned := by
  cases a with
  | test =>
    obtain ⟨-, rfl⟩ := test_cases h ht
    refine ⟨hready, ?_⟩
    simp [hready]
  | create rt =>
    simp only [step] at ht
    split_ifs at ht with hcreating
    · obtain rfl := Option.some.inj ht
      exact ⟨hready, nofun⟩
    · obtain rfl := Option.some.inj ht
      exact absurd (hready.symm.trans (h.absent hcreating)) (by decide)
  | setId id =>
    simp [step, hready] at ht
  | signal woken =>
    simp [step, hready] at ht
  | wait =>
    simp only [step] at ht
    split_ifs at ht
    obtain ⟨m, -, rfl⟩ := Option.map_eq_some_iff.mp ht
    exact ⟨hready, nofun⟩
  | wakeup =>
    simp only [step] at ht
    split_ifs at ht
    obtain ⟨m, -, rfl⟩ := Option.map_eq_some_iff.mp ht
    exact ⟨hready, hret⟩

end Step

/-- **The constructor returns before the new thread has signalled**: in every run, a step with which
it returns is one before the signal. -/
theorem not_ready_of_returns {as : List Act} {a : Act} {s t : ThreadStart}
    (hs : exec step start as = some s) (ht : s.step a = some t) (hnot : s.creator ≠ .returned)
    (hret : t.creator = .returned) : s.thread ≠ .ready := by
  have htimed : Timed s := exec_invariant (fun _ _ _ h hu => h.step hu) timed_start hs
  intro hready
  exact (not_returned_step htimed hready hnot ht).2 hret

/-- **Or never**: a constructor that has not returned when the new thread signals is blocked for
ever. -/
theorem blocked_of_ready {as bs : List Act} {s u : ThreadStart}
    (hs : exec step start as = some s) (hready : s.thread = .ready) (hnot : s.creator ≠ .returned)
    (hu : exec step s bs = some u) : u.creator ≠ .returned := by
  have htimed : Timed s := exec_invariant (fun _ _ _ h hu => h.step hu) timed_start hs
  have hinv : Timed u ∧ u.thread = .ready ∧ u.creator ≠ .returned := by
    refine exec_invariant (I := fun v => Timed v ∧ v.thread = .ready ∧ v.creator ≠ .returned)
      ?_ ⟨htimed, hready, hnot⟩ hu
    rintro v b w ⟨hv, hready, hnot⟩ hw
    exact ⟨hv.step hw, not_returned_step hv hready hnot hw⟩
  exact hinv.2.2

/-- The constructor is in the `wait` of the semaphore exactly when it is in `wait`, and is not awake
and asleep at once. -/
structure Waits (s : ThreadStart) : Prop where
  inWait_iff : s.m_semaphore.InWait 0 ↔ s.creator = .waiting
  apart : 0 ∈ s.m_semaphore.awake → 0 ∉ s.m_semaphore.asleep

theorem waits_start : Waits start := ⟨by decide, by decide⟩

/-- A signal wakes who is asleep, and changes nobody's being in `wait`. -/
theorem of_signal {m m' : Semaphore} {woken : Option ℕ}
    (h : m.step (.signal 1 woken) = some m') (hapart : 0 ∈ m.awake → 0 ∉ m.asleep) :
    (m'.InWait 0 ↔ m.InWait 0) ∧ (0 ∈ m'.awake → 0 ∉ m'.asleep) := by
  cases woken with
  | none =>
    simp only [Semaphore.step] at h
    split_ifs at h
    obtain rfl := Option.some.inj h
    exact ⟨Iff.rfl, hapart⟩
  | some v =>
    simp only [Semaphore.step] at h
    split_ifs at h with hwait hv
    obtain rfl := Option.some.inj h
    by_cases h0 : v = 0
    · subst h0
      refine ⟨iff_of_true (.inl (Finset.mem_insert_self _ _)) (.inr hv), fun _ => ?_⟩
      exact Finset.notMem_erase _ _
    · constructor
      · simp [Semaphore.InWait, Semaphore.wake, Semaphore.increment, Ne.symm h0]
      · simpa [Semaphore.wake, Semaphore.increment, Ne.symm h0] using hapart

theorem Waits.step {s t : ThreadStart} {a : Act} (h : Timed s) (hw : Waits s)
    (ht : s.step a = some t) : Waits t := by
  obtain ⟨hw, hapart⟩ := hw
  cases a with
  | create rt =>
    simp only [ThreadStart.step] at ht
    split_ifs at ht with hcreating hrt
    · obtain rfl := Option.some.inj ht
      exact ⟨by simpa [hcreating] using hw, hapart⟩
    · obtain rfl := Option.some.inj ht
      exact ⟨by simpa [hcreating] using hw, hapart⟩
  | wait =>
    simp only [ThreadStart.step] at ht
    split_ifs at ht
    obtain ⟨m, hm, rfl⟩ := Option.map_eq_some_iff.mp ht
    simp only [Semaphore.step] at hm
    split_ifs at hm with hout
    obtain rfl := Option.some.inj hm
    exact ⟨iff_of_true (.inl (Finset.mem_insert_self _ _)) rfl, fun _ hmem => hout (.inr hmem)⟩
  | test =>
    obtain ⟨hwaiting, rfl⟩ := test_cases h ht
    simp only [ThreadStart.step, hwaiting, if_true, Option.map_eq_some_iff] at ht
    obtain ⟨m, hm, -⟩ := ht
    simp only [Semaphore.step] at hm
    split_ifs at hm with hawake
    have hcount := h.count_eq
    simp only [hwaiting, reduceCtorEq, if_false] at hcount
    by_cases hready : s.thread = .ready
    · have hne : s.m_semaphore.count ≠ 0 := by
        simp only [hready, if_true] at hcount
        omega
      constructor <;> simp [Semaphore.test, Semaphore.InWait, hne, hready]
    · have hzero : s.m_semaphore.count = 0 := by
        simp only [hready, if_false] at hcount
        omega
      constructor <;> simp [Semaphore.test, Semaphore.InWait, hzero, hready, hapart hawake]
  | wakeup =>
    simp only [ThreadStart.step] at ht
    split_ifs at ht with hwaiting
    obtain ⟨m, hm, rfl⟩ := Option.map_eq_some_iff.mp ht
    simp only [Semaphore.step] at hm
    split_ifs at hm
    obtain rfl := Option.some.inj hm
    exact ⟨iff_of_true (.inl (Finset.mem_insert_self _ _)) hwaiting,
      fun _ => Finset.notMem_erase _ _⟩
  | setId id =>
    simp only [ThreadStart.step] at ht
    split_ifs at ht
    obtain rfl := Option.some.inj ht
    exact ⟨hw, hapart⟩
  | signal woken =>
    simp only [ThreadStart.step] at ht
    split_ifs at ht
    obtain ⟨m, hm, rfl⟩ := Option.map_eq_some_iff.mp ht
    obtain ⟨hiff, hapart'⟩ := of_signal hm hapart
    exact ⟨hiff.trans hw, hapart'⟩

/-- A constructor that evaluates the predicate before the signal returns. -/
theorem returned_of_test {s : ThreadStart} (h : Timed s) (hwaiting : s.creator = .waiting)
    (hawake : 0 ∈ s.m_semaphore.awake) (hready : s.thread ≠ .ready) :
    ∃ t, s.step .test = some t ∧ t.creator = .returned := by
  have ht : s.step .test = some { s with
      m_semaphore := s.m_semaphore.test 0
      creator := if s.m_semaphore.completed < (s.m_semaphore.test 0).completed
        then .returned else .waiting } := by
    simp [step, Semaphore.step, hwaiting, hawake]
  refine ⟨_, ht, ?_⟩
  obtain ⟨-, heq⟩ := test_cases h ht
  rw [heq]
  exact if_neg hready

/-- There is a way for the constructor to return. -/
def CanReturn (s : ThreadStart) : Prop := ∃ bs u, exec step s bs = some u ∧ u.creator = .returned

theorem CanReturn.of_step {s t : ThreadStart} {a : Act} (ht : s.step a = some t)
    (h : t.CanReturn) : s.CanReturn := by
  obtain ⟨bs, u, hu, hret⟩ := h
  exact ⟨a :: bs, u, exec_cons_eq_some.mpr ⟨t, ht, hu⟩, hret⟩

theorem canReturn_of_waiting {s : ThreadStart} (h : Timed s) (hw : Waits s)
    (hwaiting : s.creator = .waiting) (hready : s.thread ≠ .ready) : s.CanReturn := by
  have hreturns : ∀ t : ThreadStart, t.Timed → t.creator = .waiting → t.thread ≠ .ready →
      0 ∈ t.m_semaphore.awake → t.CanReturn := by
    intro t ht hwait hnot hawake
    obtain ⟨u, hu, hret⟩ := returned_of_test ht hwait hawake hnot
    exact CanReturn.of_step hu ⟨[], u, rfl, hret⟩
  rcases hw.inWait_iff.mpr hwaiting with hawake | hasleep
  · exact hreturns s h hwaiting hready hawake
  · have hstep : s.step .wakeup =
        some { s with m_semaphore := s.m_semaphore.wake 0 } := by
      simp [step, Semaphore.step, hwaiting, hasleep]
    refine CanReturn.of_step hstep (hreturns _ (h.step hstep) hwaiting hready ?_)
    exact Finset.mem_insert_self _ _

theorem canReturn_of_created {s : ThreadStart} (h : Timed s) (hw : Waits s)
    (hcreated : s.creator = .created) (hready : s.thread ≠ .ready) : s.CanReturn := by
  have hout : ¬ s.m_semaphore.InWait 0 := by
    rw [hw.inWait_iff, hcreated]
    exact Creator.noConfusion
  have hstep : s.step .wait = some { s with
      m_semaphore := { s.m_semaphore with awake := insert 0 s.m_semaphore.awake }
      creator := .waiting } := by
    simp [step, Semaphore.step, hcreated, hout]
  exact CanReturn.of_step hstep
    (canReturn_of_waiting (h.step hstep) (hw.step h hstep) rfl hready)

/-- **When the constructor returns**: in every state that the two threads can come to, the constructor
has returned or has still a way to return exactly as long as the new thread has not signalled. From
its signal on the constructor waits for ever, unless it has returned before. -/
theorem canReturn_iff {as : List Act} {s : ThreadStart} (hs : exec step start as = some s)
    (hthrew : s.creator ≠ .threw) :
    s.CanReturn ↔ s.creator = .returned ∨ s.thread ≠ .ready := by
  have hinv : Timed s ∧ Waits s :=
    exec_invariant (I := fun s => Timed s ∧ Waits s)
      (fun _ _ _ h ht => ⟨h.1.step ht, h.2.step h.1 ht⟩) ⟨timed_start, waits_start⟩ hs
  constructor
  · rintro ⟨bs, u, hu, hret⟩
    by_contra hnot
    push Not at hnot
    exact blocked_of_ready hs hnot.2 hnot.1 hu hret
  · intro h
    by_cases hret : s.creator = .returned
    · exact ⟨[], s, rfl, hret⟩
    have hready := h.resolve_left hret
    cases hcreator : s.creator with
    | creating =>
      have hstep : s.step (.create 0) = some { s with creator := .created, thread := .started } := by
        simp [step, hcreator]
      exact CanReturn.of_step hstep
        (canReturn_of_created (hinv.1.step hstep) (hinv.2.step hinv.1 hstep) rfl Created.noConfusion)
    | created => exact canReturn_of_created hinv.1 hinv.2 hcreator hready
    | waiting => exact canReturn_of_waiting hinv.1 hinv.2 hcreator hready
    | returned => exact absurd hcreator hret
    | threw => exact absurd hcreator hthrew

/-- The new thread has signalled before the constructor waits, which is not to return any more. -/
theorem canReturn_iff_signal_first :
    ∃ s, exec step start [.create 0, .setId 7, .signal none, .wait] = some s ∧
      s.m_id = 7 ∧ ¬ s.CanReturn := by
  obtain ⟨s, hs⟩ : ∃ s, exec step start [.create 0, .setId 7, .signal none, .wait] = some s :=
    ⟨_, rfl⟩
  have hthread : s.thread = .ready ∧ s.creator = .waiting ∧ s.m_id = 7 := by
    obtain rfl := Option.some.inj hs
    exact ⟨rfl, rfl, rfl⟩
  refine ⟨s, hs, hthread.2.2, ?_⟩
  rw [canReturn_iff hs (by rw [hthread.2.1]; exact Creator.noConfusion), hthread.1, hthread.2.1]
  rintro (h | h)
  · cases h
  · exact h rfl

end ThreadStart

end Dag
