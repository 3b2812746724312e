import Dag.Fiber.Pointers
import Dag.Foundation.Ownership

/-!
# How long fibers live

The fibers of tasks are held by the pointers of the scheduler; by those of whoever else has copied
one, the user, the contexts of events, the callbacks of timers; and by the variables on the stack of
the fiber itself, of which the first is `curr` in `MainFunc`. With the last pointer the fiber is
destroyed, and its stack is freed.

`resume`, `yield` and the switches go through plain pointers: `MainFunc` lets `curr` go before it
yields for the last time, and only the local variable of `run` keeps the fiber then. A fiber that is
suspended keeps itself, even if nobody is left who could resume it.

The fibers that a thread has of its own (its main, its scheduling and its idle fiber) are not
counted here.

## Main definitions

* `Lifetimes`: the fibers, with the pointers to each of them
* `Lifetimes.step`: the steps of the scheduler, and what is done with pointers
* `Lifetimes.uses`: the fibers whose memory a step reads or writes
* `Lifetimes.Lost`: the fiber is suspended, and only its own stack points to it

## Main results

* `Lifetimes.alive_of_exec`: no step uses a fiber that has been destroyed; a fiber is destroyed
  once, when the last pointer goes, and never while it is suspended
* `Lifetimes.lost_of_exec`: a fiber that is lost is never executed again, and never destroyed
-/

namespace Dag

open Foundation

/-! ## The pointers of others -/

/-- The fibers, and who points to them beside the scheduler. -/
structure Lifetimes (n : ℕ) where
  fibers : Fibers n
  /-- the user's fibers that have been made -/
  born : ℕ → Bool
  /-- `MainFunc` has been entered -/
  started : FiberId n → Bool
  /-- the pointers to a fiber on its own stack -/
  stack : FiberId n → ℕ
  /-- all other pointers to a fiber -/
  outside : FiberId n → ℕ
  /-- the fibers that have been destroyed, with the state that they had -/
  destroyed : List (FiberId n × FiberState)

/-- What is done with fibers and with pointers to them. -/
inductive LifetimeAct (n : ℕ)
  /-- the user makes a fiber -/
  | make (i : ℕ)
  /-- a pointer is copied, or goes out of its scope, outside of the fibers that run -/
  | copy (f : FiberId n)
  | drop (f : FiberId n)
  /-- `MainFunc` is entered on thread `w`: `curr = GetThis()` -/
  | mainFunc (w : Fin n)
  /-- the fiber on thread `w` calls `GetThis`, for a variable of its own or for others -/
  | getThis (w : Fin n)
  | handOut (w : Fin n)
  /-- a variable of its own goes out of its scope -/
  | leave (w : Fin n)
  /-- `curr.reset()` in `MainFunc` -/
  | reset (w : Fin n)
  /-- a step of the fibers and the scheduler -/
  | act (a : Fibers.Act n)
  deriving DecidableEq, Repr

namespace Lifetimes

variable {n : ℕ}

/-- No fiber has been made but those of the threads. -/
def start (c : FiberSetup n) : Lifetimes n where
  fibers := .start c
  born _ := false
  started _ := false
  stack _ := 0
  outside _ := 0
  destroyed := []

/-- The fiber of a task has been made. -/
def Made (s : Lifetimes n) : FiberId n → Prop
  | .user i => s.born i = true
  | .made k => k < s.fibers.created
  | .main _ | .scheduling _ | .idle _ => False

/-- There is a pointer to the fiber. -/
def Held (s : Lifetimes n) (f : FiberId n) : Prop :=
  s.fibers.PointsTo f ∨ 0 < s.stack f ∨ 0 < s.outside f

instance (s : Lifetimes n) : DecidablePred s.Held :=
  fun f => inferInstanceAs (Decidable (s.fibers.PointsTo f ∨ 0 < s.stack f ∨ 0 < s.outside f))

/-- A pointer to the fiber is gone: without another one, the fiber is destroyed. -/
def settle (s : Lifetimes n) (f : FiberId n) : Lifetimes n :=
  if s.Held f then s
  else { s with destroyed := s.destroyed ++ [(f, s.fibers.m_state f)] }

/-- Thread `w` executes a task, outside of a switch. -/
def InTask (s : Lifetimes n) (w : Fin n) : Prop :=
  s.fibers.IsTask (s.fibers.thread w).executing ∧ (s.fibers.thread w).switch = none

instance (s : Lifetimes n) : DecidablePred s.InTask :=
  fun _ => inferInstanceAs (Decidable (_ ∧ _))

/-- Thread `w` executes the function of a task: `MainFunc` has been entered, and the function has
not returned. -/
def InBody (s : Lifetimes n) (w : Fin n) : Prop :=
  s.InTask w ∧ s.started (s.fibers.thread w).executing = true ∧
    s.fibers.m_state (s.fibers.thread w).executing ≠ .term

instance (s : Lifetimes n) : DecidablePred s.InBody :=
  fun _ => inferInstanceAs (Decidable (_ ∧ _ ∧ _))

/-- What a step of the scheduler needs of the pointers: who puts a fiber into the queue has a
pointer to it; a task yields and returns inside of `MainFunc`, and its variables go before it
returns. -/
def Allowed (s : Lifetimes n) : Fibers.Act n → Prop
  | .schedulerLock (some f) => 0 < s.outside f
  | .yield w => s.InTask w → s.started (s.fibers.thread w).executing = true
  | .finish w => s.InTask w → s.started (s.fibers.thread w).executing = true ∧
      s.stack (s.fibers.thread w).executing = 1
  | .last w => s.InTask w → s.stack (s.fibers.thread w).executing = 0
  | _ => True

instance (s : Lifetimes n) : DecidablePred s.Allowed
  | .schedulerLock (some f) => inferInstanceAs (Decidable (0 < s.outside f))
  | .yield w => inferInstanceAs (Decidable (s.InTask w → _))
  | .finish w => inferInstanceAs (Decidable (s.InTask w → _ ∧ _))
  | .last w => inferInstanceAs (Decidable (s.InTask w → _))
  | .schedulerLock none | .stop _ | .dequeue _ _ | .spare _ | .lock _ | .enter _ | .swap _
  | .back _ => inferInstanceAs (Decidable True)

/-- One step. -/
def step (c : FiberSetup n) (s : Lifetimes n) : LifetimeAct n → Option (Lifetimes n)
  | .make i =>
    if s.born i then none
    else some { s with
      born := Function.update s.born i true
      outside := Function.update s.outside (.user i) 1 }
  | .copy f =>
    if 0 < s.outside f then
      some { s with outside := Function.update s.outside f (s.outside f + 1) }
    else none
  | .drop f =>
    if 0 < s.outside f then
      some ({ s with outside := Function.update s.outside f (s.outside f - 1) }.settle f)
    else none
  | .mainFunc w =>
    let th := s.fibers.thread w
    if s.InTask w ∧ s.started th.executing = false then
      some { s with
        started := Function.update s.started th.executing true
        stack := Function.update s.stack th.t_fiber (s.stack th.t_fiber + 1) }
    else none
  | .getThis w =>
    let th := s.fibers.thread w
    if s.InBody w then
      some { s with stack := Function.update s.stack th.t_fiber (s.stack th.t_fiber + 1) }
    else none
  | .handOut w =>
    let th := s.fibers.thread w
    if s.InBody w then
      some { s with outside := Function.update s.outside th.t_fiber (s.outside th.t_fiber + 1) }
    else none
  | .leave w =>
    let th := s.fibers.thread w
    -- `curr` stays
    if s.InBody w ∧ 1 < s.stack th.executing then
      some { s with stack := Function.update s.stack th.executing (s.stack th.executing - 1) }
    else none
  | .reset w =>
    let th := s.fibers.thread w
    if s.InTask w ∧ s.fibers.m_state th.executing = .term ∧ s.stack th.executing = 1 then
      some ({ s with stack := Function.update s.stack th.executing 0 }.settle th.executing)
    else none
  | .act a =>
    if s.Allowed a then
      (s.fibers.step c a).map fun fibers =>
        match s.fibers.letsGo a with
        | some f => { s with fibers := fibers }.settle f
        | none => { s with fibers := fibers }
    else none

/-- The fibers whose memory a step reads or writes. -/
def uses (s : Lifetimes n) : LifetimeAct n → List (FiberId n)
  | .make _ | .copy _ | .drop _ => []
  | .mainFunc w | .getThis w | .handOut w => [(s.fibers.thread w).t_fiber]
  | .leave w | .reset w => [(s.fibers.thread w).executing]
  | .act a => s.fibers.uses a

/-! ## The pointers keep their fibers -/

/-- **The invariant**: a fiber is destroyed just if it has been made and nobody points to it; one
that is suspended has a pointer on its own stack. -/
structure Sound (c : FiberSetup n) (s : Lifetimes n) : Prop where
  modes : ∃ mode, s.fibers.Modes c False mode
  shared : Shared s.Made s.Held (s.destroyed.map Prod.fst)
  suspended : ∀ f, s.started f = true → s.fibers.m_state f ≠ .term → 0 < s.stack f
  ends : ∀ e ∈ s.destroyed, e.2 = .term ∨ e.2 = .ready ∧ s.started e.1 = false

section Sound

variable {c : FiberSetup n} {s t u : Lifetimes n} {f : FiberId n} {w : Fin n} {a : LifetimeAct n}

theorem asTask_of_made (h : s.Made f) : f.asTask = some f := by
  cases f with
  | user | made => rfl
  | main | scheduling | idle => exact h.elim

theorem sound_start (c : FiberSetup n) : Sound c (start c) := by
  have hheld : ∀ f, ¬ (start c).Held f := by
    rintro f (hpoints | hstack | houtside)
    · obtain hqueue | ⟨w, hw⟩ := hpoints
      · cases hqueue
      · cases hw
    · cases hstack
    · cases houtside
  have hmade : ∀ f, ¬ (start c).Made f := by
    intro f hf
    cases f with
    | user => cases hf
    | made => cases hf
    | main | scheduling | idle => exact hf
  refine ⟨⟨_, Fibers.modes_start c False⟩, ⟨?_, ?_, List.nodup_nil⟩, nofun, nofun⟩
  · exact fun f hf => absurd hf (hheld f)
  · exact fun f => iff_of_false nofun fun hf => hmade f hf.1

/-- A pointer to a fiber is gone, and nothing else. -/
theorem sound_settle (hmodes : ∃ mode, u.fibers.Modes c False mode)
    (hshared : Shared s.Made s.Held (u.destroyed.map Prod.fst)) (hf : s.Held f)
    (hmade : ∀ e, u.Made e ↔ s.Made e) (hheld : ∀ e, e ≠ f → (u.Held e ↔ s.Held e))
    (hsuspended : ∀ f, u.started f = true → u.fibers.m_state f ≠ .term → 0 < u.stack f)
    (hends : ∀ e ∈ u.destroyed, e.2 = .term ∨ e.2 = .ready ∧ u.started e.1 = false) :
    Sound c (u.settle f) := by
  have hsettled := hshared.letGo hf hmade hheld
  have htask := asTask_of_made (hshared.made_of_held f hf)
  by_cases hlast : u.Held f
  · rw [if_pos hlast] at hsettled
    rw [settle, if_pos hlast]
    exact ⟨hmodes, hsettled, hsuspended, hends⟩
  · rw [if_neg hlast] at hsettled
    rw [settle, if_neg hlast]
    refine ⟨hmodes, ?_, hsuspended, ?_⟩
    · rw [List.map_append]
      exact hsettled
    · intro e he
      obtain he | he := List.mem_append.mp he
      · exact hends e he
      · obtain rfl := List.mem_singleton.mp he
        obtain ⟨mode, hmode⟩ := hmodes
        have hrunning := hmode.not_running htask fun hpoints => hlast (.inl hpoints)
        change u.fibers.m_state f = .term ∨ u.fibers.m_state f = .ready ∧ u.started f = false
        cases hstate : u.fibers.m_state f with
        | running => exact absurd hstate hrunning
        | term => exact .inl rfl
        | ready =>
          -- a fiber that has been started, and has not ended, would have a pointer on its stack
          refine .inr ⟨rfl, ?_⟩
          by_contra hstarted
          have hstack := hsuspended f (by simpa using hstarted) (by rw [hstate]; decide)
          exact hlast (.inr (.inl hstack))

/-- A thread that executes a task: the scheduler points to the task, which is the current fiber. -/
theorem Sound.in_task (h : Sound c s) (htask : s.InTask w) :
    (s.fibers.thread w).t_fiber = (s.fibers.thread w).executing ∧
      s.fibers.PointsTo (s.fibers.thread w).executing := by
  obtain ⟨mode, hmode⟩ := h.modes
  exact (hmode.in_task htask.1 htask.2).2

/-- The step of a task with its own pointers: it is held as before. -/
theorem held_iff_of_in_task (hfibers : t.fibers = s.fibers) {x : FiberId n}
    (hx : s.fibers.PointsTo x) (hstack : ∀ e, e ≠ x → t.stack e = s.stack e)
    (houtside : ∀ e, e ≠ x → t.outside e = s.outside e) (e : FiberId n) :
    t.Held e ↔ s.Held e := by
  by_cases he : e = x
  · rw [he]
    exact iff_of_true (.inl (by rw [hfibers]; exact hx)) (.inl hx)
  · rw [Held, Held, hfibers, hstack e he, houtside e he]

/-- **A step of the scheduler.** -/
theorem Sound.act (h : Sound c s) {a : Fibers.Act n} (hallowed : s.Allowed a) {fibers : Fibers n}
    (ht : s.fibers.step c a = some fibers) :
    Sound c (match s.fibers.letsGo a with
      | some f => { s with fibers := fibers }.settle f
      | none => { s with fibers := fibers }) := by
  obtain ⟨mode, hmode⟩ := h.modes
  have hmodes := hmode.step False.elim ht
  have hsuspended : ∀ f, s.started f = true → fibers.m_state f ≠ .term → 0 < s.stack f := by
    intro f hf hstate
    exact h.suspended f hf fun hterm => hstate ((Fibers.step_cases ht).2 f hterm)
  have hmade : fibers.created = s.fibers.created →
      ∀ e, ({ s with fibers := fibers } : Lifetimes n).Made e ↔ s.Made e := by
    intro hcreated e
    cases e with
    | made k => rw [Made, Made, hcreated]
    | user | main | scheduling | idle => rfl
  obtain ⟨f, rfl, hnone, -, hcreated, hpoints⟩ | ⟨hnone, hcreated, hpoints⟩ |
    ⟨hcreated, hgo, hpoints⟩ := Fibers.step_pointers hmode.queue ht
  · rw [hnone]
    refine ⟨hmodes, h.shared.keep (hmade hcreated) fun e => ?_, hsuspended, h.ends⟩
    rw [Held, Held, hpoints]
    by_cases he : e = f
    · rw [he]
      exact iff_of_true (.inl (.inr rfl)) (.inr (.inr hallowed))
    · simp [he]
  · rw [hnone]
    refine ⟨hmodes, h.shared.make (d := .made s.fibers.created) ?_ ?_ ?_, hsuspended, h.ends⟩
    · exact Nat.lt_irrefl _
    · intro e
      cases e with
      | made k => simp only [Made, hcreated, FiberId.made.injEq, Nat.lt_succ_iff_lt_or_eq]
      | user | main | scheduling | idle => simp [Made]
    · intro e
      rw [Held, Held, hpoints, or_right_comm]
  · cases hlets : s.fibers.letsGo a with
    | none =>
      refine ⟨hmodes, h.shared.keep (hmade hcreated) fun e => ?_, hsuspended, h.ends⟩
      rw [Held, Held, hpoints e (by rw [hlets]; exact nofun)]
    | some f =>
      refine sound_settle hmodes h.shared (.inl (hgo f hlets)) (hmade hcreated) ?_ hsuspended h.ends
      intro e he
      rw [Held, Held, hpoints e]
      rw [hlets]
      exact fun heq => he (Option.some.inj heq).symm

/-- **Every step keeps the invariant.** -/
theorem Sound.step (h : Sound c s) (ht : s.step c a = some t) : Sound c t := by
  cases a with
  | make i =>
    simp only [Lifetimes.step] at ht
    split_ifs at ht with hborn
    obtain rfl := Option.some.inj ht
    refine ⟨h.modes, h.shared.make (d := .user i) hborn ?_ ?_, h.suspended, h.ends⟩
    · intro e
      cases e with
      | user j =>
        by_cases hj : j = i
        · simp [Made, hj]
        · simp [Made, hj]
      | made | main | scheduling | idle => simp [Made]
    · intro e
      by_cases he : e = .user i
      · simp [Held, he]
      · simp [Held, he]
  | copy f =>
    simp only [Lifetimes.step] at ht
    split_ifs at ht with hout
    obtain rfl := Option.some.inj ht
    refine ⟨h.modes, h.shared.keep (fun _ => .rfl) fun e => ?_, h.suspended, h.ends⟩
    by_cases he : e = f
    · simp [Held, he, hout]
    · simp [Held, Function.update_of_ne he]
  | drop f =>
    simp only [Lifetimes.step] at ht
    split_ifs at ht with hout
    obtain rfl := Option.some.inj ht
    refine sound_settle h.modes h.shared (.inr (.inr hout)) (fun _ => .rfl) ?_ h.suspended h.ends
    intro e he
    simp [Held, Function.update_of_ne he]
  | mainFunc w =>
    simp only [Lifetimes.step] at ht
    split_ifs at ht with hcond
    obtain ⟨hcurrent, hpoints⟩ := h.in_task hcond.1
    obtain rfl := Option.some.inj ht
    rw [hcurrent]
    refine ⟨h.modes, h.shared.keep (fun _ => .rfl) (held_iff_of_in_task rfl hpoints
      (fun e he => Function.update_of_ne he _ _) fun _ _ => rfl), ?_, ?_⟩
    · intro e hstarted hstate
      by_cases he : e = (s.fibers.thread w).executing
      · simp [he]
      · simp only [Function.update_of_ne he] at hstarted ⊢
        exact h.suspended e hstarted hstate
    · intro e hmem
      have he : e.1 ≠ (s.fibers.thread w).executing := by
        intro he
        apply h.shared.notMem (.inl hpoints)
        rw [← he]
        exact List.mem_map_of_mem hmem
      simp only [Function.update_of_ne he]
      exact h.ends e hmem
  | getThis w =>
    simp only [Lifetimes.step] at ht
    split_ifs at ht with hbody
    obtain ⟨hcurrent, hpoints⟩ := h.in_task hbody.1
    obtain rfl := Option.some.inj ht
    rw [hcurrent]
    refine ⟨h.modes, h.shared.keep (fun _ => .rfl) (held_iff_of_in_task rfl hpoints
      (fun e he => Function.update_of_ne he _ _) fun _ _ => rfl), ?_, h.ends⟩
    intro e hstarted hstate
    by_cases he : e = (s.fibers.thread w).executing
    · simp [he]
    · simp only [Function.update_of_ne he]
      exact h.suspended e hstarted hstate
  | handOut w =>
    simp only [Lifetimes.step] at ht
    split_ifs at ht with hbody
    obtain ⟨hcurrent, hpoints⟩ := h.in_task hbody.1
    obtain rfl := Option.some.inj ht
    rw [hcurrent]
    exact ⟨h.modes, h.shared.keep (fun _ => .rfl) (held_iff_of_in_task rfl hpoints
      (fun _ _ => rfl) fun e he => Function.update_of_ne he _ _), h.suspended, h.ends⟩
  | leave w =>
    simp only [Lifetimes.step] at ht
    split_ifs at ht with hcond
    obtain ⟨hbody, hstack⟩ := hcond
    obtain ⟨-, hpoints⟩ := h.in_task hbody.1
    obtain rfl := Option.some.inj ht
    refine ⟨h.modes, h.shared.keep (fun _ => .rfl) (held_iff_of_in_task rfl hpoints
      (fun e he => Function.update_of_ne he _ _) fun _ _ => rfl), ?_, h.ends⟩
    intro e hstarted hstate
    by_cases he : e = (s.fibers.thread w).executing
    · simp only [he, Function.update_self]
      exact Nat.sub_pos_of_lt hstack
    · simp only [Function.update_of_ne he]
      exact h.suspended e hstarted hstate
  | reset w =>
    simp only [Lifetimes.step] at ht
    split_ifs at ht with hcond
    obtain ⟨htask, hterm, -⟩ := hcond
    obtain ⟨-, hpoints⟩ := h.in_task htask
    obtain rfl := Option.some.inj ht
    refine sound_settle h.modes h.shared (.inl hpoints) (fun _ => .rfl) ?_ ?_ h.ends
    · intro e he
      simp [Held, Function.update_of_ne he]
    · intro e hstarted hstate
      have he : e ≠ (s.fibers.thread w).executing := by
        rintro rfl
        exact hstate hterm
      simp only [Function.update_of_ne he]
      exact h.suspended e hstarted hstate
  | act a =>
    simp only [Lifetimes.step] at ht
    split_ifs at ht with hallowed
    obtain ⟨fibers, hfibers, rfl⟩ := Option.map_eq_some_iff.mp ht
    exact h.act hallowed hfibers

theorem sound_of_exec {as : List (LifetimeAct n)} (hs : exec (step c) (start c) as = some s) :
    Sound c s :=
  exec_invariant (fun _ _ _ h ht => h.step ht) (sound_start c) hs

/-- The fibers of tasks that a step uses are there. -/
theorem Sound.alive (h : Sound c s) (ht : s.step c a = some t) (hf : f ∈ s.uses a) :
    f ∉ s.destroyed.map Prod.fst := by
  intro hgone
  have htask := asTask_of_made ((h.shared.gone_iff f).mp hgone).1
  have hpoints : s.fibers.PointsTo f := by
    cases a with
    | make | copy | drop => cases hf
    | mainFunc w =>
      simp only [Lifetimes.step] at ht
      split_ifs at ht with hcond
      obtain ⟨hcurrent, hpoints⟩ := h.in_task hcond.1
      rw [List.mem_singleton.mp hf, hcurrent]
      exact hpoints
    | getThis w | handOut w =>
      simp only [Lifetimes.step] at ht
      split_ifs at ht with hbody
      obtain ⟨hcurrent, hpoints⟩ := h.in_task hbody.1
      rw [List.mem_singleton.mp hf, hcurrent]
      exact hpoints
    | leave w | reset w =>
      simp only [Lifetimes.step] at ht
      split_ifs at ht with hcond
      rw [List.mem_singleton.mp hf]
      first
      | exact (h.in_task hcond.1.1).2
      | exact (h.in_task hcond.1).2
    | act a =>
      simp only [Lifetimes.step] at ht
      split_ifs at ht
      obtain ⟨fibers, hfibers, -⟩ := Option.map_eq_some_iff.mp ht
      obtain ⟨mode, hmode⟩ := h.modes
      exact hmode.pointsTo_of_uses hfibers hf htask
  exact h.shared.notMem (.inl hpoints) hgone

/-- **The lifetime of a fiber.** In every run of any number of threads: no step uses the memory of a
fiber that has been destroyed; a fiber is destroyed once, and just when it has been made and the
last pointer to it has gone; and it has ended then, or has never been started. -/
theorem alive_of_exec {as : List (LifetimeAct n)} (hs : exec (step c) (start c) as = some s) :
    (∀ a t, s.step c a = some t → ∀ f ∈ s.uses a, f ∉ s.destroyed.map Prod.fst) ∧
    (s.destroyed.map Prod.fst).Nodup ∧
    (∀ f, f ∈ s.destroyed.map Prod.fst ↔ s.Made f ∧ ¬ s.Held f) ∧
    ∀ e ∈ s.destroyed, e.2 = .term ∨ e.2 = .ready ∧ s.started e.1 = false := by
  have h := sound_of_exec hs
  exact ⟨fun a t ht f hf => h.alive ht hf, h.shared.nodup, h.shared.gone_iff, h.ends⟩

end Sound

/-! ## Lost fibers -/

/-- **The fiber is lost**: it has been suspended, the scheduler does not point to it, and nobody
else does but its own stack. -/
structure Lost (s : Lifetimes n) (f : FiberId n) : Prop where
  started : s.started f = true
  not_term : s.fibers.m_state f ≠ .term
  not_pointsTo : ¬ s.fibers.PointsTo f
  outside : s.outside f = 0

section Lost

variable {c : FiberSetup n} {s t : Lifetimes n} {f : FiberId n} {w : Fin n} {a : LifetimeAct n}

/-- A fiber that has been started is that of a task. -/
theorem Sound.asTask_of_lost (h : Sound c s) (hf : s.Lost f) : f.asTask = some f := by
  have hstack := h.suspended f hf.started hf.not_term
  exact asTask_of_made (h.shared.made_of_held f (.inr (.inl hstack)))

/-- **What is lost stays lost.** -/
theorem Lost.step (h : Sound c s) (hf : s.Lost f) (ht : s.step c a = some t) :
    t.Lost f ∧ t.stack f = s.stack f := by
  have htask := h.asTask_of_lost hf
  have hne : ∀ {w}, s.InTask w → f ≠ (s.fibers.thread w).executing := by
    rintro w hw rfl
    exact hf.not_pointsTo (h.in_task hw).2
  have settle_lost : ∀ {u : Lifetimes n} {g : FiberId n}, u.Lost f →
      (u.settle g).Lost f ∧ (u.settle g).stack f = u.stack f := by
    intro u g hu
    rw [settle]
    split_ifs
    · exact ⟨hu, rfl⟩
    · exact ⟨⟨hu.started, hu.not_term, hu.not_pointsTo, hu.outside⟩, rfl⟩
  cases a with
  | make i =>
    simp only [Lifetimes.step] at ht
    split_ifs at ht with hborn
    have hfi : f ≠ .user i := by
      rintro rfl
      have hstack := h.suspended _ hf.started hf.not_term
      exact hborn (h.shared.made_of_held _ (.inr (.inl hstack)))
    obtain rfl := Option.some.inj ht
    exact ⟨⟨hf.started, hf.not_term, hf.not_pointsTo,
      (Function.update_of_ne hfi _ _).trans hf.outside⟩, rfl⟩
  | copy g =>
    simp only [Lifetimes.step] at ht
    split_ifs at ht with hout
    have hfg : f ≠ g := by
      rintro rfl
      exact absurd hf.outside (Nat.ne_of_gt hout)
    obtain rfl := Option.some.inj ht
    exact ⟨⟨hf.started, hf.not_term, hf.not_pointsTo,
      (Function.update_of_ne hfg _ _).trans hf.outside⟩, rfl⟩
  | drop g =>
    simp only [Lifetimes.step] at ht
    split_ifs at ht with hout
    have hfg : f ≠ g := by
      rintro rfl
      exact absurd hf.outside (Nat.ne_of_gt hout)
    obtain rfl := Option.some.inj ht
    exact settle_lost ⟨hf.started, hf.not_term, hf.not_pointsTo,
      (Function.update_of_ne hfg _ _).trans hf.outside⟩
  | mainFunc w =>
    simp only [Lifetimes.step] at ht
    split_ifs at ht with hcond
    have hfw := hne hcond.1
    obtain rfl := Option.some.inj ht
    rw [(h.in_task hcond.1).1]
    exact ⟨⟨(Function.update_of_ne hfw _ _).trans hf.started, hf.not_term, hf.not_pointsTo,
      hf.outside⟩, Function.update_of_ne hfw _ _⟩
  | getThis w =>
    simp only [Lifetimes.step] at ht
    split_ifs at ht with hbody
    have hfw := hne hbody.1
    obtain rfl := Option.some.inj ht
    rw [(h.in_task hbody.1).1]
    exact ⟨⟨hf.started, hf.not_term, hf.not_pointsTo, hf.outside⟩, Function.update_of_ne hfw _ _⟩
  | handOut w =>
    simp only [Lifetimes.step] at ht
    split_ifs at ht with hbody
    have hfw := hne hbody.1
    obtain rfl := Option.some.inj ht
    rw [(h.in_task hbody.1).1]
    exact ⟨⟨hf.started, hf.not_term, hf.not_pointsTo,
      (Function.update_of_ne hfw _ _).trans hf.outside⟩, rfl⟩
  | leave w =>
    simp only [Lifetimes.step] at ht
    split_ifs at ht with hcond
    have hfw := hne hcond.1.1
    obtain rfl := Option.some.inj ht
    exact ⟨⟨hf.started, hf.not_term, hf.not_pointsTo, hf.outside⟩, Function.update_of_ne hfw _ _⟩
  | reset w =>
    simp only [Lifetimes.step] at ht
    split_ifs at ht with hcond
    have hfw := hne hcond.1
    obtain rfl := Option.some.inj ht
    obtain ⟨hlost, hstack⟩ := settle_lost (g := (s.fibers.thread w).executing)
      (u := { s with stack := Function.update s.stack (s.fibers.thread w).executing 0 })
      ⟨hf.started, hf.not_term, hf.not_pointsTo, hf.outside⟩
    exact ⟨hlost, hstack.trans (Function.update_of_ne hfw _ _)⟩
  | act a =>
    simp only [Lifetimes.step] at ht
    split_ifs at ht with hallowed
    obtain ⟨fibers, hfibers, rfl⟩ := Option.map_eq_some_iff.mp ht
    obtain ⟨mode, hmode⟩ := h.modes
    have huses : f ∉ s.fibers.uses a := fun hmem =>
      hf.not_pointsTo (hmode.pointsTo_of_uses hfibers hmem htask)
    have hstate := Fibers.m_state_of_notMem_uses hfibers huses
    have hpoints : ¬ fibers.PointsTo f := by
      obtain ⟨g, rfl, -, -, -, hpoints⟩ | ⟨-, -, hpoints⟩ | ⟨-, hgo, hpoints⟩ :=
        Fibers.step_pointers hmode.queue hfibers
      · rw [hpoints]
        rintro (hold | rfl)
        · exact hf.not_pointsTo hold
        · exact absurd hf.outside (Nat.ne_of_gt hallowed)
      · rw [hpoints]
        rintro (hold | rfl)
        · exact hf.not_pointsTo hold
        · have hstack := h.suspended _ hf.started hf.not_term
          exact Nat.lt_irrefl _ (h.shared.made_of_held _ (.inr (.inl hstack)))
      · rw [hpoints f fun hlets => hf.not_pointsTo (hgo f hlets)]
        exact hf.not_pointsTo
    have hlost : ({ s with fibers := fibers } : Lifetimes n).Lost f :=
      ⟨hf.started, fun hterm => hf.not_term (hstate.symm.trans hterm), hpoints, hf.outside⟩
    cases hlets : s.fibers.letsGo a with
    | none => exact ⟨hlost, rfl⟩
    | some g => exact settle_lost hlost

theorem Lost.of_exec {as : List (LifetimeAct n)} (h : Sound c s) (hf : s.Lost f)
    (ht : exec (Lifetimes.step c) s as = some t) :
    Sound c t ∧ t.Lost f ∧ t.stack f = s.stack f := by
  refine exec_invariant (I := fun u => Sound c u ∧ u.Lost f ∧ u.stack f = s.stack f) ?_
    ⟨h, hf, rfl⟩ ht
  rintro u a v ⟨hu, hlost, hstack⟩ hv
  obtain ⟨hlost', hstack'⟩ := hlost.step hu hv
  exact ⟨hu.step hv, hlost', hstack'.trans hstack⟩

/-- **A lost fiber leaks**: whatever is done afterwards, no thread executes it, it stays ready, the
pointers on its stack stay, and it is not destroyed. -/
theorem lost_of_exec {as bs : List (LifetimeAct n)}
    (hs : exec (Lifetimes.step c) (start c) as = some s) (hf : s.Lost f)
    (ht : exec (Lifetimes.step c) s bs = some t) :
    (∀ w, (t.fibers.thread w).executing ≠ f) ∧ t.fibers.m_state f = .ready ∧
      0 < t.stack f ∧ t.stack f = s.stack f ∧ f ∉ t.destroyed.map Prod.fst := by
  obtain ⟨h, hlost, hstack⟩ := hf.of_exec (sound_of_exec hs) ht
  have htask := h.asTask_of_lost hlost
  have hpos := h.suspended f hlost.started hlost.not_term
  obtain ⟨mode, hmode⟩ := h.modes
  refine ⟨?_, ?_, hpos, hstack, h.shared.notMem (.inr (.inl hpos))⟩
  · intro w hexec
    exact hlost.not_pointsTo (hmode.pointsTo_of_executing htask hexec)
  · have hrunning := hmode.not_running htask hlost.not_pointsTo
    cases hstate : t.fibers.m_state f with
    | ready => rfl
    | running => exact absurd hstate hrunning
    | term => exact absurd hstate hlost.not_term

end Lost

/-! ## Runs of one worker -/

/-- The user makes a fiber, puts it into the queue and forgets it; worker `w` starts it. -/
def startOne (w : Fin n) : List (LifetimeAct n) :=
  [.make 0, .act (.schedulerLock (some (.user 0))), .drop (.user 0), .act (.dequeue w 0),
    .act (.lock w), .act (.enter w), .act (.swap w), .mainFunc w]

/-- The fiber ends, and is destroyed behind the return of the resume. -/
theorem alive_of_exec_ended : ∃ s : Lifetimes 1,
    exec (step Fibers.oneWorker) (start Fibers.oneWorker) (startOne 0 ++ [.act (.finish 0), .reset 0,
      .act (.last 0), .act (.swap 0), .act (.back 0)]) = some s ∧
    s.destroyed = [(.user 0, .term)] ∧ s.Made (.user 0) ∧ ¬ s.Held (.user 0) := by
  obtain ⟨s, hs⟩ : ∃ s, exec (step Fibers.oneWorker) (start Fibers.oneWorker) (startOne 0 ++
      [.act (.finish 0), .reset 0, .act (.last 0), .act (.swap 0), .act (.back 0)]) = some s :=
    ⟨_, rfl⟩
  have hgone : s.destroyed = [(.user 0, .term)] := by
    obtain rfl := Option.some.inj hs
    rfl
  obtain ⟨-, -, hiff, -⟩ := alive_of_exec hs
  exact ⟨s, hs, hgone, (hiff (.user 0)).mp (by rw [hgone]; exact List.mem_cons_self)⟩

/-- The fiber yields, and nobody has a pointer to it. The worker goes on without it. -/
theorem lost_of_exec_yielded : ∃ s t : Lifetimes 1,
    exec (step Fibers.oneWorker) (start Fibers.oneWorker)
      (startOne 0 ++ [.act (.yield 0), .act (.swap 0), .act (.back 0)]) = some s ∧
    s.Lost (.user 0) ∧
    exec (step Fibers.oneWorker) s [.act (.spare 0), .act (.swap 0)] = some t ∧
    t.fibers.m_state (.user 0) = .ready ∧ t.stack (.user 0) = s.stack (.user 0) := by
  obtain ⟨s, hs⟩ : ∃ s, exec (step Fibers.oneWorker) (start Fibers.oneWorker)
      (startOne 0 ++ [.act (.yield 0), .act (.swap 0), .act (.back 0)]) = some s := ⟨_, rfl⟩
  have hlost : s.Lost (.user 0) := by
    obtain rfl := Option.some.inj hs
    exact ⟨rfl, by decide, by decide, rfl⟩
  obtain ⟨t, ht⟩ : ∃ t,
      exec (step Fibers.oneWorker) s [.act (.spare 0), .act (.swap 0)] = some t := by
    obtain rfl := Option.some.inj hs
    exact ⟨_, rfl⟩
  obtain ⟨-, hready, -, hstack, -⟩ := lost_of_exec hs hlost ht
  exact ⟨s, t, hs, hlost, ht, hready, hstack⟩

end Lifetimes

end Dag
