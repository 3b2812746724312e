import Dag.Fiber.Switch

/-!
# The modes of a thread

A thread that runs `Scheduler::run` is in one of a few modes: outside of `run`, at home in it, or on
its way to, inside of, or on its way back from one other fiber, its guest. Each mode determines what
the thread executes, which switch it is about to make, and whose resumes have not returned. The
guest is held by the thread from before the test of its state until behind the return of its resume,
by the mutex of the fiber when it is a task.

One behaviour is not as orderly: a fiber that was not made for the scheduler switches from and to
the main fiber's context, in which on the caller thread another flow is waiting. What holds without
such fibers on the caller thread is marked by the proposition `strict`.

## Main definitions

* `Mode`, `Mode.thread`: the modes, and the thread in each of them
* `Fibers.Modes`: every thread is in its mode, and a task that no thread holds is at rest

## Main results

* `Fibers.Modes.change`: how the mode of one thread may change
* `Fibers.Modes.eq_home`, `Fibers.Modes.eq_inside`: which mode a thread is in
-/

namespace Dag

open Foundation

/-- The mode of a thread; `x` is its guest. -/
inductive Mode (n : ℕ)
  /-- on the caller thread, before `stop` -/
  | before
  /-- on the caller thread, in the resume of the scheduling fiber -/
  | starting
  /-- in `run` at `a` -/
  | home (a : RunAt n)
  /-- in the resume of the guest, before the switch -/
  | entering (x : FiberId n)
  /-- executing the guest -/
  | inside (x : FiberId n)
  /-- in the yield of the guest, before the switch -/
  | leaving (x : FiberId n)
  /-- on the caller thread, in the last yield of the scheduling fiber -/
  | closing
  /-- on the caller thread, behind the return of the resume in `stop` -/
  | after
  deriving DecidableEq, Repr

/-- The fiber that a thread at `a` in `run` holds. -/
def RunAt.holds {n : ℕ} : RunAt n → Option (FiberId n)
  | .locked f | .wrapped f | .resuming f => some f
  | .loop | .waiting _ | .exited => none

namespace FiberSetup

variable {n : ℕ} (c : FiberSetup n)

/-- The fiber whose context `resume` and `yield` of `x` switch from and to on thread `w`. -/
def slotOf (w : Fin n) (x : FiberId n) : FiberId n :=
  if c.m_runInScheduler x then c.runFiber w else .main w

/-- The resumes that have not returned on thread `w` when it is at home in `run`. -/
def base (w : Fin n) : List (FiberId n) := if c.caller w then [.main w] else []

end FiberSetup

namespace Mode

variable {n : ℕ}

/-- The fiber that a thread holds. -/
def holds : Mode n → Option (FiberId n)
  | .home a => a.holds
  | .entering x | .inside x | .leaving x => some x
  | .before | .starting | .closing | .after => none

/-- **The thread in a mode.** -/
def thread (c : FiberSetup n) (w : Fin n) : Mode n → FiberThread n
  | .before => ⟨.main w, .main w, c.runFiber w, .main w, none, [], .loop, false⟩
  | .starting => ⟨.scheduling w, .main w, c.runFiber w, .main w,
      some (.resume (.main w) (.scheduling w)), [], .loop, true⟩
  | .home a => ⟨c.runFiber w, .main w, c.runFiber w, c.runFiber w, none, c.base w, a, c.caller w⟩
  | .entering x => ⟨x, .main w, c.runFiber w, c.runFiber w,
      some (.resume (c.slotOf w x) x), c.base w, .resuming x, c.caller w⟩
  | .inside x => ⟨x, .main w, c.runFiber w, x, none, c.runFiber w :: c.base w, .resuming x,
      c.caller w⟩
  | .leaving x => ⟨c.slotOf w x, .main w, c.runFiber w, x, some (.yield x (c.slotOf w x)),
      c.runFiber w :: c.base w, .resuming x, c.caller w⟩
  | .closing => ⟨.main w, .main w, c.runFiber w, .scheduling w,
      some (.yield (.scheduling w) (.main w)), c.base w, .exited, true⟩
  | .after => ⟨.main w, .main w, c.runFiber w, .main w, none, [], .exited, true⟩

/-- The fibers whose states and contexts the mode of thread `w` is about. -/
def Covers (w : Fin n) (m : Mode n) (x : FiberId n) : Prop :=
  x = .main w ∨ x = .scheduling w ∨ m.holds = some x

/-- The thread is at home, where it does not look at what `t_fiber` is. -/
def Home : Mode n → Prop
  | .home _ => True
  | _ => False

end Mode

namespace Fibers

variable {n : ℕ}

section Modes

variable (c : FiberSetup n) (strict : Prop) (s : Fibers n) (w : Fin n)

/-- On the caller thread the main fiber is suspended in its context, unless another flow has been
saved over it. -/
def Suspended : Prop :=
  c.caller w = true →
    s.m_ctx (.main w) = some (.main w) ∨ ¬ strict ∧ s.m_ctx (.main w) = none

/-- On the caller thread the scheduling fiber has not ended. -/
def Alive : Prop := c.caller w = true → s.m_state (.scheduling w) = .running

/-- On the caller thread the fiber was made for the scheduler. -/
def Flagged (x : FiberId n) : Prop :=
  strict → c.caller w = true → c.m_runInScheduler x = true

/-- The states and the contexts of the fibers that thread `w` uses, in its mode. -/
def Uses : Mode n → Prop
  | .before => c.caller w = true ∧ s.m_state (.scheduling w) = .ready ∧
      s.m_ctx (.scheduling w) = some (.scheduling w)
  | .starting => c.caller w = true ∧ s.m_state (.scheduling w) = .running ∧
      s.m_ctx (.scheduling w) = some (.scheduling w)
  | .home a =>
      (s.Alive c w ∨ c.caller w = true ∧ a = .exited ∧ s.m_state (.scheduling w) = .term) ∧
      s.Suspended c strict w ∧
      (∀ x, a.holds = some x →
        s.m_state x ≠ .running ∧ s.m_ctx x = some x ∧ Flagged c strict w x) ∧
      (∀ x, a = .wrapped x → s.m_state x = .ready) ∧
      ∀ x, a = .waiting x → s.IsTask x ∧ Flagged c strict w x
  | .entering x => s.Alive c w ∧ s.Suspended c strict w ∧ s.m_state x = .running ∧
      s.m_ctx x = some x ∧ Flagged c strict w x
  | .inside x => s.Alive c w ∧ (c.m_runInScheduler x = true → s.Suspended c strict w) ∧
      s.m_state x ≠ .ready ∧ s.m_ctx (c.slotOf w x) = some (c.runFiber w) ∧ Flagged c strict w x
  | .leaving x => s.Alive c w ∧ (c.m_runInScheduler x = true → s.Suspended c strict w) ∧
      s.m_state x ≠ .running ∧ s.m_ctx (c.slotOf w x) = some (c.runFiber w) ∧ Flagged c strict w x
  | .closing => c.caller w = true ∧ s.m_state (.scheduling w) = .term ∧ s.Suspended c strict w
  | .after => c.caller w = true ∧ s.m_state (.scheduling w) = .term

/-- Thread `w` is in the mode `m`. -/
structure InMode (m : Mode n) : Prop where
  thread : s.thread w = { m.thread c w with t_fiber := (s.thread w).t_fiber }
  t_fiber : strict ∨ ¬ m.Home → (s.thread w).t_fiber = (m.thread c w).t_fiber
  main : s.m_state (.main w) = .running
  uses : s.Uses c strict w m

/-- **The invariant**: every thread is in its mode; the mutex of a task is with the thread that holds
it; and a fiber that no thread holds is at rest, with its own flow in its context. -/
structure Modes (mode : Fin n → Mode n) : Prop where
  inMode : ∀ w, s.InMode c strict w (mode w)
  mutex : ∀ x, s.IsTask x → ∀ w, s.m_mutex x = some w ↔ (mode w).holds = some x
  held : ∀ w x, (mode w).holds = some x → s.IsTask x ∨ x = .idle w
  rest : ∀ x, IsGuest x → (∀ w, (mode w).holds ≠ some x) →
    s.m_state x ≠ .running ∧ s.m_ctx x = some x
  fresh : ∀ k, s.created ≤ k → s.m_state (.made k) = .ready
  queue : ∀ x, some x ∈ s.m_tasks → s.IsTask x
  entered : ∀ e ∈ s.entered, e.2 = .ready
  asserted : s.asserted = false

end Modes

/-! ## Changing the mode of one thread -/

section Change

variable {c : FiberSetup n} {strict : Prop} {s t : Fibers n} {mode : Fin n → Mode n} {w : Fin n}
  {m : Mode n} {x : FiberId n}

theorem isGuest_of_isTask (h : s.IsTask x) : IsGuest x := by
  cases x with
  | user | made | idle => trivial
  | main | scheduling => exact h

theorem runFiber_eq (c : FiberSetup n) (w : Fin n) :
    c.runFiber w = .main w ∨ c.runFiber w = .scheduling w := by
  unfold FiberSetup.runFiber
  split_ifs
  · exact Or.inr rfl
  · exact Or.inl rfl

theorem slotOf_eq (c : FiberSetup n) (w : Fin n) (x : FiberId n) :
    c.slotOf w x = .main w ∨ c.slotOf w x = .scheduling w := by
  unfold FiberSetup.slotOf
  split_ifs
  · exact runFiber_eq c w
  · exact Or.inl rfl

/-- A guest is none of the thread's own fibers. -/
theorem guest_ne (hx : IsGuest x) : x ≠ .main w ∧ x ≠ .scheduling w ∧ x ≠ c.slotOf w x ∧
    x ≠ c.runFiber w := by
  have hmain : x ≠ .main w := by
    rintro rfl
    exact hx
  have hscheduling : x ≠ .scheduling w := by
    rintro rfl
    exact hx
  refine ⟨hmain, hscheduling, ?_, ?_⟩
  · rcases slotOf_eq c w x with h | h <;> rw [h] <;> assumption
  · rcases runFiber_eq c w with h | h <;> rw [h] <;> assumption

/-- A mode is about the thread, and the fibers that it covers. -/
theorem InMode.congr (h : s.InMode c strict w m) (hthread : t.thread w = s.thread w)
    (htask : ∀ x, s.IsTask x → t.IsTask x)
    (hcovers : ∀ x, Mode.Covers w m x → t.m_state x = s.m_state x ∧ t.m_ctx x = s.m_ctx x) :
    t.InMode c strict w m := by
  obtain ⟨hmain, hmainctx⟩ := hcovers (.main w) (Or.inl rfl)
  obtain ⟨hsched, hschedctx⟩ := hcovers (.scheduling w) (Or.inr (Or.inl rfl))
  have hslot : ∀ x, t.m_ctx (c.slotOf w x) = s.m_ctx (c.slotOf w x) := by
    intro x
    rcases slotOf_eq c w x with heq | heq
    · rw [heq, hmainctx]
    · rw [heq, hschedctx]
  refine ⟨by rw [hthread]; exact h.thread, by rw [hthread]; exact h.t_fiber, hmain ▸ h.main, ?_⟩
  have huses := h.uses
  cases m with
  | before | starting | closing | after =>
    simpa only [Uses, Suspended, hsched, hschedctx, hmainctx] using huses
  | home a =>
    simp only [Uses, Suspended, Alive, hsched, hmainctx] at huses ⊢
    obtain ⟨h₁, h₂, h₃, h₄, h₅⟩ := huses
    refine ⟨h₁, h₂, fun x hx => ?_, fun x hx => ?_, fun x hx => ?_⟩
    · obtain ⟨hst, hctx⟩ := hcovers x (Or.inr (Or.inr hx))
      rw [hst, hctx]
      exact h₃ x hx
    · obtain ⟨hst, -⟩ := hcovers x (Or.inr (Or.inr (by rw [hx]; rfl)))
      rw [hst]
      exact h₄ x hx
    · exact ⟨htask x (h₅ x hx).1, (h₅ x hx).2⟩
  | entering x | inside x | leaving x =>
    obtain ⟨hst, hctx⟩ := hcovers x (Or.inr (Or.inr rfl))
    simpa only [Uses, Suspended, Alive, hsched, hmainctx, hst, hctx, hslot] using huses

theorem Modes.isGuest (h : s.Modes c strict mode) (hx : (mode w).holds = some x) : IsGuest x := by
  rcases h.held w x hx with hx | rfl
  · exact isGuest_of_isTask hx
  · trivial

/-- **A fiber is held by one thread.** -/
theorem Modes.unique (h : s.Modes c strict mode) {v : Fin n} (hw : (mode w).holds = some x)
    (hv : (mode v).holds = some x) : w = v := by
  rcases h.held w x hw with hx | rfl
  · have hmw := (h.mutex x hx w).mpr hw
    rw [(h.mutex x hx v).mpr hv] at hmw
    exact (Option.some.inj hmw).symm
  · rcases h.held v _ hv with hx | hx
    · exact hx.elim
    · exact FiberId.idle.inj hx

/-- The fibers of two threads are different ones. -/
theorem Modes.covers_unique (h : s.Modes c strict mode) {v : Fin n}
    (hv : Mode.Covers v (mode v) x) (hw : Mode.Covers w (mode w) x) : v = w := by
  rcases hv with rfl | rfl | hv
  · rcases hw with hw | hw | hw
    · exact FiberId.main.inj hw
    · cases hw
    · exact (h.isGuest hw).elim
  · rcases hw with hw | hw | hw
    · cases hw
    · exact FiberId.scheduling.inj hw
    · exact (h.isGuest hw).elim
  · rcases hw with rfl | rfl | hw
    · exact (h.isGuest hv).elim
    · exact (h.isGuest hv).elim
    · exact h.unique hv hw

/-- **A change of one thread's mode**, in general: it touches fibers of the thread's own, the guest
that it had and the guest that it has, which it has had before or which nobody had. -/
theorem Modes.change (h : s.Modes c strict mode)
    (hthread : ∀ v, v ≠ w → t.thread v = s.thread v)
    (hstate : ∀ x, ¬ Mode.Covers w (mode w) x → ¬ Mode.Covers w m x →
      t.m_state x = s.m_state x ∧ t.m_ctx x = s.m_ctx x)
    (hmode : t.InMode c strict w m)
    (hnew : ∀ x, m.holds = some x → (mode w).holds = some x ∨ ∀ v, (mode v).holds ≠ some x)
    (hheld : ∀ x, m.holds = some x → t.IsTask x ∨ x = .idle w)
    (hrest : ∀ x, (mode w).holds = some x → m.holds ≠ some x →
      t.m_state x ≠ .running ∧ t.m_ctx x = some x)
    (hmutex : ∀ x, t.IsTask x → ∀ v,
      t.m_mutex x = some v ↔ (Function.update mode w m v).holds = some x)
    (htask : ∀ x, s.IsTask x → t.IsTask x)
    (hfresh : ∀ k, t.created ≤ k → t.m_state (.made k) = .ready)
    (hqueue : ∀ x, some x ∈ t.m_tasks → t.IsTask x)
    (hentered : ∀ e ∈ t.entered, e.2 = .ready) (hasserted : t.asserted = false) :
    t.Modes c strict (Function.update mode w m) := by
  refine ⟨fun v => ?_, hmutex, fun v x hx => ?_, fun x hx hfree => ?_, hfresh, hqueue, hentered,
    hasserted⟩
  · by_cases hvw : v = w
    · subst hvw
      rw [Function.update_self]
      exact hmode
    · rw [Function.update_of_ne hvw]
      refine (h.inMode v).congr (hthread v hvw) htask fun x hx => hstate x ?_ ?_
      · exact fun hw => hvw (h.covers_unique hx hw)
      · intro hw
        have hown : ¬ Mode.Covers w (mode w) x := fun hw => hvw (h.covers_unique hx hw)
        rcases hw with hw | hw | hw
        · exact hown (Or.inl hw)
        · exact hown (Or.inr (Or.inl hw))
        · rcases hnew x hw with hold | hfree
          · exact hown (Or.inr (Or.inr hold))
          · rcases hx with rfl | rfl | hx
            · exact (hheld _ hw).elim id nofun
            · exact (hheld _ hw).elim id nofun
            · exact hfree v hx
  · by_cases hvw : v = w
    · subst hvw
      rw [Function.update_self] at hx
      exact hheld x hx
    · rw [Function.update_of_ne hvw] at hx
      exact (h.held v x hx).imp (htask x) id
  · have hm : m.holds ≠ some x := by
      have hw := hfree w
      rwa [Function.update_self] at hw
    by_cases hold : (mode w).holds = some x
    · exact hrest x hold hm
    · obtain ⟨hst, hctx⟩ := hstate x
        (by
          rintro (rfl | rfl | hw)
          · exact hx
          · exact hx
          · exact hold hw)
        (by
          rintro (rfl | rfl | hw)
          · exact hx
          · exact hx
          · exact hm hw)
      rw [hst, hctx]
      refine h.rest x hx fun v hv => ?_
      by_cases hvw : v = w
      · subst hvw
        exact hold hv
      · have hother := hfree v
        rw [Function.update_of_ne hvw] at hother
        exact hother hv

/-- A change of mode with the same guest. -/
theorem Modes.stay (h : s.Modes c strict mode) (hholds : m.holds = (mode w).holds)
    (hthread : ∀ v, v ≠ w → t.thread v = s.thread v)
    (hstate : ∀ x, ¬ Mode.Covers w (mode w) x → t.m_state x = s.m_state x ∧ t.m_ctx x = s.m_ctx x)
    (hmode : t.InMode c strict w m) (hmutex : t.m_mutex = s.m_mutex)
    (hcreated : t.created = s.created) (hqueue : ∀ x, some x ∈ t.m_tasks → s.IsTask x)
    (hentered : ∀ e ∈ t.entered, e.2 = .ready) (hasserted : t.asserted = false) :
    t.Modes c strict (Function.update mode w m) := by
  have htask : ∀ x, t.IsTask x ↔ s.IsTask x := by
    intro x
    cases x with
    | made k => simp only [IsTask, hcreated]
    | main | scheduling | idle | user => rfl
  refine h.change hthread (fun x hx _ => hstate x hx) hmode (fun x hx => Or.inl (hholds ▸ hx)) ?_ ?_
    ?_ (fun x => (htask x).mpr) ?_ (fun x hx => (htask x).mpr (hqueue x hx)) hentered hasserted
  · intro x hx
    rw [htask]
    exact h.held w x (hholds ▸ hx)
  · intro x hx hnot
    exact absurd (hholds.trans hx) hnot
  · intro x hx v
    rw [hmutex, h.mutex x ((htask x).mp hx) v]
    by_cases hvw : v = w
    · subst hvw
      rw [Function.update_self, hholds]
    · rw [Function.update_of_ne hvw]
  · intro k hk
    have hfree : ¬ Mode.Covers w (mode w) (.made k) := by
      rintro (hx | hx | hx)
      · cases hx
      · cases hx
      · rcases h.held w _ hx with hx | hx
        · exact absurd hx (by rw [IsTask]; omega)
        · cases hx
    rw [(hstate _ hfree).1]
    exact h.fresh k (hcreated ▸ hk)

end Change

/-! ## Which mode a thread is in -/

section Which

variable {c : FiberSetup n} {strict : Prop} {s : Fibers n} {mode : Fin n → Mode n} {w : Fin n}

theorem Modes.thread_eq (h : s.Modes c strict mode) (w : Fin n) :
    (s.thread w).executing = ((mode w).thread c w).executing ∧
      (s.thread w).switch = ((mode w).thread c w).switch ∧
      (s.thread w).runAt = ((mode w).thread c w).runAt ∧
      (s.thread w).stopped = ((mode w).thread c w).stopped ∧
      (s.thread w).resumers = ((mode w).thread c w).resumers := by
  refine ⟨?_, ?_, ?_, ?_, ?_⟩ <;> rw [(h.inMode w).thread]

theorem runFiber_of_caller (h : c.caller w = true) : c.runFiber w = .scheduling w := by
  rw [FiberSetup.runFiber, if_pos h]

/-- A thread that executes `run`, outside of a switch, is at home there. -/
theorem Modes.eq_home (h : s.Modes c strict mode) {a : RunAt n} (hrun : s.AtRun c w a) :
    mode w = .home a := by
  obtain ⟨hexec, hswitch, hat⟩ := hrun
  obtain ⟨hexec', hswitch', hat', -⟩ := h.thread_eq w
  have huses := (h.inMode w).uses
  have hguest := fun x => h.isGuest (w := w) (x := x)
  rw [hexec] at hexec'
  rw [hswitch] at hswitch'
  rw [hat] at hat'
  cases hm : mode w with
  | home a' =>
    rw [hm] at hat'
    exact congrArg Mode.home hat'.symm
  | before | after =>
    rw [hm] at hexec' huses
    rw [runFiber_of_caller huses.1] at hexec'
    cases hexec'
  | inside x =>
    rw [hm] at hexec' hguest
    exact absurd hexec'.symm (guest_ne (hguest x rfl)).2.2.2
  | starting | entering | leaving | closing =>
    rw [hm] at hswitch'
    cases hswitch'

/-- A thread that executes a guest, outside of a switch, is inside of it. -/
theorem Modes.eq_inside (h : s.Modes c strict mode) (hexec : IsGuest (s.thread w).executing)
    (hswitch : (s.thread w).switch = none) : mode w = .inside (s.thread w).executing := by
  obtain ⟨hexec', hswitch', -⟩ := h.thread_eq w
  rw [hswitch] at hswitch'
  rw [hexec'] at hexec ⊢
  cases hm : mode w with
  | inside x => rfl
  | home a =>
    rw [hm] at hexec
    exact absurd rfl (guest_ne (c := c) (w := w) hexec).2.2.2
  | before | after =>
    rw [hm] at hexec
    exact hexec.elim
  | starting | entering | leaving | closing =>
    rw [hm] at hswitch'
    cases hswitch'

/-- A thread whose flow is one of a fiber that has ended, outside of a switch, is inside of a guest,
or behind the loop of `run` in the scheduling fiber. -/
theorem Modes.eq_of_term (h : s.Modes c strict mode)
    (hterm : s.m_state (s.thread w).executing = .term) (hswitch : (s.thread w).switch = none) :
    mode w = .inside (s.thread w).executing ∨
      mode w = .home .exited ∧ c.caller w = true ∧ (s.thread w).executing = .scheduling w := by
  obtain ⟨hexec', hswitch', -⟩ := h.thread_eq w
  have hmain := (h.inMode w).main
  have huses := (h.inMode w).uses
  rw [hswitch] at hswitch'
  rw [hexec'] at hterm ⊢
  cases hm : mode w with
  | inside x => exact Or.inl rfl
  | home a =>
    rw [hm] at hterm huses
    change s.m_state (c.runFiber w) = _ at hterm
    rcases Bool.eq_false_or_eq_true (c.caller w) with hcaller | hcaller
    · rw [runFiber_of_caller hcaller] at hterm
      rcases huses.1 with halive | ⟨-, rfl, -⟩
      · rw [halive hcaller] at hterm
        cases hterm
      · exact Or.inr ⟨rfl, hcaller, runFiber_of_caller hcaller⟩
    · rw [FiberSetup.runFiber, if_neg (by simp [hcaller]), hmain] at hterm
      cases hterm
  | before | after =>
    rw [hm] at hterm
    exact absurd (hmain.symm.trans hterm) (by decide)
  | starting | entering | leaving | closing =>
    rw [hm] at hswitch'
    cases hswitch'

/-- A caller thread that has not stopped is before `stop`. -/
theorem Modes.eq_before (h : s.Modes c strict mode) (hcaller : c.caller w = true)
    (hexec : (s.thread w).executing = .main w) (hswitch : (s.thread w).switch = none)
    (hstopped : (s.thread w).stopped = false) : mode w = .before := by
  obtain ⟨hexec', hswitch', -, hstopped', -⟩ := h.thread_eq w
  have hguest := fun x => h.isGuest (w := w) (x := x)
  rw [hexec] at hexec'
  rw [hswitch] at hswitch'
  rw [hstopped] at hstopped'
  cases hm : mode w with
  | before => rfl
  | after =>
    rw [hm] at hstopped'
    cases hstopped'
  | home a =>
    rw [hm] at hexec'
    exact absurd (hexec'.trans (runFiber_of_caller hcaller)) nofun
  | inside x =>
    rw [hm] at hexec' hguest
    exact absurd hexec'.symm (guest_ne (c := c) (hguest x rfl)).1
  | starting | entering | leaving | closing =>
    rw [hm] at hswitch'
    cases hswitch'

/-- A thread that executes the scheduling fiber behind the loop is a caller thread. -/
theorem Modes.eq_exited (h : s.Modes c strict mode)
    (hexec : (s.thread w).executing = .scheduling w) (hat : (s.thread w).runAt = .exited)
    (hswitch : (s.thread w).switch = none) : mode w = .home .exited ∧ c.caller w = true := by
  obtain ⟨hexec', hswitch', hat', -⟩ := h.thread_eq w
  have hguest := fun x => h.isGuest (w := w) (x := x)
  rw [hexec] at hexec'
  rw [hswitch] at hswitch'
  rw [hat] at hat'
  cases hm : mode w with
  | home a =>
    rw [hm] at hexec' hat'
    refine ⟨congrArg Mode.home hat'.symm, ?_⟩
    by_contra hcaller
    rw [Mode.thread, FiberSetup.runFiber, if_neg hcaller] at hexec'
    cases hexec'
  | before | after =>
    rw [hm] at hexec'
    cases hexec'
  | inside x =>
    rw [hm] at hexec' hguest
    exact absurd hexec'.symm (guest_ne (c := c) (hguest x rfl)).2.1
  | starting | entering | leaving | closing =>
    rw [hm] at hswitch'
    cases hswitch'

end Which

end Fibers

end Dag
