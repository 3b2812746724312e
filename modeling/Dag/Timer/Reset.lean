import Dag.Timer.Returns

/-!
# Timers: `reset` in steps

`reset` takes its timer out of the set under the lock of the manager, assigns the new period and the
new deadline without the lock, and then takes the lock again to put the timer back. In between other
threads make their calls. The callback is looked at in the first of these steps alone.

## Main definitions

* `ResetPhase`, `TimerThreads`, `TimerThreads.step`: threads in `reset`, and the other calls
* `InFlight`: a timer that `reset` has taken out and not yet put back
* `Apart`, `Undisturbed`: distinct deadlines; no timer in flight is cancelled

## Main results

* `timers_nil_of_step`: only `addTimer` puts a timer into an empty set
* `exec_reset`: the steps, taken by one thread without a break, are `TimerManager.reset`
* `Inv.step`: what an undisturbed step preserves
* `not_mem_of_cancel`: a timer that was cancelled is never a member again
* `not_gone_of_cancel_in_flight`: unless it was cancelled in flight
-/

namespace Dag

open Foundation

variable {ι κ : Type}

/-- Where a thread is in its call of `reset`. -/
inductive ResetPhase
  | idle
  /-- It has seen that the call is to change something. -/
  | entered (t ms : ℕ) (from_now : Bool)
  /-- It has taken the timer out. -/
  | unlinked (t ms : ℕ) (from_now : Bool)
  /-- It has assigned the period and the deadline. -/
  | assigned (t : ℕ)
  deriving DecidableEq, Repr

/-- The timer that a thread has taken out and not yet put back. -/
def ResetPhase.out : ResetPhase → Option ℕ
  | .unlinked t _ _ => some t
  | .assigned t => some t
  | _ => none

/-- The manager, and the threads that use it. -/
structure TimerThreads (ι κ : Type) where
  manager : TimerManager κ
  phase : ι → ResetPhase

/-- The steps: a call that holds the lock throughout, and the parts of `reset`. -/
inductive TimerAct (ι κ : Type)
  | call (thread : ι) (c : TimerCall κ)
  | enter (thread : ι) (t ms : ℕ) (from_now : Bool)
  | unlink (thread : ι)
  | assign (thread : ι) (now : ℤ)
  | link (thread : ι)
  deriving DecidableEq, Repr

/-- The call is one of `reset`. -/
def TimerCall.isReset : TimerCall κ → Bool
  | .reset _ _ _ _ => true
  | _ => false

/-- The thread that makes the step. -/
def TimerAct.thread : TimerAct ι κ → ι
  | .call θ _ | .enter θ _ _ _ | .unlink θ | .assign θ _ | .link θ => θ

/-- The step calls `addTimer`: it makes a timer, or is the end of `reset`. -/
def TimerAct.adds : TimerAct ι κ → Bool
  | .call _ (.addTimer ..) | .link _ => true
  | _ => false

namespace TimerThreads

open TimerManager

variable [DecidableEq ι]

/-- The manager, with no thread in a call. -/
def start (m : TimerManager κ) : TimerThreads ι κ := ⟨m, fun _ => .idle⟩

def withPhase (s : TimerThreads ι κ) (thread : ι) (p : ResetPhase) : TimerThreads ι κ :=
  { s with phase := Function.update s.phase thread p }

def withManager (s : TimerThreads ι κ) (m : TimerManager κ) : TimerThreads ι κ :=
  { s with manager := m }

/-- One step of a thread. -/
def step (s : TimerThreads ι κ) : TimerAct ι κ → Option (TimerThreads ι κ)
  | .call thread c =>
    if s.phase thread = .idle ∧ c.isReset = false then (s.manager.step c).map s.withManager else none
  | .enter thread t ms from_now =>
    if s.phase thread = .idle ∧ t < s.manager.count then
      -- `true` is returned at once
      if ms = (s.manager.timer t).ms ∧ from_now = false then some s
      else some (s.withPhase thread (.entered t ms from_now))
    else none
  | .unlink thread =>
    match s.phase thread with
    | .entered t ms from_now =>
      if (s.manager.timer t).cb.isNone then some (s.withPhase thread .idle)
      else
        match s.manager.find t with
        | none => some (s.withPhase thread .idle)
        | some it =>
          some ((s.withManager (s.manager.erase it)).withPhase thread (.unlinked t ms from_now))
    | _ => none
  | .assign thread now =>
    match s.phase thread with
    | .unlinked t ms from_now =>
      let x := s.manager.resetTo now t ms from_now
      some ((s.withManager (s.manager.setTimer t x)).withPhase thread (.assigned t))
    | _ => none
  | .link thread =>
    match s.phase thread with
    | .assigned t => some ((s.withManager (s.manager.addTimerPtr t).2).withPhase thread .idle)
    | _ => none

variable {s s' u v : TimerThreads ι κ} {a : TimerAct ι κ} {thread θ : ι} {t w ms it : ℕ}
  {from_now : Bool} {now : ℤ}

@[simp] theorem manager_withPhase (p : ResetPhase) :
    (s.withPhase thread p).manager = s.manager := rfl

omit [DecidableEq ι] in
@[simp] theorem manager_withManager (m : TimerManager κ) : (s.withManager m).manager = m := rfl

omit [DecidableEq ι] in
@[simp] theorem phase_withManager (m : TimerManager κ) : (s.withManager m).phase = s.phase := rfl

@[simp] theorem phase_withPhase_self (p : ResetPhase) : (s.withPhase thread p).phase thread = p :=
  Function.update_self ..

theorem phase_withPhase_of_ne (p : ResetPhase) (h : θ ≠ thread) :
    (s.withPhase thread p).phase θ = s.phase θ :=
  Function.update_of_ne h ..

/-- What a thread is at when one thread has gone to another phase. -/
theorem of_withPhase {β : Type} (f : ResetPhase → β) {p : ResetPhase} {b : β}
    (h : f ((s.withPhase thread p).phase θ) = b) :
    (θ = thread ∧ f p = b) ∨ (θ ≠ thread ∧ f (s.phase θ) = b) := by
  by_cases hne : θ = thread
  · subst hne
    rw [phase_withPhase_self] at h
    exact .inl ⟨rfl, h⟩
  · rw [phase_withPhase_of_ne p hne] at h
    exact .inr ⟨hne, h⟩

theorem of_call {c : TimerCall κ} (h : s.step (.call thread c) = some s') :
    ∃ m, s.manager.step c = some m ∧ c.isReset = false ∧ s' = s.withManager m := by
  simp only [step] at h
  split_ifs at h with hidle
  obtain ⟨m, hm, rfl⟩ := Option.map_eq_some_iff.mp h
  exact ⟨m, hm, hidle.2, rfl⟩

/-- **What a step can do.** -/
theorem step_cases (h : step s a = some s') :
    (∃ thread c m, a = .call thread c ∧ s.manager.step c = some m ∧ c.isReset = false ∧
      s' = s.withManager m) ∨
    (∃ thread p, s' = s.withPhase thread p ∧ p.out = none ∧ (s.phase thread).out = none ∧
      ∀ t ms from_now, p = .entered t ms from_now → t < s.manager.count) ∨
    s' = s ∨
    (∃ thread t ms from_now it, s.phase thread = .entered t ms from_now ∧
      (s.manager.timer t).cb ≠ none ∧ s.manager.find t = some it ∧
      s' = (s.withManager (s.manager.erase it)).withPhase thread (.unlinked t ms from_now)) ∨
    (∃ thread now t ms from_now, s.phase thread = .unlinked t ms from_now ∧
      s' = (s.withManager (s.manager.setTimer t (s.manager.resetTo now t ms from_now))).withPhase
        thread (.assigned t)) ∨
    (∃ thread t, a = .link thread ∧ s.phase thread = .assigned t ∧
      s' = (s.withManager (s.manager.addTimerPtr t).2).withPhase thread .idle) := by
  cases a with
  | call thread c =>
    obtain ⟨m, hm, hreset, rfl⟩ := of_call h
    exact .inl ⟨thread, c, m, rfl, hm, hreset, rfl⟩
  | enter thread t ms from_now =>
    simp only [step] at h
    split_ifs at h with hidle hsame
    · exact .inr (.inr (.inl (Option.some.inj h).symm))
    · obtain rfl := Option.some.inj h
      refine .inr (.inl ⟨thread, _, rfl, rfl, by rw [hidle.1]; rfl, fun t' ms' from_now' heq => ?_⟩)
      cases heq
      exact hidle.2
  | unlink thread =>
    simp only [step] at h
    split at h
    · rename_i t ms from_now hphase
      have hback : some (s.withPhase thread .idle) = some s' → ∃ thread p, s' = s.withPhase thread p ∧
          p.out = none ∧ (s.phase thread).out = none ∧
          ∀ t ms from_now, p = .entered t ms from_now → t < s.manager.count := by
        intro h
        obtain rfl := Option.some.inj h
        exact ⟨thread, _, rfl, rfl, by rw [hphase]; rfl, fun _ _ _ heq => by cases heq⟩
      split_ifs at h with hcb
      · exact .inr (.inl (hback h))
      · split at h
        · exact .inr (.inl (hback h))
        · rename_i it hf
          obtain rfl := Option.some.inj h
          exact .inr (.inr (.inr (.inl ⟨thread, t, ms, from_now, it, hphase,
            fun hnone => hcb (Option.isNone_iff_eq_none.mpr hnone), hf, rfl⟩)))
    · cases h
  | assign thread now =>
    simp only [step] at h
    split at h
    · rename_i t ms from_now hphase
      obtain rfl := Option.some.inj h
      exact .inr (.inr (.inr (.inr (.inl ⟨thread, now, t, ms, from_now, hphase, rfl⟩))))
    · cases h
  | link thread =>
    simp only [step] at h
    split at h
    · rename_i t hphase
      obtain rfl := Option.some.inj h
      exact .inr (.inr (.inr (.inr (.inr ⟨thread, t, rfl, hphase, rfl⟩))))
    · cases h

theorem unlink_eq (hphase : s.phase thread = .entered t ms from_now)
    (hcb : (s.manager.timer t).cb ≠ none) (hf : s.manager.find t = some it) :
    s.step (.unlink thread) =
      some ((s.withManager (s.manager.erase it)).withPhase thread (.unlinked t ms from_now)) := by
  simp only [step, hphase]
  rw [if_neg (fun h => isNone_iff.mp h hcb), hf]

theorem assign_eq (hphase : s.phase thread = .unlinked t ms from_now) :
    s.step (.assign thread now) =
      some ((s.withManager (s.manager.setTimer t (s.manager.resetTo now t ms from_now))).withPhase
        thread (.assigned t)) := by
  simp only [step, hphase]

theorem link_eq (hphase : s.phase thread = .assigned t) :
    s.step (.link thread) =
      some ((s.withManager (s.manager.addTimerPtr t).2).withPhase thread .idle) := by
  simp only [step, hphase]

/-- **An empty set stays empty**, unless a timer is made or `reset` comes to its end. -/
theorem timers_nil_of_step (hnil : s.manager.timers = []) (hadds : a.adds = false)
    (h : s.step a = some s') : s'.manager.timers = [] := by
  rcases step_cases h with ⟨thread, c, m, rfl, hm, -, rfl⟩ | ⟨thread, p, rfl, -⟩ | rfl |
    ⟨thread, t, ms, from_now, it, -, -, hf, rfl⟩ | ⟨thread, now, t, ms, from_now, -, rfl⟩ |
    ⟨thread, t, rfl, -, -⟩
  · refine TimerManager.timers_nil_of_step hnil hm ?_
    rintro now ms cb recurring rfl
    cases hadds
  · exact hnil
  · exact hnil
  · have hmem := (find_eq_some hf).1
    rw [hnil] at hmem
    cases hmem
  · exact hnil
  · cases hadds

/-! ## Distinct deadlines -/

/-- A thread has taken the timer out and not yet put it back. -/
def InFlight (s : TimerThreads ι κ) (t : ℕ) : Prop := ∃ thread, (s.phase thread).out = some t

/-- The deadlines of the members and of the timers in flight are distinct. -/
def Apart (s : TimerThreads ι κ) : Prop :=
  ∀ t u, (t ∈ s.manager.timers ∨ s.InFlight t) → (u ∈ s.manager.timers ∨ s.InFlight u) → t ≠ u →
    s.manager.next t ≠ s.manager.next u

/-- The step does not take the callback of a timer in flight. -/
def Undisturbed (s : TimerThreads ι κ) : TimerAct ι κ → Prop
  | .call _ (.cancel t) => (s.manager.timer t).cb ≠ none → ¬ s.InFlight t
  | _ => True

/-- Timers in flight are no members, hold callbacks, and are each taken care of by one thread. -/
structure Inv (s : TimerThreads ι κ) : Prop where
  linked : s.manager.Linked
  made : ∀ thread t ms from_now, s.phase thread = .entered t ms from_now → t < s.manager.count
  lt_count : ∀ t, s.InFlight t → t < s.manager.count
  out : ∀ t, s.InFlight t → t ∉ s.manager.timers
  cb : ∀ t, s.InFlight t → (s.manager.timer t).cb ≠ none
  one : ∀ thread θ t, (s.phase thread).out = some t → (s.phase θ).out = some t → thread = θ

omit [DecidableEq ι] in
theorem inv_start {m : TimerManager κ} (hm : m.Linked) : (start m : TimerThreads ι κ).Inv where
  linked := hm
  made := fun _ _ _ _ h => by cases h
  lt_count := by rintro t ⟨_, h⟩; cases h
  out := by rintro t ⟨_, h⟩; cases h
  cb := by rintro t ⟨_, h⟩; cases h
  one := fun _ _ _ h => by cases h

omit [DecidableEq ι] in
/-- No member has the deadline of a timer in flight. -/
theorem Apart.find_eq_none (ha : s.Apart) (hs : s.Inv) (ht : s.InFlight t) :
    s.manager.find t = none := by
  cases hf : s.manager.find t with
  | none => rfl
  | some it =>
    obtain ⟨hmem, hnext⟩ := find_eq_some hf
    have hne : it ≠ t := fun heq => hs.out t ht (heq ▸ hmem)
    exact absurd hnext (ha it t (Or.inl hmem) (Or.inr ht) hne)

/-- A thread leaves `reset`, or enters it. -/
theorem Inv.withPhase (hs : s.Inv) {p : ResetPhase} (hp : p.out = none)
    (hthread : (s.phase thread).out = none)
    (hmade : ∀ t ms from_now, p = .entered t ms from_now → t < s.manager.count) :
    (s.withPhase thread p).Inv := by
  have hout : ∀ θ, ((s.withPhase thread p).phase θ).out = (s.phase θ).out := by
    intro θ
    by_cases hθ : θ = thread
    · subst hθ
      rw [phase_withPhase_self, hp, hthread]
    · rw [phase_withPhase_of_ne p hθ]
  have hflight : ∀ t, (s.withPhase thread p).InFlight t → s.InFlight t := by
    rintro t ⟨θ, hθ⟩
    exact ⟨θ, (hout θ).symm.trans hθ⟩
  refine ⟨hs.linked, fun θ t ms from_now hθ => ?_, fun t ht => hs.lt_count t (hflight t ht),
    fun t ht => hs.out t (hflight t ht), fun t ht => hs.cb t (hflight t ht), fun θ θ' t h h' => ?_⟩
  · rcases of_withPhase id hθ with ⟨-, hp⟩ | ⟨-, hθ⟩
    · exact hmade t ms from_now hp
    · exact hs.made θ t ms from_now hθ
  · rw [hout] at h h'
    exact hs.one θ θ' t h h'

end TimerThreads

namespace TimerManager

variable {m m' : TimerManager κ} {t u : ℕ} {now now' : ℤ} {c : TimerCall κ}

/-- A call that is not one of `reset` puts a timer into the set only if it makes it, or refreshes
it. -/
theorem Linked.not_mem_of_step (hm : m.Linked) (hu : u < m.count) (hout : u ∉ m.timers)
    (hreset : c.isReset = false)
    (hrefresh : ∀ now, c = .refresh now u → (m.timer u).cb = none ∨ m.find u = none)
    (h : m.step c = some m') : u ∉ m'.timers := by
  unfold TimerManager.step at h
  split_ifs at h
  cases c with
  | addTimer now ms cb recurring =>
    obtain rfl := Option.some.inj h
    intro hmem
    rcases mem_insertTimer hmem with heq | hmem
    · exact Nat.ne_of_lt hu heq
    · exact hout hmem
  | cancel t =>
    obtain rfl := Option.some.inj h
    exact fun hmem => hout ((hm.cancel t).2 u hmem).1
  | refresh now t =>
    obtain rfl := Option.some.inj h
    rcases refresh_cases m now t with heq | ⟨it, hcb, hf, heq⟩
    · rwa [heq]
    · rw [heq]
      intro hmem
      rcases mem_of_mem_insertKey hmem with rfl | hmem
      · rcases hrefresh now rfl with hnone | hnone
        · exact hcb hnone
        · cases hnone.symm.trans hf
      · exact hout (List.mem_of_mem_erase hmem)
  | reset now t ms from_now => cases hreset
  | getNextTimer now =>
    obtain rfl := Option.some.inj h
    rwa [getNextTimer_snd]
  | listExpiredCb fuel now now' =>
    obtain ⟨⟨cbs, m₁⟩, hr, rfl⟩ := Option.map_eq_some_iff.mp h
    exact ((delivered_listExpiredCb hm hr).others u hout).1

/-- A call leaves a timer that is not a member and that it is not made on. -/
theorem Linked.timer_of_step (hm : m.Linked) (hu : u < m.count) (hout : u ∉ m.timers)
    (hc : c.timer? ≠ some u) (h : m.step c = some m') : m'.timer u = m.timer u := by
  unfold TimerManager.step at h
  split_ifs at h
  have hne : ∀ t, c.timer? = some t → u ≠ t := fun t ht heq => hc (heq ▸ ht)
  cases c with
  | addTimer now ms cb recurring =>
    obtain rfl := Option.some.inj h
    exact (keepsTimer_addTimer hu).timer_eq
  | cancel t =>
    obtain rfl := Option.some.inj h
    exact cancel_timer_of_ne (hne t rfl)
  | refresh now t =>
    obtain rfl := Option.some.inj h
    rcases refresh_cases m now t with heq | ⟨it, -, -, heq⟩
    · rw [heq]
    · rw [heq]
      exact setTimer_timer_of_ne (hne t rfl)
  | reset now t ms from_now =>
    obtain rfl := Option.some.inj h
    rcases reset_cases m now t ms from_now with heq | ⟨it, -, -, heq⟩
    · rw [heq]
    · rw [heq]
      exact setTimer_timer_of_ne (m := m.erase it) (hne t rfl)
  | getNextTimer now =>
    obtain rfl := Option.some.inj h
    rw [getNextTimer_snd]
  | listExpiredCb fuel now now' =>
    obtain ⟨⟨cbs, m₁⟩, hr, rfl⟩ := Option.map_eq_some_iff.mp h
    exact ((delivered_listExpiredCb hm hr).others u hout).2

end TimerManager

namespace TimerThreads

open TimerManager

variable [DecidableEq ι] {s s' u v : TimerThreads ι κ} {a : TimerAct ι κ} {c : TimerCall κ}
  {m : TimerManager κ} {thread θ : ι} {t w ms it : ℕ} {from_now : Bool} {now : ℤ}

omit [DecidableEq ι] in
/-- A call leaves a timer in flight as it is, unless it cancels it. -/
theorem Inv.timer_of_call (hs : s.Inv) (ha : s.Apart) (hu : s.Undisturbed (.call thread c))
    (hreset : c.isReset = false) (hm : s.manager.step c = some m) (ht : s.InFlight t) :
    m.timer t = s.manager.timer t := by
  by_cases hc : c.timer? = some t
  · cases c with
    | cancel w =>
      obtain rfl := Option.some.inj hc
      exact absurd ht (hu (hs.cb w ht))
    | refresh now w =>
      obtain rfl := Option.some.inj hc
      unfold TimerManager.step at hm
      split_ifs at hm
      obtain rfl := Option.some.inj hm
      rw [refresh_of_find_none (hs.cb w ht) (ha.find_eq_none hs ht)]
    | reset now w ms from_now => cases hreset
    | addTimer now ms cb recurring => cases hc
    | getNextTimer now => cases hc
    | listExpiredCb fuel now now' => cases hc
  · exact hs.linked.timer_of_step (hs.lt_count t ht) (hs.out t ht) hc hm

omit [DecidableEq ι] in
theorem Inv.call (hs : s.Inv) (ha : s.Apart) (hu : s.Undisturbed (.call thread c))
    (hreset : c.isReset = false) (hm : s.manager.step c = some m) : (s.withManager m).Inv where
  linked := hs.linked.step hm
  made := fun θ t ms from_now hθ =>
    Nat.lt_of_lt_of_le (hs.made θ t ms from_now hθ) (count_le_of_step hm)
  lt_count := fun t ht => Nat.lt_of_lt_of_le (hs.lt_count t ht) (count_le_of_step hm)
  out := fun t ht => hs.linked.not_mem_of_step (hs.lt_count t ht) (hs.out t ht) hreset
    (fun _ _ => Or.inr (ha.find_eq_none hs ht)) hm
  cb := by
    intro t ht
    show (m.timer t).cb ≠ none
    rw [hs.timer_of_call ha hu hreset hm ht]
    exact hs.cb t ht
  one := hs.one

/-- The timer is taken out. -/
theorem Inv.unlink (hs : s.Inv) (ha : s.Apart) (hphase : s.phase thread = .entered t ms from_now)
    (hcb : (s.manager.timer t).cb ≠ none) (hf : s.manager.find t = some it) :
    ((s.withManager (s.manager.erase it)).withPhase thread (.unlinked t ms from_now)).Inv := by
  -- no other thread has taken it out, since it would not have been found
  have hnew : ¬ s.InFlight t := by
    intro ht
    cases (ha.find_eq_none hs ht).symm.trans hf
  have hother : ∀ θ w, (((s.withManager (s.manager.erase it)).withPhase thread
      (.unlinked t ms from_now)).phase θ).out = some w → (θ = thread ∧ w = t) ∨
        (θ ≠ thread ∧ (s.phase θ).out = some w) := by
    intro θ w hθ
    rcases of_withPhase ResetPhase.out hθ with ⟨heq, hw⟩ | hθ
    · exact .inl ⟨heq, (Option.some.inj hw).symm⟩
    · exact .inr hθ
  refine ⟨hs.linked.erase it, fun θ w ms' from_now' hθ => ?_, fun w hw => ?_, fun w hw => ?_,
    fun w hw => ?_, fun θ θ' w h h' => ?_⟩
  · rcases of_withPhase id hθ with ⟨-, hp⟩ | ⟨-, hθ⟩
    · cases hp
    · exact hs.made θ w ms' from_now' hθ
  · obtain ⟨θ, hθ⟩ := hw
    rcases hother θ w hθ with ⟨-, rfl⟩ | ⟨-, hθ⟩
    · exact hs.made thread w ms from_now hphase
    · exact hs.lt_count w ⟨θ, hθ⟩
  · obtain ⟨θ, hθ⟩ := hw
    rcases hother θ w hθ with ⟨-, rfl⟩ | ⟨-, hθ⟩
    · exact hs.linked.not_mem_erase hf
    · exact fun hmem => hs.out w ⟨θ, hθ⟩ (List.mem_of_mem_erase hmem)
  · obtain ⟨θ, hθ⟩ := hw
    rcases hother θ w hθ with ⟨-, rfl⟩ | ⟨-, hθ⟩
    · exact hcb
    · exact hs.cb w ⟨θ, hθ⟩
  · rcases hother θ w h with ⟨rfl, rfl⟩ | ⟨-, hθ⟩
    · rcases hother θ' w h' with ⟨rfl, -⟩ | ⟨-, hθ'⟩
      · rfl
      · exact absurd ⟨θ', hθ'⟩ hnew
    · rcases hother θ' w h' with ⟨-, rfl⟩ | ⟨-, hθ'⟩
      · exact absurd ⟨θ, hθ⟩ hnew
      · exact hs.one θ θ' w hθ hθ'

/-- The timer gets its period and its deadline. -/
theorem Inv.assign (hs : s.Inv) (hphase : s.phase thread = .unlinked t ms from_now) :
    ((s.withManager (s.manager.setTimer t (s.manager.resetTo now t ms from_now))).withPhase thread
      (.assigned t)).Inv := by
  have hout : ∀ θ, (((s.withManager (s.manager.setTimer t
      (s.manager.resetTo now t ms from_now))).withPhase thread (.assigned t)).phase θ).out =
        (s.phase θ).out := by
    intro θ
    by_cases hθ : θ = thread
    · subst hθ
      rw [phase_withPhase_self, hphase]
      rfl
    · rw [phase_withPhase_of_ne _ hθ]
      rfl
  have hflight : ∀ w, ((s.withManager (s.manager.setTimer t
      (s.manager.resetTo now t ms from_now))).withPhase thread (.assigned t)).InFlight w →
        s.InFlight w := by
    rintro w ⟨θ, hθ⟩
    exact ⟨θ, (hout θ).symm.trans hθ⟩
  have ht : s.InFlight t := ⟨thread, by rw [hphase]; rfl⟩
  refine ⟨hs.linked.setTimer (hs.out t ht) _, fun θ w ms' from_now' hθ => ?_,
    fun w hw => hs.lt_count w (hflight w hw), fun w hw => hs.out w (hflight w hw), fun w hw => ?_,
    fun θ θ' w h h' => ?_⟩
  · rcases of_withPhase id hθ with ⟨-, hp⟩ | ⟨-, hθ⟩
    · cases hp
    · exact hs.made θ w ms' from_now' hθ
  · show ((s.manager.setTimer t _).timer w).cb ≠ none
    by_cases hwt : w = t
    · subst hwt
      rw [setTimer_timer_self]
      exact hs.cb w ht
    · rw [setTimer_timer_of_ne hwt]
      exact hs.cb w (hflight w hw)
  · rw [hout] at h h'
    exact hs.one θ θ' w h h'

/-- The timer is put back. -/
theorem Inv.link (hs : s.Inv) (hphase : s.phase thread = .assigned t) :
    ((s.withManager (s.manager.addTimerPtr t).2).withPhase thread .idle).Inv := by
  have ht : (s.phase thread).out = some t := by rw [hphase]; rfl
  have hflight : ∀ w, ((s.withManager (s.manager.addTimerPtr t).2).withPhase thread
      .idle).InFlight w → s.InFlight w ∧ w ≠ t := by
    rintro w ⟨θ, hθ⟩
    rcases of_withPhase ResetPhase.out hθ with ⟨-, hw⟩ | ⟨hne, hθ⟩
    · cases hw
    · exact ⟨⟨θ, hθ⟩, fun heq => hne (hs.one θ thread w hθ (heq ▸ ht))⟩
  have hlinked := hs.linked.insert (hs.lt_count t ⟨thread, ht⟩)
  refine ⟨⟨hlinked.ordered, hlinked.lt_count⟩, fun θ w ms from_now hθ => ?_,
    fun w hw => hs.lt_count w (hflight w hw).1, fun w hw hmem => ?_,
    fun w hw => hs.cb w (hflight w hw).1, fun θ θ' w h h' => ?_⟩
  · rcases of_withPhase id hθ with ⟨-, hp⟩ | ⟨-, hθ⟩
    · cases hp
    · exact hs.made θ w ms from_now hθ
  · rcases mem_of_mem_insertKey hmem with heq | hmem
    · exact (hflight w hw).2 heq
    · exact hs.out w (hflight w hw).1 hmem
  · rcases of_withPhase ResetPhase.out h with ⟨-, hw⟩ | ⟨-, hθ⟩
    · cases hw
    · rcases of_withPhase ResetPhase.out h' with ⟨-, hw⟩ | ⟨-, hθ'⟩
      · cases hw
      · exact hs.one θ θ' w hθ hθ'

/-- The step lemma: an undisturbed step among distinct deadlines. -/
theorem Inv.step (hs : s.Inv) (ha : s.Apart) (hu : s.Undisturbed a) (h : s.step a = some s') :
    s'.Inv := by
  rcases step_cases h with ⟨thread, c, m, rfl, hm, hreset, rfl⟩ |
    ⟨thread, p, rfl, hp, hthread, hmade⟩ | rfl | ⟨thread, t, ms, from_now, it, hphase, hcb, hf, rfl⟩ |
    ⟨thread, now, t, ms, from_now, hphase, rfl⟩ | ⟨thread, t, -, hphase, rfl⟩
  · exact hs.call ha hu hreset hm
  · exact hs.withPhase hp hthread hmade
  · exact hs
  · exact hs.unlink ha hphase hcb hf
  · exact hs.assign hphase
  · exact hs.link hphase

/-! ## One timer -/

/-- No thread has another timer than `t` out. -/
def OnlyOut (s : TimerThreads ι κ) (t : ℕ) : Prop := ∀ θ w, (s.phase θ).out = some w → w = t

theorem OnlyOut.withPhase (h : s.OnlyOut t) (thread : ι) {p : ResetPhase}
    (hp : ∀ w, p.out = some w → w = t) : (s.withPhase thread p).OnlyOut t := by
  intro θ w hθ
  rcases of_withPhase ResetPhase.out hθ with ⟨-, hw⟩ | ⟨-, hθ⟩
  · exact hp w hw
  · exact h θ w hθ

omit [DecidableEq ι] in
/-- Of one timer the deadline is no other's. -/
theorem OnlyOut.apart (h : s.OnlyOut t) (hm : ∀ w ∈ s.manager.timers, w = t) : s.Apart := by
  have heq : ∀ w, (w ∈ s.manager.timers ∨ s.InFlight w) → w = t := by
    rintro w (hw | ⟨θ, hθ⟩)
    · exact hm w hw
    · exact h θ w hθ
  intro u w hu hw hne
  exact absurd ((heq u hu).trans (heq w hw).symm) hne

omit [DecidableEq ι] in
theorem onlyOut_start (m : TimerManager κ) (t : ℕ) : (start m : TimerThreads ι κ).OnlyOut t :=
  fun _ _ h => by cases h

/-! ## A cancelled timer -/

/-- The timer has no callback, and is not a member. -/
structure Gone (s : TimerThreads ι κ) (t : ℕ) : Prop where
  mute : s.manager.Mute t
  out : t ∉ s.manager.timers

/-- It stays so: only a timer that holds a callback is in flight. -/
theorem Gone.step (hg : s.Gone t) (hs : s.Inv) (h : s.step a = some s') : s'.Gone t := by
  have hnot : ∀ θ, (s.phase θ).out ≠ some t := fun θ hθ => hs.cb t ⟨θ, hθ⟩ hg.mute.2
  rcases step_cases h with ⟨thread, c, m, rfl, hm, hreset, rfl⟩ | ⟨thread, p, rfl, -⟩ | rfl |
    ⟨thread, w, ms, from_now, it, hphase, hcb, hf, rfl⟩ | ⟨thread, now, w, ms, from_now, hphase, rfl⟩ |
    ⟨thread, w, -, hphase, rfl⟩
  · exact ⟨hg.mute.step hm, hs.linked.not_mem_of_step hg.mute.1 hg.out hreset
      (fun _ _ => Or.inl hg.mute.2) hm⟩
  · exact ⟨hg.mute, hg.out⟩
  · exact hg
  · exact ⟨hg.mute, fun hmem => hg.out (List.mem_of_mem_erase hmem)⟩
  · have hne : t ≠ w := by
      rintro rfl
      exact hnot thread (by rw [hphase]; rfl)
    refine ⟨⟨hg.mute.1, ?_⟩, hg.out⟩
    show ((s.manager.setTimer w _).timer t).cb = none
    rw [setTimer_timer_of_ne hne]
    exact hg.mute.2
  · have hne : t ≠ w := by
      rintro rfl
      exact hnot thread (by rw [hphase]; rfl)
    refine ⟨hg.mute, fun hmem => ?_⟩
    rcases mem_of_mem_insertKey hmem with heq | hmem
    · exact hne heq
    · exact hg.out hmem

/-- A `cancel` that returns `true` leaves its timer without a callback, and not a member. -/
theorem gone_of_cancel (hs : s.Inv) (htrue : (s.manager.cancel t).1 = true)
    (h : s.step (.call thread (.cancel t)) = some s') : s'.Gone t := by
  have hcb : (s.manager.timer t).cb ≠ none := by
    intro hnone
    rw [cancel_of_none hnone] at htrue
    cases htrue
  obtain ⟨m, hm, -, rfl⟩ := of_call h
  unfold TimerManager.step at hm
  split_ifs at hm with hmade
  obtain rfl := Option.some.inj hm
  have hlt : t < s.manager.count := Nat.lt_of_not_le fun hle => hmade ⟨t, rfl, hle⟩
  refine ⟨⟨?_, cancel_cb _ t⟩, hs.linked.not_mem_cancel hcb⟩
  rw [manager_withManager, cancel_count]
  exact hlt

/-- **A cancelled timer stays cancelled**, whatever the threads do, as long as deadlines are distinct
and no timer in flight is cancelled. -/
theorem not_mem_of_cancel {m : TimerManager κ} (hm : m.Linked) {as bs : List (TimerAct ι κ)}
    (hguard : Guarded step (fun s a => s.Apart ∧ s.Undisturbed a) (start m)
      (as ++ .call thread (.cancel t) :: bs))
    (hs : exec step (start m) as = some s) (htrue : (s.manager.cancel t).1 = true)
    (hv : exec step s (.call thread (.cancel t) :: bs) = some v) : t ∉ v.manager.timers := by
  have hstep : ∀ (s : TimerThreads ι κ) a s', s.Inv → s.Apart ∧ s.Undisturbed a → s.step a = some s' →
      s'.Inv := fun s a s' hi hg h => hi.step hg.1 hg.2 h
  obtain ⟨hbefore, hafter⟩ := guarded_append.mp hguard
  have hinv : s.Inv := exec_invariant_of_guarded hstep (inv_start hm) hbefore hs
  obtain ⟨u, hu, hv⟩ := exec_cons_eq_some.mp hv
  obtain ⟨hg, hrest⟩ := hafter s hs
  -- from the call on the timer is gone, and no step brings it back
  have hgone : v.Inv ∧ v.Gone t := exec_invariant_of_guarded
    (I := fun s => s.Inv ∧ s.Gone t)
    (fun s a s' hi hg h => ⟨hstep s a s' hi.1 hg h, hi.2.step hi.1 h⟩)
    ⟨hstep s _ u hinv hg hu, gone_of_cancel hinv htrue hu⟩ (hrest u hu) hv
  exact hgone.2.out

/-- A timer is reset, and cancelled afterwards. -/
theorem not_mem_of_cancel_after_reset :
    ∃ s v : TimerThreads ℕ ℕ, exec step (start ((TimerManager.construct 0).addTimer 0 10 (some 1)
        false).2) [.enter 0 0 20 true, .unlink 0, .assign 0 5, .link 0] = some s ∧
      exec step s [.call 1 (.cancel 0)] = some v ∧ 0 ∉ v.manager.timers := by
  have hm : ((TimerManager.construct 0 : TimerManager ℕ).addTimer 0 10 (some 1) false).2.Linked :=
    (linked_construct 0).addTimer 0 10 (some 1) false
  have hguard : Guarded step (fun (s : TimerThreads ℕ ℕ) a => s.Apart ∧ s.Undisturbed a)
      (start ((TimerManager.construct 0).addTimer 0 10 (some 1) false).2)
      ([.enter 0 0 20 true, .unlink 0, .assign 0 5, .link 0] ++ [.call 1 (.cancel 0)]) := by
    have h₀ : (start ((TimerManager.construct 0 : TimerManager ℕ).addTimer 0 10 (some 1) false).2 :
        TimerThreads ℕ ℕ).OnlyOut 0 := onlyOut_start _ 0
    have h₁ := h₀.withPhase 0 (p := .entered 0 20 true) (by simp [ResetPhase.out])
    have h₂ := h₁.withPhase 0 (p := .unlinked 0 20 true) (by simp [ResetPhase.out])
    have h₃ := h₂.withPhase 0 (p := .assigned 0) (by simp [ResetPhase.out])
    have h₄ := h₃.withPhase 0 (p := .idle) (by simp [ResetPhase.out])
    refine ⟨⟨h₀.apart (by decide), trivial⟩, fun s₁ hs₁ => ?_⟩
    obtain rfl := Option.some.inj hs₁
    refine ⟨⟨OnlyOut.apart (t := 0) h₁ (by decide), trivial⟩, fun s₂ hs₂ => ?_⟩
    obtain rfl := Option.some.inj hs₂
    refine ⟨⟨OnlyOut.apart (t := 0) h₂ (by decide), trivial⟩, fun s₃ hs₃ => ?_⟩
    obtain rfl := Option.some.inj hs₃
    refine ⟨⟨OnlyOut.apart (t := 0) h₃ (by decide), trivial⟩, fun s₄ hs₄ => ?_⟩
    obtain rfl := Option.some.inj hs₄
    refine ⟨⟨OnlyOut.apart (t := 0) h₄ (by decide), ?_⟩, fun _ _ => trivial⟩
    rintro - ⟨θ, hθ⟩
    by_cases hθ0 : θ = 0
    · subst hθ0
      cases hθ
    · rw [phase_withPhase_of_ne _ hθ0, phase_withManager, phase_withPhase_of_ne _ hθ0,
        phase_withManager, phase_withPhase_of_ne _ hθ0, phase_withManager,
        phase_withPhase_of_ne _ hθ0] at hθ
      cases hθ
  exact ⟨_, _, rfl, rfl, not_mem_of_cancel hm hguard rfl rfl rfl⟩

/-- **A timer that was cancelled is a member**: `cancel` comes between the two sections of `reset`. -/
theorem not_gone_of_cancel_in_flight :
    ¬ ∀ (m : TimerManager ℕ) (as bs : List (TimerAct ℕ ℕ)) (s v : TimerThreads ℕ ℕ) (thread t : ℕ),
      m.Linked →
      Guarded step (fun (s : TimerThreads ℕ ℕ) _ => s.Apart) (start m)
        (as ++ .call thread (.cancel t) :: bs) →
      exec step (start m) as = some s → (s.manager.cancel t).1 = true →
      exec step s (.call thread (.cancel t) :: bs) = some v → (∀ θ, v.phase θ = .idle) →
      t ∉ v.manager.timers := by
  intro hall
  have hm : ((TimerManager.construct 0 : TimerManager ℕ).addTimer 0 10 (some 1) false).2.Linked :=
    (linked_construct 0).addTimer 0 10 (some 1) false
  have hguard : Guarded step (fun (s : TimerThreads ℕ ℕ) _ => s.Apart)
      (start ((TimerManager.construct 0).addTimer 0 10 (some 1) false).2)
      ([.enter 0 0 20 true, .unlink 0] ++ .call 1 (.cancel 0) :: [.assign 0 5, .link 0]) := by
    have h₀ : (start ((TimerManager.construct 0 : TimerManager ℕ).addTimer 0 10 (some 1) false).2 :
        TimerThreads ℕ ℕ).OnlyOut 0 := onlyOut_start _ 0
    have h₁ := h₀.withPhase 0 (p := .entered 0 20 true) (by simp [ResetPhase.out])
    have h₂ := h₁.withPhase 0 (p := .unlinked 0 20 true) (by simp [ResetPhase.out])
    have h₃ := h₂.withPhase 0 (p := .assigned 0) (by simp [ResetPhase.out])
    refine ⟨h₀.apart (by decide), fun s₁ hs₁ => ?_⟩
    obtain rfl := Option.some.inj hs₁
    refine ⟨OnlyOut.apart (t := 0) h₁ (by decide), fun s₂ hs₂ => ?_⟩
    obtain rfl := Option.some.inj hs₂
    refine ⟨OnlyOut.apart (t := 0) h₂ (by decide), fun s₃ hs₃ => ?_⟩
    obtain rfl := Option.some.inj hs₃
    refine ⟨OnlyOut.apart (t := 0) h₂ (by decide), fun s₄ hs₄ => ?_⟩
    obtain rfl := Option.some.inj hs₄
    exact ⟨OnlyOut.apart (t := 0) h₃ (by decide), fun _ _ => trivial⟩
  refine hall _ [.enter 0 0 20 true, .unlink 0] [.assign 0 5, .link 0] _ _ 1 0 hm hguard rfl rfl rfl
    (fun θ => ?_) (by decide)
  by_cases hθ : θ = 0
  · subst hθ
    rfl
  · rw [phase_withPhase_of_ne _ hθ, phase_withManager, phase_withPhase_of_ne _ hθ, phase_withManager,
      phase_withManager, phase_withPhase_of_ne _ hθ, phase_withManager, phase_withPhase_of_ne _ hθ]
    rfl

/-- **In flight the timer is put back all the same**: it is a member without a callback, if its
deadline is that of no other. -/
theorem mem_of_link (hphase : s.phase thread = .assigned t)
    (hnew : ∀ w ∈ s.manager.timers, s.manager.next w ≠ s.manager.next t)
    (h : s.step (.link thread) = some s') :
    t ∈ s'.manager.timers ∧ s'.manager.timer t = s.manager.timer t := by
  rw [link_eq hphase] at h
  obtain rfl := Option.some.inj h
  exact ⟨mem_insertKey_self hnew, rfl⟩

/-! ## The whole of `reset` -/

/-- **The steps are those of `reset`**: taken by one thread without a break, on a timer that is found,
they do what `TimerManager.reset` does. -/
theorem exec_reset (hidle : s.phase thread = .idle) (ht : t < s.manager.count)
    (hchange : ¬ (ms = (s.manager.timer t).ms ∧ from_now = false))
    (hcb : (s.manager.timer t).cb ≠ none) (hf : s.manager.find t = some it) :
    ∃ u, exec step s [.enter thread t ms from_now, .unlink thread, .assign thread now,
        .link thread] = some u ∧ u.manager = (s.manager.reset now t ms from_now).2 ∧
      u.phase = s.phase := by
  have henter : s.step (.enter thread t ms from_now) =
      some (s.withPhase thread (.entered t ms from_now)) := by
    rw [step, if_pos ⟨hidle, ht⟩, if_neg hchange]
  refine ⟨_, exec_cons_eq_some.mpr ⟨_, henter, exec_cons_eq_some.mpr ⟨_, unlink_eq
    (phase_withPhase_self _) hcb hf, exec_cons_eq_some.mpr ⟨_, assign_eq (phase_withPhase_self _),
      exec_cons_eq_some.mpr ⟨_, link_eq (phase_withPhase_self _), rfl⟩⟩⟩⟩, ?_, ?_⟩
  · rw [reset_of_find hchange hcb hf]
    rfl
  · ext θ
    by_cases hθ : θ = thread
    · subst hθ
      rw [phase_withPhase_self, hidle]
    · rw [phase_withPhase_of_ne _ hθ, phase_withManager, phase_withPhase_of_ne _ hθ,
        phase_withManager, phase_withPhase_of_ne _ hθ, phase_withManager, phase_withPhase_of_ne _ hθ]

end TimerThreads

end Dag
