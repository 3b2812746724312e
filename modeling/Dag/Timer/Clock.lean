import Dag.Timer.Holders

/-!
# Timers under a clock that does not go back

As long as the clock does not go back, no rollover is detected, and only timers whose deadline has
come are handed over. A recurring timer is put back due one period from the reading that found it
expired, not from its deadline: its callbacks drift, but they are never less than a period apart,
and in no stretch of time are there more of them than there are periods in it.

## Main definitions

* `Watched`, `Watched.step`: a manager, with the callbacks handed over and when
* `Watched.Steady`: the clock does not go back, and the deadlines of a timer fit
* `Watched.times x`: when the callback was handed over
* `Spaced p`: times that are at least `p` apart

## Main results

* `TimerManager.not_rollover`: no rollover is detected
* `Watched.spaced_of_exec`: the callbacks of a timer are at least a period apart
-/

namespace Dag

open Foundation

variable {κ : Type}

/-! ## Times -/

/-- In order, and each at least `p` behind the one before. -/
def Spaced (p : ℤ) (l : List ℤ) : Prop := l.Pairwise fun a b => a + p ≤ b

theorem Spaced.append {p b : ℤ} {l : List ℤ} (h : Spaced p l) (hb : ∀ a ∈ l, a + p ≤ b) :
    Spaced p (l ++ [b]) := by
  refine List.pairwise_append.mpr ⟨h, List.pairwise_singleton _ b, fun a ha c hc => ?_⟩
  rw [List.mem_singleton.mp hc]
  exact hb a ha

/-- There are no more of them than there is room for. -/
theorem Spaced.length_mul_le {p c : ℤ} : ∀ {l : List ℤ} {a : ℤ}, Spaced p (a :: l) →
    (∀ b ∈ a :: l, b ≤ c) → l.length * p ≤ c - a := by
  intro l
  -- on the times: the room behind the second is that behind the first, less one `p`
  induction l with
  | nil =>
    intro a _ hc
    have hle := hc a (List.mem_singleton_self a)
    simp only [List.length_nil, Nat.cast_zero, zero_mul]
    omega
  | cons b l ih =>
    intro a h hc
    obtain ⟨ha, hrest⟩ := List.pairwise_cons.mp h
    have hb := ha b List.mem_cons_self
    have hlen := ih hrest fun d hd => hc d (List.mem_cons_of_mem a hd)
    rw [List.length_cons, Nat.cast_succ, add_mul, one_mul]
    omega

/-! ## No rollover -/

namespace TimerManager

variable {m m' : TimerManager κ} {t u : ℕ} {now now' : ℤ} {c : TimerCall κ}

/-- A reading that is not before the last one. -/
theorem not_rollover (h : 0 ≤ m.previouseTime) (hle : m.previouseTime ≤ now')
    (hlt : now' < 2 ^ 63) : (m.detectClockRollover now').1 = false := by
  change decide (now' < subMs m.previouseTime (60 * 60 * 1000)) = false
  rw [decide_eq_false_iff_not, subMs, Int.bmod_eq_of_le (by omega) (by omega)]
  omega

theorem expireLoop_previouseTime {rollover : Bool} : ∀ {fuel : ℕ} {m : TimerManager κ}
    {cbs cbs' : List (Option κ)}, expireLoop now rollover fuel m cbs = some (cbs', m') →
      m'.previouseTime = m.previouseTime := by
  intro fuel
  induction fuel with
  | zero => exact fun h => by cases h
  | succ fuel ih =>
    intro m cbs cbs' h
    rw [expireLoop] at h
    split at h
    · obtain ⟨-, rfl⟩ := Prod.mk.inj (Option.some.inj h)
      rfl
    · rename_i t rest htimers
      split_ifs at h
      · rw [ih h]
        by_cases hrec : (m.timer t).recurring = true
        · rw [expireFirst_of_recurring hrec]
          rfl
        · rw [expireFirst_of_once hrec]
          rfl
      · obtain ⟨-, rfl⟩ := Prod.mk.inj (Option.some.inj h)
        rfl

theorem listExpiredCb_previouseTime {fuel : ℕ} {cbs : List (Option κ)}
    (h : m.listExpiredCb fuel now now' = some (cbs, m')) : m'.previouseTime = now' :=
  expireLoop_previouseTime h

/-- Only expiry reads the time for the rollover. -/
theorem previouseTime_of_step (hm : m.step c = some m')
    (hc : ∀ fuel now now', c ≠ .listExpiredCb fuel now now') :
    m'.previouseTime = m.previouseTime := by
  unfold TimerManager.step at hm
  split_ifs at hm
  cases c with
  | addTimer now ms cb recurring =>
    obtain rfl := Option.some.inj hm
    rfl
  | cancel t =>
    obtain rfl := Option.some.inj hm
    by_cases hcb : (m.timer t).cb = none
    · rw [cancel_of_none hcb]
    · cases hf : m.find t with
      | some it =>
        rw [cancel_of_find hcb hf]
        rfl
      | none =>
        rw [cancel_of_find_none hcb hf]
        rfl
  | refresh now t =>
    obtain rfl := Option.some.inj hm
    rcases refresh_cases m now t with heq | ⟨it, -, -, heq⟩
    · rw [heq]
    · rw [heq]
      rfl
  | reset now t ms from_now =>
    obtain rfl := Option.some.inj hm
    rcases reset_cases m now t ms from_now with heq | ⟨it, -, -, heq⟩
    · rw [heq]
    · rw [heq]
      rfl
  | getNextTimer now =>
    obtain rfl := Option.some.inj hm
    rw [getNextTimer_snd]
  | listExpiredCb fuel now now' => exact absurd rfl (hc fuel now now')

end TimerManager

/-! ## The callbacks handed over -/

/-- A manager, the last reading of the clock, and the callbacks handed over so far, each with the
reading that found its timer expired. -/
structure Watched (κ : Type) where
  manager : TimerManager κ
  clock : ℤ
  delivered : List (Option κ × ℤ)

/-- The last reading of the clock that a call makes. -/
def TimerCall.lastNow : TimerCall κ → Option ℤ
  | .addTimer now _ _ _ => some now
  | .cancel _ => none
  | .refresh now _ => some now
  | .reset now _ _ _ => some now
  | .getNextTimer now => some now
  | .listExpiredCb _ _ now' => some now'

namespace Watched

variable {s s' : Watched κ} {c : TimerCall κ} {x : κ} {t : ℕ} {ms : ℕ}

/-- `TimerManager()`, at `now`. -/
def start (now : ℤ) : Watched κ := ⟨TimerManager.construct now, now, []⟩

/-- What a call hands over. -/
def handed (m : TimerManager κ) : TimerCall κ → List (Option κ × ℤ)
  | .listExpiredCb fuel now now' =>
    ((m.listExpiredCb fuel now now').map fun r => r.1.map fun cb => (cb, now)).getD []
  | _ => []

/-- One call. -/
def step (s : Watched κ) (c : TimerCall κ) : Option (Watched κ) :=
  (s.manager.step c).map fun m =>
    { manager := m
      clock := c.lastNow.getD s.clock
      delivered := s.delivered ++ handed s.manager c }

/-- When the callback was handed over. -/
def times [DecidableEq κ] (s : Watched κ) (x : κ) : List ℤ :=
  (s.delivered.filter fun e => e.1 = some x).map Prod.snd

/-- **The clock does not go back**, and fits in 64 bits; the deadlines of the timer `t` fit, and its
period does not become less than `ms`. -/
def Steady (t ms : ℕ) (s : Watched κ) : TimerCall κ → Prop
  | .addTimer now ms' _ _ => (s.clock ≤ now ∧ now < 2 ^ 63) ∧
      (s.manager.count = t → TimerManager.Fits (now + ms' * 10 ^ 6))
  | .cancel _ => True
  | .refresh now u => (s.clock ≤ now ∧ now < 2 ^ 63) ∧
      (u = t → TimerManager.Fits (now + (s.manager.timer t).ms * 10 ^ 6))
  | .reset now u ms' from_now => (s.clock ≤ now ∧ now < 2 ^ 63) ∧
      (u = t → ms ≤ ms' ∧ TimerManager.Fits ((if from_now then now
        else s.manager.next t - (s.manager.timer t).ms * 10 ^ 6) + ms' * 10 ^ 6))
  | .getNextTimer now => s.clock ≤ now ∧ now < 2 ^ 63
  | .listExpiredCb _ now now' => (s.clock ≤ now ∧ now ≤ now' ∧ now' < 2 ^ 63) ∧
      TimerManager.Fits (now + (s.manager.timer t).ms * 10 ^ 6)

instance (t ms : ℕ) (s : Watched κ) : DecidablePred (s.Steady t ms)
  | .addTimer .. | .cancel _ | .refresh .. | .reset .. | .getNextTimer _ | .listExpiredCb .. => by
    unfold Steady
    infer_instance

/-! ## The deadline of one timer -/

/-- **What a call does to the deadline of a timer**, and to its period. -/
theorem deadline_of_step {m m' : TimerManager κ} (hm : m.step c = some m') (ht : t < m.count)
    (hc : ∀ fuel now now', c ≠ .listExpiredCb fuel now now') :
    ((m'.timer t).ms = (m.timer t).ms ∧ m'.next t = m.next t) ∨
    (∃ now, c = .refresh now t ∧ (m'.timer t).ms = (m.timer t).ms ∧
      m'.next t = addMs now (m.timer t).ms) ∨
    (∃ now ms from_now, c = .reset now t ms from_now ∧ (m'.timer t).ms = ms ∧
      m'.next t = m.resetDeadline now t ms from_now) := by
  -- assigning the fields of a timer leaves the others, and no set operation assigns any
  have hset : ∀ (it u : ℕ) (y : Timer κ), t ≠ u →
      (((m.erase it).setTimer u y).insert u).timer t = m.timer t := fun it u y htu =>
    TimerManager.setTimer_timer_of_ne htu
  unfold TimerManager.step at hm
  split_ifs at hm
  cases c with
  | addTimer now ms cb recurring =>
    obtain rfl := Option.some.inj hm
    have hold : (m.addTimer now ms (some cb) recurring).2.timer t = m.timer t :=
      (TimerManager.keepsTimer_addTimer ht).timer_eq
    exact Or.inl ⟨congrArg Timer.ms hold, congrArg Timer.next hold⟩
  | cancel u =>
    obtain rfl := Option.some.inj hm
    left
    by_cases htu : t = u
    · subst htu
      by_cases hcb : (m.timer t).cb = none
      · rw [TimerManager.cancel_of_none hcb]
        exact ⟨rfl, rfl⟩
      · have hdrop : (m.dropCb t).timer t = { m.timer t with cb := none } :=
          TimerManager.setTimer_timer_self
        cases hf : m.find t with
        | some it =>
          rw [TimerManager.cancel_of_find hcb hf]
          exact ⟨(congrArg Timer.ms hdrop :), (congrArg Timer.next hdrop :)⟩
        | none =>
          rw [TimerManager.cancel_of_find_none hcb hf]
          exact ⟨(congrArg Timer.ms hdrop :), (congrArg Timer.next hdrop :)⟩
    · have hold := TimerManager.cancel_timer_of_ne (m := m) htu
      exact ⟨congrArg Timer.ms hold, congrArg Timer.next hold⟩
  | refresh now u =>
    obtain rfl := Option.some.inj hm
    rcases TimerManager.refresh_cases m now u with heq | ⟨it, -, -, heq⟩
    · rw [heq]
      exact Or.inl ⟨rfl, rfl⟩
    · rw [heq]
      by_cases htu : t = u
      · subst htu
        have hnew : (((m.erase it).setTimer t (m.refreshed now t)).insert t).timer t =
            m.refreshed now t := TimerManager.setTimer_timer_self
        exact Or.inr (Or.inl ⟨now, rfl, (congrArg Timer.ms hnew :), (congrArg Timer.next hnew :)⟩)
      · have hold := hset it u (m.refreshed now u) htu
        exact Or.inl ⟨congrArg Timer.ms hold, congrArg Timer.next hold⟩
  | reset now u ms from_now =>
    obtain rfl := Option.some.inj hm
    rcases TimerManager.reset_cases m now u ms from_now with heq | ⟨it, -, -, heq⟩
    · rw [heq]
      exact Or.inl ⟨rfl, rfl⟩
    · rw [heq]
      by_cases htu : t = u
      · subst htu
        have hnew : (((m.erase it).setTimer t (m.resetTo now t ms from_now)).insert t).timer t =
            m.resetTo now t ms from_now := TimerManager.setTimer_timer_self
        exact Or.inr (Or.inr ⟨now, ms, from_now, rfl, (congrArg Timer.ms hnew :),
          (congrArg Timer.next hnew :)⟩)
      · have hold := hset it u (m.resetTo now u ms from_now) htu
        exact Or.inl ⟨congrArg Timer.ms hold, congrArg Timer.next hold⟩
  | getNextTimer now =>
    obtain rfl := Option.some.inj hm
    rw [TimerManager.getNextTimer_snd]
    exact Or.inl ⟨rfl, rfl⟩
  | listExpiredCb fuel now now' => exact absurd rfl (hc fuel now now')

/-! ## One call -/

theorem handed_of_ne (m : TimerManager κ) (hc : ∀ fuel now now', c ≠ .listExpiredCb fuel now now') :
    handed m c = [] := by
  cases c with
  | listExpiredCb fuel now now' => exact absurd rfl (hc fuel now now')
  | addTimer | cancel | refresh | reset | getNextTimer => rfl

theorem step_cases (hs : s.step c = some s') :
    ∃ m, s.manager.step c = some m ∧ s' = ⟨m, c.lastNow.getD s.clock,
      s.delivered ++ handed s.manager c⟩ := by
  obtain ⟨m, hm, rfl⟩ := Option.map_eq_some_iff.mp hs
  exact ⟨m, hm, rfl⟩

/-- The reading that a call makes is not before the last one. -/
theorem Steady.clock_le (hg : s.Steady t ms c) (h : s.clock < 2 ^ 63) :
    s.clock ≤ c.lastNow.getD s.clock ∧ c.lastNow.getD s.clock < 2 ^ 63 := by
  cases c with
  | addTimer now ms' cb recurring => exact hg.1
  | cancel u => exact ⟨le_rfl, h⟩
  | refresh now u => exact hg.1
  | reset now u ms' from_now => exact hg.1
  | getNextTimer now => exact hg
  | listExpiredCb fuel now now' => exact ⟨le_trans hg.1.1 hg.1.2.1, hg.1.2.2⟩

/-- The last reading for the rollover is not behind the last reading. -/
theorem reading_of_step (hg : s.Steady t ms c) (hs : s.step c = some s')
    (h : 0 ≤ s.manager.previouseTime ∧ s.manager.previouseTime ≤ s.clock ∧ s.clock < 2 ^ 63) :
    0 ≤ s'.manager.previouseTime ∧ s'.manager.previouseTime ≤ s'.clock ∧ s'.clock < 2 ^ 63 := by
  obtain ⟨hprev, hle, hlt⟩ := h
  obtain ⟨hclock, hlt'⟩ := hg.clock_le hlt
  obtain ⟨m, hm, rfl⟩ := step_cases hs
  by_cases hexp : ∃ fuel now now', c = .listExpiredCb fuel now now'
  · obtain ⟨fuel, now, now', rfl⟩ := hexp
    unfold TimerManager.step at hm
    split_ifs at hm
    obtain ⟨⟨cbs, m₁⟩, hr, rfl⟩ := Option.map_eq_some_iff.mp hm
    change 0 ≤ m₁.previouseTime ∧ m₁.previouseTime ≤ now' ∧ now' < 2 ^ 63
    rw [TimerManager.listExpiredCb_previouseTime hr]
    exact ⟨by change s.clock ≤ now' at hclock; omega, le_rfl, hlt'⟩
  · have hsame := TimerManager.previouseTime_of_step hm fun fuel now now' heq =>
      hexp ⟨fuel, now, now', heq⟩
    exact ⟨by rw [hsame]; exact hprev, by rw [hsame]; exact le_trans hle hclock, hlt'⟩

/-! ## The invariant -/

variable [DecidableEq κ] {now₀ : ℤ}

/-- No timer holds the callback, and it has not been handed over. -/
structure Before (x : κ) (s : Watched κ) : Prop where
  linked : s.manager.Linked
  reading : 0 ≤ s.manager.previouseTime ∧ s.manager.previouseTime ≤ s.clock ∧ s.clock < 2 ^ 63
  unheld : s.manager.Unheld x
  times : s.times x = []

/-- **The invariant**: the timer `t` alone holds the callback, and its deadline is a period behind
the moment `now₀` at which it was made, and behind each time at which the callback was handed
over. -/
structure Paced (x : κ) (t ms : ℕ) (now₀ : ℤ) (s : Watched κ) : Prop where
  linked : s.manager.Linked
  reading : 0 ≤ s.manager.previouseTime ∧ s.manager.previouseTime ≤ s.clock ∧ s.clock < 2 ^ 63
  made : t < s.manager.count
  only : ∀ u < s.manager.count, (s.manager.timer u).cb = some x → u = t
  past : ∀ a ∈ now₀ :: s.times x, 0 ≤ a ∧ a ≤ s.clock
  behind : (s.manager.timer t).cb = some x → ms ≤ (s.manager.timer t).ms ∧
    s.manager.next t < 2 ^ 63 ∧
      ∀ a ∈ now₀ :: s.times x, a + (s.manager.timer t).ms * 10 ^ 6 ≤ s.manager.next t
  spaced : Spaced (ms * 10 ^ 6) (now₀ :: s.times x)

section Steps

/-- A callback is handed over as often as it is in the list. -/
theorem times_handed (cbs : List (Option κ)) (now : ℤ) :
    ((cbs.map fun cb => (cb, now)).filter fun e => e.1 = some x).map Prod.snd =
      List.replicate (cbs.count (some x)) now := by
  induction cbs with
  | nil => rfl
  | cons cb cbs ih =>
    rw [List.map_cons, List.filter_cons, List.count_cons]
    by_cases hcb : cb = some x
    · simp [hcb, ih, List.replicate_succ]
    · simp [hcb, ih]

/-- Only expiry hands callbacks over. -/
theorem times_of_step (hs : s.step c = some s')
    (hc : ∀ fuel now now', c ≠ .listExpiredCb fuel now now') : s'.times x = s.times x := by
  obtain ⟨m, -, rfl⟩ := step_cases hs
  rw [times, times, handed_of_ne s.manager hc, List.append_nil]

theorem expiry_cases {fuel : ℕ} {now now' : ℤ}
    (hs : s.step (.listExpiredCb fuel now now') = some s') :
    ∃ cbs, s.manager.listExpiredCb fuel now now' = some (cbs, s'.manager) ∧ s'.clock = now' ∧
      s'.times x = s.times x ++ List.replicate (cbs.count (some x)) now := by
  obtain ⟨m, hm, rfl⟩ := step_cases hs
  unfold TimerManager.step at hm
  split_ifs at hm
  obtain ⟨⟨cbs, m₁⟩, hr, rfl⟩ := Option.map_eq_some_iff.mp hm
  refine ⟨cbs, hr, rfl, ?_⟩
  simp only [times, handed, hr, Option.map_some, Option.getD_some, List.filter_append,
    List.map_append, times_handed]

theorem Before.step (h : s.Before x) (hg : s.Steady t ms c) (hadds : ¬ c.Adds x)
    (hs : s.step c = some s') : s'.Before x := by
  have hreading := reading_of_step hg hs h.reading
  obtain ⟨m, hm, heq⟩ := step_cases hs
  have hmanager : s'.manager = m := by rw [heq]
  rw [← hmanager] at hm
  refine ⟨h.linked.step hm, hreading, h.unheld.step hadds hm, ?_⟩
  by_cases hexp : ∃ fuel now now', c = .listExpiredCb fuel now now'
  · obtain ⟨fuel, now, now', rfl⟩ := hexp
    obtain ⟨cbs, hr, -, htimes⟩ := expiry_cases (x := x) hs
    have hnot : some x ∉ cbs := by
      intro hmem
      rw [(TimerManager.delivered_listExpiredCb h.linked hr).cbs_eq] at hmem
      obtain ⟨u, hu, hcb⟩ := List.mem_map.mp hmem
      exact h.unheld u (h.linked.lt_count u (TimerManager.mem_dueTimers.mp hu).1) hcb
    rw [htimes, h.times, List.count_eq_zero_of_not_mem hnot]
    rfl
  · exact (times_of_step hs fun fuel now now' heq => hexp ⟨fuel, now, now', heq⟩).trans h.times

/-- The timer is made. -/
theorem Before.addTimer (h : s.Before x) {now : ℤ} {recurring : Bool}
    (hg : s.Steady s.manager.count ms (.addTimer now ms x recurring))
    (hs : s.step (.addTimer now ms x recurring) = some s') :
    s'.Paced x s.manager.count ms now := by
  have hreading := reading_of_step hg hs h.reading
  have htimes := times_of_step (x := x) hs nofun
  obtain ⟨m, hm, heq⟩ := step_cases hs
  obtain rfl : m = (s.manager.addTimer now ms (some x) recurring).2 := by
    unfold TimerManager.step at hm
    split_ifs at hm
    exact (Option.some.inj hm).symm
  have hlinked := h.linked.step hm
  have hmanager : s'.manager = (s.manager.addTimer now ms (some x) recurring).2 := by rw [heq]
  have hclock : s'.clock = now := by rw [heq]; rfl
  have htimer : s'.manager.timer s.manager.count = Timer.construct now ms (some x) recurring := by
    rw [hmanager]
    exact TimerManager.setTimer_timer_self
  have hnow : 0 ≤ now := by
    have := h.reading
    have := hg.1.1
    omega
  have hfits := hg.2 rfl
  rw [h.times] at htimes
  refine ⟨hmanager ▸ hlinked, hreading, ?_, fun u hu hcb => ?_, ?_, fun _ => ?_, ?_⟩
  · rw [hmanager]
    exact Nat.lt_succ_self _
  · rw [hmanager] at hu hcb
    rcases Nat.lt_succ_iff_lt_or_eq.mp hu with hu | rfl
    · rw [(TimerManager.keepsTimer_addTimer hu).timer_eq] at hcb
      exact absurd hcb (h.unheld u hu)
    · rfl
  · rw [htimes, hclock]
    intro a ha
    obtain rfl := List.mem_singleton.mp ha
    exact ⟨hnow, le_rfl⟩
  · rw [htimes, TimerManager.next, htimer]
    change ms ≤ ms ∧ addMs now ms < 2 ^ 63 ∧ ∀ a ∈ [now], a + ms * 10 ^ 6 ≤ addMs now ms
    rw [TimerManager.addMs_eq_iff.mpr hfits]
    refine ⟨le_rfl, hfits.2, fun a ha => ?_⟩
    rw [List.mem_singleton.mp ha]
  · rw [htimes]
    exact List.pairwise_singleton ..

/-- A call that is not expiry. -/
theorem Paced.call (h : s.Paced x t ms now₀) (hg : s.Steady t ms c) (hadds : ¬ c.Adds x)
    (hs : s.step c = some s') (hc : ∀ fuel now now', c ≠ .listExpiredCb fuel now now') :
    s'.Paced x t ms now₀ := by
  have hreading := reading_of_step hg hs h.reading
  have htimes := times_of_step (x := x) hs hc
  have hclock := (hg.clock_le h.reading.2.2).1
  obtain ⟨m, hm, heq⟩ := step_cases hs
  have hmanager : s'.manager = m := by rw [heq]
  have hclock' : s'.clock = c.lastNow.getD s.clock := by rw [heq]
  rw [← hmanager] at hm
  have hcb : ∀ u < s.manager.count, (s'.manager.timer u).cb = some x →
      (s.manager.timer u).cb = some x := by
    intro u hu hx
    rcases TimerManager.cb_of_step hm hu with hsame | hnone
    · exact hsame ▸ hx
    · cases hnone.symm.trans hx
  have hlt := Nat.lt_of_lt_of_le h.made (TimerManager.count_le_of_step hm)
  have honly : ∀ u < s'.manager.count, (s'.manager.timer u).cb = some x → u = t := by
    intro u hu hx
    rcases TimerManager.count_of_step hm with hcount | ⟨now, ms', cb, recurring, rfl, hadd⟩
    · rw [hcount] at hu
      exact h.only u hu (hcb u hu hx)
    · rw [hadd] at hu
      rcases Nat.lt_succ_iff_lt_or_eq.mp hu with hu | rfl
      · exact h.only u hu (hcb u hu hx)
      · rw [hadd, TimerManager.addTimer_cb] at hx
        exact absurd (Option.some.inj hx) hadds
  have hpast : ∀ a ∈ now₀ :: s'.times x, 0 ≤ a ∧ a ≤ s'.clock := by
    rw [htimes, hclock']
    intro a ha
    exact ⟨(h.past a ha).1, le_trans (h.past a ha).2 hclock⟩
  have hspaced : Spaced (ms * 10 ^ 6) (now₀ :: s'.times x) := by
    rw [htimes]
    exact h.spaced
  rcases deadline_of_step hm h.made hc with ⟨hms, hnext⟩ | ⟨now, rfl, hms, hnext⟩ |
    ⟨now, ms', from_now, rfl, hms, hnext⟩
  · refine ⟨h.linked.step hm, hreading, hlt, honly, hpast, fun hx => ?_, hspaced⟩
    rw [htimes, hms, hnext]
    exact h.behind (hcb t h.made hx)
  · have hfits := hg.2 rfl
    rw [TimerManager.addMs_eq_iff.mpr hfits] at hnext
    refine ⟨h.linked.step hm, hreading, hlt, honly, hpast, fun hx => ?_, hspaced⟩
    rw [htimes, hms, hnext]
    refine ⟨(h.behind (hcb t h.made hx)).1, hfits.2, fun a ha => ?_⟩
    have hle := (h.past a ha).2
    have hnow : s.clock ≤ now := hclock
    omega
  · obtain ⟨hle, hfits⟩ := hg.2 rfl
    refine ⟨h.linked.step hm, hreading, hlt, honly, hpast, fun hx => ?_, hspaced⟩
    obtain ⟨-, hnext63, hbehind⟩ := h.behind (hcb t h.made hx)
    have hstart :
        (if from_now then now else subMs (s.manager.timer t).next (s.manager.timer t).ms) =
          if from_now then now else s.manager.next t - (s.manager.timer t).ms * 10 ^ 6 := by
      split_ifs
      · rfl
      · have hfirst := hbehind now₀ List.mem_cons_self
        have hpos := (h.past now₀ List.mem_cons_self).1
        rw [subMs, Int.bmod_eq_of_le]
        · rfl
        · change -(2 ^ 64 / 2) ≤ s.manager.next t - _
          omega
        · change s.manager.next t - _ < _
          omega
    rw [TimerManager.resetDeadline, hstart, TimerManager.addMs_eq_iff.mpr hfits] at hnext
    rw [htimes, hms, hnext]
    refine ⟨hle, hfits.2, fun a ha => ?_⟩
    have hpast := (h.past a ha).2
    have hafter := hbehind a ha
    have hnow : s.clock ≤ now := hclock
    split_ifs <;> omega

/-- Expiry hands the callback over once, when the deadline has come, or not at all. -/
theorem Paced.count_le (h : s.Paced x t ms now₀) {now : ℤ} {cbs : List (Option κ)}
    {m : TimerManager κ} (hdel : s.manager.Delivered m false now cbs) :
    cbs.count (some x) = 0 ∨ (cbs.count (some x) = 1 ∧ t ∈ s.manager.dueTimers false now ∧
      (s.manager.timer t).cb = some x) := by
  have hholders : ∀ u ∈ s.manager.holders x, u = t := by
    intro u hu
    obtain ⟨hin, hcb⟩ := TimerManager.mem_holders.mp hu
    exact h.only u (h.linked.lt_count u hin) hcb
  rw [hdel.count_cbs]
  have hnodup := (h.linked.holders_nodup x).filter fun u =>
    decide (TimerManager.Expired false now (s.manager.next u))
  generalize hl : (s.manager.holders x).filter
    (fun u => decide (TimerManager.Expired false now (s.manager.next u))) = l at hnodup
  have hmem : ∀ u ∈ l, u ∈ s.manager.holders x ∧
      TimerManager.Expired false now (s.manager.next u) := by
    intro u hu
    rw [← hl, List.mem_filter, decide_eq_true_iff] at hu
    exact hu
  cases l with
  | nil => exact Or.inl rfl
  | cons u l =>
    obtain ⟨hu, hexp⟩ := hmem u List.mem_cons_self
    have hut := hholders u hu
    have hnil : l = [] := by
      apply List.eq_nil_iff_forall_not_mem.mpr
      intro v hv
      have hvt := hholders v (hmem v (List.mem_cons_of_mem u hv)).1
      exact (List.nodup_cons.mp hnodup).1 (by rwa [hut, ← hvt])
    subst hut hnil
    obtain ⟨hin, hcb⟩ := TimerManager.mem_holders.mp hu
    exact Or.inr ⟨rfl, TimerManager.mem_dueTimers.mpr ⟨hin, hexp⟩, hcb⟩

/-- Expiry. -/
theorem Paced.expiry (h : s.Paced x t ms now₀) {fuel : ℕ} {now now' : ℤ}
    (hg : s.Steady t ms (.listExpiredCb fuel now now'))
    (hs : s.step (.listExpiredCb fuel now now') = some s') : s'.Paced x t ms now₀ := by
  have hreading := reading_of_step hg hs h.reading
  obtain ⟨cbs, hr, hclock, htimes⟩ := expiry_cases (x := x) hs
  obtain ⟨⟨hle, hle', hlt⟩, hfits⟩ := hg
  have hdel := TimerManager.delivered_listExpiredCb h.linked hr
  have hread := le_trans h.reading.2.1 (le_trans hle hle')
  rw [TimerManager.not_rollover h.reading.1 hread hlt] at hdel
  have hexpires := TimerManager.expires_listExpiredCb hr
  have hcb : ∀ u, (s'.manager.timer u).cb = some x → (s.manager.timer u).cb = some x := by
    intro u hx
    rcases (hexpires u).cb with hsame | hnone
    · exact hsame ▸ hx
    · cases hnone.symm.trans hx
  have honly : ∀ u < s'.manager.count, (s'.manager.timer u).cb = some x → u = t := by
    intro u hu hx
    rw [(hexpires u).count_eq] at hu
    exact h.only u hu (hcb u hx)
  have hmade : t < s'.manager.count := (hexpires t).count_eq ▸ h.made
  -- what is handed over is handed over at `now`, which the deadline is not behind
  have hnew : ∀ b ∈ List.replicate (cbs.count (some x)) now, b = now ∧
      s.manager.next t ≤ now ∧ (s.manager.timer t).cb = some x := by
    intro b hb
    rcases h.count_le hdel with hzero | ⟨-, hdue, hx⟩
    · rw [hzero] at hb
      cases hb
    · have hexp := (TimerManager.mem_dueTimers.mp hdue).2
      exact ⟨List.eq_of_mem_replicate hb, TimerManager.expired_false_iff.mp hexp, hx⟩
  have hpast : ∀ a ∈ now₀ :: s'.times x, 0 ≤ a ∧ a ≤ s'.clock := by
    rw [htimes, hclock]
    intro a ha
    rcases List.mem_append.mp (show a ∈ (now₀ :: s.times x) ++ _ from ha) with ha | ha
    · have := h.past a ha
      omega
    · have := (hnew a ha).1
      have := h.reading
      omega
  have hspaced : Spaced (ms * 10 ^ 6) (now₀ :: s'.times x) := by
    rw [htimes, ← List.cons_append]
    rcases h.count_le hdel with hzero | ⟨hone, -, -⟩
    · rw [hzero, List.replicate_zero, List.append_nil]
      exact h.spaced
    · rw [hone, List.replicate_one]
      refine h.spaced.append fun a ha => ?_
      obtain ⟨-, hnext, hx⟩ := hnew now (by rw [hone]; exact List.mem_singleton_self _)
      obtain ⟨hperiod, -, hbehind⟩ := h.behind hx
      have hafter := hbehind a ha
      omega
  refine ⟨h.linked.listExpiredCb hr, hreading, hmade, honly, hpast, fun hx => ?_, hspaced⟩
  obtain ⟨hperiod, hnext63, hbehind⟩ := h.behind (hcb t hx)
  by_cases hdue : t ∈ s.manager.dueTimers false now
  · cases hrec : (s.manager.timer t).recurring with
    | false => cases (hdel.once t hdue hrec).2.symm.trans hx
    | true =>
      have hback := hdel.rearmed t hdue hrec
      have hms : (s'.manager.timer t).ms = (s.manager.timer t).ms := by rw [hback]
      have hnext : s'.manager.next t = now + (s.manager.timer t).ms * 10 ^ 6 := by
        rw [TimerManager.next, hback]
        exact TimerManager.addMs_eq_iff.mpr hfits
      have hdeadline := TimerManager.expired_false_iff.mp (TimerManager.mem_dueTimers.mp hdue).2
      rw [hms, hnext, htimes, ← List.cons_append]
      refine ⟨hperiod, hfits.2, fun a ha => ?_⟩
      rcases List.mem_append.mp ha with ha | ha
      · have hafter := hbehind a ha
        omega
      · rw [(hnew a ha).1]
  · have hnone : cbs.count (some x) = 0 :=
      (h.count_le hdel).resolve_right fun hone => hdue hone.2.1
    have hsame : s'.manager.timer t = s.manager.timer t := by
      by_cases hmem : t ∈ s.manager.timers
      · exact (hdel.kept t hmem fun hexp => hdue (TimerManager.mem_dueTimers.mpr ⟨hmem, hexp⟩)).2
      · exact (hdel.others t hmem).2
    rw [htimes, hnone, List.replicate_zero, List.append_nil, TimerManager.next, hsame]
    exact ⟨hperiod, hnext63, hbehind⟩

theorem Paced.step (h : s.Paced x t ms now₀) (hg : s.Steady t ms c) (hadds : ¬ c.Adds x)
    (hs : s.step c = some s') : s'.Paced x t ms now₀ := by
  by_cases hexp : ∃ fuel now now', c = .listExpiredCb fuel now now'
  · obtain ⟨fuel, now, now', rfl⟩ := hexp
    exact h.expiry hg hs
  · exact h.call hg hadds hs fun fuel now now' heq => hexp ⟨fuel, now, now', heq⟩

end Steps

/-! ## Runs -/

section Runs

variable {as bs : List (TimerCall κ)} {s s₁ s' : Watched κ} {x : κ} {t ms : ℕ} {now start₀ : ℤ}
  {recurring : Bool}

omit [DecidableEq κ] in
/-- The clock does not go back, and no other timer is given the callback. -/
def Alone (x : κ) (t ms : ℕ) (s : Watched κ) (c : TimerCall κ) : Prop :=
  s.Steady t ms c ∧ ¬ c.Adds x

theorem before_start (x : κ) (h : 0 ≤ start₀ ∧ start₀ < 2 ^ 63) :
    (start start₀ : Watched κ).Before x :=
  ⟨TimerManager.linked_construct start₀, ⟨h.1, le_rfl, h.2⟩,
    fun _ hu => absurd hu (Nat.not_lt_zero _), rfl⟩

/-- **A timer does not fire early, and not too often.** In every run in which the clock does not go
back: when a timer is made at `now` with a period of `ms` milliseconds, and its callback is that of
no other timer, the callback is handed over for the first time at least a period behind `now`, and
each time at least a period behind the time before, whatever is called on this timer and on others,
as long as its period is not made shorter. So it has been handed over at most once for each period
that has passed. -/
theorem spaced_of_exec (hstart : 0 ≤ start₀ ∧ start₀ < 2 ^ 63)
    (hs : exec step (start start₀) as = some s)
    (hadd : s.step (.addTimer now ms x recurring) = some s₁)
    (hs' : exec step s₁ bs = some s')
    (has : Guarded step (Alone x s.manager.count ms) (start start₀) as)
    (hsteady : s.Steady s.manager.count ms (.addTimer now ms x recurring))
    (hbs : Guarded step (Alone x s.manager.count ms) s₁ bs) :
    Spaced (ms * 10 ^ 6) (now :: s'.times x) ∧
      (s'.times x).length * (ms * 10 ^ 6 : ℤ) ≤ s'.clock - now := by
  have hbefore : s.Before x :=
    exec_invariant_of_guarded (fun _ _ _ h hg hs => Before.step h hg.1 hg.2 hs)
      (before_start x hstart) has hs
  have hpaced : s'.Paced x s.manager.count ms now :=
    exec_invariant_of_guarded (fun _ _ _ h hg hs => Paced.step h hg.1 hg.2 hs)
      (hbefore.addTimer hsteady hadd) hbs hs'
  exact ⟨hpaced.spaced, hpaced.spaced.length_mul_le fun a ha => (hpaced.past a ha).2⟩

/-- A period of 10 ms, and looks at the clock 12 ms and 25 ms later: the second deadline is counted
from the first look. -/
theorem spaced_of_exec_twice :
    ∃ s s₁ s' : Watched ℕ, exec step (start 0) [.getNextTimer 1] = some s ∧
      s.step (.addTimer 1 10 7 true) = some s₁ ∧
      exec step s₁ [.listExpiredCb 3 12000000 12000000, .listExpiredCb 3 21000000 21000000,
        .listExpiredCb 3 25000000 25000000] = some s' ∧
      s'.times 7 = [12000000, 25000000] ∧ Spaced (10 * 10 ^ 6) (1 :: s'.times 7) := by
  obtain ⟨s, hs⟩ : ∃ s : Watched ℕ, exec step (start 0) [.getNextTimer 1] = some s := ⟨_, rfl⟩
  obtain ⟨s₁, hadd⟩ : ∃ s₁, s.step (.addTimer 1 10 7 true) = some s₁ := by
    obtain rfl := Option.some.inj hs
    exact ⟨_, rfl⟩
  obtain ⟨s', hs'⟩ : ∃ s', exec step s₁ [.listExpiredCb 3 12000000 12000000,
      .listExpiredCb 3 21000000 21000000, .listExpiredCb 3 25000000 25000000] = some s' := by
    obtain rfl := Option.some.inj hs
    obtain rfl := Option.some.inj hadd
    exact ⟨_, rfl⟩
  refine ⟨s, s₁, s', hs, hadd, hs', ?_, (spaced_of_exec (by decide) hs hadd hs' ?_ ?_ ?_).1⟩
  · obtain rfl := Option.some.inj hs
    obtain rfl := Option.some.inj hadd
    obtain rfl := Option.some.inj hs'
    rfl
  · have hread : (0 : ℤ) ≤ 1 ∧ (1 : ℤ) < 2 ^ 63 := by decide
    exact ⟨⟨hread, id⟩, fun _ _ => trivial⟩
  · obtain rfl := Option.some.inj hs
    decide
  · obtain rfl := Option.some.inj hs
    obtain rfl := Option.some.inj hadd
    refine ⟨⟨by decide, id⟩, fun s₂ h₂ => ?_⟩
    obtain rfl := Option.some.inj h₂
    refine ⟨⟨by decide, id⟩, fun s₃ h₃ => ?_⟩
    obtain rfl := Option.some.inj h₃
    exact ⟨⟨by decide, id⟩, fun _ _ => trivial⟩

end Runs

end Watched

end Dag
