import Dag.Timer.Kept

/-!
# Timers: what an operation leaves of the others

A call on the manager or on one timer neither takes another timer out of the set nor changes it, as
long as the deadlines are distinct. Expiry hands the callback of a member over before the member
leaves the set.

## Main results

* `TimerManager.Inv.keeps_of_step`: a call leaves the timers that it is not made on
* `TimerManager.expires_listExpiredCb`: expiry leaves a member in the set, or has handed its callback
  over
-/

namespace Dag

open Foundation

variable {κ : Type}

namespace TimerManager

variable {m m' : TimerManager κ} {t u : ℕ} {now now' : ℤ}

/-- The timer `u` has its fields as before, and is a member if it was. -/
structure KeepsTimer (m m' : TimerManager κ) (u : ℕ) : Prop where
  timer_eq : m'.timer u = m.timer u
  mem : u ∈ m.timers → u ∈ m'.timers
  count_le : m.count ≤ m'.count

theorem KeepsTimer.refl (m : TimerManager κ) (u : ℕ) : m.KeepsTimer m u := ⟨rfl, id, Nat.le_refl _⟩

theorem KeepsTimer.trans {m'' : TimerManager κ} (h : m.KeepsTimer m' u)
    (h' : m'.KeepsTimer m'' u) : m.KeepsTimer m'' u :=
  ⟨h'.timer_eq.trans h.timer_eq, fun hu => h'.mem (h.mem hu), h.count_le.trans h'.count_le⟩

theorem keepsTimer_erase (m : TimerManager κ) (h : u ≠ t) : m.KeepsTimer (m.erase t) u :=
  ⟨rfl, fun hu => (List.mem_erase_of_ne h).mpr hu, Nat.le_refl _⟩

theorem keepsTimer_setTimer (m : TimerManager κ) (x : Timer κ) (h : u ≠ t) :
    m.KeepsTimer (m.setTimer t x) u :=
  ⟨setTimer_timer_of_ne h, id, Nat.le_refl _⟩

theorem keepsTimer_insert (m : TimerManager κ) (t u : ℕ) : m.KeepsTimer (m.insert t) u :=
  ⟨rfl, mem_insertKey_of_mem, Nat.le_refl _⟩

/-- Taking a timer out, assigning its fields and putting it back leaves the others. -/
theorem keepsTimer_relink (m : TimerManager κ) (x : Timer κ) (h : u ≠ t) :
    m.KeepsTimer (((m.erase t).setTimer t x).insert t) u :=
  ((keepsTimer_erase m h).trans (keepsTimer_setTimer _ x h)).trans (keepsTimer_insert _ t u)

/-! ## Distinct deadlines -/

instance (m : TimerManager κ) (now now' : ℤ) : DecidablePred (m.Rearmed now now') := fun t =>
  inferInstanceAs (Decidable (t ∈ m.timers ∧
    ((m.detectClockRollover now').1 = true ∨ m.next t ≤ now) ∧ (m.timer t).recurring = true))

instance (m : TimerManager κ) (t : ℕ) : DecidablePred (m.FreshFor t) := fun d =>
  inferInstanceAs (Decidable ((m.timer t).cb ≠ none → ∀ u ∈ m.timers, u ≠ t → m.next u ≠ d))

/-- Only members are put back, so the deadlines of a call can be compared one by one. -/
instance (m : TimerManager κ) : DecidablePred m.Fresh
  | .addTimer now ms _ _ => inferInstanceAs (Decidable (∀ u ∈ m.timers, m.next u ≠ addMs now ms))
  | .cancel _ | .getNextTimer _ => inferInstanceAs (Decidable True)
  | .refresh now t => inferInstanceAs (Decidable (m.FreshFor t (addMs now (m.timer t).ms)))
  | .reset now t ms from_now => inferInstanceAs (Decidable
      ((ms = (m.timer t).ms ∧ from_now = false) ∨
        m.FreshFor t (m.resetDeadline now t ms from_now)))
  | .listExpiredCb _ now now' =>
    decidable_of_iff (∀ t ∈ m.timers, m.Rearmed now now' t → ∀ u ∈ m.timers, u ≠ t →
      m.next u ≠ m.rearmDeadline now t ∧
        (m.Rearmed now now' u → m.rearmDeadline now u ≠ m.rearmDeadline now t))
      ⟨fun h t hre => h t hre.1 hre, fun h t _ => h t⟩

/-! ## Calls on one timer -/

theorem Inv.keepsTimer_cancel (h : m.Inv) (ht : t < m.count) (hu : u ≠ t) :
    m.KeepsTimer (m.cancel t).2 u := by
  by_cases hcb : (m.timer t).cb = none
  · rw [cancel_of_none hcb]
    exact KeepsTimer.refl m u
  · rw [cancel_of_find hcb (h.find ht hcb)]
    exact (keepsTimer_setTimer m _ hu).trans (keepsTimer_erase _ hu)

theorem cancel_cb (m : TimerManager κ) (t : ℕ) : ((m.cancel t).2.timer t).cb = none := by
  by_cases hcb : (m.timer t).cb = none
  · rw [cancel_of_none hcb]
    exact hcb
  · have hdrop : ((m.dropCb t).timer t).cb = none := by rw [dropCb, setTimer_timer_self]
    cases hf : m.find t with
    | some it => rwa [cancel_of_find hcb hf]
    | none => rwa [cancel_of_find_none hcb hf]

theorem cancel_count (m : TimerManager κ) (t : ℕ) : (m.cancel t).2.count = m.count := by
  by_cases hcb : (m.timer t).cb = none
  · rw [cancel_of_none hcb]
  · cases hf : m.find t with
    | some it =>
      rw [cancel_of_find hcb hf]
      rfl
    | none =>
      rw [cancel_of_find_none hcb hf]
      rfl

theorem Inv.keepsTimer_refresh (h : m.Inv) (ht : t < m.count) (hu : u ≠ t) :
    m.KeepsTimer (m.refresh now t).2 u := by
  by_cases hcb : (m.timer t).cb = none
  · rw [refresh_of_none hcb]
    exact KeepsTimer.refl m u
  · rw [refresh_of_find hcb (h.find ht hcb)]
    exact keepsTimer_relink m _ hu

theorem Inv.keepsTimer_reset (h : m.Inv) (ht : t < m.count) (hu : u ≠ t) {ms : ℕ}
    {from_now : Bool} : m.KeepsTimer (m.reset now t ms from_now).2 u := by
  by_cases hsame : ms = (m.timer t).ms ∧ from_now = false
  · rw [reset_of_same hsame]
    exact KeepsTimer.refl m u
  · by_cases hcb : (m.timer t).cb = none
    · rw [reset_of_none hsame hcb]
      exact KeepsTimer.refl m u
    · rw [reset_of_find hsame hcb (h.find ht hcb)]
      obtain ⟨htimer, hmem, hcount⟩ := keepsTimer_relink m (m.resetTo now t ms from_now) hu
      exact ⟨htimer, hmem, hcount⟩

/-! ## A new timer -/

/-- A new timer is a member, if its deadline is new to the set. -/
theorem addTimer_mem {ms : ℕ} {cb : Option κ} {recurring : Bool} (hlt : ∀ u ∈ m.timers, u < m.count)
    (hfresh : ∀ u ∈ m.timers, m.next u ≠ addMs now ms) :
    m.count ∈ (m.addTimer now ms cb recurring).2.timers := by
  refine mem_insertKey_self fun u hu => ?_
  change ((m.setTimer m.count _).timer u).next ≠ ((m.setTimer m.count _).timer m.count).next
  rw [setTimer_timer_of_ne (Nat.ne_of_lt (hlt u hu)), setTimer_timer_self]
  exact hfresh u hu

theorem addTimer_cb (m : TimerManager κ) (now : ℤ) (ms : ℕ) (cb : Option κ) (recurring : Bool) :
    ((m.addTimer now ms cb recurring).2.timer m.count).cb = cb := by
  change ((m.setTimer m.count _).timer m.count).cb = cb
  rw [setTimer_timer_self]
  rfl

theorem keepsTimer_addTimer {ms : ℕ} {cb : Option κ} {recurring : Bool} (hu : u < m.count) :
    m.KeepsTimer (m.addTimer now ms cb recurring).2 u := by
  obtain ⟨htimer, hmem, -⟩ := (keepsTimer_setTimer m (Timer.construct now ms cb recurring)
    (Nat.ne_of_lt hu)).trans (keepsTimer_insert _ m.count u)
  exact ⟨htimer, hmem, Nat.le_succ _⟩

/-! ## Any call but expiry -/

/-- **A call leaves the timers that it is not made on**, when the deadlines are distinct. -/
theorem Inv.keeps_of_step (h : m.Inv) {c : TimerCall κ} (hm : m.step c = some m')
    (hc : ∀ fuel now now', c ≠ .listExpiredCb fuel now now') (hu : u < m.count)
    (hut : c.timer? ≠ some u) : m.KeepsTimer m' u := by
  unfold TimerManager.step at hm
  split_ifs at hm with hmade
  have hlt : ∀ t, c.timer? = some t → t < m.count := fun t ht =>
    Nat.lt_of_not_le fun hle => hmade ⟨t, ht, hle⟩
  have hne : ∀ t, c.timer? = some t → u ≠ t := fun t ht heq => hut (heq ▸ ht)
  cases c with
  | addTimer now ms cb recurring =>
    obtain rfl := Option.some.inj hm
    exact keepsTimer_addTimer hu
  | cancel t =>
    obtain rfl := Option.some.inj hm
    exact h.keepsTimer_cancel (hlt t rfl) (hne t rfl)
  | refresh now t =>
    obtain rfl := Option.some.inj hm
    exact h.keepsTimer_refresh (hlt t rfl) (hne t rfl)
  | reset now t ms from_now =>
    obtain rfl := Option.some.inj hm
    exact h.keepsTimer_reset (hlt t rfl) (hne t rfl)
  | getNextTimer now =>
    obtain rfl := Option.some.inj hm
    rw [getNextTimer_snd]
    exact ⟨rfl, id, Nat.le_refl _⟩
  | listExpiredCb fuel now now' => exact absurd rfl (hc fuel now now')

/-! ## Expiry -/

/-- Expiry has left the timer `u` in the set with its callback, or has handed its callback over;
and it assigns no callback but the null one. -/
structure Expires (m m' : TimerManager κ) (cbs : List (Option κ)) (u : ℕ) : Prop where
  mem : u ∈ m.timers → (u ∈ m'.timers ∧ (m'.timer u).cb = (m.timer u).cb) ∨ (m.timer u).cb ∈ cbs
  cb : (m'.timer u).cb = (m.timer u).cb ∨ (m'.timer u).cb = none
  count_eq : m'.count = m.count

/-- A pass of the loop on the timer `t` leaves the others. -/
theorem keepsTimer_expireFirst (m : TimerManager κ) (now : ℤ) (hu : u ≠ t) :
    m.KeepsTimer (m.expireFirst now t) u := by
  by_cases hrec : (m.timer t).recurring = true
  · rw [expireFirst_of_recurring hrec]
    exact keepsTimer_relink m _ hu
  · rw [expireFirst_of_once hrec]
    exact (keepsTimer_erase m hu).trans (keepsTimer_setTimer _ _ hu)

theorem expireFirst_count (m : TimerManager κ) (now : ℤ) (t : ℕ) :
    (m.expireFirst now t).count = m.count := by
  by_cases hrec : (m.timer t).recurring = true
  · rw [expireFirst_of_recurring hrec]
    rfl
  · rw [expireFirst_of_once hrec]
    rfl

/-- The timer itself keeps its callback if it is recurring, and else has none any more. -/
theorem expireFirst_cb (m : TimerManager κ) (now : ℤ) (t : ℕ) :
    ((m.expireFirst now t).timer t).cb = (m.timer t).cb ∨
      ((m.expireFirst now t).timer t).cb = none := by
  by_cases hrec : (m.timer t).recurring = true
  · left
    rw [expireFirst_of_recurring hrec]
    change (((m.erase t).setTimer t _).timer t).cb = _
    rw [setTimer_timer_self]
  · right
    rw [expireFirst_of_once hrec, setTimer_timer_self]

theorem expires_expireFirst (m : TimerManager κ) (now : ℤ) (t u : ℕ) (cbs : List (Option κ)) :
    m.Expires (m.expireFirst now t) (cbs ++ [(m.timer t).cb]) u := by
  have hcount := expireFirst_count m now t
  by_cases hut : u = t
  · subst hut
    exact ⟨fun _ => .inr (List.mem_append_right _ (List.mem_singleton_self _)),
      expireFirst_cb m now u, hcount⟩
  · have hkeep := keepsTimer_expireFirst m now hut
    refine ⟨fun hu => .inl ⟨hkeep.mem hu, ?_⟩, .inl ?_, hcount⟩
    · rw [hkeep.timer_eq]
    · rw [hkeep.timer_eq]

theorem expires_expireLoop (rollover : Bool) (u : ℕ) :
    ∀ {fuel : ℕ} {m m' : TimerManager κ} {cbs cbs' : List (Option κ)},
      expireLoop now rollover fuel m cbs = some (cbs', m') →
        m.Expires m' cbs' u ∧ ∀ cb ∈ cbs, cb ∈ cbs' := by
  intro fuel
  -- on the fuel: what a pass hands over stays in the list, and what it leaves goes into the next
  induction fuel with
  | zero => exact fun h => by cases h
  | succ fuel ih =>
    intro m m' cbs cbs' h
    have hstop : some (cbs, m) = some (cbs', m') → m.Expires m' cbs' u ∧ ∀ cb ∈ cbs, cb ∈ cbs' := by
      intro h
      obtain ⟨rfl, rfl⟩ := Prod.mk.inj (Option.some.inj h)
      exact ⟨⟨fun hu => .inl ⟨hu, rfl⟩, .inl rfl, rfl⟩, fun _ hcb => hcb⟩
    rw [expireLoop] at h
    split at h
    · exact hstop h
    · rename_i t rest htimers
      split_ifs at h with hdue
      · obtain ⟨hrest, hcbs⟩ := ih h
        have hpass := expires_expireFirst m now t u cbs
        refine ⟨⟨fun hu => ?_, ?_, hrest.count_eq.trans hpass.count_eq⟩,
          fun cb hcb => hcbs cb (List.mem_append_left _ hcb)⟩
        · rcases hpass.mem hu with ⟨hu', hcb⟩ | hcb
          · rw [← hcb]
            exact hrest.mem hu'
          · exact .inr (hcbs _ hcb)
        · rcases hrest.cb with heq | hnone
          · rw [heq]
            exact hpass.cb
          · exact .inr hnone
      · exact hstop h

/-- **No callback is lost in expiry**: a member stays a member with its callback, or its callback is
among those handed over. -/
theorem expires_listExpiredCb {fuel : ℕ} {cbs : List (Option κ)}
    (h : m.listExpiredCb fuel now now' = some (cbs, m')) (u : ℕ) : m.Expires m' cbs u := by
  obtain ⟨hmem, hcb, hcount⟩ := (expires_expireLoop _ u h).1
  exact ⟨hmem, hcb, hcount⟩

end TimerManager

end Dag
