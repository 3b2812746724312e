import Dag.Timer.Expiry

/-!
# Timers: calls in any state

A timer is looked for by its deadline, and what is found is taken out of the set. In every state of
a run the set is in order, so that a member is found as itself. A timer that holds a callback and is
not a member may go *astray*: a member has its deadline, and the next call on the timer takes that
member out.

## Main definitions

* `Loaded`: the set is in order, and its members hold callbacks
* `Astray`: the timer is looked for, and another one is found
* `Early`: the call returns before it looks its timer up

## Main results

* `linked_of_exec`, `loaded_of_exec`: the invariants of every run, whatever the deadlines are
* `leavesOthers_iff`: a call on a timer leaves the others if and only if it does not go astray
-/

namespace Dag

open Foundation

variable {κ : Type}

namespace TimerManager

variable {m m' : TimerManager κ} {t u it : ℕ} {now now' : ℤ} {c : TimerCall κ} {x : Timer κ}

/-! ## What is found -/

theorem find_eq_some (h : m.find t = some it) : it ∈ m.timers ∧ m.next it = m.next t :=
  findKey_eq_some h

theorem Linked.find_of_mem (h : m.Linked) (ht : t ∈ m.timers) : m.find t = some t :=
  findKey_of_mem h.ordered ht

/-- Once the timer found is taken out, the timer looked for is not a member. -/
theorem Linked.not_mem_erase (h : m.Linked) (hf : m.find t = some it) :
    t ∉ (m.erase it).timers := by
  intro hmem
  have ht : t ∈ m.timers := List.mem_of_mem_erase hmem
  obtain rfl : t = it := Option.some.inj ((h.find_of_mem ht).symm.trans hf)
  exact h.ordered.nodup.not_mem_erase hmem

/-- The timer holds a callback and is not a member, and a member has its deadline. -/
structure Astray (m : TimerManager κ) (t : ℕ) : Prop where
  cb : (m.timer t).cb ≠ none
  not_mem : t ∉ m.timers
  shared : ∃ u ∈ m.timers, m.next u = m.next t

theorem Astray.find (h : m.Astray t) : ∃ it, m.find t = some it ∧ it ≠ t := by
  obtain ⟨u, hu, heq⟩ := h.shared
  cases hf : m.find t with
  | none =>
    have hp := List.find?_eq_none.mp hf u hu
    simp [heq] at hp
  | some it =>
    refine ⟨it, rfl, ?_⟩
    rintro rfl
    exact h.not_mem (find_eq_some hf).1

theorem Linked.find_self (h : m.Linked) (hcb : (m.timer t).cb ≠ none) (ha : ¬ m.Astray t)
    (hf : m.find t = some it) : it = t := by
  by_cases ht : t ∈ m.timers
  · exact (Option.some.inj ((h.find_of_mem ht).symm.trans hf)).symm
  · exact absurd ⟨hcb, ht, it, find_eq_some hf⟩ ha

/-! ## The set in order -/

/-- A `refresh` does nothing, or takes out what it finds and puts its timer back. -/
theorem refresh_cases (m : TimerManager κ) (now : ℤ) (t : ℕ) :
    (m.refresh now t).2 = m ∨ ∃ it, (m.timer t).cb ≠ none ∧ m.find t = some it ∧
      (m.refresh now t).2 = ((m.erase it).setTimer t (m.refreshed now t)).insert t := by
  by_cases hcb : (m.timer t).cb = none
  · exact Or.inl (by rw [refresh_of_none hcb])
  · cases hf : m.find t with
    | some it => exact Or.inr ⟨it, hcb, rfl, by rw [refresh_of_find hcb hf]⟩
    | none => exact Or.inl (by rw [refresh_of_find_none hcb hf])

/-- So does a `reset`. -/
theorem reset_cases (m : TimerManager κ) (now : ℤ) (t ms : ℕ) (from_now : Bool) :
    (m.reset now t ms from_now).2 = m ∨ ∃ it, (m.timer t).cb ≠ none ∧ m.find t = some it ∧
      (m.reset now t ms from_now).2 =
        (((m.erase it).setTimer t (m.resetTo now t ms from_now)).addTimerPtr t).2 := by
  by_cases hsame : ms = (m.timer t).ms ∧ from_now = false
  · exact Or.inl (by rw [reset_of_same hsame])
  · by_cases hcb : (m.timer t).cb = none
    · exact Or.inl (by rw [reset_of_none hsame hcb])
    · cases hf : m.find t with
      | some it => exact Or.inr ⟨it, hcb, rfl, by rw [reset_of_find hsame hcb hf]⟩
      | none => exact Or.inl (by rw [reset_of_find_none hsame hcb hf])

/-- Taking out what is found and putting the timer back. -/
theorem Linked.relink (h : m.Linked) (ht : t < m.count) (x : Timer κ) (hf : m.find t = some it) :
    (((m.erase it).setTimer t x).insert t).Linked :=
  ((h.erase it).setTimer (h.not_mem_erase hf) x).insert ht

theorem Linked.refresh (h : m.Linked) (ht : t < m.count) (now : ℤ) : (m.refresh now t).2.Linked := by
  rcases refresh_cases m now t with heq | ⟨it, -, hf, heq⟩
  · rw [heq]
    exact h
  · rw [heq]
    exact h.relink ht _ hf

theorem Linked.reset (h : m.Linked) (ht : t < m.count) (now : ℤ) (ms : ℕ) (from_now : Bool) :
    (m.reset now t ms from_now).2.Linked := by
  rcases reset_cases m now t ms from_now with heq | ⟨it, -, hf, heq⟩
  · rw [heq]
    exact h
  · rw [heq]
    obtain ⟨hordered, hlt⟩ := h.relink ht (m.resetTo now t ms from_now) hf
    exact ⟨hordered, hlt⟩

/-- The step lemma: a call keeps the set in order, whatever the deadlines are. -/
theorem Linked.step (h : m.Linked) (hm : m.step c = some m') : m'.Linked := by
  unfold TimerManager.step at hm
  split_ifs at hm with hmade
  have hlt : ∀ t, c.timer? = some t → t < m.count := fun t ht =>
    Nat.lt_of_not_le fun hle => hmade ⟨t, ht, hle⟩
  cases c with
  | addTimer now ms cb recurring =>
    obtain rfl := Option.some.inj hm
    exact h.addTimer now ms (some cb) recurring
  | cancel t =>
    obtain rfl := Option.some.inj hm
    exact (h.cancel t).1
  | refresh now t =>
    obtain rfl := Option.some.inj hm
    exact h.refresh (hlt t rfl) now
  | reset now t ms from_now =>
    obtain rfl := Option.some.inj hm
    exact h.reset (hlt t rfl) now ms from_now
  | getNextTimer now =>
    obtain rfl := Option.some.inj hm
    rw [getNextTimer_snd]
    exact ⟨h.ordered, h.lt_count⟩
  | listExpiredCb fuel now now' =>
    obtain ⟨⟨cbs, m₁⟩, hr, rfl⟩ := Option.map_eq_some_iff.mp hm
    exact h.listExpiredCb hr

/-- One call, or `addTimer` with a null callback. -/
def stepAny (m : TimerManager κ) : TimerCall κ ⊕ ℤ × ℕ × Bool → Option (TimerManager κ)
  | .inl c => m.step c
  | .inr (now, ms, recurring) => some (m.addTimer now ms none recurring).2

/-- **The set is in order in every run**, whatever the deadlines and the callbacks are. -/
theorem linked_of_exec {start : ℤ} {calls : List (TimerCall κ ⊕ ℤ × ℕ × Bool)}
    (h : exec stepAny (construct start) calls = some m) : m.Linked := by
  refine exec_invariant (fun m c m' hi hm => ?_) (linked_construct start) h
  cases c with
  | inl c => exact hi.step hm
  | inr args =>
    obtain rfl := Option.some.inj hm
    exact hi.addTimer args.1 args.2.1 none args.2.2

/-! ## Members hold callbacks -/

/-- The set is in order, and its members hold callbacks. -/
structure Loaded (m : TimerManager κ) : Prop where
  linked : m.Linked
  cb : ∀ u ∈ m.timers, (m.timer u).cb ≠ none

theorem loaded_construct (now : ℤ) : (construct now : TimerManager κ).Loaded :=
  ⟨linked_construct now, fun _ hu => absurd hu List.not_mem_nil⟩

/-- Putting a timer that holds a callback into the set. -/
theorem Loaded.relink (h : m.Loaded) (hx : x.cb ≠ none)
    (hu : u ∈ (((m.erase it).setTimer t x).insert t).timers) :
    ((((m.erase it).setTimer t x).insert t).timer u).cb ≠ none := by
  by_cases hut : u = t
  · subst hut
    show (((m.erase it).setTimer u x).timer u).cb ≠ none
    rwa [setTimer_timer_self]
  · show (((m.erase it).setTimer t x).timer u).cb ≠ none
    rw [setTimer_timer_of_ne hut]
    exact h.cb u (List.mem_of_mem_erase ((mem_of_mem_insertKey hu).resolve_left hut))

/-- **`cancel` takes its timer out**, whatever else it takes out. -/
theorem Linked.not_mem_cancel (h : m.Linked) (hcb : (m.timer t).cb ≠ none) :
    t ∉ (m.cancel t).2.timers := by
  cases hf : m.find t with
  | some it =>
    rw [cancel_of_find hcb hf]
    exact h.not_mem_erase hf
  | none =>
    rw [cancel_of_find_none hcb hf]
    intro hmem
    cases (h.find_of_mem hmem).symm.trans hf

theorem cancel_timer_of_ne (h : u ≠ t) : (m.cancel t).2.timer u = m.timer u := by
  by_cases hcb : (m.timer t).cb = none
  · rw [cancel_of_none hcb]
  · have hdrop : (m.dropCb t).timer u = m.timer u := setTimer_timer_of_ne h
    cases hf : m.find t with
    | some it => rwa [cancel_of_find hcb hf]
    | none => rwa [cancel_of_find_none hcb hf]

theorem Loaded.cancel (h : m.Loaded) (hu : u ∈ (m.cancel t).2.timers) :
    ((m.cancel t).2.timer u).cb ≠ none := by
  have hmem := ((h.linked.cancel t).2 u hu).1
  by_cases hut : u = t
  · subst hut
    exact absurd hu (h.linked.not_mem_cancel (h.cb u hmem))
  · rw [cancel_timer_of_ne hut]
    exact h.cb u hmem

theorem Loaded.refresh (h : m.Loaded) (hu : u ∈ (m.refresh now t).2.timers) :
    ((m.refresh now t).2.timer u).cb ≠ none := by
  rcases refresh_cases m now t with heq | ⟨it, hcb, -, heq⟩
  · rw [heq] at hu ⊢
    exact h.cb u hu
  · rw [heq] at hu ⊢
    exact h.relink hcb hu

theorem Loaded.reset (h : m.Loaded) {ms : ℕ} {from_now : Bool}
    (hu : u ∈ (m.reset now t ms from_now).2.timers) :
    ((m.reset now t ms from_now).2.timer u).cb ≠ none := by
  rcases reset_cases m now t ms from_now with heq | ⟨it, hcb, -, heq⟩
  · rw [heq] at hu ⊢
    exact h.cb u hu
  · rw [heq] at hu ⊢
    exact h.relink (x := m.resetTo now t ms from_now) hcb hu

theorem Loaded.addTimer (h : m.Loaded) {ms : ℕ} {cb : κ} {recurring : Bool}
    (hu : u ∈ (m.addTimer now ms (some cb) recurring).2.timers) :
    ((m.addTimer now ms (some cb) recurring).2.timer u).cb ≠ none := by
  rcases mem_insertTimer hu with rfl | hu
  · rw [addTimer_cb]
    exact Option.some_ne_none cb
  · rw [(keepsTimer_addTimer (h.linked.lt_count u hu)).timer_eq]
    exact h.cb u hu

theorem Loaded.listExpiredCb (h : m.Loaded) {fuel : ℕ} {cbs : List (Option κ)}
    (hr : m.listExpiredCb fuel now now' = some (cbs, m')) (hu : u ∈ m'.timers) :
    (m'.timer u).cb ≠ none := by
  have hdel := delivered_listExpiredCb h.linked hr
  have hmem : u ∈ m.timers := by
    by_contra hout
    exact (hdel.others u hout).1 hu
  by_cases hexp : Expired (m.detectClockRollover now').1 now (m.next u)
  · have hdue := mem_dueTimers.mpr ⟨hmem, hexp⟩
    cases hrec : (m.timer u).recurring with
    | false => exact absurd hu (hdel.once u hdue hrec).1
    | true =>
      rw [hdel.rearmed u hdue hrec]
      exact h.cb u hmem
  · rw [(hdel.kept u hmem hexp).2]
    exact h.cb u hmem

/-- The step lemma: a call leaves no member without a callback. -/
theorem Loaded.step (h : m.Loaded) (hm : m.step c = some m') : m'.Loaded where
  linked := h.linked.step hm
  cb := by
    unfold TimerManager.step at hm
    split_ifs at hm
    cases c with
    | addTimer now ms cb recurring =>
      obtain rfl := Option.some.inj hm
      exact fun u => h.addTimer
    | cancel t =>
      obtain rfl := Option.some.inj hm
      exact fun u => h.cancel
    | refresh now t =>
      obtain rfl := Option.some.inj hm
      exact fun u => h.refresh
    | reset now t ms from_now =>
      obtain rfl := Option.some.inj hm
      exact fun u => h.reset
    | getNextTimer now =>
      obtain rfl := Option.some.inj hm
      rw [getNextTimer_snd]
      exact h.cb
    | listExpiredCb fuel now now' =>
      obtain ⟨⟨cbs, m₁⟩, hr, rfl⟩ := Option.map_eq_some_iff.mp hm
      exact fun u => h.listExpiredCb hr

/-- **Members hold callbacks in every run** without null callbacks, whatever the deadlines are. -/
theorem loaded_of_exec {start : ℤ} {calls : List (TimerCall κ)}
    (h : exec step (construct start) calls = some m) : m.Loaded :=
  exec_invariant (fun _ _ _ hi ht => hi.step ht) (loaded_construct start) h

/-! ## The other timers -/

/-- The members other than `t` are members as they were. -/
def LeavesOthers (m m' : TimerManager κ) (t : ℕ) : Prop :=
  ∀ u ∈ m.timers, u ≠ t → u ∈ m'.timers ∧ m'.timer u = m.timer u

/-- The call returns before it looks its timer up. -/
def Early (m : TimerManager κ) : TimerCall κ → Prop
  | .reset _ t ms from_now => ms = (m.timer t).ms ∧ from_now = false
  | _ => False

theorem leavesOthers_refl (m : TimerManager κ) (t : ℕ) : m.LeavesOthers m t :=
  fun _ hu _ => ⟨hu, rfl⟩

/-- Of the others the timer found is taken out. -/
theorem Linked.leavesOthers_relink_iff (h : m.Linked) (hf : m.find t = some it) :
    m.LeavesOthers (((m.erase it).setTimer t x).insert t) t ↔ it = t := by
  constructor
  · intro hl
    by_contra hne
    rcases mem_of_mem_insertKey (hl it (find_eq_some hf).1 hne).1 with heq | hmem
    · exact hne heq
    · exact h.ordered.nodup.not_mem_erase hmem
  · rintro rfl u hu hut
    have hkeep := keepsTimer_relink m x hut
    exact ⟨hkeep.mem hu, hkeep.timer_eq⟩

theorem Linked.leavesOthers_dropCb_iff (h : m.Linked) (hf : m.find t = some it) :
    m.LeavesOthers ((m.dropCb t).erase it) t ↔ it = t := by
  constructor
  · intro hl
    by_contra hne
    exact h.ordered.nodup.not_mem_erase (hl it (find_eq_some hf).1 hne).1
  · rintro rfl u hu hut
    have hkeep : m.KeepsTimer ((m.dropCb it).erase it) u :=
      (keepsTimer_setTimer m _ hut).trans (keepsTimer_erase _ hut)
    exact ⟨hkeep.mem hu, hkeep.timer_eq⟩

/-- What is found is the timer itself, unless it goes astray. -/
theorem Linked.find_self_iff (h : m.Linked) (hcb : (m.timer t).cb ≠ none)
    (hf : m.find t = some it) : it = t ↔ ¬ m.Astray t := by
  constructor
  · rintro rfl ha
    exact ha.not_mem (find_eq_some hf).1
  · exact fun ha => h.find_self hcb ha hf

theorem not_astray_of_find_none (hf : m.find t = none) : ¬ m.Astray t := by
  intro ha
  obtain ⟨it, hit, -⟩ := ha.find
  cases hit.symm.trans hf

theorem not_astray_of_cb (hcb : (m.timer t).cb = none) : ¬ m.Astray t := fun ha => ha.cb hcb

theorem Linked.leavesOthers_cancel_iff (h : m.Linked) :
    m.LeavesOthers (m.cancel t).2 t ↔ ¬ m.Astray t := by
  by_cases hcb : (m.timer t).cb = none
  · rw [cancel_of_none hcb]
    exact iff_of_true (leavesOthers_refl m t) (not_astray_of_cb hcb)
  · cases hf : m.find t with
    | some it =>
      rw [cancel_of_find hcb hf]
      exact (h.leavesOthers_dropCb_iff hf).trans (h.find_self_iff hcb hf)
    | none =>
      rw [cancel_of_find_none hcb hf]
      refine iff_of_true (fun u hu hut => ?_) (not_astray_of_find_none hf)
      exact ⟨hu, setTimer_timer_of_ne hut⟩

theorem Linked.leavesOthers_refresh_iff (h : m.Linked) :
    m.LeavesOthers (m.refresh now t).2 t ↔ ¬ m.Astray t := by
  by_cases hcb : (m.timer t).cb = none
  · rw [refresh_of_none hcb]
    exact iff_of_true (leavesOthers_refl m t) (not_astray_of_cb hcb)
  · cases hf : m.find t with
    | some it =>
      rw [refresh_of_find hcb hf]
      exact (h.leavesOthers_relink_iff hf).trans (h.find_self_iff hcb hf)
    | none =>
      rw [refresh_of_find_none hcb hf]
      exact iff_of_true (leavesOthers_refl m t) (not_astray_of_find_none hf)

theorem Linked.leavesOthers_reset_iff (h : m.Linked) {ms : ℕ} {from_now : Bool} :
    m.LeavesOthers (m.reset now t ms from_now).2 t ↔
      (ms = (m.timer t).ms ∧ from_now = false) ∨ ¬ m.Astray t := by
  by_cases hsame : ms = (m.timer t).ms ∧ from_now = false
  · rw [reset_of_same hsame]
    exact iff_of_true (leavesOthers_refl m t) (Or.inl hsame)
  · rw [or_iff_right hsame]
    by_cases hcb : (m.timer t).cb = none
    · rw [reset_of_none hsame hcb]
      exact iff_of_true (leavesOthers_refl m t) (not_astray_of_cb hcb)
    · cases hf : m.find t with
      | some it =>
        rw [reset_of_find hsame hcb hf]
        show m.LeavesOthers (((m.erase it).setTimer t _).insert t) t ↔ _
        exact (h.leavesOthers_relink_iff hf).trans (h.find_self_iff hcb hf)
      | none =>
        rw [reset_of_find_none hsame hcb hf]
        exact iff_of_true (leavesOthers_refl m t) (not_astray_of_find_none hf)

/-- **A call on a timer leaves the others**, in every state of every run, if and only if it returns
before the lookup or its timer does not go astray. -/
theorem leavesOthers_iff {start : ℤ} {calls : List (TimerCall κ ⊕ ℤ × ℕ × Bool)}
    (hrun : exec stepAny (construct start) calls = some m) (ht : c.timer? = some t)
    (hm : m.step c = some m') :
    m.LeavesOthers m' t ↔ m.Early c ∨ ¬ m.Astray t := by
  have h := linked_of_exec hrun
  unfold TimerManager.step at hm
  split_ifs at hm
  cases c with
  | cancel v =>
    obtain rfl := Option.some.inj ht
    obtain rfl := Option.some.inj hm
    exact h.leavesOthers_cancel_iff.trans (or_iff_right fun hearly => hearly).symm
  | refresh now v =>
    obtain rfl := Option.some.inj ht
    obtain rfl := Option.some.inj hm
    exact h.leavesOthers_refresh_iff.trans (or_iff_right fun hearly => hearly).symm
  | reset now v ms from_now =>
    obtain rfl := Option.some.inj ht
    obtain rfl := Option.some.inj hm
    exact h.leavesOthers_reset_iff
  | addTimer now ms cb recurring => cases ht
  | getNextTimer now => cases ht
  | listExpiredCb fuel now now' => cases ht

/-- Two timers with different deadlines, and the second one is cancelled. -/
theorem leavesOthers_cancel_second :
    ∃ m m' : TimerManager ℕ, exec stepAny (construct 0) [.inl (.addTimer 0 10 1 false),
      .inl (.addTimer 0 20 2 false)] = some m ∧ m.step (.cancel 1) = some m' ∧
        m.LeavesOthers m' 1 := by
  obtain ⟨m, hm⟩ : ∃ m : TimerManager ℕ, exec stepAny (construct 0)
      [.inl (.addTimer 0 10 1 false), .inl (.addTimer 0 20 2 false)] = some m := ⟨_, rfl⟩
  have hnot : ¬ m.Astray 1 := by
    obtain rfl := Option.some.inj hm
    exact fun ha => ha.not_mem (by decide)
  obtain ⟨m', hm'⟩ : ∃ m', m.step (.cancel 1) = some m' := by
    obtain rfl := Option.some.inj hm
    exact ⟨_, rfl⟩
  exact ⟨m, m', hm, hm', (leavesOthers_iff hm rfl hm').mpr (Or.inr hnot)⟩

/-- **Another timer is taken out**: two timers are added with one deadline, and the second one, which
the set has not taken, is cancelled. -/
theorem not_leavesOthers_of_same_deadline :
    ¬ ∀ (start : ℤ) (calls : List (TimerCall ℕ ⊕ ℤ × ℕ × Bool)) (m m' : TimerManager ℕ)
      (c : TimerCall ℕ) (t : ℕ), exec stepAny (construct start) calls = some m →
        c.timer? = some t → m.step c = some m' → m.LeavesOthers m' t := by
  intro hall
  have h := hall 0 [.inl (.addTimer 0 10 1 false), .inl (.addTimer 0 10 2 false)] _ _ (.cancel 1) 1
    rfl rfl rfl
  exact absurd (h 0 (by decide) (by decide)).1 (by decide)

end TimerManager

end Dag
