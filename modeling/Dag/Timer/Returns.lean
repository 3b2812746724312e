import Dag.Timer.Calls

/-!
# Timers: what the returned values say

`cancel`, `refresh` and `reset` return whether they have done something. `true` is to mean that the
timer is pending with its new deadline, or will not fire any more; `false` that it was not pending,
and nothing has changed. `reset` with the period that the timer has, not from now, returns `true`
before it looks at the callback, of a timer that was cancelled or has fired too.

## Main definitions

* `Pends`, `Silenced`: what `true` is to mean
* `Truthful`: the returned value is true to its meaning
* `Assured`: the condition under which it is

## Main results

* `cb_of_step`, `unheld_of_exec`: a timer that has lost its callback never gets another one
* `truthful_iff`: returned values are truthful exactly where they are assured
-/

namespace Dag

open Foundation

variable {κ : Type}

/-- The call adds a timer with the callback `k`. -/
def TimerCall.Adds (k : κ) : TimerCall κ → Prop
  | .addTimer _ _ cb _ => cb = k
  | _ => False

namespace TimerManager

variable {m m' : TimerManager κ} {t u : ℕ} {now now' : ℤ} {c : TimerCall κ} {k : κ}

/-! ## Callbacks are lost for good -/

/-- The number of timers goes up by one, with `addTimer`, or stays. -/
theorem count_of_step (hm : m.step c = some m') :
    m'.count = m.count ∨ ∃ now ms cb recurring, c = .addTimer now ms cb recurring ∧
      m' = (m.addTimer now ms (some cb) recurring).2 := by
  unfold TimerManager.step at hm
  split_ifs at hm
  cases c with
  | addTimer now ms cb recurring =>
    obtain rfl := Option.some.inj hm
    exact Or.inr ⟨now, ms, cb, recurring, rfl, rfl⟩
  | cancel t =>
    obtain rfl := Option.some.inj hm
    exact Or.inl (cancel_count m t)
  | refresh now t =>
    obtain rfl := Option.some.inj hm
    rcases refresh_cases m now t with heq | ⟨it, -, -, heq⟩
    · exact Or.inl (by rw [heq])
    · exact Or.inl (by rw [heq]; rfl)
  | reset now t ms from_now =>
    obtain rfl := Option.some.inj hm
    rcases reset_cases m now t ms from_now with heq | ⟨it, -, -, heq⟩
    · exact Or.inl (by rw [heq])
    · exact Or.inl (by rw [heq]; rfl)
  | getNextTimer now =>
    obtain rfl := Option.some.inj hm
    rw [getNextTimer_snd]
    exact Or.inl rfl
  | listExpiredCb fuel now now' =>
    obtain ⟨⟨cbs, m₁⟩, hr, rfl⟩ := Option.map_eq_some_iff.mp hm
    exact Or.inl (expires_listExpiredCb hr 0).count_eq

/-- Putting a timer back leaves its callback. -/
theorem relink_cb {it : ℕ} {x : Timer κ} (hx : x.cb = (m.timer t).cb) :
    ((((m.erase it).setTimer t x).insert t).timer u).cb = (m.timer u).cb := by
  show (((m.erase it).setTimer t x).timer u).cb = _
  by_cases hut : u = t
  · subst hut
    rw [setTimer_timer_self, hx]
  · rw [setTimer_timer_of_ne hut]
    rfl

/-- **A call gives no callback to a timer that has been made**: the timer keeps the one it holds, or
has lost it. -/
theorem cb_of_step (hm : m.step c = some m') (hu : u < m.count) :
    (m'.timer u).cb = (m.timer u).cb ∨ (m'.timer u).cb = none := by
  unfold TimerManager.step at hm
  split_ifs at hm
  cases c with
  | addTimer now ms cb recurring =>
    obtain rfl := Option.some.inj hm
    exact Or.inl (by rw [(keepsTimer_addTimer hu).timer_eq])
  | cancel t =>
    obtain rfl := Option.some.inj hm
    by_cases hut : u = t
    · subst hut
      exact Or.inr (cancel_cb m u)
    · exact Or.inl (by rw [cancel_timer_of_ne hut])
  | refresh now t =>
    obtain rfl := Option.some.inj hm
    rcases refresh_cases m now t with heq | ⟨it, -, -, heq⟩
    · exact Or.inl (by rw [heq])
    · exact Or.inl (by rw [heq]; exact relink_cb rfl)
  | reset now t ms from_now =>
    obtain rfl := Option.some.inj hm
    rcases reset_cases m now t ms from_now with heq | ⟨it, -, -, heq⟩
    · exact Or.inl (by rw [heq])
    · exact Or.inl (by rw [heq]; exact relink_cb (x := m.resetTo now t ms from_now) rfl)
  | getNextTimer now =>
    obtain rfl := Option.some.inj hm
    rw [getNextTimer_snd]
    exact Or.inl rfl
  | listExpiredCb fuel now now' =>
    obtain ⟨⟨cbs, m₁⟩, hr, rfl⟩ := Option.map_eq_some_iff.mp hm
    exact (expires_listExpiredCb hr u).cb

theorem count_le_of_step (hm : m.step c = some m') : m.count ≤ m'.count := by
  rcases count_of_step hm with heq | ⟨now, ms, cb, recurring, -, rfl⟩
  · exact le_of_eq heq.symm
  · exact Nat.le_succ _

/-- A timer without a callback has been made, and has none. -/
def Mute (m : TimerManager κ) (t : ℕ) : Prop := t < m.count ∧ (m.timer t).cb = none

theorem Mute.step (h : m.Mute t) (hm : m.step c = some m') : m'.Mute t := by
  refine ⟨Nat.lt_of_lt_of_le h.1 (count_le_of_step hm), ?_⟩
  rcases cb_of_step hm h.1 with heq | hnone
  · exact heq.trans h.2
  · exact hnone

/-- No timer holds the callback. -/
def Unheld (m : TimerManager κ) (k : κ) : Prop := ∀ u < m.count, (m.timer u).cb ≠ some k

theorem Unheld.step (h : m.Unheld k) (hc : ¬ c.Adds k) (hm : m.step c = some m') : m'.Unheld k := by
  have hold : ∀ u < m.count, (m'.timer u).cb ≠ some k := by
    intro u hu hk
    rcases cb_of_step hm hu with heq | hnone
    · exact h u hu (heq ▸ hk)
    · cases hnone.symm.trans hk
  intro u hu
  rcases count_of_step hm with heq | ⟨now, ms, cb, recurring, rfl, rfl⟩
  · exact hold u (heq ▸ hu)
  · rcases Nat.lt_succ_iff_lt_or_eq.mp hu with hu | rfl
    · exact hold u hu
    · rw [addTimer_cb]
      exact fun hk => hc (Option.some.inj hk)

theorem unheld_of_exec {calls : List (TimerCall κ)} (h : m.Unheld k)
    (hcalls : ∀ c ∈ calls, ¬ c.Adds k) (hm : exec step m calls = some m') : m'.Unheld k :=
  exec_invariant_of_guarded (I := fun m => m.Unheld k) (fun _ _ _ hi hc ht => hi.step hc ht) h
    (guarded_of_forall_mem hcalls m) hm

/-! ## The meaning of the returned values -/

/-- The timer is pending, with the deadline `d`. -/
structure Pends (m : TimerManager κ) (t : ℕ) (d : ℤ) : Prop where
  mem : t ∈ m.timers
  cb : (m.timer t).cb ≠ none
  next_eq : m.next t = d

/-- A call of `listExpiredCb` lists the callback `k`. -/
def Lists (m : TimerManager κ) (k : κ) : Prop :=
  ∃ fuel now now' cbs m', m.listExpiredCb fuel now now' = some (cbs, m') ∧ some k ∈ cbs

/-- From `m'` on the timer is never a member again; and the callback that it held in `m` is not
listed any more, if no other timer held it and it is not added again. -/
structure Silenced (m m' : TimerManager κ) (t : ℕ) : Prop where
  out : ∀ calls m'', exec step m' calls = some m'' → t ∉ m''.timers
  unlisted : ∀ k, (m.timer t).cb = some k → (∀ u < m.count, u ≠ t → (m.timer u).cb ≠ some k) →
    ∀ calls m'', (∀ c ∈ calls, ¬ TimerCall.Adds k c) → exec step m' calls = some m'' → ¬ m''.Lists k

/-- What the call returns is true to its meaning. -/
def Truthful (m : TimerManager κ) : TimerCall κ → Prop
  | .cancel t =>
    let r := m.cancel t
    (r.1 = true → m.Silenced r.2 t) ∧ (r.1 = false → t ∉ m.timers ∧ r.2 = m)
  | .refresh now t =>
    let r := m.refresh now t
    (r.1 = true → r.2.Pends t (now + (m.timer t).ms * 10 ^ 6)) ∧
      (r.1 = false → t ∉ m.timers ∧ r.2 = m)
  | .reset now t ms from_now =>
    let r := m.reset now t ms from_now
    (r.1 = true → r.2.Pends t
      ((if from_now then now else m.next t - (m.timer t).ms * 10 ^ 6) + ms * 10 ^ 6)) ∧
        (r.1 = false → t ∉ m.timers ∧ r.2 = m)
  | _ => True

/-- A `reset` that changes nothing is made on a timer that is pending, and the deadlines that are
assigned fit into 64 bits. -/
def Assured (m : TimerManager κ) : TimerCall κ → Prop
  | .refresh now t => t ∈ m.timers → Fits (now + (m.timer t).ms * 10 ^ 6)
  | .reset now t ms from_now =>
    if ms = (m.timer t).ms ∧ from_now = false then t ∈ m.timers
    else t ∈ m.timers →
      Fits ((if from_now then now else m.next t - (m.timer t).ms * 10 ^ 6) + ms * 10 ^ 6)
  | _ => True

theorem Inv.loaded (h : m.Inv) : m.Loaded where
  linked := ⟨h.ordered, h.kept.1⟩
  cb := fun u hu => (h.kept.2 u (h.kept.1 u hu)).mpr hu

theorem Inv.not_mem (h : m.Inv) (hcb : (m.timer t).cb = none) : t ∉ m.timers :=
  fun hmem => h.loaded.cb t hmem hcb

/-- What `listExpiredCb` lists is held by a member. -/
theorem Unheld.not_lists (h : m.Unheld k) (hm : m.Linked) : ¬ m.Lists k := by
  rintro ⟨fuel, now, now', cbs, m', hr, hk⟩
  rw [(delivered_listExpiredCb hm hr).cbs_eq] at hk
  obtain ⟨u, hu, heq⟩ := List.mem_map.mp hk
  exact h u (hm.lt_count u (mem_dueTimers.mp hu).1) heq

/-- **A cancelled timer is silenced.** -/
theorem Loaded.silenced_cancel (h : m.Loaded) (ht : t < m.count) :
    m.Silenced (m.cancel t).2 t where
  out := by
    intro calls m'' hm
    have hcancel : (m.cancel t).2.Loaded := ⟨(h.linked.cancel t).1, fun u => h.cancel⟩
    have hmute : (m.cancel t).2.Mute t := ⟨by rw [cancel_count]; exact ht, cancel_cb m t⟩
    obtain ⟨hloaded, hmute⟩ := exec_invariant (I := fun m => m.Loaded ∧ m.Mute t)
      (fun _ _ _ hi ht => ⟨hi.1.step ht, hi.2.step ht⟩) ⟨hcancel, hmute⟩ hm
    exact fun hmem => hloaded.cb t hmem hmute.2
  unlisted := by
    intro k _ halone calls m'' hcalls hm
    have hunheld : (m.cancel t).2.Unheld k := by
      intro u hu
      by_cases hut : u = t
      · rw [hut, cancel_cb]
        exact fun hnone => by cases hnone
      · rw [cancel_count] at hu
        rw [cancel_timer_of_ne hut]
        exact halone u hu hut
    have hloaded := exec_invariant (fun _ _ _ hi ht => Linked.step hi ht) (h.linked.cancel t).1 hm
    exact (unheld_of_exec hunheld hcalls hm).not_lists hloaded

/-- A timer that is put back with a deadline that is new to the set is pending. -/
theorem Inv.pends_relink_iff (h : m.Inv) (ht : t < m.count) {x : Timer κ} (hcb : x.cb ≠ none)
    (hfresh : ∀ u ∈ m.timers, u ≠ t → m.next u ≠ x.next) {d : ℤ} :
    (((m.erase t).setTimer t x).insert t).Pends t d ↔ x.next = d := by
  have htimer : (((m.erase t).setTimer t x).insert t).timer t = x := setTimer_timer_self
  have hinv := h.relink ht hcb hfresh
  constructor
  · intro hp
    rw [← hp.next_eq, next, htimer]
  · intro hd
    have hcb' : ((((m.erase t).setTimer t x).insert t).timer t).cb ≠ none := by rwa [htimer]
    refine ⟨(hinv.kept.2 t ht).mp hcb', hcb', ?_⟩
    rw [next, htimer, hd]

/-- The deadline that `reset` assigns is what it should be when that fits. -/
theorem resetDeadline_eq_iff {ms : ℕ} {from_now : Bool} {d : ℤ}
    (hd : d = (if from_now then now else m.next t - (m.timer t).ms * 10 ^ 6) + ms * 10 ^ 6) :
    m.resetDeadline now t ms from_now = d ↔ Fits d := by
  have hsum : m.resetDeadline now t ms from_now = d.bmod (2 ^ 64) := by
    rw [hd, resetDeadline, addMs]
    cases from_now with
    | true => rfl
    | false => exact Int.bmod_add_bmod
  rw [hsum]
  exact bmod_eq_self_iff

theorem Inv.truthful_refresh_iff (h : m.Inv) (ht : t < m.count)
    (hfresh : m.FreshFor t (addMs now (m.timer t).ms)) :
    m.Truthful (.refresh now t) ↔ m.Assured (.refresh now t) := by
  unfold Truthful Assured
  by_cases hcb : (m.timer t).cb = none
  · have hout := h.not_mem hcb
    simp [refresh_of_none hcb, hout]
  · have hmem : t ∈ m.timers := (h.kept.2 t ht).mp hcb
    have hpends := h.pends_relink_iff ht (x := m.refreshed now t) hcb (hfresh hcb)
      (d := now + (m.timer t).ms * 10 ^ 6)
    simp only [refresh_of_find hcb (h.find ht hcb), true_implies, Bool.true_eq_false, false_implies,
      and_true, hmem]
    exact hpends.trans addMs_eq_iff

theorem Inv.truthful_reset_iff (h : m.Inv) (ht : t < m.count) {ms : ℕ} {from_now : Bool}
    (hfresh : m.Fresh (.reset now t ms from_now)) :
    m.Truthful (.reset now t ms from_now) ↔ m.Assured (.reset now t ms from_now) := by
  unfold Truthful Assured
  by_cases hsame : ms = (m.timer t).ms ∧ from_now = false
  · simp only [reset_of_same hsame, if_pos hsame, true_implies, Bool.true_eq_false, false_implies,
      and_true]
    constructor
    · exact fun hp => hp.mem
    · intro hmem
      refine ⟨hmem, h.loaded.cb t hmem, ?_⟩
      rw [hsame.1, hsame.2, if_neg Bool.false_ne_true, Int.sub_add_cancel]
  · simp only [if_neg hsame]
    by_cases hcb : (m.timer t).cb = none
    · have hout := h.not_mem hcb
      simp [reset_of_none hsame hcb, hout]
    · have hmem : t ∈ m.timers := (h.kept.2 t ht).mp hcb
      have hpends := h.pends_relink_iff ht (x := m.resetTo now t ms from_now) hcb
        (hfresh.resolve_left hsame hcb)
        (d := (if from_now then now else m.next t - (m.timer t).ms * 10 ^ 6) + ms * 10 ^ 6)
      simp only [reset_of_find hsame hcb (h.find ht hcb), true_implies, Bool.true_eq_false,
        false_implies, and_true, hmem]
      constructor
      · rintro ⟨hin, hholds, hnext⟩
        exact (resetDeadline_eq_iff rfl).mp (hpends.mp ⟨hin, hholds, hnext⟩)
      · intro hfits
        obtain ⟨hin, hholds, hnext⟩ := hpends.mpr ((resetDeadline_eq_iff rfl).mpr hfits)
        exact ⟨hin, hholds, hnext⟩

theorem Inv.truthful_cancel (h : m.Inv) (ht : t < m.count) : m.Truthful (.cancel t) := by
  unfold Truthful
  refine ⟨fun _ => h.loaded.silenced_cancel ht, fun hfalse => ?_⟩
  by_cases hcb : (m.timer t).cb = none
  · exact ⟨h.not_mem hcb, by rw [cancel_of_none hcb]⟩
  · rw [cancel_of_find hcb (h.find ht hcb)] at hfalse
    cases hfalse

/-- **Returned values tell the truth**, in every run in which deadlines are distinct, exactly where
they are assured: a `reset` that changes nothing is made on a pending timer, and deadlines fit. -/
theorem truthful_iff {start : ℤ} {calls : List (TimerCall κ)}
    (hfresh : Guarded step Fresh (construct start : TimerManager κ) calls)
    (hrun : exec step (construct start) calls = some m) (hc : m.Fresh c)
    (hmade : ∀ t, c.timer? = some t → t < m.count) :
    m.Truthful c ↔ m.Assured c := by
  have h : m.Inv := exec_invariant_of_guarded (fun _ _ _ hi hg ht => hi.step hg ht)
    (inv_construct start) hfresh hrun
  cases c with
  | cancel t => exact iff_of_true (h.truthful_cancel (hmade t rfl)) trivial
  | refresh now t => exact h.truthful_refresh_iff (hmade t rfl) hc
  | reset now t ms from_now => exact h.truthful_reset_iff (hmade t rfl) hc
  | addTimer now ms cb recurring => exact Iff.rfl
  | getNextTimer now => exact Iff.rfl
  | listExpiredCb fuel now now' => exact Iff.rfl

/-- A timer that is pending is refreshed. -/
theorem truthful_refresh_pending :
    ∃ m : TimerManager ℕ, exec step (construct 0) [.addTimer 0 10 1 false] = some m ∧
      m.Truthful (.refresh 5 0) := by
  obtain ⟨m, hm⟩ : ∃ m : TimerManager ℕ, exec step (construct 0) [.addTimer 0 10 1 false] = some m :=
    ⟨_, rfl⟩
  have hfresh : Guarded step Fresh (construct 0 : TimerManager ℕ) [.addTimer 0 10 1 false] :=
    ⟨fun u hu => absurd hu List.not_mem_nil, fun _ _ => trivial⟩
  refine ⟨m, hm, (truthful_iff hfresh hm ?_ ?_).mpr ?_⟩
  · obtain rfl := Option.some.inj hm
    intro _ u hu hne
    exact absurd (List.mem_singleton.mp hu) hne
  · obtain rfl := Option.some.inj hm
    intro t ht
    obtain rfl := Option.some.inj ht
    exact Nat.one_pos
  · obtain rfl := Option.some.inj hm
    exact fun _ => by decide

/-- **`true` of a timer that was cancelled**: `reset` with the period it has, not from now. -/
theorem not_truthful_reset_cancelled :
    ¬ ∀ (start : ℤ) (calls : List (TimerCall ℕ)) (m : TimerManager ℕ) (c : TimerCall ℕ),
      Guarded step Fresh (construct start : TimerManager ℕ) calls →
      exec step (construct start) calls = some m → m.Fresh c →
      (∀ t, c.timer? = some t → t < m.count) → m.Truthful c := by
  intro hall
  have hfresh : Guarded step Fresh (construct 0 : TimerManager ℕ)
      [.addTimer 0 10 1 false, .cancel 0] :=
    ⟨fun u hu => absurd hu List.not_mem_nil, fun _ _ => ⟨trivial, fun _ _ => trivial⟩⟩
  have h := hall 0 [.addTimer 0 10 1 false, .cancel 0] _ (.reset 0 0 10 false) hfresh rfl
    (Or.inl ⟨rfl, rfl⟩) (fun t ht => by
      obtain rfl := Option.some.inj ht
      exact Nat.one_pos)
  exact List.not_mem_nil (h.1 rfl).mem

end TimerManager

end Dag
