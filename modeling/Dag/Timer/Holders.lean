import Dag.Timer.Returns

/-!
# Timers that hold a callback

Several timers may hold one callback. A call that is made on none of them leaves them alone, and
expiry hands the callback over once for each of them that is due: a callback of timers that are not
recurring is handed over, or still held, as often as it was held before.

## Main definitions

* `TimerManager.holders x`: the members that hold the callback `x`
* `TimerManager.pending x`: how many there are

## Main results

* `TimerManager.Inv.holds_iff_of_step`: a call on another timer, with another callback
* `TimerManager.pending_addTimer`: a new timer
* `TimerManager.pending_listExpiredCb`: expiry
-/

namespace Dag

open Foundation

variable {κ : Type} [DecidableEq κ]

namespace TimerManager

variable {m m' : TimerManager κ} {t u : ℕ} {x : κ} {now now' : ℤ} {c : TimerCall κ}

/-- The members that hold the callback. -/
def holders (m : TimerManager κ) (x : κ) : List ℕ :=
  m.timers.filter fun t => (m.timer t).cb = some x

/-- How often the callback is pending. -/
def pending (m : TimerManager κ) (x : κ) : ℕ := (m.holders x).length

theorem mem_holders : t ∈ m.holders x ↔ t ∈ m.timers ∧ (m.timer t).cb = some x := by
  rw [holders, List.mem_filter, decide_eq_true_iff]

omit [DecidableEq κ] in
/-- A timer that holds a callback is a member. -/
theorem Inv.holds_iff (h : m.Inv) :
    t ∈ m.timers ∧ (m.timer t).cb = some x ↔ t < m.count ∧ (m.timer t).cb = some x := by
  constructor
  · rintro ⟨ht, hcb⟩
    exact ⟨h.kept.1 t ht, hcb⟩
  · rintro ⟨ht, hcb⟩
    exact ⟨(h.kept.2 t ht).mp (by rw [hcb]; exact Option.some_ne_none x), hcb⟩

theorem Linked.holders_nodup (h : m.Linked) (x : κ) : (m.holders x).Nodup :=
  h.ordered.nodup.filter _

/-- The order of the set does not matter. -/
theorem pending_eq_of_mem_iff (h : m.Linked) {l : List ℕ} (hl : l.Nodup)
    (hmem : ∀ t, t ∈ l ↔ t ∈ m.timers ∧ (m.timer t).cb = some x) : m.pending x = l.length := by
  refine List.Perm.length_eq ((List.perm_ext_iff_of_nodup (h.holders_nodup x) hl).mpr fun t => ?_)
  rw [mem_holders, hmem]

/-! ## Calls on other timers -/

omit [DecidableEq κ] in
/-- **A call on another timer, with another callback**: the same timers hold the callback, and are
as they were. -/
theorem Inv.holds_iff_of_step (h : m.Inv) (hm : m.step c = some m')
    (hc : ∀ fuel now now', c ≠ .listExpiredCb fuel now now')
    (hother : ∀ t ∈ c.timer?, (m.timer t).cb ≠ some x) (hadds : ¬ c.Adds x) :
    (u < m'.count ∧ (m'.timer u).cb = some x ↔ u < m.count ∧ (m.timer u).cb = some x) ∧
      (u < m.count → (m.timer u).cb = some x → m'.timer u = m.timer u) := by
  have hkeeps : u < m.count → (m.timer u).cb = some x → m'.timer u = m.timer u := fun hu hcb =>
    (h.keeps_of_step hm hc hu fun heq => hother u heq hcb).timer_eq
  refine ⟨⟨?_, ?_⟩, hkeeps⟩
  · rintro ⟨hu, hcb⟩
    have hlt : u < m.count := by
      rcases count_of_step hm with heq | ⟨now, ms, cb, recurring, rfl, rfl⟩
      · rwa [← heq]
      · refine Nat.lt_of_le_of_ne (Nat.le_of_lt_succ hu) ?_
        rintro rfl
        rw [addTimer_cb] at hcb
        exact hadds (Option.some.inj hcb)
    refine ⟨hlt, ?_⟩
    rcases cb_of_step hm hlt with heq | hnone
    · rw [← heq, hcb]
    · cases hnone.symm.trans hcb
  · rintro ⟨hu, hcb⟩
    exact ⟨Nat.lt_of_lt_of_le hu (count_le_of_step hm), by rw [hkeeps hu hcb, hcb]⟩

theorem Inv.pending_of_step (h : m.Inv) (h' : m'.Inv) (hm : m.step c = some m')
    (hc : ∀ fuel now now', c ≠ .listExpiredCb fuel now now')
    (hother : ∀ t ∈ c.timer?, (m.timer t).cb ≠ some x) (hadds : ¬ c.Adds x) :
    m'.pending x = m.pending x := by
  refine pending_eq_of_mem_iff h'.loaded.linked (h.loaded.linked.holders_nodup x) fun t => ?_
  rw [mem_holders, h'.holds_iff, h.holds_iff, (h.holds_iff_of_step hm hc hother hadds).1]

/-! ## A new timer -/

theorem Inv.pending_addTimer (h : m.Inv) {ms : ℕ} (y : κ) {recurring : Bool}
    (hfresh : ∀ u ∈ m.timers, m.next u ≠ addMs now ms) :
    (m.addTimer now ms (some y) recurring).2.pending x =
      m.pending x + if y = x then 1 else 0 := by
  have h' := h.addTimer y recurring hfresh
  have hold : ∀ t < m.count, (m.addTimer now ms (some y) recurring).2.timer t = m.timer t :=
    fun t ht => (keepsTimer_addTimer ht).timer_eq
  have hlt : ∀ {t}, t < (m.addTimer now ms (some y) recurring).2.count ↔
      t < m.count ∨ t = m.count := Nat.lt_succ_iff_lt_or_eq
  have hnew : ∀ t ∈ m.holders x, t ≠ m.count := fun t ht =>
    Nat.ne_of_lt (h.kept.1 t (mem_holders.mp ht).1)
  split_ifs with hy
  · have hnodup : (m.count :: m.holders x).Nodup :=
      List.nodup_cons.mpr ⟨fun hmem => hnew _ hmem rfl, h.loaded.linked.holders_nodup x⟩
    refine pending_eq_of_mem_iff h'.loaded.linked hnodup fun t => ?_
    rw [List.mem_cons, mem_holders, h'.holds_iff, h.holds_iff, hlt]
    constructor
    · rintro (rfl | ⟨ht, hcb⟩)
      · exact ⟨Or.inr rfl, by rw [addTimer_cb, hy]⟩
      · exact ⟨Or.inl ht, by rw [hold t ht, hcb]⟩
    · rintro ⟨ht | rfl, hcb⟩
      · exact Or.inr ⟨ht, by rw [← hold t ht, hcb]⟩
      · exact Or.inl rfl
  · refine pending_eq_of_mem_iff h'.loaded.linked (h.loaded.linked.holders_nodup x) fun t => ?_
    rw [mem_holders, h'.holds_iff, h.holds_iff, hlt]
    constructor
    · rintro ⟨ht, hcb⟩
      exact ⟨Or.inl ht, by rw [hold t ht, hcb]⟩
    · rintro ⟨ht | rfl, hcb⟩
      · exact ⟨ht, by rw [← hold t ht, hcb]⟩
      · rw [addTimer_cb] at hcb
        exact absurd (Option.some.inj hcb) hy

/-! ## Expiry -/

omit [DecidableEq κ] in
/-- A timer that is not recurring holds its callback behind expiry exactly when it was not due. -/
theorem Delivered.holds_iff {rollover : Bool} {cbs : List (Option κ)}
    (hdel : m.Delivered m' rollover now cbs)
    (honce : ∀ t ∈ m.timers, (m.timer t).cb = some x → (m.timer t).recurring = false) :
    t ∈ m'.timers ∧ (m'.timer t).cb = some x ↔
      (t ∈ m.timers ∧ (m.timer t).cb = some x) ∧ ¬ Expired rollover now (m.next t) := by
  constructor
  · rintro ⟨ht, hcb⟩
    have hmem : t ∈ m.timers := by
      by_contra hout
      exact (hdel.others t hout).1 ht
    by_cases hexp : Expired rollover now (m.next t)
    · have hdue := mem_dueTimers.mpr ⟨hmem, hexp⟩
      cases hrec : (m.timer t).recurring with
      | false => exact absurd ht (hdel.once t hdue hrec).1
      | true =>
        rw [hdel.rearmed t hdue hrec] at hcb
        cases hrec.symm.trans (honce t hmem hcb)
    · rw [(hdel.kept t hmem hexp).2] at hcb
      exact ⟨⟨hmem, hcb⟩, hexp⟩
  · rintro ⟨⟨hmem, hcb⟩, hexp⟩
    obtain ⟨ht, heq⟩ := hdel.kept t hmem hexp
    exact ⟨ht, by rw [heq, hcb]⟩

/-- How often a callback is handed over. -/
theorem Delivered.count_cbs {rollover : Bool} {cbs : List (Option κ)}
    (hdel : m.Delivered m' rollover now cbs) :
    cbs.count (some x) =
      ((m.holders x).filter fun t => Expired rollover now (m.next t)).length := by
  rw [hdel.cbs_eq, List.count, List.countP_map, List.countP_eq_length_filter, dueTimers, holders,
    List.filter_filter, List.filter_filter]
  congr 1
  apply List.filter_congr
  intro t _
  rw [Bool.and_comm, Function.comp_apply, Bool.eq_iff_iff]
  simp

/-- **Expiry**: a callback of timers that are not recurring is handed over, or still pending. -/
theorem Linked.pending_listExpiredCb (h : m.Linked) {fuel : ℕ} {cbs : List (Option κ)}
    (hr : m.listExpiredCb fuel now now' = some (cbs, m'))
    (honce : ∀ t ∈ m.timers, (m.timer t).cb = some x → (m.timer t).recurring = false) :
    m'.pending x + cbs.count (some x) = m.pending x := by
  have hdel := delivered_listExpiredCb h hr
  have hrest : m'.pending x = ((m.holders x).filter fun t =>
      ¬ Expired (m.detectClockRollover now').1 now (m.next t)).length := by
    refine pending_eq_of_mem_iff (h.listExpiredCb hr) ((h.holders_nodup x).filter _) fun t => ?_
    rw [hdel.holds_iff honce, List.mem_filter, mem_holders, decide_eq_true_iff]
  rw [hrest, hdel.count_cbs, pending, Nat.add_comm]
  simpa using (List.length_eq_length_filter_add
    (l := m.holders x) fun t => decide (Expired (m.detectClockRollover now').1 now (m.next t))).symm

end TimerManager

end Dag
