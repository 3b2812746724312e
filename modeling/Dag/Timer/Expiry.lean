import Dag.Timer.Linked
import Dag.Timer.Members

/-!
# Timers: expiry

`listExpiredCb` takes the first timer out of the set as long as it is due, and puts a recurring one
back, due one period from now. When the clock is found to have been set back all timers are due, and
stay so for the whole loop.

A timer *relapses* when the deadline it is put back with is due again: its period is 0, or the sum
does not fit into 64 bits, or the clock has been set back. It then comes to the front again and
again, unless a later member has that deadline already, when it is not put back.

## Main definitions

* `Expired`, `dueTimers`: the timers that are due
* `Relapses`, `Shadowed`: a timer that is due again, and one that is not put back
* `Delivered`: what expiry hands over, and what it leaves

## Main results

* `listExpiredCb_ends_iff`: the loop ends if and only if every timer that relapses is shadowed
* `delivered_listExpiredCb`: what it has done then
-/

namespace Dag

open Foundation

variable {κ : Type}

namespace TimerManager

variable {m m' : TimerManager κ} {t u f : ℕ} {l : List ℕ} {now now' : ℤ} {rollover : Bool}

/-- A timer with the deadline `d` is due. -/
def Expired (rollover : Bool) (now d : ℤ) : Prop := rollover = true ∨ d ≤ now

instance (rollover : Bool) (now d : ℤ) : Decidable (Expired rollover now d) :=
  inferInstanceAs (Decidable (rollover = true ∨ d ≤ now))

/-- The members that are due, in the order of their deadlines. -/
def dueTimers (m : TimerManager κ) (rollover : Bool) (now : ℤ) : List ℕ :=
  m.timers.filter fun t => decide (Expired rollover now (m.next t))

/-- The timer is due, and due again with the deadline that it is put back with. -/
structure Relapses (m : TimerManager κ) (rollover : Bool) (now : ℤ) (t : ℕ) : Prop where
  recurring : (m.timer t).recurring = true
  due : Expired rollover now (m.next t)
  again : Expired rollover now (m.rearmDeadline now t)

/-- A later member has the deadline that the timer is to be put back with. -/
def Shadowed (m : TimerManager κ) (now : ℤ) (t : ℕ) : Prop :=
  ∃ u ∈ m.timers, m.next t < m.next u ∧ m.next u = m.rearmDeadline now t

/-- Every timer that relapses is shadowed. -/
def Drains (m : TimerManager κ) (rollover : Bool) (now : ℤ) : Prop :=
  ∀ t ∈ m.timers, m.Relapses rollover now t → m.Shadowed now t

theorem mem_dueTimers :
    t ∈ m.dueTimers rollover now ↔ t ∈ m.timers ∧ Expired rollover now (m.next t) := by
  rw [dueTimers, List.mem_filter, decide_eq_true_iff]

theorem Expired.mono {d d' : ℤ} (h : Expired rollover now d) (hle : d' ≤ d) :
    Expired rollover now d' :=
  h.imp_right fun hd => le_trans hle hd

/-! ## The first timer -/

theorem Linked.next_lt_of_tail (h : m.Linked) (hl : m.timers = f :: l) (hu : u ∈ l) :
    m.next f < m.next u := by
  have hordered := h.ordered
  rw [hl] at hordered
  exact (List.pairwise_cons.mp hordered).1 u hu

theorem Linked.next_le (h : m.Linked) (hl : m.timers = f :: l) (hu : u ∈ m.timers) :
    m.next f ≤ m.next u := by
  rw [hl] at hu
  rcases List.mem_cons.mp hu with rfl | hu
  · exact le_refl _
  · exact le_of_lt (h.next_lt_of_tail hl hu)

theorem Linked.ne_of_tail (h : m.Linked) (hl : m.timers = f :: l) (hu : u ∈ l) : u ≠ f := by
  rintro rfl
  exact lt_irrefl _ (h.next_lt_of_tail hl hu)

/-- A pass leaves the deadlines of the timers behind the first one. -/
theorem expireFirst_next_of_ne (h : u ≠ f) : (m.expireFirst now f).next u = m.next u := by
  rw [next, expireFirst_timer_of_ne h, next]

theorem expireFirst_rearmDeadline : (m.expireFirst now f).rearmDeadline now t =
    m.rearmDeadline now t := by
  rw [rearmDeadline, rearmDeadline]
  by_cases ht : t = f
  · subst ht
    rw [expireFirst_timer_self.2]
  · rw [expireFirst_timer_of_ne ht]

theorem expireFirst_next_self (hrec : (m.timer t).recurring = true) :
    (m.expireFirst now t).next t = m.rearmDeadline now t := by
  rw [expireFirst_of_recurring hrec]
  show (((m.erase t).setTimer t _).timer t).next = _
  rw [setTimer_timer_self]

/-- A recurring timer is put back, if its new deadline is that of no other member. -/
theorem Linked.mem_expireFirst_self (h : m.Linked) (hrec : (m.timer t).recurring = true)
    (hnew : ∀ u ∈ m.timers, u ≠ t → m.next u ≠ m.rearmDeadline now t) :
    t ∈ (m.expireFirst now t).timers := by
  rw [expireFirst_of_recurring hrec]
  apply mem_insertKey_self
  intro u hu
  have hne : u ≠ t := fun heq => h.ordered.nodup.not_mem_erase (heq ▸ hu)
  rw [next, setTimer_timer_of_ne hne, next, setTimer_timer_self]
  exact hnew u (List.mem_of_mem_erase hu) hne

/-- The loop goes on as long as the first timer is due. -/
theorem expireLoop_of_due (hl : m.timers = f :: l) (hf : Expired rollover now (m.next f))
    (fuel : ℕ) (cbs : List (Option κ)) :
    expireLoop now rollover (fuel + 1) m cbs =
      expireLoop now rollover fuel (m.expireFirst now f) (cbs ++ [(m.timer f).cb]) := by
  rw [expireLoop, hl]
  exact if_pos hf

/-- It ends when no timer is due. -/
theorem expireLoop_of_not_due (hf : ∀ f l, m.timers = f :: l → ¬ Expired rollover now (m.next f))
    (fuel : ℕ) (cbs : List (Option κ)) :
    expireLoop now rollover (fuel + 1) m cbs = some (cbs, m) := by
  rw [expireLoop]
  split
  · rfl
  · rename_i f l hl
    exact if_neg (hf f l hl)

/-! ## A timer that comes back for ever -/

/-- The timer is due, and has the deadline that it is put back with. -/
structure Spins (m : TimerManager κ) (rollover : Bool) (now : ℤ) (t : ℕ) : Prop where
  mem : t ∈ m.timers
  recurring : (m.timer t).recurring = true
  due : Expired rollover now (m.next t)
  next_eq : m.next t = m.rearmDeadline now t

theorem Spins.pass (h : m.Spins rollover now t) (hm : m.Linked) (hl : m.timers = f :: l) :
    (m.expireFirst now f).Spins rollover now t := by
  by_cases htf : t = f
  · subst htf
    have hnext : (m.expireFirst now t).next t = m.next t :=
      (expireFirst_next_self h.recurring).trans h.next_eq.symm
    refine ⟨?_, ?_, ?_, ?_⟩
    · apply hm.mem_expireFirst_self h.recurring
      intro u hu hut heq
      exact hut (hm.ordered.eq_of_key_eq hu h.mem (heq.trans h.next_eq.symm))
    · rw [expireFirst_timer_self.1]
      exact h.recurring
    · rw [hnext]
      exact h.due
    · rw [hnext, expireFirst_rearmDeadline]
      exact h.next_eq
  · refine ⟨(keepsTimer_expireFirst m now htf).mem h.mem, ?_, ?_, ?_⟩
    · rw [expireFirst_timer_of_ne htf]
      exact h.recurring
    · rw [expireFirst_next_of_ne htf]
      exact h.due
    · rw [expireFirst_next_of_ne htf, expireFirst_rearmDeadline]
      exact h.next_eq

/-- As long as such a timer is in the set, the first timer is due. -/
theorem Spins.expireLoop_eq_none (fuel : ℕ) : ∀ {m : TimerManager κ} (cbs : List (Option κ)),
    m.Linked → m.Spins rollover now t → expireLoop now rollover fuel m cbs = none := by
  induction fuel with
  | zero => exact fun _ _ _ => rfl
  | succ fuel ih =>
    intro m cbs hm h
    obtain ⟨f, l, hl⟩ := List.exists_cons_of_ne_nil (List.ne_nil_of_mem h.mem)
    rw [expireLoop_of_due hl (h.due.mono (hm.next_le hl h.mem))]
    exact ih _ (hm.expireFirst (by rw [hl]; exact List.mem_cons_self)) (h.pass hm hl)

/-- **A timer that relapses and is not shadowed comes back for ever.** -/
theorem Relapses.expireLoop_eq_none (fuel : ℕ) : ∀ {m : TimerManager κ} (cbs : List (Option κ)),
    m.Linked → t ∈ m.timers → m.Relapses rollover now t → ¬ m.Shadowed now t →
      expireLoop now rollover fuel m cbs = none := by
  induction fuel with
  | zero => exact fun _ _ _ _ _ => rfl
  | succ fuel ih =>
    intro m cbs hm ht h hsh
    obtain ⟨f, l, hl⟩ := List.exists_cons_of_ne_nil (List.ne_nil_of_mem ht)
    have hpass : (m.expireFirst now f).Linked :=
      hm.expireFirst (by rw [hl]; exact List.mem_cons_self)
    rw [expireLoop_of_due hl (h.due.mono (hm.next_le hl ht))]
    by_cases hspin : (m.expireFirst now f).Spins rollover now f
    · -- another timer comes back for ever before this one is reached
      exact hspin.expireLoop_eq_none fuel _ hpass
    · by_cases htf : t = f
      · -- the later members do not have its new deadline, and there are no earlier ones
        subst htf
        refine absurd ⟨?_, ?_, ?_, ?_⟩ hspin
        · apply hm.mem_expireFirst_self h.recurring
          intro u hu hut heq
          rw [hl] at hu
          have htail := (List.mem_cons.mp hu).resolve_left hut
          exact hsh ⟨u, by rw [hl]; exact List.mem_cons_of_mem _ htail,
            hm.next_lt_of_tail hl htail, heq⟩
        · rw [expireFirst_timer_self.1]
          exact h.recurring
        · rw [expireFirst_next_self h.recurring]
          exact h.again
        · rw [expireFirst_next_self h.recurring, expireFirst_rearmDeadline]
      · refine ih _ hpass ((keepsTimer_expireFirst m now htf).mem ht) ⟨?_, ?_, ?_⟩ ?_
        · rw [expireFirst_timer_of_ne htf]
          exact h.recurring
        · rw [expireFirst_next_of_ne htf]
          exact h.due
        · rw [expireFirst_rearmDeadline]
          exact h.again
        · rintro ⟨u, hu, hlt, heq⟩
          rw [expireFirst_rearmDeadline] at heq
          rw [expireFirst_next_of_ne htf] at hlt
          rcases mem_of_mem_expireFirst hm.ordered.nodup hu with ⟨huf, hu⟩ | ⟨rfl, hrec, hnext⟩
          · rw [expireFirst_next_of_ne huf] at hlt heq
            exact hsh ⟨u, hu, hlt, heq⟩
          · refine hspin ⟨hu, ?_, ?_, ?_⟩
            · rw [expireFirst_timer_self.1]
              exact hrec
            · rw [heq]
              exact h.again
            · rw [hnext, expireFirst_rearmDeadline]

/-! ## What expiry delivers -/

/-- Behind a pass the timers that are due are those behind the first one: it is not put back, or
with a deadline that is not due. -/
theorem Linked.dueTimers_expireFirst (hm : m.Linked) (hl : m.timers = f :: l)
    (hf : Expired rollover now (m.next f))
    (hsh : m.Relapses rollover now f → m.Shadowed now f) :
    (m.expireFirst now f).dueTimers rollover now =
      l.filter fun t => decide (Expired rollover now (m.next t)) := by
  have herase : m.timers.erase f = l := by rw [hl, List.erase_cons_head]
  have hcongr : l.filter (fun t => decide (Expired rollover now ((m.expireFirst now f).next t))) =
      l.filter fun t => decide (Expired rollover now (m.next t)) := by
    apply List.filter_congr
    intro u hu
    rw [expireFirst_next_of_ne (hm.ne_of_tail hl hu)]
  by_cases hrec : (m.timer f).recurring = true
  · have hnext : (m.expireFirst now f).next f = m.rearmDeadline now f := expireFirst_next_self hrec
    rw [← hcongr, dueTimers]
    have htimers : (m.expireFirst now f).timers = insertKey (m.expireFirst now f).next f l := by
      rw [expireFirst_of_recurring hrec, ← herase]
      rfl
    rw [htimers]
    by_cases hagain : Expired rollover now (m.rearmDeadline now f)
    · -- a later member has the deadline, which keeps the timer out
      obtain ⟨u, hu, hlt, heq⟩ := hsh ⟨hrec, hf, hagain⟩
      rw [hl] at hu
      have htail : u ∈ l := by
        rcases List.mem_cons.mp hu with rfl | hu
        · exact absurd hlt (lt_irrefl _)
        · exact hu
      have hordered : Ordered (m.expireFirst now f).next l := by
        refine (hm.ordered.sublist ?_).congr fun v hv => expireFirst_next_of_ne (hm.ne_of_tail hl hv)
        rw [hl]
        exact List.sublist_cons_self f l
      rw [insertKey_of_key_eq hordered htail]
      rw [expireFirst_next_of_ne (hm.ne_of_tail hl htail), hnext, heq]
    · apply filter_insertKey_of_neg
      rw [hnext]
      exact decide_eq_false hagain
  · rw [← hcongr, dueTimers, expireFirst_of_once hrec]
    show (m.timers.erase f).filter _ = _
    rw [herase]

/-- The first timer is the first one that is due. -/
theorem Linked.dueTimers_eq (hm : m.Linked) (hl : m.timers = f :: l)
    (hf : Expired rollover now (m.next f))
    (hsh : m.Relapses rollover now f → m.Shadowed now f) :
    m.dueTimers rollover now = f :: (m.expireFirst now f).dueTimers rollover now := by
  rw [hm.dueTimers_expireFirst hl hf hsh, dueTimers, hl, List.filter_cons_of_pos]
  exact decide_eq_true hf

theorem Drains.pass (h : m.Drains rollover now) (hm : m.Linked) (hl : m.timers = f :: l)
    (hf : Expired rollover now (m.next f)) : (m.expireFirst now f).Drains rollover now := by
  have hfirst : m.Relapses rollover now f → m.Shadowed now f :=
    h f (by rw [hl]; exact List.mem_cons_self)
  intro t ht hre
  -- a timer that is due behind the pass was due before, and so is behind the first one
  have hdue := mem_dueTimers.mpr ⟨ht, hre.due⟩
  rw [hm.dueTimers_expireFirst hl hf hfirst] at hdue
  have htail : t ∈ l := (List.mem_filter.mp hdue).1
  have htf := hm.ne_of_tail hl htail
  have hmem : t ∈ m.timers := by rw [hl]; exact List.mem_cons_of_mem _ htail
  obtain ⟨hrec, hexp, hagain⟩ := hre
  rw [expireFirst_timer_of_ne htf] at hrec
  rw [expireFirst_next_of_ne htf] at hexp
  rw [expireFirst_rearmDeadline] at hagain
  obtain ⟨u, hu, hlt, heq⟩ := h t hmem ⟨hrec, hexp, hagain⟩
  have huf : u ≠ f := by
    rintro rfl
    exact absurd (hm.next_lt_of_tail hl htail) (not_lt_of_gt hlt)
  refine ⟨u, (keepsTimer_expireFirst m now huf).mem hu, ?_, ?_⟩
  · rw [expireFirst_next_of_ne htf, expireFirst_next_of_ne huf]
    exact hlt
  · rw [expireFirst_next_of_ne huf, expireFirst_rearmDeadline]
    exact heq

/-- **What expiry delivers**: the callbacks of the timers that are due, in the order of their
deadlines; what is left is not due. -/
structure Delivered (m m' : TimerManager κ) (rollover : Bool) (now : ℤ) (cbs : List (Option κ)) :
    Prop where
  cbs_eq : cbs = (m.dueTimers rollover now).map fun t => (m.timer t).cb
  later : ∀ u ∈ m'.timers, ¬ Expired rollover now (m'.next u)
  kept : ∀ u ∈ m.timers, ¬ Expired rollover now (m.next u) →
    u ∈ m'.timers ∧ m'.timer u = m.timer u
  once : ∀ u ∈ m.dueTimers rollover now, (m.timer u).recurring = false →
    u ∉ m'.timers ∧ (m'.timer u).cb = none
  rearmed : ∀ u ∈ m.dueTimers rollover now, (m.timer u).recurring = true →
    m'.timer u = { m.timer u with next := m.rearmDeadline now u }
  others : ∀ u ∉ m.timers, u ∉ m'.timers ∧ m'.timer u = m.timer u

/-- Nothing is due. -/
theorem delivered_nil (h : ∀ u ∈ m.timers, ¬ Expired rollover now (m.next u)) :
    m.Delivered m rollover now [] := by
  have hdue : m.dueTimers rollover now = [] := by
    apply List.filter_eq_nil_iff.mpr
    intro u hu hexp
    exact h u hu (of_decide_eq_true hexp)
  refine ⟨?_, h, fun u hu _ => ⟨hu, rfl⟩, ?_, ?_, fun u hu => ⟨hu, rfl⟩⟩
  · rw [hdue]
    rfl
  · rw [hdue]
    exact fun u hu => absurd hu List.not_mem_nil
  · rw [hdue]
    exact fun u hu => absurd hu List.not_mem_nil

/-- The first timer, and then the rest. -/
theorem Delivered.cons {cbs : List (Option κ)} (hm : m.Linked) (hl : m.timers = f :: l)
    (hf : Expired rollover now (m.next f)) (hsh : m.Relapses rollover now f → m.Shadowed now f)
    (h : (m.expireFirst now f).Delivered m' rollover now cbs) :
    m.Delivered m' rollover now ((m.timer f).cb :: cbs) := by
  have hdue := hm.dueTimers_eq hl hf hsh
  have hne : ∀ u ∈ (m.expireFirst now f).dueTimers rollover now, u ≠ f := by
    intro u hu
    rw [hm.dueTimers_expireFirst hl hf hsh] at hu
    exact hm.ne_of_tail hl (List.mem_filter.mp hu).1
  have hself : m'.timer f = (m.expireFirst now f).timer f ∧
      (f ∈ m'.timers → f ∈ (m.expireFirst now f).timers) := by
    by_cases hback : f ∈ (m.expireFirst now f).timers
    · have hlater : ¬ Expired rollover now ((m.expireFirst now f).next f) := fun hexp =>
        hne f (mem_dueTimers.mpr ⟨hback, hexp⟩) rfl
      exact ⟨(h.kept f hback hlater).2, fun _ => hback⟩
    · exact ⟨(h.others f hback).2, fun hmem => absurd hmem (h.others f hback).1⟩
  refine ⟨?_, h.later, fun u hu hexp => ?_, fun u hu hrec => ?_, fun u hu hrec => ?_, fun u hu => ?_⟩
  · rw [hdue, List.map_cons, h.cbs_eq]
    congr 1
    apply List.map_congr_left
    intro u hu
    rw [expireFirst_timer_of_ne (hne u hu)]
  · have huf : u ≠ f := fun heq => hexp (heq ▸ hf)
    have hkept := h.kept u ((keepsTimer_expireFirst m now huf).mem hu)
      (by rwa [expireFirst_next_of_ne huf])
    rwa [expireFirst_timer_of_ne huf] at hkept
  · rw [hdue] at hu
    rcases List.mem_cons.mp hu with rfl | hu
    · have hrec' : (m.timer u).recurring ≠ true := by rw [hrec]; exact Bool.false_ne_true
      have hout : u ∉ (m.expireFirst now u).timers := by
        rw [expireFirst_of_once hrec']
        exact hm.ordered.nodup.not_mem_erase
      refine ⟨fun hmem => hout (hself.2 hmem), ?_⟩
      rw [hself.1, expireFirst_of_once hrec', setTimer_timer_self]
    · exact h.once u hu (by rw [expireFirst_timer_of_ne (hne u hu)]; exact hrec)
  · rw [hdue] at hu
    rcases List.mem_cons.mp hu with rfl | hu
    · rw [hself.1, expireFirst_of_recurring hrec]
      exact setTimer_timer_self
    · have htimer : (m.expireFirst now f).timer u = m.timer u := expireFirst_timer_of_ne (hne u hu)
      rw [h.rearmed u hu (by rw [htimer]; exact hrec), htimer, expireFirst_rearmDeadline]
  · have huf : u ≠ f := fun heq => hu (by rw [hl, heq]; exact List.mem_cons_self)
    have hout : u ∉ (m.expireFirst now f).timers := by
      intro hmem
      rcases mem_of_mem_expireFirst hm.ordered.nodup hmem with ⟨-, hmem⟩ | ⟨heq, -⟩
      · exact hu hmem
      · exact huf heq
    refine ⟨(h.others u hout).1, ?_⟩
    rw [(h.others u hout).2, expireFirst_timer_of_ne huf]

/-- **The loop ends, and delivers**, when every timer that relapses is shadowed: each pass leaves
one timer less that is due. -/
theorem Drains.expireLoop_eq (fuel : ℕ) : ∀ {m : TimerManager κ} (cbs : List (Option κ)),
    m.Linked → m.Drains rollover now → (m.dueTimers rollover now).length < fuel →
      ∃ cbs' m', expireLoop now rollover fuel m cbs = some (cbs ++ cbs', m') ∧
        m.Delivered m' rollover now cbs' := by
  induction fuel with
  | zero => exact fun _ _ _ hlt => absurd hlt (Nat.not_lt_zero _)
  | succ fuel ih =>
    intro m cbs hm h hfuel
    by_cases hdue : ∃ f l, m.timers = f :: l ∧ Expired rollover now (m.next f)
    · obtain ⟨f, l, hl, hf⟩ := hdue
      have hmem : f ∈ m.timers := by rw [hl]; exact List.mem_cons_self
      have hlength := congrArg List.length (hm.dueTimers_eq hl hf (h f hmem))
      rw [List.length_cons] at hlength
      obtain ⟨cbs', m', heq, hdel⟩ := ih (cbs ++ [(m.timer f).cb]) (hm.expireFirst hmem)
        (h.pass hm hl hf) (by omega)
      refine ⟨(m.timer f).cb :: cbs', m', ?_, hdel.cons hm hl hf (h f hmem)⟩
      rw [expireLoop_of_due hl hf, heq, List.append_assoc]
      rfl
    · have hfirst : ∀ f l, m.timers = f :: l → ¬ Expired rollover now (m.next f) :=
        fun f l hl hf => hdue ⟨f, l, hl, hf⟩
      refine ⟨[], m, ?_, delivered_nil fun u hu hexp => ?_⟩
      · rw [expireLoop_of_not_due hfirst, List.append_nil]
      · obtain ⟨f, l, hl⟩ := List.exists_cons_of_ne_nil (List.ne_nil_of_mem hu)
        exact hfirst f l hl (hexp.mono (hm.next_le hl hu))

/-- Once the loop has ended, more fuel makes no difference. -/
theorem expireLoop_mono {r : List (Option κ) × TimerManager κ} : ∀ {fuel fuel' : ℕ}
    {m : TimerManager κ} {cbs : List (Option κ)}, fuel ≤ fuel' →
      expireLoop now rollover fuel m cbs = some r → expireLoop now rollover fuel' m cbs = some r := by
  intro fuel
  induction fuel with
  | zero => exact fun _ h => by cases h
  | succ fuel ih =>
    intro fuel' m cbs hle h
    obtain ⟨k, rfl⟩ : ∃ k, fuel' = k + 1 := ⟨fuel' - 1, by omega⟩
    rw [expireLoop] at h ⊢
    split at h
    · exact h
    · split_ifs at h with hdue
      · rw [if_pos hdue]
        exact ih (by omega) h
      · rw [if_neg hdue]
        exact h

/-! ## `listExpiredCb` -/

theorem Linked.detectClockRollover (h : m.Linked) (now' : ℤ) :
    (m.detectClockRollover now').2.Linked :=
  ⟨h.ordered, h.lt_count⟩

theorem listExpiredCb_eq (fuel : ℕ) : m.listExpiredCb fuel now now' =
    expireLoop now (m.detectClockRollover now').1 fuel (m.detectClockRollover now').2 [] := rfl

/-- When every timer that relapses is shadowed, the call ends and delivers. -/
theorem Drains.listExpiredCb (hm : m.Linked)
    (h : m.Drains (m.detectClockRollover now').1 now) :
    ∃ fuel cbs m', m.listExpiredCb fuel now now' = some (cbs, m') ∧
      m.Delivered m' (m.detectClockRollover now').1 now cbs := by
  have hread : (m.detectClockRollover now').2.Drains (m.detectClockRollover now').1 now :=
    fun t ht hre => h t ht ⟨hre.recurring, hre.due, hre.again⟩
  obtain ⟨cbs, m', heq, hdel⟩ := Drains.expireLoop_eq _ [] (hm.detectClockRollover now') hread
    (Nat.lt_succ_self _)
  rw [List.nil_append, ← listExpiredCb_eq] at heq
  exact ⟨_, cbs, m', heq, hdel.cbs_eq, hdel.later, hdel.kept, hdel.once, hdel.rearmed, hdel.others⟩

/-- A call that ends starts with all timers that relapse shadowed. -/
theorem Linked.drains_of_listExpiredCb (hm : m.Linked) {fuel : ℕ}
    {r : List (Option κ) × TimerManager κ} (hr : m.listExpiredCb fuel now now' = some r) :
    m.Drains (m.detectClockRollover now').1 now := by
  intro t ht hre
  by_contra hsh
  rw [listExpiredCb_eq, Relapses.expireLoop_eq_none fuel [] (hm.detectClockRollover now') ht
    ⟨hre.recurring, hre.due, hre.again⟩ hsh] at hr
  cases hr

/-- **What a call of `listExpiredCb` has done when it returns.** -/
theorem delivered_listExpiredCb (hm : m.Linked) {fuel : ℕ} {cbs : List (Option κ)}
    (hr : m.listExpiredCb fuel now now' = some (cbs, m')) :
    m.Delivered m' (m.detectClockRollover now').1 now cbs := by
  obtain ⟨fuel', cbs', m'', hr', hdel⟩ := (hm.drains_of_listExpiredCb hr).listExpiredCb hm
  have hmax := expireLoop_mono (Nat.le_max_left fuel fuel') hr
  obtain ⟨rfl, rfl⟩ := Prod.mk.inj (Option.some.inj
    (hmax.symm.trans (expireLoop_mono (Nat.le_max_right fuel fuel') hr')))
  exact hdel

/-- **When `listExpiredCb` ends**: if and only if every timer that relapses is shadowed. -/
theorem listExpiredCb_ends_iff (hm : m.Linked) (now now' : ℤ) :
    (∃ fuel cbs m', m.listExpiredCb fuel now now' = some (cbs, m')) ↔
      m.Drains (m.detectClockRollover now').1 now := by
  constructor
  · rintro ⟨fuel, cbs, m', hr⟩
    exact hm.drains_of_listExpiredCb hr
  · intro h
    obtain ⟨fuel, cbs, m', hr, -⟩ := h.listExpiredCb hm
    exact ⟨fuel, cbs, m', hr⟩

/-- A recurring timer with a period of 10 ms and a timer that is not recurring, both due. -/
theorem listExpiredCb_ends_recurring :
    ∃ fuel cbs m', ((((construct 0 : TimerManager ℕ).addTimer 0 10 (some 1) true).2.addTimer 0 15
      (some 2) false).2).listExpiredCb fuel 20000000 20000000 = some (cbs, m') := by
  have hm : (((construct 0 : TimerManager ℕ).addTimer 0 10 (some 1) true).2.addTimer 0 15 (some 2)
      false).2.Linked := (linked_construct 0).insertTimer.insertTimer
  apply (listExpiredCb_ends_iff hm 20000000 20000000).mpr
  intro t ht hre
  rcases List.mem_pair.mp ht with rfl | rfl
  · exact absurd hre.again (by decide)
  · cases hre.recurring

/-- **The loop does not end**: a recurring timer with the period 0. -/
theorem not_listExpiredCb_ends_of_zero_period :
    ¬ ∀ (m : TimerManager ℕ) (now now' : ℤ), m.Linked →
      ∃ fuel cbs m', m.listExpiredCb fuel now now' = some (cbs, m') := by
  intro hall
  have hm : ((construct 0 : TimerManager ℕ).addTimer 0 0 (some 1) true).2.Linked :=
    (linked_construct 0).insertTimer
  obtain ⟨fuel, cbs, m', hr⟩ := hall _ 0 0 hm
  obtain ⟨u, hu, hlt, -⟩ := hm.drains_of_listExpiredCb hr 0 List.mem_cons_self
    ⟨rfl, by decide, by decide⟩
  obtain rfl := List.mem_singleton.mp hu
  exact lt_irrefl _ hlt

/-! ## Periods of at least a millisecond -/

/-- A time point of 64 bits. -/
def Fits (d : ℤ) : Prop := -2 ^ 63 ≤ d ∧ d < 2 ^ 63

instance (d : ℤ) : Decidable (Fits d) := inferInstanceAs (Decidable (_ ∧ _))

theorem bmod_eq_self_iff {d : ℤ} : d.bmod (2 ^ 64) = d ↔ Fits d := by
  rw [Int.bmod_eq_iff (by decide), Fits]
  constructor
  · rintro ⟨hle, hlt, -⟩
    exact ⟨hle, hlt⟩
  · rintro ⟨hle, hlt⟩
    exact ⟨hle, hlt, by rw [Int.sub_self]; exact Int.dvd_zero _⟩

/-- The sum of a time point and a period is what it should be when it fits. -/
theorem addMs_eq_iff {d : ℤ} {ms : ℕ} : addMs d ms = d + ms * 10 ^ 6 ↔ Fits (d + ms * 10 ^ 6) :=
  bmod_eq_self_iff

/-- What `listExpiredCb` is for, at `now`: every timer that is due is handed over once, in the order
of the deadlines; a recurring one is due again one period from now. -/
structure Delivers (m m' : TimerManager κ) (now : ℤ) (cbs : List (Option κ)) : Prop where
  cbs_eq : cbs = (m.timers.filter fun t => decide (m.next t ≤ now)).map fun t => (m.timer t).cb
  later : ∀ u ∈ m'.timers, now < m'.next u
  kept : ∀ u ∈ m.timers, now < m.next u → u ∈ m'.timers ∧ m'.timer u = m.timer u
  once : ∀ u ∈ m.timers, m.next u ≤ now → (m.timer u).recurring = false →
    u ∉ m'.timers ∧ (m'.timer u).cb = none
  rearmed : ∀ u ∈ m.timers, m.next u ≤ now → (m.timer u).recurring = true →
    m'.next u = now + (m.timer u).ms * 10 ^ 6

/-- Without a rollover a timer is due at its deadline. -/
theorem expired_false_iff {d : ℤ} : Expired false now d ↔ d ≤ now := by
  rw [Expired]
  constructor
  · rintro (h | h)
    · cases h
    · exact h
  · exact Or.inr

/-- **What `listExpiredCb` delivers**, when the clock has not been set back and recurring timers
have a period: it returns, and has delivered, if and only if the new deadlines of the recurring
timers that are due fit into 64 bits. -/
theorem delivers_listExpiredCb_iff (hm : m.Linked)
    (hperiod : ∀ t ∈ m.timers, (m.timer t).recurring = true → 1 ≤ (m.timer t).ms)
    (hroll : (m.detectClockRollover now').1 = false) :
    (∃ fuel cbs m', m.listExpiredCb fuel now now' = some (cbs, m') ∧ m.Delivers m' now cbs) ↔
      ∀ t ∈ m.timers, m.next t ≤ now → (m.timer t).recurring = true →
        Fits (now + (m.timer t).ms * 10 ^ 6) := by
  have hmem : ∀ {t : ℕ}, t ∈ m.timers → m.next t ≤ now → t ∈ m.dueTimers false now := fun ht hle =>
    mem_dueTimers.mpr ⟨ht, expired_false_iff.mpr hle⟩
  constructor
  · rintro ⟨fuel, cbs, m', hr, hdel⟩ t ht hle hrec
    have hdone := delivered_listExpiredCb hm hr
    rw [hroll] at hdone
    -- the deadline it has is the sum of 64 bits, and the one it should have is the sum
    apply addMs_eq_iff.mp
    rw [← hdel.rearmed t ht hle hrec, next, hdone.rearmed t (hmem ht hle) hrec]
    rfl
  · intro hfits
    have hdrains : m.Drains (m.detectClockRollover now').1 now := by
      intro t ht hre
      rw [hroll] at hre
      have hsum := addMs_eq_iff.mpr (hfits t ht (expired_false_iff.mp hre.due) hre.recurring)
      have hagain := expired_false_iff.mp hre.again
      have hms := hperiod t ht hre.recurring
      rw [rearmDeadline, hsum] at hagain
      omega
    obtain ⟨fuel, cbs, m', hr, hdone⟩ := hdrains.listExpiredCb hm
    rw [hroll] at hdone
    refine ⟨fuel, cbs, m', hr, ?_, fun u hu => ?_, fun u hu hlt => ?_, fun u hu hle hrec => ?_,
      fun u hu hle hrec => ?_⟩
    · rw [hdone.cbs_eq, dueTimers]
      congr 1
      apply List.filter_congr
      intro u _
      exact decide_eq_decide.mpr expired_false_iff
    · exact not_le.mp fun hle => hdone.later u hu (expired_false_iff.mpr hle)
    · exact hdone.kept u hu fun hexp => not_lt_of_ge (expired_false_iff.mp hexp) hlt
    · exact hdone.once u (hmem hu hle) hrec
    · rw [next, hdone.rearmed u (hmem hu hle) hrec]
      exact addMs_eq_iff.mpr (hfits u hu hle hrec)

/-- A timer that is not recurring, and due, and a recurring one that is due. -/
theorem delivers_listExpiredCb_two :
    ∃ fuel cbs m', (((construct 0 : TimerManager ℕ).addTimer 0 10 (some 1) false).2.addTimer 0 20
        (some 2) true).2.listExpiredCb fuel 20000000 20000000 = some (cbs, m') ∧
      (((construct 0 : TimerManager ℕ).addTimer 0 10 (some 1) false).2.addTimer 0 20
        (some 2) true).2.Delivers m' 20000000 cbs := by
  have hm : (((construct 0 : TimerManager ℕ).addTimer 0 10 (some 1) false).2.addTimer 0 20
      (some 2) true).2.Linked := (linked_construct 0).insertTimer.insertTimer
  refine (delivers_listExpiredCb_iff hm ?_ rfl).mpr ?_
  · intro t ht hrec
    rcases List.mem_pair.mp ht with rfl | rfl
    · cases hrec
    · decide
  · intro t ht _ hrec
    rcases List.mem_pair.mp ht with rfl | rfl
    · cases hrec
    · decide

/-- **A period that is read as a negative one**: with 2^64 - 1 milliseconds the timer is put back as
if it was due a millisecond ago. -/
theorem not_delivers_of_negative_period :
    ¬ ∀ (m : TimerManager ℕ) (now now' : ℤ), m.Linked →
      (∀ t ∈ m.timers, (m.timer t).recurring = true → 1 ≤ (m.timer t).ms) →
      (m.detectClockRollover now').1 = false →
      ∃ fuel cbs m', m.listExpiredCb fuel now now' = some (cbs, m') ∧ m.Delivers m' now cbs := by
  intro hall
  have hm : ((construct 0 : TimerManager ℕ).addTimer 0 (2 ^ 64 - 1) (some 1) true).2.Linked :=
    (linked_construct 0).insertTimer
  obtain ⟨fuel, cbs, m', hr, -⟩ := hall _ 0 0 hm (by
    intro t ht _
    obtain rfl := List.mem_singleton.mp ht
    decide) rfl
  obtain ⟨u, hu, hlt, -⟩ := hm.drains_of_listExpiredCb hr 0 List.mem_cons_self
    ⟨rfl, by decide, by decide⟩
  obtain rfl := List.mem_singleton.mp hu
  exact lt_irrefl _ hlt

end TimerManager

end Dag
