import Dag.Timer.Manager
import Dag.Timer.Kept

/-!
# The set of timers is in order

Whatever the deadlines are, and whether or not timers share one, the members of `m_timers` are timers
that have been made, in strictly increasing order of their deadlines. A new timer comes before all
members, or not before some member; in the first case `addTimer` asks for the notification, unless
`m_tickled` is set.

## Main definitions

* `TimerManager.Linked`: the set is in order
* `TimerManager.insertTimer`: `addTimer`, with whether `onTimerInsertedAtFront` is called

## Main results

* `TimerManager.Linked.insertTimer`, `TimerManager.Linked.cancel`, `TimerManager.Linked.listExpiredCb`
* `TimerManager.mem_insertTimer`, `TimerManager.Linked.insertTimer_front`: where a new timer goes
* `TimerManager.timers_nil_of_step`: only `addTimer` puts a timer into the empty set
-/

namespace Dag

open Foundation

variable {κ : Type}

namespace TimerManager

/-- The members of the set have been made, and are in order. -/
structure Linked (m : TimerManager κ) : Prop where
  ordered : Ordered m.next m.timers
  lt_count : ∀ t ∈ m.timers, t < m.count

/-- `addTimer(ms, cb, recurring)`, at `now`: whether `onTimerInsertedAtFront` is called. -/
def insertTimer (m : TimerManager κ) (now : ℤ) (ms : ℕ) (cb : κ) (recurring : Bool) :
    Bool × TimerManager κ :=
  let t := m.count
  let m := { m.setTimer t (Timer.construct now ms (some cb) recurring) with count := t + 1 }
  m.addTimerPtr t

variable {m m' : TimerManager κ} {t u : ℕ} {now now' : ℤ} {ms : ℕ} {cb : κ} {recurring : Bool}

theorem insertTimer_eq_addTimer :
    (m.insertTimer now ms cb recurring).2 = (m.addTimer now ms (some cb) recurring).2 := rfl

theorem linked_construct (now : ℤ) : (construct now : TimerManager κ).Linked :=
  ⟨List.Pairwise.nil, nofun⟩

/-- Assigning the fields of a timer that is not a member. -/
theorem Linked.setTimer (h : m.Linked) (ht : t ∉ m.timers) (x : Timer κ) :
    (m.setTimer t x).Linked := by
  refine ⟨h.ordered.congr fun u hu => ?_, h.lt_count⟩
  have hne : u ≠ t := fun heq => ht (heq ▸ hu)
  rw [next, next, setTimer_timer_of_ne hne]

theorem Linked.erase (h : m.Linked) (t : ℕ) : (m.erase t).Linked :=
  ⟨h.ordered.sublist List.erase_sublist, fun u hu => h.lt_count u (List.mem_of_mem_erase hu)⟩

theorem Linked.insert (h : m.Linked) (ht : t < m.count) : (m.insert t).Linked := by
  refine ⟨ordered_insertKey h.ordered, fun u hu => ?_⟩
  rcases mem_of_mem_insertKey hu with rfl | hu
  · exact ht
  · exact h.lt_count u hu

/-! ## A new timer -/

theorem Linked.count_not_mem (h : m.Linked) : m.count ∉ m.timers :=
  fun hmem => Nat.lt_irrefl _ (h.lt_count _ hmem)

/-- A new timer has its deadline, and the members keep theirs. -/
theorem Linked.insertTimer_next (h : m.Linked) (now : ℤ) (ms : ℕ) (cb : κ) (recurring : Bool)
    (hu : u ∈ m.timers) : (m.insertTimer now ms cb recurring).2.next u = m.next u := by
  have hne : u ≠ m.count := fun heq => h.count_not_mem (heq ▸ hu)
  change ((m.setTimer m.count _).timer u).next = _
  rw [setTimer_timer_of_ne hne]
  rfl

@[simp] theorem insertTimer_next_self (m : TimerManager κ) (now : ℤ) (ms : ℕ) (cb : κ)
    (recurring : Bool) : (m.insertTimer now ms cb recurring).2.next m.count = addMs now ms := by
  change ((m.setTimer m.count _).timer m.count).next = _
  rw [setTimer_timer_self]
  rfl

/-- A new timer, its callback may be null. -/
theorem Linked.addTimer (h : m.Linked) (now : ℤ) (ms : ℕ) (cb : Option κ) (recurring : Bool) :
    (m.addTimer now ms cb recurring).2.Linked := by
  have hmade : { m.setTimer m.count (Timer.construct now ms cb recurring) with
      count := m.count + 1 }.Linked := by
    obtain ⟨hordered, hlt⟩ := h.setTimer h.count_not_mem (Timer.construct now ms cb recurring)
    exact ⟨hordered, fun u hu => Nat.lt_succ_of_lt (hlt u hu)⟩
  obtain ⟨hordered, hlt⟩ := hmade.insert (Nat.lt_succ_self m.count)
  exact ⟨hordered, hlt⟩

theorem Linked.insertTimer (h : m.Linked) : (m.insertTimer now ms cb recurring).2.Linked :=
  h.addTimer now ms (some cb) recurring

/-- The members behind `addTimer` were members, or are the new timer. -/
theorem mem_insertTimer (hu : u ∈ (m.insertTimer now ms cb recurring).2.timers) :
    u = m.count ∨ u ∈ m.timers :=
  mem_of_mem_insertKey hu

/-- A timer with a deadline before all members is inserted, and found, at the front. -/
theorem addTimerPtr_front (hfirst : ∀ u ∈ m.timers, m.next t < m.next u)
    (htickled : m.tickled = false) : (m.addTimerPtr t).1 = true := by
  have hinsert : insertKey m.next t m.timers = t :: m.timers := by
    cases hl : m.timers with
    | nil => rfl
    | cons u l =>
      rw [insertKey, if_pos]
      exact hfirst u (by rw [hl]; exact List.mem_cons_self)
  have hfind : findKey m.next t (insertKey m.next t m.timers) = some t := by
    rw [hinsert, findKey, List.find?_cons_of_pos]
    simp
  have hhead : (insertKey m.next t m.timers).head? = some t := by rw [hinsert]; rfl
  change (decide (findKey m.next t (insertKey m.next t m.timers) =
    (insertKey m.next t m.timers).head?) && !m.tickled) = true
  rw [hfind, hhead, htickled]
  simp

/-- **A new timer before all members**: the notification is asked for, unless the flag is set. -/
theorem Linked.insertTimer_front (h : m.Linked) (hfirst : ∀ u ∈ m.timers, addMs now ms < m.next u)
    (htickled : m.tickled = false) : (m.insertTimer now ms cb recurring).1 = true := by
  refine addTimerPtr_front (fun u hu => ?_) htickled
  have hself := insertTimer_next_self m now ms cb recurring
  have hother := h.insertTimer_next now ms cb recurring hu
  exact hself.trans_lt ((hfirst u hu).trans_eq hother.symm)

/-! ## The other operations -/

/-- `cancel` takes members out, and assigns no deadline. -/
theorem Linked.cancel (h : m.Linked) (t : ℕ) :
    (m.cancel t).2.Linked ∧
      ∀ u ∈ (m.cancel t).2.timers, u ∈ m.timers ∧ (m.cancel t).2.next u = m.next u := by
  by_cases hcb : (m.timer t).cb = none
  · rw [cancel_of_none hcb]
    exact ⟨h, fun u hu => ⟨hu, rfl⟩⟩
  · have hnext : ∀ u, (m.dropCb t).next u = m.next u := congrFun (next_dropCb m t)
    have hlinked : (m.dropCb t).Linked := ⟨h.ordered.congr fun u _ => hnext u, h.lt_count⟩
    cases hf : m.find t with
    | some it =>
      rw [cancel_of_find hcb hf]
      exact ⟨hlinked.erase it, fun u hu => ⟨List.mem_of_mem_erase hu, hnext u⟩⟩
    | none =>
      rw [cancel_of_find_none hcb hf]
      exact ⟨hlinked, fun u hu => ⟨hu, hnext u⟩⟩

/-- A pass of the loop of `listExpiredCb`. -/
theorem Linked.expireFirst (h : m.Linked) (ht : t ∈ m.timers) : (m.expireFirst now t).Linked := by
  have hnot : t ∉ (m.erase t).timers := h.ordered.nodup.not_mem_erase
  by_cases hrec : (m.timer t).recurring = true
  · rw [expireFirst_of_recurring hrec]
    exact ((h.erase t).setTimer hnot _).insert (h.lt_count t ht)
  · rw [expireFirst_of_once hrec]
    exact (h.erase t).setTimer hnot _

theorem Linked.listExpiredCb (h : m.Linked) {fuel : ℕ} {cbs : List (Option κ)}
    (hr : m.listExpiredCb fuel now now' = some (cbs, m')) : m'.Linked := by
  have hloop : ∀ (fuel : ℕ) (m m' : TimerManager κ) (rollover : Bool) (acc cbs : List (Option κ)),
      m.Linked → expireLoop now rollover fuel m acc = some (cbs, m') → m'.Linked := by
    -- on the fuel: each pass keeps the set in order
    intro fuel
    induction fuel with
    | zero => exact fun _ _ _ _ _ _ hr => by cases hr
    | succ fuel ih =>
      intro m m' rollover acc cbs h hr
      rw [expireLoop] at hr
      split at hr
      · obtain ⟨-, rfl⟩ := Prod.mk.inj (Option.some.inj hr)
        exact h
      · rename_i t l hl
        split_ifs at hr
        · exact ih _ _ _ _ _ (h.expireFirst (by rw [hl]; exact List.mem_cons_self)) hr
        · obtain ⟨-, rfl⟩ := Prod.mk.inj (Option.some.inj hr)
          exact h
  have hread : (m.detectClockRollover now').2.Linked := ⟨h.ordered, h.lt_count⟩
  exact hloop fuel _ m' _ [] cbs hread hr

/-! ## The empty set -/

/-- Only `addTimer` puts a timer into an empty set. -/
theorem timers_nil_of_step {c : TimerCall κ} (h : m.timers = []) (hm : m.step c = some m')
    (hc : ∀ now ms cb recurring, c ≠ .addTimer now ms cb recurring) : m'.timers = [] := by
  have hfind : ∀ (m : TimerManager κ) (t : ℕ), m.timers = [] → m.find t = none := by
    intro m t h
    rw [find, h]
    rfl
  unfold step at hm
  split_ifs at hm
  cases c with
  | addTimer now ms cb recurring => exact absurd rfl (hc now ms cb recurring)
  | cancel t =>
    obtain rfl := Option.some.inj hm
    by_cases hcb : (m.timer t).cb = none
    · rw [cancel_of_none hcb]
      exact h
    · rw [cancel_of_find_none hcb (hfind m t h)]
      exact h
  | refresh now t =>
    obtain rfl := Option.some.inj hm
    by_cases hcb : (m.timer t).cb = none
    · rw [refresh_of_none hcb]
      exact h
    · rw [refresh_of_find_none hcb (hfind m t h)]
      exact h
  | reset now t ms from_now =>
    obtain rfl := Option.some.inj hm
    by_cases hsame : ms = (m.timer t).ms ∧ from_now = false
    · rw [reset_of_same hsame]
      exact h
    · by_cases hcb : (m.timer t).cb = none
      · rw [reset_of_none hsame hcb]
        exact h
      · rw [reset_of_find_none hsame hcb (hfind m t h)]
        exact h
  | getNextTimer now =>
    obtain rfl := Option.some.inj hm
    unfold getNextTimer
    rw [show ({ m with tickled := false } : TimerManager κ).timers = [] from h]
  | listExpiredCb fuel now now' =>
    obtain ⟨⟨cbs, m₁⟩, hr, rfl⟩ := Option.map_eq_some_iff.mp hm
    have hread : (m.detectClockRollover now').2.timers = [] := h
    change expireLoop now _ fuel (m.detectClockRollover now').2 [] = some (cbs, m₁) at hr
    cases fuel with
    | zero => cases hr
    | succ fuel =>
      rw [expireLoop, hread] at hr
      obtain ⟨-, rfl⟩ := Prod.mk.inj (Option.some.inj hr)
      exact hread

/-- `~0ull` is returned only when there is no timer. -/
theorem timers_nil_of_getNextTimer {now : ℤ} (h : (m.getNextTimer now).1 = 2 ^ 64 - 1)
    (hnow : ∀ t ∈ m.timers, m.next t - now < 2 ^ 63) : m.timers = [] := by
  cases hl : m.timers with
  | nil => rfl
  | cons t l =>
    have ht := hnow t (by rw [hl]; exact List.mem_cons_self)
    simp only [getNextTimer, hl] at h
    split_ifs at h
    change ((m.next t - now) / 10 ^ 6).toNat = 2 ^ 64 - 1 at h
    omega

end TimerManager

end Dag
