import Dag.Timer.Manager
import Dag.Foundation.Run

/-!
# Timers that hold a callback are pending

A timer is *kept* when it is in the manager's set exactly as long as it holds a callback. The set
compares timers by their deadlines alone, so an insertion does nothing when a member has the same
deadline already, and the timer is lost: it holds its callback and will never fire. A call is
`Fresh` when the deadlines that it assigns are new to the set.

## Main definitions

* `Kept m`: a timer holds a callback exactly when it is a member of the set
* `Fresh m c`: the deadlines that the call assigns are those of no other member

## Main results

* `Inv.step`: a fresh call keeps the invariant
* `kept_of_exec`: timers are kept along every run of fresh calls
* `not_kept_of_same_deadline`: two timers added with one deadline
-/

namespace Dag

open Foundation

variable {κ : Type}

namespace TimerManager

/-- **No timer is lost**: the timers that hold a callback are the members of the set. -/
def Kept (m : TimerManager κ) : Prop :=
  (∀ t ∈ m.timers, t < m.count) ∧ ∀ t < m.count, (m.timer t).cb ≠ none ↔ t ∈ m.timers

/-- If `t` holds a callback, the deadline `d` is that of no other member. -/
def FreshFor (m : TimerManager κ) (t : ℕ) (d : ℤ) : Prop :=
  (m.timer t).cb ≠ none → ∀ u ∈ m.timers, u ≠ t → m.next u ≠ d

/-- The deadline that `reset` assigns. -/
def resetDeadline (m : TimerManager κ) (now : ℤ) (t ms : ℕ) (from_now : Bool) : ℤ :=
  addMs (if from_now then now else subMs (m.timer t).next (m.timer t).ms) ms

/-- `listExpiredCb` takes the timer out of the set. -/
def Due (m : TimerManager κ) (now now' : ℤ) (t : ℕ) : Prop :=
  (m.detectClockRollover now').1 = true ∨ m.next t ≤ now

/-- `listExpiredCb` puts the timer back into the set. -/
def Rearmed (m : TimerManager κ) (now now' : ℤ) (t : ℕ) : Prop :=
  t ∈ m.timers ∧ m.Due now now' t ∧ (m.timer t).recurring = true

/-- The deadline that `listExpiredCb` puts a timer back with. -/
def rearmDeadline (m : TimerManager κ) (now : ℤ) (t : ℕ) : ℤ := addMs now (m.timer t).ms

/-- **The deadlines that the call assigns are new to the set**: no other member has them, nor is
another timer assigned them by the same call. -/
def Fresh (m : TimerManager κ) : TimerCall κ → Prop
  | .addTimer now ms _ _ => ∀ u ∈ m.timers, m.next u ≠ addMs now ms
  | .cancel _ => True
  | .refresh now t => m.FreshFor t (addMs now (m.timer t).ms)
  | .reset now t ms from_now =>
    (ms = (m.timer t).ms ∧ from_now = false) ∨ m.FreshFor t (m.resetDeadline now t ms from_now)
  | .getNextTimer _ => True
  | .listExpiredCb _ now now' => ∀ t, m.Rearmed now now' t → ∀ u ∈ m.timers, u ≠ t →
      m.next u ≠ m.rearmDeadline now t ∧
        (m.Rearmed now now' u → m.rearmDeadline now u ≠ m.rearmDeadline now t)

/-! ## The invariant -/

/-- The set is in order, and timers are kept. -/
structure Inv (m : TimerManager κ) : Prop where
  ordered : Ordered m.next m.timers
  kept : m.Kept

/-- The invariant, but for the timer `t`, which is not a member. -/
structure InvBut (t : ℕ) (m : TimerManager κ) : Prop where
  ordered : Ordered m.next m.timers
  made : t < m.count
  not_mem : t ∉ m.timers
  lt_count : ∀ u ∈ m.timers, u < m.count
  kept : ∀ u < m.count, u ≠ t → ((m.timer u).cb ≠ none ↔ u ∈ m.timers)

section Inv

variable {m : TimerManager κ} {t u : ℕ} {x : Timer κ}

theorem inv_construct (now : ℤ) : Inv (construct now : TimerManager κ) where
  ordered := List.Pairwise.nil
  kept := ⟨nofun, fun _ ht => absurd ht (Nat.not_lt_zero _)⟩

@[simp] theorem setTimer_timer_self : (m.setTimer t x).timer t = x := Function.update_self ..

theorem setTimer_timer_of_ne (h : u ≠ t) : (m.setTimer t x).timer u = m.timer u :=
  Function.update_of_ne h ..

/-- Taking a timer out of the set. -/
theorem Inv.erase (h : m.Inv) (ht : t < m.count) : InvBut t (m.erase t) where
  ordered := h.ordered.sublist List.erase_sublist
  made := ht
  not_mem := h.ordered.nodup.not_mem_erase
  lt_count := fun u hu => h.kept.1 u (List.mem_of_mem_erase hu)
  kept := fun u hu hne => (h.kept.2 u hu).trans (List.mem_erase_of_ne hne).symm

/-- Assigning the fields of a timer that is not a member. -/
theorem InvBut.setTimer (h : InvBut t m) (x : Timer κ) : InvBut t (m.setTimer t x) where
  ordered := by
    refine h.ordered.congr fun u hu => ?_
    have hne : u ≠ t := fun heq => h.not_mem (heq ▸ hu)
    rw [next, next, setTimer_timer_of_ne hne]
  made := h.made
  not_mem := h.not_mem
  lt_count := h.lt_count
  kept := by
    intro u hu hne
    rw [setTimer_timer_of_ne hne]
    exact h.kept u hu hne

/-- Putting a timer that holds a callback into the set, with a deadline that is new to it. -/
theorem InvBut.insert (h : InvBut t m) (hcb : (m.timer t).cb ≠ none)
    (hfresh : ∀ u ∈ m.timers, m.next u ≠ m.next t) : Inv (m.insert t) where
  ordered := ordered_insertKey h.ordered
  kept := by
    constructor
    · intro u hu
      rcases mem_of_mem_insertKey hu with rfl | hu
      · exact h.made
      · exact h.lt_count u hu
    · intro u hu
      by_cases hut : u = t
      · subst hut
        exact iff_of_true hcb (mem_insertKey_self hfresh)
      · rw [show (m.insert t).timer u = m.timer u from rfl, h.kept u hu hut]
        constructor
        · exact mem_insertKey_of_mem
        · intro hmem
          exact (mem_of_mem_insertKey hmem).resolve_left hut

/-- Leaving a timer without a callback out of the set. -/
theorem InvBut.drop (h : InvBut t m) (hcb : (m.timer t).cb = none) : Inv m where
  ordered := h.ordered
  kept := by
    refine ⟨h.lt_count, fun u hu => ?_⟩
    by_cases hut : u = t
    · subst hut
      exact iff_of_false (not_not.mpr hcb) h.not_mem
    · exact h.kept u hu hut

/-- A timer that holds a callback is found as itself. -/
theorem Inv.find (h : m.Inv) (ht : t < m.count) (hcb : (m.timer t).cb ≠ none) :
    m.find t = some t :=
  findKey_of_mem h.ordered ((h.kept.2 t ht).mp hcb)

/-- Taking a timer out, assigning it a deadline that is new to the set, and putting it back. -/
theorem Inv.relink (h : m.Inv) (ht : t < m.count) (hcb : x.cb ≠ none)
    (hfresh : ∀ u ∈ m.timers, u ≠ t → m.next u ≠ x.next) :
    Inv (((m.erase t).setTimer t x).insert t) := by
  refine ((h.erase ht).setTimer x).insert (by rwa [setTimer_timer_self]) fun u hu => ?_
  have hne : u ≠ t := fun heq => (h.erase ht).not_mem (heq ▸ hu)
  rw [next, setTimer_timer_of_ne hne, next, setTimer_timer_self]
  exact hfresh u (List.mem_of_mem_erase hu) hne

end Inv

/-! ## The outcomes of the operations of a timer -/

section Outcomes

variable {m : TimerManager κ} {t it : ℕ} {now : ℤ} {ms : ℕ} {from_now : Bool}

/-- The timer has given its callback away. -/
def dropCb (m : TimerManager κ) (t : ℕ) : TimerManager κ :=
  m.setTimer t { m.timer t with cb := none }

/-- The fields that `refresh` assigns. -/
def refreshed (m : TimerManager κ) (now : ℤ) (t : ℕ) : Timer κ :=
  { m.timer t with next := addMs now (m.timer t).ms }

/-- The fields that `reset` assigns. -/
def resetTo (m : TimerManager κ) (now : ℤ) (t ms : ℕ) (from_now : Bool) : Timer κ :=
  { m.timer t with ms := ms, next := m.resetDeadline now t ms from_now }

/-- Giving the callback away assigns no deadline. -/
theorem next_dropCb (m : TimerManager κ) (t : ℕ) : (m.dropCb t).next = m.next := by
  ext u
  by_cases hut : u = t
  · subst hut
    rw [next, dropCb, setTimer_timer_self, next]
  · rw [next, dropCb, setTimer_timer_of_ne hut, next]

/-- A timer is looked for by its deadline alone. -/
theorem find_dropCb (m : TimerManager κ) (t : ℕ) : (m.dropCb t).find t = m.find t := by
  show findKey (m.dropCb t).next t m.timers = _
  rw [next_dropCb, find]

theorem isNone_iff {o : Option κ} : o.isNone = true ↔ ¬ o ≠ none := by
  cases o <;> simp

theorem cancel_of_none (hcb : (m.timer t).cb = none) : m.cancel t = (false, m) := by
  rw [cancel, if_pos (Option.isNone_iff_eq_none.mpr hcb)]

theorem cancel_of_find (hcb : (m.timer t).cb ≠ none) (hf : m.find t = some it) :
    m.cancel t = (true, (m.dropCb t).erase it) := by
  have hfind : (m.dropCb t).find t = some it := (find_dropCb m t).trans hf
  rw [dropCb] at hfind ⊢
  rw [cancel, if_neg (fun hn => isNone_iff.mp hn hcb)]
  simp only [hfind]

theorem cancel_of_find_none (hcb : (m.timer t).cb ≠ none) (hf : m.find t = none) :
    m.cancel t = (true, m.dropCb t) := by
  have hfind : (m.dropCb t).find t = none := (find_dropCb m t).trans hf
  rw [dropCb] at hfind ⊢
  rw [cancel, if_neg (fun hn => isNone_iff.mp hn hcb)]
  simp only [hfind]

theorem refresh_of_none (hcb : (m.timer t).cb = none) : m.refresh now t = (false, m) := by
  rw [refresh, if_pos (Option.isNone_iff_eq_none.mpr hcb)]

theorem refresh_of_find (hcb : (m.timer t).cb ≠ none) (hf : m.find t = some it) :
    m.refresh now t = (true, ((m.erase it).setTimer t (m.refreshed now t)).insert t) := by
  rw [refresh, if_neg (fun hn => isNone_iff.mp hn hcb), hf]
  rfl

theorem refresh_of_find_none (hcb : (m.timer t).cb ≠ none) (hf : m.find t = none) :
    m.refresh now t = (false, m) := by
  rw [refresh, if_neg (fun hn => isNone_iff.mp hn hcb), hf]

theorem reset_of_same (h : ms = (m.timer t).ms ∧ from_now = false) :
    m.reset now t ms from_now = (true, m) := by
  rw [reset, if_pos h]

theorem reset_of_none (h : ¬ (ms = (m.timer t).ms ∧ from_now = false))
    (hcb : (m.timer t).cb = none) : m.reset now t ms from_now = (false, m) := by
  rw [reset, if_neg h, if_pos (Option.isNone_iff_eq_none.mpr hcb)]

theorem reset_of_find (h : ¬ (ms = (m.timer t).ms ∧ from_now = false))
    (hcb : (m.timer t).cb ≠ none) (hf : m.find t = some it) :
    m.reset now t ms from_now =
      (true, (((m.erase it).setTimer t (m.resetTo now t ms from_now)).addTimerPtr t).2) := by
  rw [reset, if_neg h, if_neg (fun hn => isNone_iff.mp hn hcb), hf]
  rfl

theorem reset_of_find_none (h : ¬ (ms = (m.timer t).ms ∧ from_now = false))
    (hcb : (m.timer t).cb ≠ none) (hf : m.find t = none) :
    m.reset now t ms from_now = (false, m) := by
  rw [reset, if_neg h, if_neg (fun hn => isNone_iff.mp hn hcb), hf]

end Outcomes

/-! ## The operations of a timer -/

section Timer

variable {m : TimerManager κ} {t : ℕ}

theorem Inv.cancel (h : m.Inv) (ht : t < m.count) : (m.cancel t).2.Inv := by
  by_cases hcb : (m.timer t).cb = none
  · rw [cancel_of_none hcb]
    exact h
  · rw [cancel_of_find hcb (h.find ht hcb)]
    exact ((h.erase ht).setTimer { m.timer t with cb := none }).drop (by rw [setTimer_timer_self])

theorem Inv.refresh (h : m.Inv) (ht : t < m.count) {now : ℤ}
    (hfresh : m.FreshFor t (addMs now (m.timer t).ms)) : (m.refresh now t).2.Inv := by
  by_cases hcb : (m.timer t).cb = none
  · rw [refresh_of_none hcb]
    exact h
  · rw [refresh_of_find hcb (h.find ht hcb)]
    exact h.relink ht hcb (hfresh hcb)

theorem Inv.addTimerPtr (h : (m.insert t).Inv) : (m.addTimerPtr t).2.Inv :=
  ⟨h.ordered, h.kept⟩

theorem Inv.reset (h : m.Inv) (ht : t < m.count) {now : ℤ} {ms : ℕ} {from_now : Bool}
    (hfresh : (ms = (m.timer t).ms ∧ from_now = false) ∨
      m.FreshFor t (m.resetDeadline now t ms from_now)) :
    (m.reset now t ms from_now).2.Inv := by
  by_cases hsame : ms = (m.timer t).ms ∧ from_now = false
  · rw [reset_of_same hsame]
    exact h
  · by_cases hcb : (m.timer t).cb = none
    · rw [reset_of_none hsame hcb]
      exact h
    · rw [reset_of_find hsame hcb (h.find ht hcb)]
      -- `reset` puts the timer back by `addTimer`, whose flag does not matter here
      have hinv : (((m.erase t).setTimer t (m.resetTo now t ms from_now)).insert t).Inv :=
        h.relink ht hcb (hfresh.resolve_left hsame hcb)
      exact hinv.addTimerPtr

/-- A new timer: it takes the next number. -/
theorem Inv.addTimer (h : m.Inv) {now : ℤ} {ms : ℕ} (cb : κ) (recurring : Bool)
    (hfresh : ∀ u ∈ m.timers, m.next u ≠ addMs now ms) :
    (m.addTimer now ms (some cb) recurring).2.Inv := by
  have hne : ∀ u < m.count, u ≠ m.count := fun u hu => Nat.ne_of_lt hu
  -- before its fields are assigned, the new timer is the one that is not a member
  have hbut : InvBut m.count { m with count := m.count + 1 } := by
    refine ⟨h.ordered, Nat.lt_succ_self _, fun hmem => Nat.lt_irrefl _ (h.kept.1 _ hmem),
      fun u hu => Nat.lt_succ_of_lt (h.kept.1 u hu), fun u hu hut => ?_⟩
    exact h.kept.2 u (Nat.lt_of_le_of_ne (Nat.lt_succ_iff.mp hu) hut)
  refine Inv.addTimerPtr (InvBut.insert
    (hbut.setTimer (Timer.construct now ms (some cb) recurring)) ?_ fun u hu => ?_)
  · rw [setTimer_timer_self]
    exact Option.some_ne_none cb
  · rw [next, setTimer_timer_of_ne (hne u (h.kept.1 u hu)), next, setTimer_timer_self]
    exact hfresh u hu

end Timer

/-! ## Expiry -/

section Expiry

variable {m m' : TimerManager κ} {now now' : ℤ}

/-- Where the loop of `listExpiredCb` is, when it started on `m`: the members of the set were
members from the start, and their deadlines are the old ones or those they were put back with. -/
structure Expiring (m : TimerManager κ) (now now' : ℤ) (m' : TimerManager κ) : Prop where
  inv : m'.Inv
  mem : ∀ t ∈ m'.timers, t ∈ m.timers
  fixed : ∀ t ∈ m'.timers, (m'.timer t).recurring = (m.timer t).recurring ∧
    (m'.timer t).ms = (m.timer t).ms
  next_eq : ∀ t ∈ m'.timers, m'.next t = m.next t ∨
    (m.Rearmed now now' t ∧ m'.next t = m.rearmDeadline now t)

/-- A recurring timer is put back. -/
theorem expireFirst_of_recurring {t : ℕ} (hrec : (m.timer t).recurring = true) :
    m.expireFirst now t =
      ((m.erase t).setTimer t { m.timer t with next := m.rearmDeadline now t }).insert t :=
  if_pos hrec

/-- A timer that is not recurring gives its callback away. -/
theorem expireFirst_of_once {t : ℕ} (hrec : (m.timer t).recurring ≠ true) :
    m.expireFirst now t = (m.erase t).setTimer t { m.timer t with cb := none } :=
  if_neg hrec

theorem expireFirst_timer_of_ne {t u : ℕ} (h : u ≠ t) :
    (m.expireFirst now t).timer u = m.timer u := by
  by_cases hrec : (m.timer t).recurring = true
  · rw [expireFirst_of_recurring hrec]
    exact setTimer_timer_of_ne h
  · rw [expireFirst_of_once hrec]
    exact setTimer_timer_of_ne h

/-- A pass neither makes a timer recurring nor changes its period. -/
theorem expireFirst_timer_self {t : ℕ} :
    ((m.expireFirst now t).timer t).recurring = (m.timer t).recurring ∧
      ((m.expireFirst now t).timer t).ms = (m.timer t).ms := by
  by_cases hrec : (m.timer t).recurring = true
  · rw [expireFirst_of_recurring hrec]
    change (((m.erase t).setTimer t _).timer t).recurring = _ ∧
      (((m.erase t).setTimer t _).timer t).ms = _
    rw [setTimer_timer_self]
    exact ⟨rfl, rfl⟩
  · rw [expireFirst_of_once hrec, setTimer_timer_self]
    exact ⟨rfl, rfl⟩

/-- The members after a pass are the other members, and the timer itself when it is put back. -/
theorem mem_of_mem_expireFirst (h : m.timers.Nodup) {t u : ℕ}
    (hu : u ∈ (m.expireFirst now t).timers) :
    (u ≠ t ∧ u ∈ m.timers) ∨
      (u = t ∧ (m.timer t).recurring = true ∧
        (m.expireFirst now t).next t = m.rearmDeadline now t) := by
  have hother : u ∈ (m.erase t).timers → u ≠ t ∧ u ∈ m.timers := fun hu =>
    ⟨fun heq => h.not_mem_erase (heq ▸ hu), List.mem_of_mem_erase hu⟩
  by_cases hrec : (m.timer t).recurring = true
  · rw [expireFirst_of_recurring hrec] at hu ⊢
    rcases mem_of_mem_insertKey hu with rfl | hu
    · right
      refine ⟨rfl, hrec, ?_⟩
      change (((m.erase u).setTimer u _).timer u).next = _
      rw [setTimer_timer_self]
    · exact Or.inl (hother hu)
  · rw [expireFirst_of_once hrec] at hu
    exact Or.inl (hother hu)

/-- A pass keeps the invariant when the timer, if it is put back, gets a deadline that is new. -/
theorem Inv.expireFirst (h : m.Inv) {t : ℕ} (ht : t ∈ m.timers)
    (hfresh : (m.timer t).recurring = true → ∀ u ∈ m.timers, u ≠ t →
      m.next u ≠ m.rearmDeadline now t) :
    (m.expireFirst now t).Inv := by
  have hlt := h.kept.1 t ht
  by_cases hrec : (m.timer t).recurring = true
  · rw [expireFirst_of_recurring hrec]
    exact h.relink hlt ((h.kept.2 t hlt).mpr ht) (hfresh hrec)
  · rw [expireFirst_of_once hrec]
    exact ((h.erase hlt).setTimer { m.timer t with cb := none }).drop (by rw [setTimer_timer_self])

/-- One pass of the loop. -/
theorem Expiring.pass {fuel : ℕ} (hfresh : m.Fresh (.listExpiredCb fuel now now'))
    (h : Expiring m now now' m') {t : ℕ} (ht : t ∈ m'.timers)
    (hdue : (m.detectClockRollover now').1 = true ∨ m'.next t ≤ now) :
    Expiring m now now' (m'.expireFirst now t) := by
  have hlt := h.inv.kept.1 t ht
  have hdeadline : m'.rearmDeadline now t = m.rearmDeadline now t := by
    rw [rearmDeadline, rearmDeadline, (h.fixed t ht).2]
  -- a timer that is put back was due from the start
  have hrearmed : (m'.timer t).recurring = true → m.Rearmed now now' t := by
    intro hrec
    rcases h.next_eq t ht with hnext | ⟨hre, _⟩
    · refine ⟨h.mem t ht, ?_, (h.fixed t ht).1 ▸ hrec⟩
      exact hdue.imp_right fun hle => hnext ▸ hle
    · exact hre
  refine ⟨?_, fun u hu => ?_, fun u hu => ?_, fun u hu => ?_⟩
  · refine h.inv.expireFirst ht fun hrec u hu hut => ?_
    obtain ⟨hold, hnew⟩ := hfresh t (hrearmed hrec) u (h.mem u hu) hut
    rw [hdeadline]
    rcases h.next_eq u hu with hnext | ⟨hre, hnext⟩
    · rwa [hnext]
    · rw [hnext]
      exact hnew hre
  · rcases mem_of_mem_expireFirst h.inv.ordered.nodup hu with ⟨_, hu⟩ | ⟨rfl, _⟩
    · exact h.mem u hu
    · exact h.mem u ht
  · rcases mem_of_mem_expireFirst h.inv.ordered.nodup hu with ⟨hut, hu⟩ | ⟨rfl, _⟩
    · rw [expireFirst_timer_of_ne hut]
      exact h.fixed u hu
    · exact ⟨expireFirst_timer_self.1.trans (h.fixed u ht).1,
        expireFirst_timer_self.2.trans (h.fixed u ht).2⟩
  · rcases mem_of_mem_expireFirst h.inv.ordered.nodup hu with ⟨hut, hu⟩ | ⟨rfl, hrec, hnext⟩
    · rw [next, expireFirst_timer_of_ne hut]
      exact h.next_eq u hu
    · exact Or.inr ⟨hrearmed hrec, hnext.trans hdeadline⟩

/-- The loop, as often as it goes round. -/
theorem Expiring.loop {fuel₀ : ℕ} (hfresh : m.Fresh (.listExpiredCb fuel₀ now now')) :
    ∀ {fuel : ℕ} {m' u : TimerManager κ} {cbs cbs' : List (Option κ)}, Expiring m now now' m' →
      expireLoop now (m.detectClockRollover now').1 fuel m' cbs = some (cbs', u) →
        Expiring m now now' u := by
  intro fuel
  -- on the fuel, which counts the tests of the condition
  induction fuel with
  | zero => exact fun _ hu => by cases hu
  | succ fuel ih =>
    intro m' u cbs cbs' h hu
    rw [expireLoop] at hu
    split at hu
    · obtain ⟨rfl, rfl⟩ := Option.some.inj hu
      exact h
    · rename_i t rest htimers
      split_ifs at hu with hdue
      · exact ih (h.pass hfresh (htimers ▸ List.mem_cons_self ..) hdue) hu
      · obtain ⟨rfl, rfl⟩ := Option.some.inj hu
        exact h

theorem Inv.listExpiredCb (h : m.Inv) {fuel : ℕ} {cbs : List (Option κ)}
    (hfresh : m.Fresh (.listExpiredCb fuel now now'))
    (hu : TimerManager.listExpiredCb fuel m now now' = some (cbs, m')) : m'.Inv := by
  have hstart : Expiring m now now' (m.detectClockRollover now').2 :=
    ⟨⟨h.ordered, h.kept⟩, fun _ ht => ht, fun _ _ => ⟨rfl, rfl⟩, fun _ _ => Or.inl rfl⟩
  exact (Expiring.loop hfresh hstart hu).inv

end Expiry

/-! ## Runs -/

section Runs

variable {m m' : TimerManager κ}

theorem getNextTimer_snd (now : ℤ) : (m.getNextTimer now).2 = { m with tickled := false } := by
  unfold getNextTimer
  cases m.timers <;> rfl

/-- The step lemma: a fresh call keeps the invariant. -/
theorem Inv.step (h : m.Inv) {c : TimerCall κ} (hfresh : m.Fresh c)
    (hstep : m.step c = some m') : m'.Inv := by
  unfold TimerManager.step at hstep
  split_ifs at hstep with hmade
  have ht : ∀ t ∈ c.timer?, t < m.count := fun t ht =>
    Nat.lt_of_not_le fun hle => hmade ⟨t, ht, hle⟩
  -- one case for each call; `cancel` and `getNextTimer` assign no deadline
  cases c with
  | addTimer now ms cb recurring =>
    obtain rfl := Option.some.inj hstep
    exact h.addTimer cb recurring hfresh
  | cancel t =>
    obtain rfl := Option.some.inj hstep
    exact h.cancel (ht t rfl)
  | refresh now t =>
    obtain rfl := Option.some.inj hstep
    exact h.refresh (ht t rfl) hfresh
  | reset now t ms from_now =>
    obtain rfl := Option.some.inj hstep
    exact h.reset (ht t rfl) hfresh
  | getNextTimer now =>
    obtain rfl := Option.some.inj hstep
    rw [getNextTimer_snd]
    exact ⟨h.ordered, h.kept⟩
  | listExpiredCb fuel now now' =>
    obtain ⟨⟨cbs, u⟩, hu, rfl⟩ := Option.map_eq_some_iff.mp hstep
    exact h.listExpiredCb hfresh hu

/-- **No timer is lost** in a run whose calls all assign deadlines that are new to the set. -/
theorem kept_of_exec {start : ℤ} {calls : List (TimerCall κ)}
    (hfresh : Guarded step Fresh (construct start : TimerManager κ) calls)
    (h : exec step (construct start) calls = some m) : m.Kept :=
  (exec_invariant_of_guarded (I := Inv) (fun _ _ _ hi hg ht => hi.step hg ht)
    (inv_construct start) hfresh h).kept

theorem kept_of_exec_recurring :
    ∃ m : TimerManager ℕ, exec step (construct 0) [.addTimer 0 10 1 true, .addTimer 1 10 2 false,
      .listExpiredCb 3 10000000 10000000] = some m ∧ m.Kept := by
  obtain ⟨m, hm⟩ : ∃ m : TimerManager ℕ, exec step (construct 0) [.addTimer 0 10 1 true,
      .addTimer 1 10 2 false, .listExpiredCb 3 10000000 10000000] = some m := ⟨_, rfl⟩
  refine ⟨m, hm, kept_of_exec ?_ hm⟩
  refine ⟨nofun, fun m₁ h₁ => ?_⟩
  obtain rfl := Option.some.inj h₁
  have hnew : ∀ u ∈ ((construct 0 : TimerManager ℕ).addTimer 0 10 (some 1) true).2.timers,
      ((construct 0 : TimerManager ℕ).addTimer 0 10 (some 1) true).2.next u ≠ addMs 1 10 := by
    decide
  refine ⟨hnew, fun m₂ h₂ => ?_⟩
  obtain rfl := Option.some.inj h₂
  refine ⟨?_, fun _ _ => trivial⟩
  rintro t ⟨ht, -, hrec⟩ u hu hut
  replace ht : t ∈ [0, 1] := ht
  replace hu : u ∈ [0, 1] := hu
  rcases List.mem_pair.mp ht with rfl | rfl
  · rcases List.mem_pair.mp hu with rfl | rfl
    · exact absurd rfl hut
    · exact ⟨by decide, fun hre => absurd hre.2.2 (by decide)⟩
  · exact absurd hrec (by decide)

/-- Two timers added at one moment with one period: the second holds its callback, and is in no
set. -/
theorem not_kept_of_same_deadline :
    ¬ ∀ (start : ℤ) (calls : List (TimerCall ℕ)) (m : TimerManager ℕ),
      exec step (construct start) calls = some m → m.Kept := by
  intro hall
  have hkept := hall 0 [.addTimer 0 10 1 false, .addTimer 0 10 2 false] _ rfl
  exact absurd ((hkept.2 1 (by decide)).mp (by decide)) (by decide)

end Runs

end TimerManager

end Dag
