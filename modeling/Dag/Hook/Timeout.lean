import Dag.Hook.DoIo
import Dag.Timer.Members

/-!
# A timeout protects a parked operation

`do_io` arms its timer before it registers the event, so the timer may expire before there is a
registration: the callback sets the flag, cancels an event that is not registered yet, and is done.
The call registers the event behind it without a look at the flag, and is parked with no timer.

The same happens when the callback of a wait that has ended runs late, behind the test of the flag:
the flag stays set, and the callback of the next timer does nothing.

## Main definitions

* `Hook.Stranded`: a parked call with a timeout that nothing but IO readiness can wake
* `Hook.Timely`: the deadlines of timers are distinct, and the descriptor is not closed
* `Hook.Heeded`: a call whose flag is set before it registers its event is still to be cancelled

## Main results

* `Hook.not_stranded_of_exec`: no call is stranded in a run in which flags are heeded
* `Hook.stranded_by_early_timer`: a timer that expires before `addEvent`
-/

namespace Dag

open Foundation

/-- The registration that the call waits for, from `addEvent` until it is resumed. -/
def IoAt.serial? : IoAt → Option ℕ
  | .registered serial => some serial
  | .parked serial => some serial
  | _ => none

namespace Hook

/-- **The call `i` is stranded**: it is parked with a finite timeout, still registered, its timer is
not in `m_timers`, and no callback of it is collected, queued or running. -/
def Stranded (s : Hook) (fd i : ℕ) : Prop :=
  ∃ d, s.calls[i]? = some d ∧ ∃ serial, d.place = .parked serial ∧ d.timeout ≠ 2 ^ 64 - 1 ∧
    (s.io.eventContext fd d.event).fiber = some ⟨serial, i⟩ ∧
    (∀ t, d.timer = some t → t ∉ s.manager.timers) ∧
    i ∉ s.collected ∧ i ∉ s.deciding ∧ i ∉ s.cancelling

/-- **The deadlines are pairwise distinct**, and the descriptor is not closed. -/
def Timely (s : Hook) : Act → Prop
  | .io i (.addConditionTimer now) => ∀ d ∈ s.calls[i]?, d.timeout ≠ 2 ^ 64 - 1 →
      ∀ u ∈ s.manager.timers, s.manager.next u ≠ addMs now d.timeout
  | .timer c => s.manager.Fresh c
  | .listExpiredCb fuel now now' => s.manager.Fresh (.listExpiredCb fuel now now')
  | .close => False
  | _ => True

/-- **The flag is heeded**: when a call comes to `addEvent` with its flag set, a callback of it is
still to call `cancelEvent`. -/
def Heeded (s : Hook) : Act → Prop
  | .io i (.addEvent _) =>
    ∀ d ∈ s.calls[i]?, d.cancelled = true → i ∈ s.deciding ∨ i ∈ s.cancelling
  | _ => True

instance (s : Hook) : DecidablePred s.Timely
  | .io i (.addConditionTimer now) => inferInstanceAs (Decidable (∀ d ∈ s.calls[i]?,
      d.timeout ≠ 2 ^ 64 - 1 → ∀ u ∈ s.manager.timers, s.manager.next u ≠ addMs now d.timeout))
  | .timer c => inferInstanceAs (Decidable (s.manager.Fresh c))
  | .listExpiredCb fuel now now' =>
    inferInstanceAs (Decidable (s.manager.Fresh (.listExpiredCb fuel now now')))
  | .close => inferInstanceAs (Decidable False)
  | .io _ (.raw _) | .io _ (.addEvent _) | .io _ .yield | .io _ .resume | .io _ .cancelTimer
  | .io _ .test | .call _ | .runCb _ | .setCancelled _ | .cancelEvent _ | .dispatch _ | .cancelAll
  | .del | .close_f | .socket_f | .get _ | .setTimeout .. | .setUserNonblock _ =>
    inferInstanceAs (Decidable True)

instance (s : Hook) : DecidablePred s.Heeded
  | .io i (.addEvent _) => inferInstanceAs (Decidable
      (∀ d ∈ s.calls[i]?, d.cancelled = true → i ∈ s.deciding ∨ i ∈ s.cancelling))
  | .io _ (.raw _) | .io _ (.addConditionTimer _) | .io _ .yield | .io _ .resume
  | .io _ .cancelTimer | .io _ .test | .call _ | .timer _ | .listExpiredCb .. | .runCb _
  | .setCancelled _ | .cancelEvent _ | .dispatch _ | .close | .cancelAll | .del | .close_f
  | .socket_f | .get _ | .setTimeout .. | .setUserNonblock _ => inferInstanceAs (Decidable True)

/-! ## The invariant -/

/-- The timer `t` of the call `i` is pending with the flag not set, or a callback of the call is on
its way. -/
def Covered (s : Hook) (i : ℕ) (d : DoIo) (t : ℕ) : Prop :=
  (d.cancelled = false ∧ (t ∈ s.manager.timers ∨ i ∈ s.collected)) ∨ i ∈ s.deciding ∨
    i ∈ s.cancelling

/-- What is kept of the call `i`. -/
structure Guards (fd : ℕ) (s : Hook) (i : ℕ) (d : DoIo) : Prop where
  /-- its timer has been made, with its own callback -/
  owned : ∀ t, d.timer = some t → t < s.manager.count ∧
    ∀ cb, (s.manager.timer t).cb = some cb → cb = .timeout i
  /-- it has a timer if it has a timeout -/
  armed : d.place = .armed ∨ d.place.serial? ≠ none → d.timeout ≠ 2 ^ 64 - 1 → d.timer ≠ none
  flagged : i ∈ s.cancelling → d.cancelled = true
  /-- before `addEvent` the flag may be set -/
  pending : d.place = .armed → d.cancelled = false → ∀ t, d.timer = some t → s.Covered i d t
  /-- behind `addEvent` a flag that is set is followed by a `cancelEvent` -/
  awaited : ∀ serial, d.place.serial? = some serial →
    (s.io.eventContext fd d.event).fiber = some ⟨serial, i⟩ →
      ∀ t, d.timer = some t → s.Covered i d t

/-- What carries the absence of stranded calls along a run. -/
structure Protected (fd : ℕ) (s : Hook) : Prop where
  agree : s.io.At fd
  isOpen : s.isOpen = true
  closing : s.closing = .out
  timers : s.manager.Inv
  named : ∀ i ∈ s.cancelling, i < s.calls.length
  guards : ∀ i d, s.calls[i]? = some d → s.Guards fd i d

variable {fd i j : ℕ} {s t : Hook} {d d' : DoIo}

theorem Protected.not_stranded (h : s.Protected fd) (i : ℕ) : ¬ s.Stranded fd i := by
  rintro ⟨d, hi, serial, hplace, htimeout, hfiber, htimer, hcollected, hdeciding, hcancelling⟩
  have hg := h.guards i d hi
  have hserial : d.place.serial? = some serial := by rw [hplace]; rfl
  obtain ⟨t, ht⟩ := Option.ne_none_iff_exists'.mp
    (hg.armed (.inr (by rw [hserial]; simp)) htimeout)
  rcases hg.awaited serial hserial hfiber t ht with ⟨-, hmem | hmem⟩ | hmem | hmem
  · exact htimer t ht hmem
  · exact hcollected hmem
  · exact hdeciding hmem
  · exact hcancelling hmem

/-- A change of the rest of the state: the timer of the call keeps its callback or loses it, what
covers the call covers it still, and the call is not registered anew. -/
theorem Guards.transfer (h : s.Guards fd i d)
    (htimer : ∀ u, d.timer = some u → u < s.manager.count → u < t.manager.count ∧
      ((t.manager.timer u).cb = (s.manager.timer u).cb ∨ (t.manager.timer u).cb = none))
    (hcover : ∀ u, d.timer = some u → d.isDone = false → s.Covered i d u → t.Covered i d u)
    (hcancelling : i ∈ t.cancelling → i ∈ s.cancelling)
    (hfiber : ∀ ticket, ticket.name = i → (t.io.eventContext fd d.event).fiber = some ticket →
      (s.io.eventContext fd d.event).fiber = some ticket) : t.Guards fd i d := by
  constructor
  · intro u hu
    obtain ⟨hlt, hcb⟩ := h.owned u hu
    obtain ⟨hlt', heq⟩ := htimer u hu hlt
    refine ⟨hlt', fun cb hcb' => ?_⟩
    rcases heq with heq | hnone
    · exact hcb cb (heq.symm.trans hcb')
    · rw [hnone] at hcb'
      cases hcb'
  · exact h.armed
  · exact fun hi => h.flagged (hcancelling hi)
  · intro hplace hflag u hu
    refine hcover u hu ?_ (h.pending hplace hflag u hu)
    rw [DoIo.isDone, hplace]
  · intro serial hserial hf u hu
    refine hcover u hu ?_ (h.awaited serial hserial (hfiber _ rfl hf) u hu)
    unfold DoIo.isDone
    split
    · rename_i hplace
      rw [hplace] at hserial
      cases hserial
    · rfl

/-- The timers change, but not that of the call. -/
theorem Guards.keep (h : s.Guards fd i d) {m : TimerManager Callback}
    (hkeep : ∀ u, d.timer = some u → s.manager.KeepsTimer m u) :
    Guards fd { s with manager := m } i d := by
  apply h.transfer
  · intro u hu hlt
    refine ⟨hlt.trans_le (hkeep u hu).count_le, .inl ?_⟩
    rw [(hkeep u hu).timer_eq]
  · intro u hu _ hcover
    exact hcover.imp_left fun ⟨hflag, hlive⟩ => ⟨hflag, hlive.imp_left (hkeep u hu).mem⟩
  · exact id
  · intro _ _ hf
    exact hf

/-- The registrations change, but the call is not registered anew. -/
theorem Guards.register (h : s.Guards fd i d) {io : IOManager}
    (hfiber : ∀ ticket, ticket.name = i → (io.eventContext fd d.event).fiber = some ticket →
      (s.io.eventContext fd d.event).fiber = some ticket) : Guards fd { s with io := io } i d := by
  apply h.transfer
  · intro u _ hu
    exact ⟨hu, .inl rfl⟩
  · intro u _ _ hcover
    exact hcover
  · exact id
  · exact hfiber

/-- A change that touches neither the registrations nor the timers nor the callbacks. -/
theorem Guards.congr (h : s.Guards fd i d) (hio : t.io = s.io) (hmanager : t.manager = s.manager)
    (hcollected : t.collected = s.collected) (hdeciding : t.deciding = s.deciding)
    (hcancelling : t.cancelling = s.cancelling) : t.Guards fd i d := by
  apply h.transfer
  · intro u _ hu
    rw [hmanager]
    exact ⟨hu, .inl rfl⟩
  · intro u _ _ hu
    rwa [Covered, hmanager, hcollected, hdeciding, hcancelling]
  · rw [hcancelling]
    exact id
  · intro ticket _ hf
    rwa [hio] at hf

/-- The call goes on to a place where it waits for nothing. -/
theorem Guards.leave (h : s.Guards fd i d) (htimer : d'.timer = d.timer)
    (hcancelled : d'.cancelled = d.cancelled) (harmed : d'.place ≠ .armed)
    (hserial : d'.place.serial? = none) : s.Guards fd i d' := by
  constructor
  · rw [htimer]
    exact h.owned
  · rintro (hplace | hplace)
    · exact absurd hplace harmed
    · exact absurd hserial hplace
  · rw [hcancelled]
    exact h.flagged
  · intro hplace
    exact absurd hplace harmed
  · intro serial hs
    rw [hserial] at hs
    cases hs

/-- The descriptor is open. -/
theorem Protected.vacant_of_closed (h : s.Protected fd) (hc : s.isOpen = false) : s.io.Vacant fd :=
  absurd (h.isOpen.symm.trans hc) Bool.noConfusion

/-- The calls stay, and the guards of each are carried over. -/
theorem Protected.change (h : s.Protected fd) (hcalls : t.calls = s.calls) (hat : t.io.At fd)
    (hopen : t.isOpen = s.isOpen) (hclosing : t.closing = s.closing) (htimers : t.manager.Inv)
    (hcancelling : ∀ i ∈ t.cancelling, i ∈ s.cancelling)
    (hguards : ∀ i d, s.calls[i]? = some d → s.Guards fd i d → t.Guards fd i d) :
    t.Protected fd where
  agree := hat
  isOpen := hopen.trans h.isOpen
  closing := hclosing.trans h.closing
  timers := htimers
  named := fun i hi => by
    rw [hcalls]
    exact h.named i (hcancelling i hi)
  guards := fun i d hi => by
    rw [hcalls] at hi
    exact hguards i d hi (h.guards i d hi)

/-- One call changes. -/
theorem Protected.setCall (h : s.Protected fd) (hd : s.Guards fd i d) :
    (s.setCall i d).Protected fd where
  agree := h.agree
  isOpen := h.isOpen
  closing := h.closing
  timers := h.timers
  named := fun k hk => by
    rw [Hook.setCall, List.length_set]
    exact h.named k hk
  guards := fun k d' hk => by
    rcases getElem?_set_eq_some hk with ⟨rfl, rfl⟩ | ⟨-, hk⟩
    · exact hd.congr rfl rfl rfl rfl rfl
    · exact (h.guards k d' hk).congr rfl rfl rfl rfl rfl

/-! ## Steps of a call -/

theorem Protected.raw (h : s.Protected fd) (hi : s.calls[i]? = some d) {r : RawResult}
    (hd : d.raw r = some d') : (s.setCall i d').Protected fd := by
  have hg := h.guards i d hi
  unfold DoIo.raw at hd
  split at hd
  · obtain rfl := Option.some.inj hd
    exact h.setCall (hg.leave rfl rfl (by simp) rfl)
  · obtain rfl := Option.some.inj hd
    cases r <;> exact h.setCall (hg.leave rfl rfl (by simp) rfl)
  · cases hd

theorem Protected.yield (h : s.Protected fd) (hi : s.calls[i]? = some d)
    (hd : d.yield = some d') : (s.setCall i d').Protected fd := by
  have hg := h.guards i d hi
  unfold DoIo.yield at hd
  split at hd
  · rename_i serial hplace
    obtain rfl := Option.some.inj hd
    have hserial : d.place.serial? = some serial := by rw [hplace]; rfl
    apply h.setCall
    constructor
    · exact hg.owned
    · intro _
      exact hg.armed (.inr (by rw [hserial]; simp))
    · exact hg.flagged
    · intro hparked
      cases hparked
    · intro k hk
      obtain rfl := Option.some.inj hk
      exact hg.awaited serial hserial
  · cases hd

theorem Protected.resume (h : s.Protected fd) (hi : s.calls[i]? = some d) {pushed : List Pushed}
    (hd : d.resume pushed = some d') : (s.setCall i d').Protected fd := by
  have hg := h.guards i d hi
  unfold DoIo.resume at hd
  split at hd
  · split_ifs at hd
    obtain rfl := Option.some.inj hd
    exact h.setCall (hg.leave rfl rfl (by simp) rfl)
  · cases hd

theorem Protected.test (h : s.Protected fd) (hi : s.calls[i]? = some d)
    (hd : d.test = some d') : (s.setCall i d').Protected fd := by
  have hg := h.guards i d hi
  unfold DoIo.test at hd
  split at hd
  · obtain rfl := Option.some.inj hd
    apply h.setCall
    cases hflag : d.cancelled <;> exact hg.leave rfl hflag.symm (by simp) rfl
  · cases hd

/-- A call cancels its timer, and no call waits for another's. -/
theorem Protected.disarm (h : s.Protected fd) (hi : s.calls[i]? = some d)
    (harmed : d.place ≠ .armed) (hserial : d.place.serial? = none) :
    (s.disarm d).Protected fd := by
  unfold Hook.disarm
  split
  · rename_i t ht
    obtain ⟨hlt, howned⟩ := (h.guards i d hi).owned t ht
    refine h.change rfl h.agree rfl rfl (h.timers.cancel hlt) (fun _ hk => hk) fun k d' hk hg => ?_
    by_cases hki : k = i
    · subst hki
      obtain rfl := Option.some.inj (hi.symm.trans hk)
      constructor
      · intro u hu
        obtain rfl := Option.some.inj (ht.symm.trans hu)
        refine ⟨?_, fun cb hcb => ?_⟩
        · rw [TimerManager.cancel_count]
          exact hlt
        · rw [TimerManager.cancel_cb] at hcb
          cases hcb
      · exact hg.armed
      · exact hg.flagged
      · intro hplace
        exact absurd hplace harmed
      · intro serial hs
        rw [hserial] at hs
        cases hs
    · have hne : ∀ u, d'.timer = some u → u ∈ s.manager.timers → u ≠ t := by
        rintro u hu hmem rfl
        obtain ⟨cb, hcb⟩ := Option.ne_none_iff_exists'.mp ((h.timers.kept.2 u hlt).mpr hmem)
        have heq := (howned cb hcb).symm.trans ((hg.owned u hu).2 cb hcb)
        exact hki (Callback.timeout.inj heq).symm
      apply hg.transfer
      · intro u hu hlt'
        refine ⟨by rw [TimerManager.cancel_count]; exact hlt', ?_⟩
        by_cases hut : u = t
        · rw [hut]
          exact .inr (TimerManager.cancel_cb s.manager t)
        · rw [(h.timers.keepsTimer_cancel hlt hut).timer_eq]
          exact .inl rfl
      · intro u hu _ hcover
        refine hcover.imp_left fun ⟨hflag, hlive⟩ => ⟨hflag, hlive.imp_left fun hmem => ?_⟩
        exact (h.timers.keepsTimer_cancel hlt (hne u hu hmem)).mem hmem
      · exact id
      · intro _ _ hf
        exact hf
  · exact h

theorem Protected.cancelTimer (h : s.Protected fd) (hi : s.calls[i]? = some d)
    (hd : d.cancelTimer = some d') : ((s.disarm d).setCall i d').Protected fd := by
  have hcalls : (s.disarm d).calls = s.calls := by
    unfold Hook.disarm
    split <;> rfl
  unfold DoIo.cancelTimer at hd
  split at hd
  · rename_i hplace
    obtain rfl := Option.some.inj hd
    have hs := h.disarm hi (by simp [hplace]) (by rw [hplace]; rfl)
    exact hs.setCall ((hs.guards i d (by rwa [hcalls])).leave rfl rfl (by simp) rfl)
  · rename_i hplace
    obtain rfl := Option.some.inj hd
    have hs := h.disarm hi (by simp [hplace]) (by rw [hplace]; rfl)
    exact hs.setCall ((hs.guards i d (by rwa [hcalls])).leave rfl rfl (by simp) rfl)
  · cases hd

/-- The timer is armed with a deadline that is new to the set. -/
theorem Protected.arm (h : s.Protected fd) (hi : s.calls[i]? = some d) {now : ℤ}
    (hfresh : d.timeout ≠ 2 ^ 64 - 1 →
      ∀ u ∈ s.manager.timers, s.manager.next u ≠ addMs now d.timeout) :
    (s.arm i d now).Protected fd := by
  have hg := h.guards i d hi
  unfold Hook.arm
  split_ifs with htimeout
  · apply h.setCall
    constructor
    · intro t ht
      cases ht
    · intro _ hne
      exact absurd htimeout hne
    · exact hg.flagged
    · intro _ _ t ht
      cases ht
    · intro serial hs
      cases hs
  · have hfresh := hfresh htimeout
    have hother : Protected fd { s with
        manager := (s.manager.addTimer now d.timeout (some (.timeout i)) false).2 } := by
      refine h.change rfl h.agree rfl rfl (h.timers.addTimer _ _ hfresh) (fun _ hk => hk)
        fun k d' _ hg' => ?_
      exact hg'.keep fun u hu => TimerManager.keepsTimer_addTimer (hg'.owned u hu).1
    apply hother.setCall
    constructor
    · intro t ht
      obtain rfl := Option.some.inj ht
      refine ⟨Nat.lt_succ_self _, fun cb hcb => ?_⟩
      have hself := TimerManager.addTimer_cb s.manager now d.timeout (some (.timeout i)) false
      exact Option.some.inj (hcb.symm.trans hself)
    · intro _ _
      exact Option.some_ne_none _
    · exact hg.flagged
    · intro _ hflag t ht
      obtain rfl := Option.some.inj ht
      exact .inl ⟨hflag, .inl (TimerManager.addTimer_mem h.timers.kept.1 hfresh)⟩
    · intro serial hs
      cases hs

/-- **`addEvent`**: the event was registered by no call, and the flag is heeded. -/
theorem Protected.added (h : s.Protected fd) (hi : s.calls[i]? = some d) (hplace : d.place = .armed)
    (hheeded : d.cancelled = true → i ∈ s.deciding ∨ i ∈ s.cancelling) {accepted : Bool} {r : ℤ}
    {io : IOManager}
    (hr : IOManager.addEvent (fun op => accepted && s.answer fd op) fd d.event none (some 0) i s.io =
      .ok r io) : (s.added i d r io).Protected fd := by
  obtain ⟨⟨hat, hout⟩, hempty⟩ := h.agree.addEvent (fun _ => rfl) hr
  have hg := h.guards i d hi
  have hio : ∀ vacated, Protected fd { s with io := io, vacated := vacated } := by
    intro vacated
    refine h.change rfl hat rfl rfl h.timers (fun _ hk => hk) fun k d' hk hg' => ?_
    by_cases hki : k = i
    · subst hki
      obtain rfl := Option.some.inj (hi.symm.trans hk)
      refine ⟨hg'.owned, hg'.armed, hg'.flagged, hg'.pending, fun serial hs => ?_⟩
      rw [hplace] at hs
      cases hs
    · refine (hg'.register fun ticket hname hf => ?_).congr rfl rfl rfl rfl rfl
      rcases hout with ⟨-, -, hctx⟩ | ⟨-, hctx⟩
      · rw [hctx] at hf
        by_cases hevent : d'.event = d.event
        · rw [hevent, Function.update_self] at hf
          obtain rfl := Option.some.inj hf
          exact absurd hname.symm hki
        · rwa [Function.update_of_ne hevent] at hf
      · rwa [hctx] at hf
  have hserial : d.place.serial? = none := by rw [hplace]; rfl
  unfold Hook.added
  split_ifs with hr0
  · apply (hio false).setCall
    constructor
    · exact hg.owned
    · intro _
      exact hg.armed (.inl hplace)
    · exact hg.flagged
    · intro harmed
      cases harmed
    · intro serial _ _ t ht
      -- with the flag not set the timer still covers the call
      cases hflag : d.cancelled with
      | true => exact .inr (hheeded hflag)
      | false =>
        exact (hg.pending hplace hflag t ht).imp_left fun ⟨_, hlive⟩ => ⟨rfl, hlive⟩
  · have hs : Protected fd { s with io := io } := hio s.vacated
    exact hs.setCall ((hs.guards i d hi).leave rfl rfl (by simp) rfl)

theorem Protected.stepIo (h : s.Protected fd) {a : IoAct} (hi : s.calls[i]? = some d)
    (htimely : s.Timely (.io i a)) (hheeded : s.Heeded (.io i a))
    (ht : s.stepIo fd i d a = some t) : t.Protected fd := by
  cases a with
  | raw r =>
    obtain ⟨d', hd', rfl⟩ := Option.map_eq_some_iff.mp ht
    exact h.raw hi hd'
  | addConditionTimer now =>
    simp only [Hook.stepIo] at ht
    split_ifs at ht
    obtain rfl := Option.some.inj ht
    exact h.arm hi (htimely d hi)
  | addEvent accepted =>
    obtain ⟨hplace, r, io, hr, rfl⟩ := of_addEvent ht
    exact h.added hi hplace (hheeded d hi) hr
  | yield =>
    obtain ⟨d', hd', rfl⟩ := Option.map_eq_some_iff.mp ht
    exact h.yield hi hd'
  | resume =>
    obtain ⟨d', hd', rfl⟩ := Option.map_eq_some_iff.mp ht
    exact h.resume hi hd'
  | cancelTimer =>
    obtain ⟨d', hd', rfl⟩ := Option.map_eq_some_iff.mp ht
    exact h.cancelTimer hi hd'
  | test =>
    obtain ⟨d', hd', rfl⟩ := Option.map_eq_some_iff.mp ht
    exact h.test hi hd'

/-! ## Timers and callbacks -/

/-- A call on other timers. -/
theorem Protected.timer (h : s.Protected fd) {c : TimerCall Callback} {m : TimerManager Callback}
    (hforeign : s.Foreign c) (hfresh : s.manager.Fresh c) (hm : s.manager.step c = some m) :
    Protected fd { s with manager := m } := by
  have hc : ∀ fuel now now', c ≠ .listExpiredCb fuel now now' := by
    rintro fuel now now' rfl
    exact hforeign
  refine h.change rfl h.agree rfl rfl (h.timers.step hfresh hm) (fun _ hk => hk) fun k d hk hg => ?_
  refine hg.keep fun u hu => h.timers.keeps_of_step hm hc (hg.owned u hu).1 fun hcu => ?_
  have hmem := List.mem_of_getElem? hk
  cases c with
  | addTimer _ _ _ _ | getNextTimer _ | listExpiredCb _ _ _ => cases hcu
  | cancel v | refresh _ v | reset _ v _ _ =>
    obtain rfl := Option.some.inj hcu
    exact hforeign d hmem hu

theorem mem_timeouts {cbs : List (Option Callback)} (h : some (.timeout i) ∈ cbs) :
    i ∈ Callback.timeouts cbs :=
  List.mem_filterMap.mpr ⟨some (.timeout i), h, rfl⟩

/-- **Expiry** takes a timer out of the set only to hand its callback over. -/
theorem Protected.listExpiredCb (h : s.Protected fd) {fuel : ℕ} {now now' : ℤ}
    {cbs : List (Option Callback)} {m : TimerManager Callback}
    (hfresh : s.manager.Fresh (.listExpiredCb fuel now now'))
    (hm : s.manager.listExpiredCb fuel now now' = some (cbs, m)) :
    Protected fd { s with
      manager := m
      collected := s.collected ++ Callback.timeouts cbs } := by
  refine h.change rfl h.agree rfl rfl (h.timers.listExpiredCb hfresh hm) (fun _ hk => hk)
    fun k d hk hg => ?_
  have hexpires := TimerManager.expires_listExpiredCb hm
  apply hg.transfer
  · intro u hu hlt
    exact ⟨(hexpires u).count_eq ▸ hlt, (hexpires u).cb⟩
  · intro u hu _ hcover
    refine hcover.imp_left fun ⟨hflag, hlive⟩ => ⟨hflag, ?_⟩
    rcases hlive with hmem | hmem
    · rcases (hexpires u).mem hmem with ⟨hmem', -⟩ | hcb
      · exact .inl hmem'
      · obtain ⟨hlt, howned⟩ := hg.owned u hu
        obtain ⟨cb, hsome⟩ := Option.ne_none_iff_exists'.mp ((h.timers.kept.2 u hlt).mpr hmem)
        rw [hsome, howned cb hsome] at hcb
        exact .inr (List.mem_append_right _ (mem_timeouts hcb))
    · exact .inr (List.mem_append_left _ hmem)
  · exact id
  · intro _ _ hf
    exact hf

/-- A callback starts: the flag is not set if it goes on. -/
theorem Protected.runCb (h : s.Protected fd) (hi : s.calls[i]? = some d) :
    (s.runCb i d).Protected fd := by
  refine h.change rfl h.agree rfl rfl h.timers (fun _ hk => hk) fun k d' hk hg => ?_
  apply hg.transfer
  · intro u _ hu
    exact ⟨hu, .inl rfl⟩
  · intro u hu hdone hcover
    have hdeciding : ∀ x ∈ s.deciding, x ∈ (s.runCb i d).deciding := by
      intro x hx
      unfold Hook.runCb
      split_ifs
      · exact hx
      · exact List.mem_cons_of_mem _ hx
    rcases hcover with ⟨hflag, hmem | hmem⟩ | hmem | hmem
    · exact .inl ⟨hflag, .inl hmem⟩
    · by_cases hki : k = i
      · subst hki
        obtain rfl := Option.some.inj (hi.symm.trans hk)
        refine .inr (.inl ?_)
        have hgo : ¬ (d.isDone || d.cancelled) = true := by simp [hdone, hflag]
        rw [Hook.runCb, if_neg hgo]
        exact List.mem_cons_self
      · exact .inl ⟨hflag, .inr ((List.mem_erase_of_ne hki).mpr hmem)⟩
    · exact .inr (.inl (hdeciding k hmem))
    · exact .inr (.inr hmem)
  · exact id
  · intro _ _ hf
    exact hf

/-- A callback sets the flag, and goes on to `cancelEvent`. -/
theorem Protected.setCancelled (h : s.Protected fd) (hi : s.calls[i]? = some d) :
    (s.setCancelled i d).Protected fd := by
  have hlt : i < s.calls.length := (List.getElem?_eq_some_iff.mp hi).1
  refine ⟨h.agree, h.isOpen, h.closing, h.timers, fun k hk => ?_, fun k d' hk => ?_⟩
  · rw [Hook.setCancelled, Hook.setCall, List.length_set]
    rcases List.mem_cons.mp hk with rfl | hk
    · exact hlt
    · exact h.named k hk
  · rcases getElem?_set_eq_some hk with ⟨rfl, rfl⟩ | ⟨hki, hk⟩
    · have hg := h.guards k d hi
      have hcover : ∀ u, (s.setCancelled k d).Covered k { d with cancelled := true } u := fun u =>
        .inr (.inr List.mem_cons_self)
      exact ⟨hg.owned, hg.armed, fun _ => rfl, fun _ _ u _ => hcover u, fun _ _ _ u _ => hcover u⟩
    · apply (h.guards k d' hk).transfer
      · intro u _ hu
        exact ⟨hu, .inl rfl⟩
      · intro u _ _ hcover
        rcases hcover with hlive | hmem | hmem
        · exact .inl hlive
        · exact .inr (.inl ((List.mem_erase_of_ne hki).mpr hmem))
        · exact .inr (.inr (List.mem_cons_of_mem _ hmem))
      · intro hmem
        exact (List.mem_cons.mp hmem).resolve_left hki
      · intro _ _ hf
        exact hf

/-- **`cancelEvent`** wakes the call if it is registered. -/
theorem Protected.cancelEvent (h : s.Protected fd) (hi : s.calls[i]? = some d)
    (hmem : i ∈ s.cancelling) {r : Bool} {io : IOManager}
    (hr : IOManager.cancelEvent (s.answer fd) fd d.event s.io = .ok r io) :
    Protected fd { s with io := io, cancelling := s.cancelling.erase i } := by
  obtain ⟨hat, hctx⟩ := h.agree.cancelEvent h.vacant_of_closed hr
  refine h.change rfl hat rfl rfl h.timers (fun _ hk => List.mem_of_mem_erase hk)
    fun k d' hk hg => ?_
  have hfiber : ∀ ticket, (io.eventContext fd d'.event).fiber = some ticket →
      d'.event ≠ d.event ∧ (s.io.eventContext fd d'.event).fiber = some ticket := by
    intro ticket hf
    rw [hctx] at hf
    by_cases hevent : d'.event = d.event
    · rw [hevent, Function.update_self] at hf
      cases hf
    · rw [Function.update_of_ne hevent] at hf
      exact ⟨hevent, hf⟩
  by_cases hki : k = i
  · subst hki
    obtain rfl := Option.some.inj (hi.symm.trans hk)
    refine ⟨hg.owned, hg.armed, fun hk => hg.flagged (List.mem_of_mem_erase hk), ?_, ?_⟩
    · intro _ hflag
      rw [hg.flagged hmem] at hflag
      cases hflag
    · intro serial _ hf
      exact absurd rfl (hfiber _ hf).1
  · apply hg.transfer
    · intro u _ hu
      exact ⟨hu, .inl rfl⟩
    · intro u _ _ hcover
      exact hcover.imp_right fun hmem => hmem.imp_right (List.mem_erase_of_ne hki).mpr
    · exact List.mem_of_mem_erase
    · intro ticket _ hf
      exact (hfiber ticket hf).2

theorem Protected.dispatch (h : s.Protected fd) {ready : Ready} {io : IOManager}
    (hr : IOManager.dispatch (s.answer fd) fd ready s.io = .ok () io) :
    Protected fd { s with io := io } := by
  obtain ⟨hat, hremoves⟩ := h.agree.dispatch h.vacant_of_closed hr
  refine h.change rfl hat rfl rfl h.timers (fun _ hk => hk) fun k d' hk hg =>
    hg.register fun ticket _ hf => ?_
  rcases hremoves d'.event with heq | hempty
  · rwa [heq] at hf
  · rw [hempty] at hf
    cases hf

/-! ## Runs -/

/-- The registrations, the timers, the callbacks and the calls are as before. -/
theorem Protected.congr (h : s.Protected fd) (hio : t.io = s.io) (hopen : t.isOpen = s.isOpen)
    (hclosing : t.closing = s.closing) (hcalls : t.calls = s.calls)
    (hmanager : t.manager = s.manager) (hcollected : t.collected = s.collected)
    (hdeciding : t.deciding = s.deciding) (hcancelling : t.cancelling = s.cancelling) :
    t.Protected fd := by
  refine h.change hcalls (hio ▸ h.agree) hopen hclosing (hmanager ▸ h.timers) ?_
    fun k d _ hg => hg.congr hio hmanager hcollected hdeciding hcancelling
  rw [hcancelling]
  exact fun _ hk => hk

/-- A new call waits for nothing. -/
theorem begin_place (ctx : Option FdCtx) (event : Event) :
    (DoIo.begin ctx event).place ≠ .armed ∧ (DoIo.begin ctx event).place.serial? = none := by
  unfold DoIo.begin
  dsimp only
  split
  · exact ⟨by simp, rfl⟩
  · split_ifs <;> exact ⟨by simp, rfl⟩

theorem Protected.call (h : s.Protected fd) (event : Event) :
    Protected fd { s with calls := s.calls ++ [DoIo.begin s.ctx event] } := by
  refine ⟨h.agree, h.isOpen, h.closing, h.timers, fun k hk => ?_, fun k d hk => ?_⟩
  · rw [List.length_append]
    exact Nat.lt_add_right _ (h.named k hk)
  · by_cases hlt : k < s.calls.length
    · rw [List.getElem?_append_left hlt] at hk
      exact (h.guards k d hk).congr rfl rfl rfl rfl rfl
    · rw [List.getElem?_append_right (Nat.not_lt.mp hlt)] at hk
      obtain rfl := List.mem_singleton.mp (List.mem_of_getElem? hk)
      obtain ⟨hplace, hserial⟩ := begin_place s.ctx event
      constructor
      · intro u hu
        cases hu
      · rintro (harmed | hne)
        · exact absurd harmed hplace
        · exact absurd hserial hne
      · intro hmem
        exact absurd (h.named k hmem) hlt
      · intro harmed
        exact absurd harmed hplace
      · intro serial hs
        rw [hserial] at hs
        cases hs

/-- **One step** leaves every waiting call covered. -/
theorem Protected.step (h : s.Protected fd) {a : Act} (hg : s.Timely a ∧ s.Heeded a)
    (ht : Hook.step fd s a = some t) : t.Protected fd := by
  obtain ⟨htimely, hheeded⟩ := hg
  cases a with
  | call event =>
    obtain rfl := Option.some.inj ht
    exact h.call event
  | io i a =>
    obtain ⟨d, hi, ht⟩ := Option.bind_eq_some_iff.mp ht
    exact h.stepIo hi htimely hheeded ht
  | timer c =>
    simp only [Hook.step] at ht
    split_ifs at ht with hforeign
    obtain ⟨m, hm, rfl⟩ := Option.map_eq_some_iff.mp ht
    exact h.timer hforeign htimely hm
  | listExpiredCb fuel now now' =>
    obtain ⟨⟨cbs, m⟩, hm, rfl⟩ := Option.map_eq_some_iff.mp ht
    exact h.listExpiredCb htimely hm
  | runCb i =>
    simp only [Hook.step] at ht
    split_ifs at ht
    obtain ⟨d, hi, rfl⟩ := Option.map_eq_some_iff.mp ht
    exact h.runCb hi
  | setCancelled i =>
    simp only [Hook.step] at ht
    split_ifs at ht
    obtain ⟨d, hi, rfl⟩ := Option.map_eq_some_iff.mp ht
    exact h.setCancelled hi
  | cancelEvent i =>
    obtain ⟨hmem, d, r, io, hi, hr, rfl⟩ := of_cancelEvent ht
    exact h.cancelEvent hi hmem hr
  | dispatch ready =>
    obtain ⟨io, hr, rfl⟩ := of_dispatch ht
    exact h.dispatch hr
  | close => exact htimely.elim
  | cancelAll | del | close_f =>
    simp only [Hook.step, h.closing] at ht
    cases ht
  | socket_f =>
    simp only [Hook.step, h.isOpen] at ht
    cases ht
  | get isSocket =>
    simp only [Hook.step, h.isOpen, if_true] at ht
    obtain rfl := Option.some.inj ht
    exact h.congr rfl h.isOpen.symm rfl rfl rfl rfl rfl rfl
  | setTimeout type v | setUserNonblock v =>
    obtain rfl := Option.some.inj ht
    exact h.congr rfl rfl rfl rfl rfl rfl rfl rfl

theorem protected_start {io : IOManager} (hio : io.At fd) (now : ℤ) (ctx : Option FdCtx) :
    (start io now ctx).Protected fd where
  agree := hio
  isOpen := rfl
  closing := rfl
  timers := TimerManager.inv_construct now
  named := fun i hi => by cases hi
  guards := fun i d hi => by cases hi

/-- **A finite timeout always protects a parked operation**, in a run in which every call whose flag
is set before it registers its event is still to be cancelled: in every state reached, a parked call
with a timeout is not registered any more, or its timer is pending, or its callback is on its way. -/
theorem not_stranded_of_exec {io : IOManager} {now : ℤ} {ctx : Option FdCtx} {acts : List Act}
    (hio : io.At fd)
    (hg : Guarded (step fd) (fun s a => s.Timely a ∧ s.Heeded a) (start io now ctx) acts)
    (h : exec (step fd) (start io now ctx) acts = some s) (i : ℕ) : ¬ s.Stranded fd i := by
  have hs : s.Protected fd := exec_invariant_of_guarded (I := Protected fd)
    (fun _ _ _ hi hg ht => hi.step hg ht) (protected_start hio now ctx) hg h
  exact hs.not_stranded i

/-- A `recv` with a timeout of 10 ms is parked, and its timer expires. -/
theorem not_stranded_of_exec_expired :
    ∃ s, exec (step 5) (start IOManager.construct 0 (some (.construct true)))
        [.setTimeout .read 10, .call .read, .io 0 (.raw .eagain), .io 0 (.addConditionTimer 0),
          .timer (.addTimer 1 20 .other true), .io 0 (.addEvent true), .io 0 .yield,
          .listExpiredCb 3 10000000 10000000, .runCb 0] = some s ∧
      ∀ i, ¬ s.Stranded 5 i := by
  obtain ⟨s, hs⟩ : ∃ s, exec (step 5) (start IOManager.construct 0 (some (.construct true)))
      [.setTimeout .read 10, .call .read, .io 0 (.raw .eagain), .io 0 (.addConditionTimer 0),
        .timer (.addTimer 1 20 .other true), .io 0 (.addEvent true), .io 0 .yield,
        .listExpiredCb 3 10000000 10000000, .runCb 0] = some s := ⟨_, rfl⟩
  exact ⟨s, hs, not_stranded_of_exec (IOManager.at_construct 5) (by decide) hs⟩

/-- The timer of a `recv` expires, and its callback runs on another worker, before the call comes to
`addEvent`. -/
theorem stranded_by_early_timer :
    ¬ ∀ (fd : ℕ) (io : IOManager) (now : ℤ) (ctx : Option FdCtx) (acts : List Act) (s : Hook),
      io.At fd → Guarded (step fd) Timely (start io now ctx) acts →
        exec (step fd) (start io now ctx) acts = some s → ∀ i, ¬ s.Stranded fd i := by
  intro hall
  obtain ⟨s, hs, hcalls, hfiber, htimers, hcollected, hdeciding, hcancelling⟩ :
      ∃ s, exec (step 5) (start IOManager.construct 0 (some (.construct true)))
        [.setTimeout .read 10, .call .read, .io 0 (.raw .eagain), .io 0 (.addConditionTimer 0),
          .listExpiredCb 2 10000000 10000000, .runCb 0, .setCancelled 0, .cancelEvent 0,
          .io 0 (.addEvent true), .io 0 .yield] = some s ∧
        s.calls = [⟨.read, 10, some 0, true, .parked 0, true, false, false⟩] ∧
        (s.io.eventContext 5 .read).fiber = some ⟨0, 0⟩ ∧ s.manager.timers = [] ∧
        s.collected = [] ∧ s.deciding = [] ∧ s.cancelling = [] :=
    ⟨_, rfl, rfl, rfl, rfl, rfl, rfl, rfl⟩
  refine hall 5 _ 0 _ _ s (IOManager.at_construct 5) (by decide) hs 0
    ⟨⟨.read, 10, some 0, true, .parked 0, true, false, false⟩, ?_, 0, rfl, by decide, hfiber, ?_, ?_⟩
  · rw [hcalls]
    rfl
  · intro t _
    rw [htimers]
    exact List.not_mem_nil
  · rw [hcollected, hdeciding, hcancelling]
    exact ⟨List.not_mem_nil, List.not_mem_nil, List.not_mem_nil⟩

end Hook

end Dag
