import Dag.Hook.Sleepers
import Dag.Timer.Clock

/-!
# Sleeping fibers do not wake early

The callback of a sleep comes out of the timers when its deadline has come, and the deadline is not
before the time until which the fiber has asked to sleep. What is on the way to a resume from then
on is behind that time, as long as the clock does not go back.

## Main definitions

* `Sleepers.Punctual`: the invariant

## Main results

* `Sleepers.Punctual.step`: every step keeps the invariant
* `Sleepers.punctual_of_exec`: no sleep returns early
-/

namespace Dag

open Foundation

namespace Sleepers

variable {n : ℕ} {s t : Sleepers n} {w : Fin n} {f g : ℕ} {a : Act n}

/-- The step may put the fiber on its way to a resume: a launch, or expiry of its timer. -/
def Brings (f : ℕ) : Act n → Prop
  | .launch g => g = f
  | .listExpiredCb .. => True
  | _ => False

theorem carried_le_of_step (ht : s.step a = some t) (hbrings : ¬ Brings f a) :
    carried t.tasks t.duty f ≤ carried s.tasks s.duty f := by
  cases a with
  | launch g =>
    obtain rfl := Option.some.inj ht
    have hne : ¬ (SleepTask.fiber g).Wakes f := by
      rintro (h | h)
      · exact hbrings (SleepTask.fiber.inj h)
      · cases h
    have hpush := carried_push s.tasks (.fiber g) s.duty f
    rw [if_neg hne] at hpush
    exact hpush.le
  | post c =>
    obtain rfl := Option.some.inj ht
    have hpush := carried_push s.tasks (.cb (.other c)) s.duty f
    rw [if_neg (by rintro (h | h) <;> cases h)] at hpush
    exact hpush.le
  | dequeue w k =>
    simp only [step] at ht
    split_ifs at ht with hw
    obtain ⟨task, hk, rfl⟩ := Option.map_eq_some_iff.mp ht
    exact (carried_dequeue hw hk f).le
  | resume w =>
    simp only [step] at ht
    split at ht
    · rename_i g hw
      have hset : ∀ d : Duty, d.tokens f = 0 →
          carried s.tasks (Function.update s.duty w d) f ≤ carried s.tasks s.duty f := by
        intro d hd
        have hupd := carried_update s.tasks s.duty w d f
        omega
      split_ifs at ht
      · obtain rfl := Option.some.inj ht
        exact hset (.inside g) rfl
      · obtain rfl := Option.some.inj ht
        exact hset .free rfl
    · cases ht
  | sleep w now c =>
    simp only [step] at ht
    split at ht
    · rename_i g hw
      obtain rfl := Option.some.inj ht
      exact (carried_turned (by rw [hw]; rfl)).le
    · cases ht
  | yield w =>
    simp only [step] at ht
    split at ht
    · rename_i g hw
      obtain rfl := Option.some.inj ht
      exact (carried_turned (by rw [hw]; rfl)).le
    · cases ht
  | finish w =>
    simp only [step] at ht
    split at ht
    · rename_i g hw
      obtain rfl := Option.some.inj ht
      exact (carried_turned (by rw [hw]; rfl)).le
    · cases ht
  | call w =>
    simp only [step] at ht
    split at ht
    · rename_i g hw
      obtain rfl := Option.some.inj ht
      refine (carried_pushed ?_).le
      rw [hw]
      simp [Duty.tokens, SleepTask.Wakes]
    · rename_i c hw
      obtain rfl := Option.some.inj ht
      exact (carried_turned (by rw [hw]; rfl)).le
    · cases ht
  | listExpiredCb w fuel now now' => exact absurd trivial hbrings
  | schedule w =>
    simp only [step] at ht
    split at ht
    · rename_i hw
      obtain rfl := Option.some.inj ht
      exact (carried_turned (by rw [hw]; rfl)).le
    · rename_i cbs hw
      obtain rfl := Option.some.inj ht
      refine (carried_turned ?_).le
      rw [hw]
      simp [Duty.tokens]
    · rename_i c cbs hw
      obtain rfl := Option.some.inj ht
      refine (carried_pushed ?_).le
      rw [hw]
      simp [Duty.tokens, SleepTask.Wakes, List.count_cons]
    · cases ht
  | timer c =>
    simp only [step] at ht
    split_ifs at ht
    obtain ⟨m, -, rfl⟩ := Option.map_eq_some_iff.mp ht
    exact le_rfl

/-- **The invariant**: what is on the way to a resume is behind the time until which its fiber has
asked to sleep, and so are the deadlines of the timers. -/
structure Punctual (s : Sleepers n) : Prop where
  inv : s.Inv
  reading : 0 ≤ s.manager.previouseTime ∧ s.manager.previouseTime ≤ s.clock ∧ s.clock < 2 ^ 63
  unborn : ∀ f, f ∉ s.launched → s.due f ≤ s.clock
  deadline : ∀ t ∈ s.manager.timers, ∀ f, (s.manager.timer t).cb = some (.wake f) →
    s.due f ≤ s.manager.next t
  carried : ∀ f, 0 < Sleepers.carried s.tasks s.duty f → s.due f ≤ s.clock
  woken : ∀ e ∈ s.woken, e.due ≤ e.clock

theorem punctual_start {now : ℤ} (h : 0 ≤ now ∧ now < 2 ^ 63) : (start n now).Punctual where
  inv := inv_start n now
  reading := ⟨h.1, le_rfl, h.2⟩
  unborn := fun _ _ => le_rfl
  deadline := fun _ ht => absurd ht List.not_mem_nil
  carried := fun _ _ => le_rfl
  woken := fun _ he => absurd he List.not_mem_nil

/-- A step that assigns no deadline, and reads no clock. -/
theorem Punctual.moved (h : s.Punctual) (hinv : t.Inv) (hmanager : t.manager = s.manager)
    (hclock : t.clock = s.clock) (hdue : t.due = s.due) (hlaunched : s.launched ⊆ t.launched)
    (hcarried : ∀ f, 0 < Sleepers.carried t.tasks t.duty f →
      0 < Sleepers.carried s.tasks s.duty f ∨ f ∉ s.launched)
    (hwoken : ∀ e ∈ t.woken, e ∈ s.woken ∨
      ∃ f, e = ⟨f, s.due f, s.clock⟩ ∧ 0 < Sleepers.carried s.tasks s.duty f) : t.Punctual := by
  refine ⟨hinv, ?_, fun f hf => ?_, ?_, fun f hf => ?_, fun e he => ?_⟩
  · rw [hmanager, hclock]
    exact h.reading
  · rw [hdue, hclock]
    exact h.unborn f fun hmem => hf (hlaunched hmem)
  · rw [hmanager, hdue]
    exact h.deadline
  · rw [hdue, hclock]
    exact (hcarried f hf).elim (h.carried f) (h.unborn f)
  · rcases hwoken e he with hold | ⟨f, rfl, hpos⟩
    · exact h.woken e hold
    · exact h.carried f hpos

/-- A fiber in its own flow is on its way to no resume. -/
theorem Inv.nothing_carried (h : s.Inv) (hw : s.duty w = .inside f) :
    s.manager.pending (.wake f) = 0 ∧ Sleepers.carried s.tasks s.duty f = 0 := by
  have hzero := h.zero f (h.not_waiting hw)
  rw [Sleepers.tokens] at hzero
  omega

/-- **A sleep**: the deadline of its timer is not before the time until which the fiber is to
sleep. -/
theorem Punctual.sleep (h : s.Punctual) (hw : s.duty w = .inside f) {now : ℤ} {c : SleepCall}
    (hfresh : ∀ u ∈ s.manager.timers, s.manager.next u ≠ addMs now c.ms.toNat)
    (hzero : 0 ≤ now) (hc : c.Accepted) (hfits : c.Fits now) :
    Punctual { s with
      manager := (c.arm s.manager now (.wake f)).2
      clock := max s.clock now
      due := Function.update s.due f (now + c.requested)
      slept := s.slept ++ [f]
      duty := Function.update s.duty w (.armed f) } := by
  obtain ⟨hprev, hread, hclock⟩ := h.reading
  have hnow : now < 2 ^ 63 := by
    have hlt := hfits.2
    omega
  obtain ⟨hpending, hcarried⟩ := h.inv.nothing_carried hw
  have hle : s.clock ≤ max s.clock now := le_max_left ..
  have hlong := ((arm_longEnough_iff s.manager (.wake f) hc hzero hnow).mpr hfits).2
  have hlaunched := h.inv.launched_of_runs (Or.inl hw)
  have hother : ∀ g, g ≠ f → Function.update s.due f (now + c.requested) g = s.due g :=
    fun g hg => Function.update_of_ne hg ..
  refine ⟨h.inv.sleep hw hfresh, ⟨hprev, le_trans hread hle, max_lt hclock hnow⟩, fun g hg => ?_,
    fun u hu g hcb => ?_, fun g hg => ?_, h.woken⟩
  · have hgf : g ≠ f := fun heq => hg (heq ▸ hlaunched)
    exact (hother g hgf).trans_le (le_trans (h.unborn g hg) hle)
  · rcases TimerManager.mem_insertTimer hu with rfl | hin
    · have hself : (c.arm s.manager now (.wake f)).2.timer s.manager.count =
          Timer.construct now c.ms.toNat (some (.wake f)) false := timer_addTimer_self ..
      have hfg : f = g := by
        have hcb : ((c.arm s.manager now (.wake f)).2.timer s.manager.count).cb = some (.wake g) :=
          hcb
        rw [hself] at hcb
        exact SleepCb.wake.inj (Option.some.inj hcb)
      subst hfg
      change Function.update s.due f (now + c.requested) f ≤ _
      rw [Function.update_self]
      exact hlong
    · have hold : (c.arm s.manager now (.wake f)).2.timer u = s.manager.timer u :=
        (TimerManager.keepsTimer_addTimer (h.inv.timers.kept.1 u hin)).timer_eq
      have hcb' : (s.manager.timer u).cb = some (.wake g) := hold ▸ hcb
      have hmem := TimerManager.mem_holders.mpr ⟨hin, hcb'⟩
      have hgf : g ≠ f := by
        rintro rfl
        rw [List.length_eq_zero_iff.mp hpending] at hmem
        cases hmem
      refine (hother g hgf).trans_le ((h.deadline u hin g hcb').trans_eq ?_)
      exact (congrArg Timer.next hold).symm
  · have hturned : Sleepers.carried s.tasks (Function.update s.duty w (.armed f)) g =
        Sleepers.carried s.tasks s.duty g := carried_turned (by rw [hw]; rfl)
    have hpos : 0 < Sleepers.carried s.tasks s.duty g := hturned ▸ hg
    have hgf : g ≠ f := by
      rintro rfl
      omega
    exact (hother g hgf).trans_le (le_trans (h.carried g hpos) hle)

/-- **Expiry**: what is handed over has its deadline behind it. -/
theorem Punctual.listExpiredCb (h : s.Punctual) (hw : s.duty w = .free) {fuel : ℕ} {now now' : ℤ}
    {cbs : List (Option SleepCb)} {m : TimerManager SleepCb}
    (hfresh : s.manager.Fresh (.listExpiredCb fuel now now'))
    (hr : s.manager.listExpiredCb fuel now now' = some (cbs, m))
    (htime : s.clock ≤ now' ∧ now ≤ now' ∧ now' < 2 ^ 63) :
    Punctual { s with
      manager := m
      clock := now'
      duty := Function.update s.duty w (.scheduling cbs) } := by
  obtain ⟨hforward, hle, hlt⟩ := htime
  obtain ⟨hprev, hread, -⟩ := h.reading
  have hdel := TimerManager.delivered_listExpiredCb h.inv.timers.loaded.linked hr
  rw [TimerManager.not_rollover hprev (le_trans hread hforward) hlt] at hdel
  have hset : ∀ g, Sleepers.carried s.tasks (Function.update s.duty w (.scheduling cbs)) g =
      Sleepers.carried s.tasks s.duty g + cbs.count (some (.wake g)) := by
    intro g
    have hupd := carried_update s.tasks s.duty w (.scheduling cbs) g
    rw [hw, Duty.tokens, Duty.tokens] at hupd
    omega
  refine ⟨h.inv.listExpiredCb hw hfresh hr, ?_, fun g hg => ?_, fun u hu g hcb => ?_,
    fun g hg => ?_, h.woken⟩
  · change 0 ≤ m.previouseTime ∧ m.previouseTime ≤ now' ∧ now' < 2 ^ 63
    rw [TimerManager.listExpiredCb_previouseTime hr]
    exact ⟨by omega, le_rfl, hlt⟩
  · exact le_trans (h.unborn g hg) hforward
  · obtain ⟨⟨hmem, hcb⟩, hexp⟩ := (hdel.holds_iff fun t ht hx => h.inv.once t ht g hx).mp ⟨hu, hcb⟩
    change s.due g ≤ m.next u
    rw [TimerManager.next, (hdel.kept u hmem hexp).2]
    exact h.deadline u hmem g hcb
  · change s.due g ≤ now'
    have hg : 0 < Sleepers.carried s.tasks (Function.update s.duty w (.scheduling cbs)) g := hg
    rw [hset] at hg
    by_cases hold : 0 < Sleepers.carried s.tasks s.duty g
    · exact le_trans (h.carried g hold) hforward
    · have hmem : some (.wake g) ∈ cbs := List.count_pos_iff.mp (by omega)
      rw [hdel.cbs_eq] at hmem
      obtain ⟨u, hu, hcb⟩ := List.mem_map.mp hmem
      obtain ⟨hu, hexp⟩ := TimerManager.mem_dueTimers.mp hu
      have hdeadline := h.deadline u hu g hcb
      have hnow := TimerManager.expired_false_iff.mp hexp
      omega

theorem Punctual.timer (h : s.Punctual) {c : TimerCall SleepCb} {m : TimerManager SleepCb}
    (hc : Outside c) (hfresh : s.manager.Fresh c) (hforeign : Foreign s.manager c)
    (hm : s.manager.step c = some m) : Punctual { s with manager := m } := by
  have hnot : ∀ fuel now now', c ≠ .listExpiredCb fuel now now' := by
    rintro fuel now now' rfl
    exact hc
  have hinv := h.inv.timers.step hfresh hm
  refine ⟨h.inv.timer hc hfresh hforeign hm, ?_, h.unborn, fun u hu g hcb => ?_, h.carried, h.woken⟩
  · change 0 ≤ m.previouseTime ∧ m.previouseTime ≤ s.clock ∧ s.clock < 2 ^ 63
    rw [TimerManager.previouseTime_of_step hm hnot]
    exact h.reading
  · obtain ⟨hiff, hsame⟩ := h.inv.timers.holds_iff_of_step (u := u) hm hnot
      (fun t ht => hforeign.1 t ht g) (hforeign.2 g)
    obtain ⟨hlt, hcb⟩ := hiff.mp (hinv.holds_iff.mp ⟨hu, hcb⟩)
    change s.due g ≤ m.next u
    rw [TimerManager.next, hsame hlt hcb]
    exact h.deadline u (h.inv.timers.holds_iff.mpr ⟨hlt, hcb⟩).1 g hcb

/-- The step lemma. -/
theorem Punctual.step (h : s.Punctual) (hcareful : s.Careful a) (htimely : s.Timely a)
    (ht : s.step a = some t) : t.Punctual := by
  have hinv := h.inv.step hcareful ht
  have hcarried : ∀ f, ¬ Brings f a → 0 < Sleepers.carried t.tasks t.duty f →
      0 < Sleepers.carried s.tasks s.duty f := fun f hbrings hf =>
    Nat.lt_of_lt_of_le hf (carried_le_of_step ht hbrings)
  cases a with
  | launch f =>
    obtain rfl := Option.some.inj ht
    refine h.moved hinv rfl rfl rfl (List.subset_append_left _ _) (fun g hg => ?_) fun e => Or.inl
    by_cases hfg : f = g
    · subst hfg
      exact Or.inr hcareful
    · exact Or.inl (hcarried g hfg hg)
  | post c =>
    obtain rfl := Option.some.inj ht
    exact h.moved hinv rfl rfl rfl (fun _ => id) (fun g hg => Or.inl (hcarried g id hg))
      fun _ => Or.inl
  | dequeue w k =>
    simp only [Sleepers.step] at ht
    split_ifs at ht
    obtain ⟨task, -, rfl⟩ := Option.map_eq_some_iff.mp ht
    exact h.moved hinv rfl rfl rfl (fun _ => id) (fun g hg => Or.inl (hcarried g id hg))
      fun _ => Or.inl
  | resume w =>
    simp only [Sleepers.step] at ht
    split at ht
    · rename_i f hw
      split_ifs at ht
      · obtain rfl := Option.some.inj ht
        refine h.moved hinv rfl rfl rfl (fun _ => id)
          (fun g hg => Or.inl (hcarried g id hg)) fun e he => ?_
        rcases List.mem_append.mp he with he | he
        · exact Or.inl he
        · refine Or.inr ⟨f, List.mem_singleton.mp he, ?_⟩
          have hle := le_tally (Duty.tokens f) s.duty w
          rw [hw, Duty.tokens, if_pos rfl] at hle
          rw [Sleepers.carried]
          omega
      · obtain rfl := Option.some.inj ht
        exact h.moved hinv rfl rfl rfl (fun _ => id)
          (fun g hg => Or.inl (hcarried g id hg)) fun _ => Or.inl
    · cases ht
  | sleep w now c =>
    simp only [Sleepers.step] at ht
    split at ht
    · rename_i f hw
      obtain rfl := Option.some.inj ht
      exact h.sleep hw hcareful htimely.1 htimely.2.1 htimely.2.2
    · cases ht
  | yield w | finish w =>
    simp only [Sleepers.step] at ht
    split at ht
    · obtain rfl := Option.some.inj ht
      exact h.moved hinv rfl rfl rfl (fun _ => id) (fun g hg => Or.inl (hcarried g id hg))
        fun _ => Or.inl
    · cases ht
  | call w =>
    simp only [Sleepers.step] at ht
    split at ht
    · obtain rfl := Option.some.inj ht
      exact h.moved hinv rfl rfl rfl (fun _ => id) (fun g hg => Or.inl (hcarried g id hg))
        fun _ => Or.inl
    · obtain rfl := Option.some.inj ht
      exact h.moved hinv rfl rfl rfl (fun _ => id) (fun g hg => Or.inl (hcarried g id hg))
        fun _ => Or.inl
    · cases ht
  | listExpiredCb w fuel now now' =>
    simp only [Sleepers.step] at ht
    split_ifs at ht with hw
    obtain ⟨⟨cbs, m⟩, hr, rfl⟩ := Option.map_eq_some_iff.mp ht
    exact h.listExpiredCb hw hcareful hr htimely
  | schedule w =>
    simp only [Sleepers.step] at ht
    split at ht
    iterate 3
      · obtain rfl := Option.some.inj ht
        exact h.moved hinv rfl rfl rfl (fun _ => id)
          (fun g hg => Or.inl (hcarried g id hg)) fun _ => Or.inl
    · cases ht
  | timer c =>
    simp only [Sleepers.step] at ht
    split_ifs at ht with hc
    obtain ⟨m, hm, rfl⟩ := Option.map_eq_some_iff.mp ht
    exact h.timer hc hcareful.1 hcareful.2 hm

/-- **No sleep returns early.** In every interleaving in which the clock does not go back, the
sleeps are for whole milliseconds that fit, a fiber is put into the queue by others only to start it,
and no two timers have one deadline: whenever a fiber is resumed behind a sleep, a reading of the
clock has been made that is not before the time until which it has asked to sleep. -/
theorem punctual_of_exec {now : ℤ} {as : List (Act n)} (hnow : 0 ≤ now ∧ now < 2 ^ 63)
    (hg : Guarded Sleepers.step (fun s a => s.Careful a ∧ s.Timely a) (start n now) as)
    (hs : exec Sleepers.step (start n now) as = some s) : ∀ e ∈ s.woken, e.due ≤ e.clock := by
  have hpunctual : s.Punctual :=
    exec_invariant_of_guarded (fun _ _ _ h hg ht => Punctual.step h hg.1 hg.2 ht)
      (punctual_start hnow) hg hs
  exact hpunctual.woken

instance : DecidablePred SleepCall.Accepted
  | .sleep _ | .usleep _ => isTrue trivial
  | .nanosleep req => inferInstanceAs (Decidable
      (0 ≤ req.tv_sec.toInt ∧ 0 ≤ req.tv_nsec.toInt ∧ req.tv_nsec.toInt < 10 ^ 9))

instance (now : ℤ) : DecidablePred (SleepCall.Fits now) := fun _ =>
  inferInstanceAs (Decidable (_ ∧ _))

instance (s : Sleepers n) : DecidablePred s.Timely
  | .sleep _ now c => inferInstanceAs (Decidable (0 ≤ now ∧ c.Accepted ∧ c.Fits now))
  | .listExpiredCb _ _ now now' =>
    inferInstanceAs (Decidable (s.clock ≤ now' ∧ now ≤ now' ∧ now' < 2 ^ 63))
  | .launch _ | .post _ | .dequeue .. | .resume _ | .yield _ | .finish _ | .call _ | .schedule _
  | .timer _ => inferInstanceAs (Decidable True)

/-- The fiber is resumed at its start, and when its second has passed. -/
theorem punctual_of_exec_two_workers :
    ∃ s : Sleepers 2, exec Sleepers.step (start 2 0) (sleepOnce 0 1) = some s ∧
      (∀ e ∈ s.woken, e.due ≤ e.clock) ∧ ⟨7, 1000000005, 1000000005⟩ ∈ s.woken := by
  obtain ⟨s, hs⟩ : ∃ s, exec Sleepers.step (start 2 0) (sleepOnce 0 1) = some s := ⟨_, rfl⟩
  refine ⟨s, hs, punctual_of_exec (by decide) (by decide) hs, ?_⟩
  obtain rfl := Option.some.inj hs
  decide

end Sleepers

end Dag
