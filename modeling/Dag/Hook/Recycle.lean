import Dag.Hook.DoIo

/-!
# No raw call behind a close

A call of `do_io` that is suspended on a descriptor, which it is from its successful `addEvent` on,
while another fiber closes it finds out by no
means that the descriptor is not its own any more: the flag `m_isClosed` of the `FdCtx` is set
nowhere, and `do_io` does not test it behind `yield`. The call returns without a further raw call if
its timeout is what has resumed it; else it goes back to `retry`, with the same number, which may
belong to another connection by then.

## Main definitions

* `DoIo.Heedful`: the call makes no raw call behind a `close`, and returns -1
* `Hook.TimesOut`: the condition on a step under which that is so

## Main results

* `Hook.heedful_of_exec`: the condition on all steps of a run is enough
* `Hook.late_of_not_timesOut`: a step that does not meet it leads to a late raw call
* `Hook.late_after_close`: a call resumed by the `cancelAll` of `close` reads from the next connection
-/

namespace Dag

open Foundation

namespace DoIo

/-- **The call heeds a close**: it has made no raw call since a `close` that it was suspended at has
returned, and it has returned -1 if it has returned since. -/
def Heedful (d : DoIo) : Prop :=
  d.caught = true → d.late = false ∧ ∀ n, d.place = .done n → n = -1

/-- What carries `Heedful` along a run: a call that was suspended is not a single raw call, and one
that is caught does not come to a raw call. -/
structure Careful (d : DoIo) : Prop where
  late : d.late = false
  suspended : d.suspended = true → d.place ≠ .plain
  caught : d.caught = true →
    d.place ≠ .plain ∧ d.place ≠ .retry ∧ ∀ n, d.place = .done n → n = -1

variable {d d' : DoIo}

theorem Careful.heedful (h : d.Careful) : d.Heedful :=
  fun hc => ⟨h.late, (h.caught hc).2.2⟩

theorem careful_begin (ctx : Option FdCtx) (event : Event) : (begin ctx event).Careful := by
  constructor
  · rfl
  · intro h
    cases h
  · intro h
    cases h

/-- A call that goes to a place where no raw call is made, and from which it does not return but
by -1. -/
theorem Careful.goTo (h : d.Careful) (hlate : d'.late = d.late)
    (hplain : d'.place ≠ .plain) (hretry : d'.place ≠ .retry)
    (hdone : ∀ n, d'.place = .done n → n = -1) : d'.Careful := by
  constructor
  · rw [hlate, h.late]
  · intro _
    exact hplain
  · intro _
    exact ⟨hplain, hretry, hdone⟩

/-- A raw call is made by calls that are not caught only. -/
theorem Careful.raw (h : d.Careful) {r : RawResult} (hd : d.raw r = some d') : d'.Careful := by
  unfold DoIo.raw at hd
  have hfree : d.caught = false → (d.late || d.caught) = false := by
    intro hc
    rw [h.late, hc]
    rfl
  split at hd
  · rename_i hplace
    obtain rfl := Option.some.inj hd
    have hc : d.caught = false := eq_false_of_ne_true fun hc => (h.caught hc).1 hplace
    refine ⟨hfree hc, fun hs => absurd hplace (h.suspended hs), fun hc' => ?_⟩
    exact absurd (hc'.symm.trans hc) Bool.noConfusion
  · rename_i hplace
    obtain rfl := Option.some.inj hd
    have hc : d.caught = false := eq_false_of_ne_true fun hc => (h.caught hc).2.1 hplace
    refine ⟨hfree hc, fun _ => ?_, fun hc' => absurd (hc'.symm.trans hc) Bool.noConfusion⟩
    cases r <;> exact IoAt.noConfusion
  · cases hd

theorem Careful.yield (h : d.Careful) (hd : d.yield = some d') : d'.Careful := by
  unfold DoIo.yield at hd
  split at hd
  · obtain rfl := Option.some.inj hd
    refine h.goTo rfl ?_ ?_ ?_ <;> simp
  · cases hd

theorem Careful.resume (h : d.Careful) {pushed : List Pushed} (hd : d.resume pushed = some d') :
    d'.Careful := by
  unfold DoIo.resume at hd
  split at hd
  · split_ifs at hd
    obtain rfl := Option.some.inj hd
    refine h.goTo rfl ?_ ?_ ?_ <;> simp
  · cases hd

theorem Careful.cancelTimer (h : d.Careful) (hd : d.cancelTimer = some d') : d'.Careful := by
  unfold DoIo.cancelTimer at hd
  split at hd
  · obtain rfl := Option.some.inj hd
    refine h.goTo rfl ?_ ?_ ?_ <;> simp
  · obtain rfl := Option.some.inj hd
    refine h.goTo rfl ?_ ?_ ?_ <;> simp
  · cases hd

/-- The test of the flag lets a call back to `retry`, which must not be caught then. -/
theorem Careful.test (h : d.Careful) (hc : d.caught = true → d.cancelled = true)
    (hd : d.test = some d') : d'.Careful := by
  unfold DoIo.test at hd
  split at hd
  · obtain rfl := Option.some.inj hd
    cases hflag : d.cancelled with
    | true => refine h.goTo rfl ?_ ?_ ?_ <;> simp
    | false =>
      have hfree : d.caught ≠ true := fun hcaught => by rw [hc hcaught] at hflag; cases hflag
      exact ⟨h.late, fun _ => by simp, fun hcaught => absurd hcaught hfree⟩
  · cases hd

/-- A `close` returns while the call, if it has been suspended, does not make a raw call. -/
theorem Careful.closed (h : d.Careful) (hs : d.suspended = true → d.place ≠ .retry) :
    d.closed.Careful := by
  refine ⟨h.late, h.suspended, fun hc => ?_⟩
  rcases Bool.or_eq_true_iff.mp hc with hc | hc
  · exact h.caught hc
  · obtain ⟨hsus, hdone⟩ := Bool.and_eq_true_iff.mp hc
    refine ⟨h.suspended hsus, hs hsus, fun n hn => ?_⟩
    rw [isDone, show d.place = .done n from hn] at hdone
    cases hdone

end DoIo

namespace Hook

variable {fd i : ℕ} {s t : Hook} {d : DoIo}

/-- **A caught call has timed out**: the call that tests its flag finds it set, if a `close` has
returned since the call was suspended; and `close_f` is not called while a call that was suspended is
between this test and the end of its raw calls. -/
def TimesOut (s : Hook) : Act → Prop
  | .io i .test => ∀ d ∈ s.calls[i]?, d.caught = true → d.cancelled = true
  | .close_f => ∀ d ∈ s.calls, d.suspended = true → d.place ≠ .retry
  | _ => True

instance (s : Hook) : DecidablePred s.TimesOut
  | .io i .test =>
    inferInstanceAs (Decidable (∀ d ∈ s.calls[i]?, d.caught = true → d.cancelled = true))
  | .close_f =>
    inferInstanceAs (Decidable (∀ d ∈ s.calls, d.suspended = true → d.place ≠ .retry))
  | .io _ (.raw _) | .io _ (.addConditionTimer _) | .io _ (.addEvent _) | .io _ .yield
  | .io _ .resume | .io _ .cancelTimer | .call _ | .timer _ | .listExpiredCb .. | .runCb _
  | .setCancelled _ | .cancelEvent _ | .dispatch _ | .close | .cancelAll | .del | .socket_f | .get _
  | .setTimeout .. | .setUserNonblock _ => inferInstanceAs (Decidable True)

/-- Every call is careful. -/
def Careful (s : Hook) : Prop := ∀ d ∈ s.calls, d.Careful

theorem Careful.setCall (h : s.Careful) {d : DoIo} (hd : d.Careful) (i : ℕ) :
    (s.setCall i d).Careful := by
  intro d' hd'
  rcases List.mem_or_eq_of_mem_set hd' with hd' | rfl
  · exact h d' hd'
  · exact hd

/-- A step of the call `i`. -/
theorem Careful.stepIo (h : s.Careful) {a : IoAct} (hi : s.calls[i]? = some d)
    (hg : s.TimesOut (.io i a)) (ht : s.stepIo fd i d a = some t) : t.Careful := by
  have hd := h d (List.mem_of_getElem? hi)
  cases a with
  | raw r =>
    obtain ⟨d', hd', rfl⟩ := Option.map_eq_some_iff.mp ht
    exact h.setCall (hd.raw hd') i
  | addConditionTimer now =>
    simp only [Hook.stepIo] at ht
    split_ifs at ht with hplace
    obtain rfl := Option.some.inj ht
    unfold arm
    split_ifs
    · apply h.setCall
      refine hd.goTo rfl ?_ ?_ ?_ <;> simp
    · have hs : Careful { s with
          manager := (s.manager.addTimer now d.timeout (some (.timeout i)) false).2 } := h
      apply hs.setCall
      refine hd.goTo rfl ?_ ?_ ?_ <;> simp
  | addEvent accepted =>
    obtain ⟨-, r, io, -, rfl⟩ := of_addEvent ht
    unfold added
    split_ifs
    · have hs : Careful { s with io := io, vacated := false } := h
      apply hs.setCall
      refine hd.goTo rfl ?_ ?_ ?_ <;> simp
    · have hs : Careful { s with io := io } := h
      apply hs.setCall
      refine hd.goTo rfl ?_ ?_ ?_ <;> simp
  | yield =>
    obtain ⟨d', hd', rfl⟩ := Option.map_eq_some_iff.mp ht
    exact h.setCall (hd.yield hd') i
  | resume =>
    obtain ⟨d', hd', rfl⟩ := Option.map_eq_some_iff.mp ht
    exact h.setCall (hd.resume hd') i
  | cancelTimer =>
    obtain ⟨d', hd', rfl⟩ := Option.map_eq_some_iff.mp ht
    have hs : (s.disarm d).Careful := by
      unfold disarm
      split <;> exact h
    exact hs.setCall (hd.cancelTimer hd') i
  | test =>
    obtain ⟨d', hd', rfl⟩ := Option.map_eq_some_iff.mp ht
    exact h.setCall (hd.test (hg d hi) hd') i

/-- **One step** leaves every call careful. -/
theorem Careful.step (h : s.Careful) {a : Act} (hg : s.TimesOut a) (ht : Hook.step fd s a = some t) :
    t.Careful := by
  cases changesCalls_of_step ht with
  | begun event hcalls =>
    unfold Careful
    rw [hcalls]
    intro d hd
    rcases List.mem_append.mp hd with hd | hd
    · exact h d hd
    · obtain rfl := List.mem_singleton.mp hd
      exact DoIo.careful_begin s.ctx event
  | stepped hi hio => exact h.stepIo hi hg hio
  | @flagged i d hi hcalls =>
    obtain ⟨hlate, hsus, hcaught⟩ := h d (List.mem_of_getElem? hi)
    have hd : DoIo.Careful { d with cancelled := true } := ⟨hlate, hsus, hcaught⟩
    unfold Careful
    rw [hcalls]
    exact h.setCall hd i
  | closed hcalls =>
    unfold Careful
    rw [hcalls]
    intro d' hd'
    obtain ⟨d, hd, rfl⟩ := List.mem_map.mp hd'
    exact (h d hd).closed (hg d hd)
  | kept hcalls =>
    unfold Careful
    rw [hcalls]
    exact h

/-- **No IO on a recycled descriptor**, in a run in which every call that a `close` has caught times
out: whatever the calls, the closes and the new owners of the number do otherwise, no call makes a
raw call behind a `close` that it was suspended at, and it returns -1. -/
theorem heedful_of_exec {io : IOManager} {now : ℤ} {ctx : Option FdCtx} {acts : List Act}
    (hg : Guarded (step fd) TimesOut (start io now ctx) acts)
    (h : exec (step fd) (start io now ctx) acts = some s) : ∀ d ∈ s.calls, d.Heedful := by
  have hstart : (start io now ctx).Careful := fun d hd => by cases hd
  have hs : s.Careful := exec_invariant_of_guarded (I := Careful)
    (fun _ _ _ hi hg ht => hi.step hg ht) hstart hg h
  exact fun d hd => (hs d hd).heedful

/-- A caught call at `retry` makes its raw call too late. -/
theorem late_of_retry (hi : s.calls[i]? = some d) (hc : d.caught = true) (hr : d.place = .retry) :
    ∃ t, step fd s (.io i (.raw (.other 0))) = some t ∧ ¬ ∀ d ∈ t.calls, d.Heedful := by
  have hraw : d.raw (.other 0) = some { d with place := .done 0, late := d.late || d.caught } := by
    simp [DoIo.raw, hr]
  refine ⟨s.setCall i { d with place := .done 0, late := d.late || d.caught }, ?_, fun hall => ?_⟩
  · rw [step, hi, Option.bind_some, stepIo, hraw]
    rfl
  · have hmem := List.mem_set (l := s.calls) (List.getElem?_eq_some_iff.mp hi).1
      { d with place := .done 0, late := d.late || d.caught }
    have hlate : (d.late || d.caught) = false := (hall _ hmem hc).1
    rw [hc, Bool.or_true] at hlate
    cases hlate

/-- **The condition is exact**: after a step that does not meet it, some call needs only its next raw
call to be late. -/
theorem late_of_not_timesOut {a : Act} (hg : ¬ s.TimesOut a) (ht : step fd s a = some t) :
    ∃ i u, step fd t (.io i (.raw (.other 0))) = some u ∧ ¬ ∀ d ∈ u.calls, d.Heedful := by
  unfold TimesOut at hg
  split at hg
  · rename_i i
    obtain ⟨d, hi, hg⟩ : ∃ d, s.calls[i]? = some d ∧ ¬ (d.caught = true → d.cancelled = true) := by
      by_contra hcon
      exact hg fun d hi => by_contra fun hd => hcon ⟨d, hi, hd⟩
    obtain ⟨hc, hflag⟩ := Classical.not_imp.mp hg
    rw [step, hi, Option.bind_some] at ht
    obtain ⟨d', hd', rfl⟩ := Option.map_eq_some_iff.mp ht
    unfold DoIo.test at hd'
    split at hd'
    · obtain rfl := Option.some.inj hd'
      refine ⟨i, late_of_retry (List.getElem?_set_self (List.getElem?_eq_some_iff.mp hi).1) hc ?_⟩
      simp [hflag]
    · cases hd'
  · obtain ⟨d, hd, hsus, hr⟩ : ∃ d ∈ s.calls, d.suspended = true ∧ d.place = .retry := by
      by_contra hcon
      exact hg fun d hd hsus hr => hcon ⟨d, hd, hsus, hr⟩
    obtain ⟨i, hi⟩ := List.mem_iff_getElem?.mp hd
    simp only [step] at ht
    split_ifs at ht
    obtain rfl := Option.some.inj ht
    have hi' : (s.closed fd).calls[i]? = some d.closed := by
      rw [closed, List.getElem?_map, hi, Option.map_some]
    refine ⟨i, late_of_retry hi' ?_ hr⟩
    simp [DoIo.closed, DoIo.isDone, hsus, hr]
  · exact absurd trivial hg

/-- A `recv` with a timeout of 10 ms is suspended, its timer expires, and then the descriptor is
closed and its number given again. -/
def timedOut : List Act :=
  [.setTimeout .read 10, .call .read, .io 0 (.raw .eagain), .io 0 (.addConditionTimer 0),
    .io 0 (.addEvent true), .io 0 .yield, .listExpiredCb 2 10000000 10000000, .runCb 0,
    .setCancelled 0, .cancelEvent 0, .close, .cancelAll, .del, .close_f, .socket_f, .get true,
    .io 0 .resume, .io 0 .cancelTimer, .io 0 .test]

theorem heedful_of_exec_timed_out :
    ∃ s, exec (step 5) (start IOManager.construct 0 (some (.construct true))) timedOut = some s ∧
      (∀ d ∈ s.calls, d.Heedful) ∧
      s.calls.map (fun d => (d.caught, d.place)) = [(true, .done (-1))] := by
  obtain ⟨s, hs, hcalls⟩ : ∃ s, exec (step 5) (start IOManager.construct 0 (some (.construct true)))
      timedOut = some s ∧ s.calls.map (fun d => (d.caught, d.place)) = [(true, .done (-1))] :=
    ⟨_, rfl, rfl⟩
  exact ⟨s, hs, heedful_of_exec (by decide) hs, hcalls⟩

/-- A `recv` without a timeout is suspended, and resumed by the `cancelAll` of `close`; when it runs,
its number has been given to another connection, from which it reads. -/
theorem late_after_close :
    ¬ ∀ (fd : ℕ) (io : IOManager) (now : ℤ) (ctx : Option FdCtx) (acts : List Act) (s : Hook),
      exec (step fd) (start io now ctx) acts = some s → ∀ d ∈ s.calls, d.Heedful := by
  intro hall
  have hrun : ∃ s, exec (step 5) (start IOManager.construct 0 (some (.construct true)))
      [.call .read, .io 0 (.raw .eagain), .io 0 (.addConditionTimer 0), .io 0 (.addEvent true),
        .io 0 .yield, .close, .cancelAll, .del, .close_f, .socket_f, .get true, .io 0 .resume,
        .io 0 .cancelTimer, .io 0 .test, .io 0 (.raw (.other 7))] = some s ∧
      s.calls = [⟨.read, 2 ^ 64 - 1, none, false, .done 7, true, true, true⟩] := ⟨_, rfl, rfl⟩
  obtain ⟨s, hs, hcalls⟩ := hrun
  have hd := hall 5 _ 0 _ _ s hs ⟨.read, 2 ^ 64 - 1, none, false, .done 7, true, true, true⟩
    (by rw [hcalls]; exact List.mem_singleton_self _) rfl
  exact absurd hd.1 (by decide)

end Hook

end Dag
