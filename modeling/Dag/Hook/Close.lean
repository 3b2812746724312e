import Dag.Hook.DoIo

/-!
# Close leaves no waiter

The hooked `close` cancels what waits for the descriptor before the descriptor is closed. A fiber that
`cancelAll` has put back into a queue may run at once, on another worker: its raw call returns `EAGAIN`
again, and its `addEvent` succeeds, since the descriptor is still open. Then nothing takes the
registration back: the kernel forgets the descriptor, and the `FdContext` keeps the event.

## Main definitions

* `Hook.Quiet`: nothing waits for the descriptor, and nothing is counted for it
* `Hook.Undisturbed`: the condition on a step under which `close` leaves the descriptor quiet

## Main results

* `Hook.quiet_of_exec`: the condition on all steps of a run is enough
* `Hook.waiter_left`: a fiber that registers again between `cancelAll` and `close_f`
-/

namespace Dag

open Foundation

namespace Hook

/-- **Nothing waits for the descriptor**: no event of it is registered, its event contexts hold no
fiber, and `m_pendingEvenCount` counts the other descriptors only. -/
structure Quiet (s : Hook) (fd : ℕ) : Prop where
  events : (s.io.eventsOf fd).isNone = true
  unregistered : ∀ event, s.io.eventContext fd event = .empty
  counted : s.io.pendingEvenCount = s.io.others fd

/-- `close` is behind `cancelAll`, or does not call it. -/
def Behind (s : Hook) : Prop := s.closing = .cancelled ∨ s.closing = .deleted

instance (s : Hook) : Decidable s.Behind := inferInstanceAs (Decidable (_ ∨ _))

/-- **`close` is not disturbed**: no `addEvent` succeeds between its `cancelAll` and its `close_f`, and
it finds the `FdCtx` of a descriptor that has events registered. -/
def Undisturbed (fd : ℕ) (s : Hook) : Act → Prop
  | .io _ (.addEvent accepted) => s.Behind → accepted = false
  | .close => s.ctx = none → (s.io.eventsOf fd).isNone = true
  | _ => True

instance (fd : ℕ) (s : Hook) : DecidablePred (s.Undisturbed fd)
  | .io _ (.addEvent accepted) => inferInstanceAs (Decidable (s.Behind → accepted = false))
  | .close => inferInstanceAs (Decidable (s.ctx = none → (s.io.eventsOf fd).isNone = true))
  | .io _ (.raw _) | .io _ (.addConditionTimer _) | .io _ .yield | .io _ .resume
  | .io _ .cancelTimer | .io _ .test | .call _ | .timer _ | .listExpiredCb .. | .runCb _
  | .setCancelled _ | .cancelEvent _ | .dispatch _ | .close_f | .cancelAll | .del | .socket_f
  | .get _ | .setTimeout .. | .setUserNonblock _ => inferInstanceAs (Decidable True)

/-- What carries `Quiet` along a run: nothing waits for a descriptor that is closed, or that `close`
has cancelled the events of. -/
structure Settled (fd : ℕ) (s : Hook) : Prop where
  agree : s.io.At fd
  closed : s.isOpen = false → s.io.Vacant fd
  vacated : s.vacated = true → s.io.Vacant fd
  behind : s.Behind → s.io.Vacant fd
  isOpen : s.closing ≠ .out → s.isOpen = true

variable {fd i : ℕ} {s t : Hook} {d : DoIo}

theorem Settled.quiet (h : s.Settled fd) (hv : s.vacated = true) : s.Quiet fd where
  events := h.agree.isNone (h.vacated hv)
  unregistered := h.vacated hv
  counted := h.agree.pending_eq (h.vacated hv)

theorem settled_start {io : IOManager} (hio : io.At fd) (now : ℤ) (ctx : Option FdCtx) :
    (start io now ctx).Settled fd := by
  constructor
  · exact hio
  · intro h
    cases h
  · intro h
    cases h
  · rintro (h | h) <;> cases h
  · intro h
    exact absurd rfl h

/-! ## Steps -/

/-- The registrations and the state of the descriptor are as before. -/
theorem Settled.congr (h : s.Settled fd) (hio : t.io = s.io) (hopen : t.isOpen = s.isOpen)
    (hclosing : t.closing = s.closing) (hvacated : t.vacated = s.vacated) : t.Settled fd := by
  constructor
  · rw [hio]
    exact h.agree
  · rw [hio, hopen]
    exact h.closed
  · rw [hio, hvacated]
    exact h.vacated
  · rw [Behind, hio, hclosing]
    exact h.behind
  · rw [hclosing, hopen]
    exact h.isOpen

/-- Registrations are removed. -/
theorem Settled.remove (h : s.Settled fd) {io : IOManager} (hat : io.At fd)
    (hr : IOManager.Removes s.io io fd) : Settled fd { s with io := io } where
  agree := hat
  closed := fun hc => hr.vacant (h.closed hc)
  vacated := fun hv => hr.vacant (h.vacated hv)
  behind := fun hb => hr.vacant (h.behind hb)
  isOpen := h.isOpen

theorem Settled.cancelEvent (h : s.Settled fd) {event : Event} {r : Bool} {io : IOManager}
    (hr : IOManager.cancelEvent (s.answer fd) fd event s.io = .ok r io) :
    Settled fd { s with io := io } := by
  obtain ⟨hat, hctx⟩ := h.agree.cancelEvent h.closed hr
  exact h.remove hat (IOManager.removes_update hctx)

theorem Settled.dispatch (h : s.Settled fd) {ready : Ready} {io : IOManager}
    (hr : IOManager.dispatch (s.answer fd) fd ready s.io = .ok () io) :
    Settled fd { s with io := io } := by
  obtain ⟨hat, hremoves⟩ := h.agree.dispatch h.closed hr
  exact h.remove hat hremoves

/-- **`addEvent` succeeds on an open descriptor only**, and not behind `cancelAll`. -/
theorem Settled.added (h : s.Settled fd) {accepted : Bool} {r : ℤ} {io : IOManager}
    (hg : s.Behind → accepted = false)
    (hr : IOManager.addEvent (fun op => accepted && s.answer fd op) fd d.event none (some 0) i s.io =
      .ok r io) : (s.added i d r io).Settled fd := by
  obtain ⟨⟨hat, hout⟩, -⟩ := h.agree.addEvent (fun _ => rfl) hr
  unfold Hook.added
  rcases hout with ⟨rfl, hb, -⟩ | ⟨rfl, hctx⟩
  · obtain ⟨haccepted, hopen⟩ := Bool.and_eq_true_iff.mp hb
    rw [if_pos rfl]
    constructor
    · exact hat
    · intro hc
      exact absurd (hopen.symm.trans hc) Bool.noConfusion
    · intro hv
      cases hv
    · intro hbehind
      exact absurd (haccepted.symm.trans (hg hbehind)) Bool.noConfusion
    · exact h.isOpen
  · rw [if_neg (by decide)]
    have hremoves : IOManager.Removes s.io io fd := fun event => .inl (congrFun hctx event)
    exact (h.remove hat hremoves).congr rfl rfl rfl rfl

theorem Settled.stepIo (h : s.Settled fd) {a : IoAct} (hg : s.Undisturbed fd (.io i a))
    (ht : s.stepIo fd i d a = some t) : t.Settled fd := by
  cases a with
  | raw r | yield | resume | test =>
    obtain ⟨d', -, rfl⟩ := Option.map_eq_some_iff.mp ht
    exact h.congr rfl rfl rfl rfl
  | addConditionTimer now =>
    simp only [Hook.stepIo] at ht
    split_ifs at ht
    obtain rfl := Option.some.inj ht
    unfold arm
    split_ifs <;> exact h.congr rfl rfl rfl rfl
  | addEvent accepted =>
    obtain ⟨-, r, io, hr, rfl⟩ := of_addEvent ht
    exact h.added hg hr
  | cancelTimer =>
    obtain ⟨d', -, rfl⟩ := Option.map_eq_some_iff.mp ht
    unfold disarm
    split <;> exact h.congr rfl rfl rfl rfl

/-- The four steps of `close`. -/
theorem Settled.close (h : s.Settled fd) (hopen : s.isOpen = true)
    (hg : s.ctx = none → (s.io.eventsOf fd).isNone = true) :
    Settled fd { s with closing := if s.ctx.isSome then .looked else .deleted } := by
  refine ⟨h.agree, h.closed, h.vacated, ?_, fun _ => hopen⟩
  cases hctx : s.ctx with
  | none => exact fun _ => h.agree.vacant (hg hctx)
  | some ctx => rintro (hb | hb) <;> cases hb

theorem Settled.cancelAll (h : s.Settled fd) (hlooked : s.closing = .looked) {r : Bool}
    {io : IOManager} (hr : IOManager.cancelAll (s.answer fd) fd s.io = .ok r io) :
    Settled fd { s with io := io, closing := .cancelled } := by
  obtain ⟨hat, hvacant⟩ := h.agree.cancelAll h.closed hr
  have hopen : s.isOpen = true := h.isOpen (by rw [hlooked]; decide)
  exact ⟨hat, fun _ => hvacant, fun _ => hvacant, fun _ => hvacant, fun _ => hopen⟩

theorem Settled.del (h : s.Settled fd) (hc : s.closing = .cancelled) :
    Settled fd { s with ctx := none, closing := .deleted } where
  agree := h.agree
  closed := h.closed
  vacated := h.vacated
  behind := fun _ => h.behind (.inl hc)
  isOpen := fun _ => h.isOpen (by rw [hc]; decide)

theorem Settled.close_f (h : s.Settled fd) (hc : s.closing = .deleted) :
    (s.closed fd).Settled fd := by
  have hvacant : s.io.Vacant fd := h.behind (.inr hc)
  have hat : IOManager.At { s.io with interest := Function.update s.io.interest fd none } fd := by
    refine ⟨h.agree.good, ?_, h.agree.counted⟩
    have hnone := h.agree.isNone hvacant
    change Function.update s.io.interest fd none fd = IOManager.watched (s.io.eventsOf fd)
    rw [Function.update_self, IOManager.watched, if_pos hnone]
  constructor
  · exact hat
  · intro _
    exact hvacant
  · intro _
    exact hvacant
  · rintro (hb | hb) <;> cases hb
  · intro hout
    exact absurd rfl hout

/-- **One step** leaves the descriptor settled. -/
theorem Settled.step (h : s.Settled fd) {a : Act} (hg : s.Undisturbed fd a)
    (ht : Hook.step fd s a = some t) : t.Settled fd := by
  cases a with
  | call event | setTimeout type v | setUserNonblock v =>
    obtain rfl := Option.some.inj ht
    exact h.congr rfl rfl rfl rfl
  | io i a =>
    obtain ⟨d, -, ht⟩ := Option.bind_eq_some_iff.mp ht
    exact h.stepIo hg ht
  | timer c | runCb i | setCancelled i =>
    simp only [Hook.step] at ht
    split_ifs at ht
    obtain ⟨_, -, rfl⟩ := Option.map_eq_some_iff.mp ht
    exact h.congr rfl rfl rfl rfl
  | listExpiredCb fuel now now' =>
    obtain ⟨r, -, rfl⟩ := Option.map_eq_some_iff.mp ht
    exact h.congr rfl rfl rfl rfl
  | cancelEvent i =>
    obtain ⟨-, d, r, io, -, hr, rfl⟩ := of_cancelEvent ht
    exact (h.cancelEvent hr).congr rfl rfl rfl rfl
  | dispatch ready =>
    obtain ⟨io, hr, rfl⟩ := of_dispatch ht
    exact h.dispatch hr
  | close =>
    simp only [Hook.step] at ht
    split at ht
    · rename_i hopen
      obtain rfl := Option.some.inj ht
      exact h.close hopen.1 hg
    · cases ht
  | cancelAll =>
    obtain ⟨hlooked, r, io, hr, rfl⟩ := of_cancelAll ht
    exact h.cancelAll hlooked hr
  | del =>
    simp only [Hook.step] at ht
    split_ifs at ht with hc
    obtain rfl := Option.some.inj ht
    exact h.del hc
  | close_f =>
    simp only [Hook.step] at ht
    split_ifs at ht with hc
    obtain rfl := Option.some.inj ht
    exact h.close_f hc
  | socket_f =>
    simp only [Hook.step] at ht
    split_ifs at ht with hopen
    obtain rfl := Option.some.inj ht
    refine ⟨h.agree, fun hc => ?_, h.vacated, h.behind, fun _ => rfl⟩
    cases hc
  | get isSocket =>
    simp only [Hook.step] at ht
    split_ifs at ht
    obtain rfl := Option.some.inj ht
    exact h.congr rfl rfl rfl rfl

/-! ## Runs -/

/-- **Close leaves no waiter**, in a run in which no `close` is disturbed: from the return of `close`
until the next registration no event of the descriptor is registered, and none is counted. -/
theorem quiet_of_exec {io : IOManager} {now : ℤ} {ctx : Option FdCtx} {acts : List Act}
    (hio : io.At fd) (hg : Guarded (step fd) (Undisturbed fd) (start io now ctx) acts)
    (h : exec (step fd) (start io now ctx) acts = some s) (hv : s.vacated = true) : s.Quiet fd := by
  have hs : s.Settled fd := exec_invariant_of_guarded (I := Settled fd)
    (fun _ _ _ hi hg ht => hi.step hg ht) (settled_start hio now ctx) hg h
  exact hs.quiet hv

/-- A `recv` waits for the descriptor when it is closed, and runs behind `close_f`. -/
theorem quiet_of_exec_closed :
    ∃ s, exec (step 5) (start IOManager.construct 0 (some (.construct true)))
        [.call .read, .io 0 (.raw .eagain), .io 0 (.addConditionTimer 0), .io 0 (.addEvent true),
          .io 0 .yield, .close, .cancelAll, .del, .close_f, .io 0 .resume, .io 0 .cancelTimer,
          .io 0 .test, .io 0 (.raw (.other (-1)))] = some s ∧
      s.Quiet 5 := by
  obtain ⟨s, hs, hv⟩ : ∃ s, exec (step 5) (start IOManager.construct 0 (some (.construct true)))
      [.call .read, .io 0 (.raw .eagain), .io 0 (.addConditionTimer 0), .io 0 (.addEvent true),
        .io 0 .yield, .close, .cancelAll, .del, .close_f, .io 0 .resume, .io 0 .cancelTimer,
        .io 0 .test, .io 0 (.raw (.other (-1)))] = some s ∧ s.vacated = true := ⟨_, rfl, rfl⟩
  exact ⟨s, hs, quiet_of_exec (IOManager.at_construct 5) (by decide) hs hv⟩

/-- A `recv` that `cancelAll` has put back into the queue runs on another worker, and waits again
before the descriptor is closed. -/
theorem waiter_left :
    ¬ ∀ (fd : ℕ) (io : IOManager) (now : ℤ) (ctx : Option FdCtx) (acts : List Act) (s : Hook),
      io.At fd → exec (step fd) (start io now ctx) acts = some s → s.vacated = true →
        s.Quiet fd := by
  intro hall
  obtain ⟨s, hs, hv, hevents⟩ : ∃ s, exec (step 5)
      (start IOManager.construct 0 (some (.construct true)))
      [.call .read, .io 0 (.raw .eagain), .io 0 (.addConditionTimer 0), .io 0 (.addEvent true),
        .io 0 .yield, .close, .cancelAll, .io 0 .resume, .io 0 .cancelTimer, .io 0 .test,
        .io 0 (.raw .eagain), .io 0 (.addConditionTimer 0), .io 0 (.addEvent true), .io 0 .yield,
        .del, .close_f] = some s ∧ s.vacated = true ∧ (s.io.eventsOf 5).isNone = false :=
    ⟨_, rfl, rfl, rfl⟩
  have hquiet := (hall 5 _ 0 _ _ s (IOManager.at_construct 5) hs hv).events
  exact absurd (hquiet.symm.trans hevents) (by decide)

end Hook

end Dag
