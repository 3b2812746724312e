import Dag.Hook.DoIo

/-!
# The steps of one call

What a step at the descriptor does to a call of `do_io` depends on the call, on what the raw
functions and `addEvent` return, and on the number of the timer. Here these are labels, and the rest
of the descriptor is left out: a call moves at the descriptor as it does by itself.

## Main definitions

* `DoIo.Act`, `DoIo.step`: the steps of a call
* `DoIo.Moves`: how a call comes from one place to another one

## Main results

* `DoIo.step_of_stepIo`: a step at the descriptor is a step of the call
* `DoIo.step_cases`: what a step does
-/

namespace Dag

namespace DoIo

/-- The steps of a call, and of the callback of its timer. -/
inductive Act
  | raw (r : RawResult)
  /-- the timer, if there is a timeout, is the one of this number -/
  | addConditionTimer (t : ℕ)
  | addEvent (rt : ℤ) (serial : ℕ)
  | yield
  /-- the fiber is resumed -/
  | wake
  | cancelTimer
  | test
  /-- the callback sets the flag -/
  | setCancelled
  deriving DecidableEq, Repr

/-- `addConditionTimer`, unless there is no timeout. -/
def arm (d : DoIo) (t : ℕ) : DoIo :=
  { d with timer := if d.timeout = 2 ^ 64 - 1 then none else some t, place := .armed }

/-- `addEvent` has returned `rt`. -/
def added (d : DoIo) (rt : ℤ) (serial : ℕ) : DoIo :=
  if rt = 0 then { d with place := .registered serial, suspended := true }
  else { d with place := .failed }

/-- One step. -/
def step (d : DoIo) : Act → Option DoIo
  | .raw r => d.raw r
  | .addConditionTimer t => if d.place = .blocked then some (d.arm t) else none
  | .addEvent rt serial => if d.place = .armed then some (d.added rt serial) else none
  | .yield => d.yield
  | .wake =>
    match d.place with
    | .parked _ => some { d with place := .resumed }
    | _ => none
  | .cancelTimer => d.cancelTimer
  | .test => d.test
  | .setCancelled =>
    -- the callback goes no further when it finds the flag set
    if d.timer ≠ none ∧ d.cancelled = false then some { d with cancelled := true } else none

/-- The step of a call that a step at the descriptor is. -/
def Act.Is : Act → Hook.IoAct → Prop
  | .raw r, .raw r' => r = r'
  | .addConditionTimer _, .addConditionTimer _ => True
  | .addEvent .., .addEvent _ => True
  | .yield, .yield => True
  | .wake, .resume => True
  | .cancelTimer, .cancelTimer => True
  | .test, .test => True
  | _, _ => False

/-- **A call moves at the descriptor** as it does by itself. -/
theorem step_of_stepIo {fd i : ℕ} {s t : Hook} {d : DoIo} {a : Hook.IoAct}
    (ht : s.stepIo fd i d a = some t) :
    ∃ b d', b.Is a ∧ d.step b = some d' ∧ t.calls = s.calls.set i d' := by
  cases a with
  | raw r =>
    obtain ⟨d', hd, rfl⟩ := Option.map_eq_some_iff.mp ht
    exact ⟨.raw r, d', rfl, hd, rfl⟩
  | addConditionTimer now =>
    simp only [Hook.stepIo] at ht
    split_ifs at ht with hplace
    obtain rfl := Option.some.inj ht
    refine ⟨.addConditionTimer (s.manager.addTimer now d.timeout (some (.timeout i)) false).1, _,
      trivial, if_pos hplace, ?_⟩
    unfold Hook.arm arm
    split_ifs <;> rfl
  | addEvent accepted =>
    obtain ⟨hplace, r, io, -, rfl⟩ := Hook.of_addEvent ht
    refine ⟨.addEvent r s.io.registered.length, _, trivial, if_pos hplace, ?_⟩
    unfold Hook.added added
    split_ifs <;> rfl
  | yield =>
    obtain ⟨d', hd, rfl⟩ := Option.map_eq_some_iff.mp ht
    exact ⟨.yield, d', trivial, hd, rfl⟩
  | resume =>
    obtain ⟨d', hd, rfl⟩ := Option.map_eq_some_iff.mp ht
    refine ⟨.wake, d', trivial, ?_, rfl⟩
    unfold DoIo.resume at hd
    split at hd
    · rename_i serial hplace
      split_ifs at hd
      rw [step, hplace]
      exact hd
    · cases hd
  | cancelTimer =>
    obtain ⟨d', hd, rfl⟩ := Option.map_eq_some_iff.mp ht
    refine ⟨.cancelTimer, d', trivial, hd, ?_⟩
    unfold Hook.setCall Hook.disarm
    split <;> rfl
  | test =>
    obtain ⟨d', hd, rfl⟩ := Option.map_eq_some_iff.mp ht
    exact ⟨.test, d', trivial, hd, rfl⟩

/-- Where a raw call leads to that returns `r`, at `retry`. -/
def behind : RawResult → IoAt
  | .eintr => .retry
  | .eagain => .blocked
  | .other n => .done n

theorem of_raw {d d' : DoIo} {r : RawResult} (hd : d.raw r = some d') :
    d'.cancelled = d.cancelled ∧ d'.timeout = d.timeout ∧
      (d.place = .plain ∧ d'.place = .done r.value ∨ d.place = .retry ∧ d'.place = behind r) := by
  unfold raw at hd
  split at hd
  · rename_i hplace
    obtain rfl := Option.some.inj hd
    exact ⟨rfl, rfl, .inl ⟨hplace, rfl⟩⟩
  · rename_i hplace
    obtain rfl := Option.some.inj hd
    exact ⟨rfl, rfl, .inr ⟨hplace, by cases r <;> rfl⟩⟩
  · cases hd

/-- How a call comes from one place to another one, if not by a raw call. -/
inductive Moves (cancelled : Bool) : Act → IoAt → IoAt → Prop
  | addConditionTimer (t : ℕ) : Moves cancelled (.addConditionTimer t) .blocked .armed
  | addEvent (serial : ℕ) : Moves cancelled (.addEvent 0 serial) .armed (.registered serial)
  | refused {rt : ℤ} (serial : ℕ) (hrt : rt ≠ 0) :
    Moves cancelled (.addEvent rt serial) .armed .failed
  | yield (serial : ℕ) : Moves cancelled .yield (.registered serial) (.parked serial)
  | wake (serial : ℕ) : Moves cancelled .wake (.parked serial) .resumed
  | withdraw : Moves cancelled .cancelTimer .failed (.done (-1))
  | cancelTimer : Moves cancelled .cancelTimer .resumed .testing
  | timeOut (h : cancelled = true) : Moves cancelled .test .testing (.done (-1))
  | again (h : cancelled = false) : Moves cancelled .test .testing .retry

/-- What a step does: it makes a raw call, or sets the flag, or comes to another place. -/
theorem step_cases {d d' : DoIo} {a : Act} (hd : d.step a = some d') :
    (∃ r, a = .raw r ∧ d.raw r = some d') ∨
    (a = .setCancelled ∧ d.cancelled = false ∧ d' = { d with cancelled := true }) ∨
    (∃ p p', d.place = p ∧ d'.place = p' ∧ d'.cancelled = d.cancelled ∧ d'.timeout = d.timeout ∧
      Moves d.cancelled a p p') := by
  cases a with
  | raw r => exact .inl ⟨r, rfl, hd⟩
  | addConditionTimer t =>
    simp only [step] at hd
    split_ifs at hd with hplace
    obtain rfl := Option.some.inj hd
    exact .inr (.inr ⟨_, _, hplace, rfl, rfl, rfl, .addConditionTimer t⟩)
  | addEvent rt serial =>
    simp only [step] at hd
    split_ifs at hd with hplace
    obtain rfl := Option.some.inj hd
    by_cases hrt : rt = 0
    · subst hrt
      exact .inr (.inr ⟨_, _, hplace, rfl, rfl, rfl, .addEvent serial⟩)
    · rw [added, if_neg hrt]
      exact .inr (.inr ⟨_, _, hplace, rfl, rfl, rfl, .refused serial hrt⟩)
  | yield =>
    simp only [step, yield] at hd
    split at hd
    · rename_i serial hplace
      obtain rfl := Option.some.inj hd
      exact .inr (.inr ⟨_, _, hplace, rfl, rfl, rfl, .yield serial⟩)
    · cases hd
  | wake =>
    simp only [step] at hd
    split at hd
    · rename_i serial hplace
      obtain rfl := Option.some.inj hd
      exact .inr (.inr ⟨_, _, hplace, rfl, rfl, rfl, .wake serial⟩)
    · cases hd
  | cancelTimer =>
    simp only [step, cancelTimer] at hd
    split at hd
    · rename_i hplace
      obtain rfl := Option.some.inj hd
      exact .inr (.inr ⟨_, _, hplace, rfl, rfl, rfl, .withdraw⟩)
    · rename_i hplace
      obtain rfl := Option.some.inj hd
      exact .inr (.inr ⟨_, _, hplace, rfl, rfl, rfl, .cancelTimer⟩)
    · cases hd
  | test =>
    simp only [step, test] at hd
    split at hd
    · rename_i hplace
      obtain rfl := Option.some.inj hd
      cases hcancelled : d.cancelled with
      | true => exact .inr (.inr ⟨_, _, hplace, rfl, rfl, rfl, .timeOut rfl⟩)
      | false => exact .inr (.inr ⟨_, _, hplace, rfl, rfl, rfl, .again rfl⟩)
    · cases hd
  | setCancelled =>
    simp only [step] at hd
    split_ifs at hd with hset
    obtain rfl := Option.some.inj hd
    exact .inr (.inl ⟨rfl, hset.2, rfl⟩)

end DoIo

end Dag
