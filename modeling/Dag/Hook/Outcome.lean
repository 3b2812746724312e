import Dag.Hook.CallSteps
import Dag.Hook.Connect

/-!
# The outcome of a hooked call

`do_io` makes its raw call again while it is interrupted, and goes back to it after each wait. What
it returns depends on the results of all the raw calls, and on whether the callback of the timer has
run.

Here one call is followed by itself, in the steps of `DoIo.step`. The raw calls take their results
from a list; what `addEvent` returns, when the fiber is resumed, and when the callback sets the flag
is in the labels.

## Main definitions

* `RawCall`: what a raw call returns, and the `errno` that it leaves
* `IoCall`, `IoCall.step`: a call with its `errno` and the results of its raw calls
* `IoCall.Outcome`: what becomes of a call

## Main results

* `IoCall.outcome`: the first result that is not to be retried is returned, or the timeout
-/

namespace Dag

open Foundation

namespace DoIo

/-- How far a call is from its next raw call. -/
def distance : IoAt → ℕ
  | .blocked => 6
  | .armed => 5
  | .failed => 4
  | .registered _ => 4
  | .parked _ => 3
  | .resumed => 2
  | .testing => 1
  | .plain | .retry | .done _ => 0

theorem distance_lt {cancelled : Bool} {a : Act} {p p' : IoAt} (h : Moves cancelled a p p') :
    distance p' < distance p := by
  cases h <;> simp [distance]

end DoIo

/-! ## Raw calls -/

/-- `EINTR` -/
def EINTR : ℕ := 4

/-- `EAGAIN`, which is `EWOULDBLOCK` -/
def EAGAIN : ℕ := 11

/-- What a raw call returns, and the `errno` that it leaves if that is -1. -/
structure RawCall where
  n : ℤ
  errno : ℕ
  deriving DecidableEq, Repr

namespace RawCall

/-- What `do_io` makes of it. -/
def result (r : RawCall) : RawResult :=
  if r.n = -1 ∧ r.errno = EINTR then .eintr
  else if r.n = -1 ∧ r.errno = EAGAIN then .eagain
  else .other r.n

/-- The raw call is made again. -/
def Retry (r : RawCall) : Prop := r.n = -1 ∧ (r.errno = EINTR ∨ r.errno = EAGAIN)

instance : DecidablePred Retry := fun _ => inferInstanceAs (Decidable (_ ∧ _))

theorem result_eq_other_iff {r : RawCall} {n : ℤ} : r.result = .other n ↔ ¬ r.Retry ∧ r.n = n := by
  unfold result Retry
  split_ifs with heintr heagain
  · simp [heintr]
  · simp [heagain]
  · simp only [RawResult.other.injEq]
    constructor
    · intro h
      exact ⟨fun hretry => hretry.2.elim (heintr ⟨hretry.1, ·⟩) (heagain ⟨hretry.1, ·⟩), h⟩
    · exact fun h => h.2

/-- A result that is to be retried leads to the next raw call, or to a wait. -/
theorem behind_of_retry {r : RawCall} (h : r.Retry) :
    DoIo.behind r.result = .retry ∨ DoIo.behind r.result = .blocked := by
  cases hresult : r.result with
  | eintr => exact .inl rfl
  | eagain => exact .inr rfl
  | other n => exact absurd h (result_eq_other_iff.mp hresult).1

/-- Any other result is returned. -/
theorem behind_of_not_retry {r : RawCall} (h : ¬ r.Retry) : DoIo.behind r.result = .done r.n := by
  rw [result_eq_other_iff.mpr ⟨h, rfl⟩, DoIo.behind]

/-- The results in front of the first one that is not to be retried. -/
theorem takeWhile_retry {pre post : List RawCall} {r : RawCall} (hpre : ∀ q ∈ pre, q.Retry)
    (hr : ¬ r.Retry) : (pre ++ r :: post).takeWhile (fun q => decide q.Retry) = pre := by
  rw [List.takeWhile_append_of_pos (by simpa using hpre), List.takeWhile_cons_of_neg (by simpa),
    List.append_nil]

end RawCall

/-! ## A call and its raw calls -/

/-- A call of `do_io` with the `errno` of its thread. `supply` are the results that raw calls are
still to give, and `made` those of the raw calls that have been made. -/
structure IoCall where
  io : DoIo
  errno : ℕ
  supply : List RawCall
  made : List RawCall
  deriving DecidableEq, Repr

namespace IoCall

open DoIo (Act)

/-- `do_io` is called. -/
def start (ctx : Option FdCtx) (event : Event) (errno : ℕ) (results : List RawCall) : IoCall where
  io := DoIo.begin ctx event
  errno := if ctx.any FdCtx.isClosed then EBADF else errno
  supply := results
  made := []

/-- The raw call has returned `q`. -/
def called (s : IoCall) (q : RawCall) (supply : List RawCall) (io : DoIo) : IoCall where
  io := io
  errno := if q.n = -1 then q.errno else s.errno
  supply := supply
  made := s.made ++ [q]

/-- One step. -/
def step (s : IoCall) : Act → Option IoCall
  | .raw r =>
    match s.supply with
    | q :: supply =>
      if r = q.result then (s.io.step (.raw r)).map (s.called q supply) else none
    | [] => none
  | .test =>
    (s.io.step .test).map fun io =>
      { s with io := io, errno := if s.io.cancelled then ETIMEDOUT else s.errno }
  | a => (s.io.step a).map fun io => { s with io := io }

/-- Nothing is left to do, except perhaps for the callback of the timer. -/
def Stuck (s : IoCall) : Prop := ∀ a, a ≠ .setCancelled → s.step a = none

/-- **The outcome** of a call that makes the raw calls `results` in the run `acts`, and comes to the
state `s`. -/
structure Outcome (results : List RawCall) (acts : List Act) (s : IoCall) : Prop where
  /-- the call comes to an end -/
  finite : acts.length ≤ 7 * results.length + 1
  /-- without a timeout, the first result that is not to be retried is returned, and no raw call is
  made behind it -/
  first : .setCancelled ∉ acts → s.Stuck → ∀ pre r post, results = pre ++ r :: post →
    (∀ q ∈ pre, q.Retry) → ¬ r.Retry →
      s.io.place = .done r.n ∧ (r.n = -1 → s.errno = r.errno) ∧ s.made = pre ++ [r]
  /-- once the callback has run, no raw call is made behind a wakeup -/
  timedOut : ∀ as bs cs, acts = as ++ .setCancelled :: bs ++ .wake :: cs →
    (∀ r, .raw r ∉ cs) ∧ (s.Stuck → s.io.place = .done (-1) ∧ s.errno = ETIMEDOUT)
  /-- the caller does not see `EINTR` or `EAGAIN` -/
  unseen : s.io.place = .done (-1) → s.errno ≠ EINTR ∧ s.errno ≠ EAGAIN
  /-- data is not thrown away -/
  kept : ∀ r ∈ s.made, 0 ≤ r.n → s.io.place = .done r.n ∧ s.made.getLast? = some r

/-! ## One step -/

variable {results : List RawCall} {acts : List Act} {s t : IoCall} {a : Act}

/-- A call moves with its `errno` and its results as it does without. -/
theorem io_step (ht : s.step a = some t) : s.io.step a = some t.io := by
  cases a with
  | raw r =>
    simp only [step] at ht
    split at ht
    · split_ifs at ht
      obtain ⟨io, hio, rfl⟩ := Option.map_eq_some_iff.mp ht
      exact hio
    · cases ht
  | _ =>
    obtain ⟨io, hio, rfl⟩ := Option.map_eq_some_iff.mp ht
    exact hio

/-- A raw call takes one result. -/
theorem of_raw {r : RawResult} (ht : s.step (.raw r) = some t) : ∃ q, r = q.result ∧
    s.supply = q :: t.supply ∧ t.made = s.made ++ [q] ∧
      t.errno = if q.n = -1 then q.errno else s.errno := by
  simp only [step] at ht
  split at ht
  · rename_i q supply hsupply
    split_ifs at ht with hr
    obtain ⟨io, -, rfl⟩ := Option.map_eq_some_iff.mp ht
    exact ⟨q, hr, hsupply, rfl, rfl⟩
  · cases ht

/-- The other steps make no raw call. -/
theorem frame (ht : s.step a = some t) (ha : ∀ r, a ≠ .raw r) :
    t.supply = s.supply ∧ t.made = s.made ∧ (a ≠ .test → t.errno = s.errno) := by
  cases a with
  | raw r => exact absurd rfl (ha r)
  | _ =>
    obtain ⟨io, -, rfl⟩ := Option.map_eq_some_iff.mp ht
    simp

/-! ## The length of a run -/

/-- What is left of a call, at most. -/
def left (s : IoCall) : ℕ :=
  7 * s.supply.length + DoIo.distance s.io.place + if s.io.cancelled then 0 else 1

theorem left_lt (ht : s.step a = some t) : t.left < s.left := by
  obtain ⟨r, rfl, hr⟩ | ⟨rfl, hcancelled, hio⟩ | ⟨p, p', hp, hp', hcancelled, -, hmoves⟩ :=
    DoIo.step_cases (io_step ht)
  · obtain ⟨q, -, hsupply, -⟩ := of_raw ht
    obtain ⟨hcancelled, -, hplace⟩ := DoIo.of_raw hr
    have hle : DoIo.distance t.io.place ≤ 6 := by
      rcases hplace with ⟨-, h⟩ | ⟨-, h⟩
      · simp [h, DoIo.distance]
      · rw [h]
        cases r <;> simp [DoIo.behind, DoIo.distance]
    simp only [left, hsupply, hcancelled, List.length_cons]
    omega
  · obtain ⟨hsupply, -, -⟩ := frame ht nofun
    simp only [left, hsupply, hio, hcancelled]
    simp
  · obtain ⟨hsupply, -, -⟩ := frame ht (by rintro r rfl; cases hmoves)
    have hlt := DoIo.distance_lt hmoves
    simp only [left, hsupply, hp, hp', hcancelled]
    omega

/-! ## What a call keeps -/

/-- The last raw call has returned `n`, and it is the only one that is not to be retried. -/
def Answered (s : IoCall) (n : ℤ) : Prop :=
  ∃ pre r, s.made = pre ++ [r] ∧ (∀ q ∈ pre, q.Retry) ∧ ¬ r.Retry ∧ r.n = n ∧
    (r.n = -1 → s.errno = r.errno)

/-- The call has returned the timeout. -/
def TimedOut (s : IoCall) (n : ℤ) : Prop :=
  (∀ q ∈ s.made, q.Retry) ∧ n = -1 ∧ s.errno = ETIMEDOUT ∧ s.io.cancelled = true

/-- **The invariant**: the raw calls that have been made were all to be retried, until the call
returns. -/
structure Kept (results : List RawCall) (s : IoCall) : Prop where
  history : s.made ++ s.supply = results
  hooked : s.io.place ≠ .plain ∧ s.io.place ≠ .failed
  waiting : s.io.isDone = false → ∀ q ∈ s.made, q.Retry
  done : ∀ n, s.io.place = .done n → s.Answered n ∨ s.TimedOut n

theorem kept_start {ctx : FdCtx} (hsocket : ctx.isSocket = true) (hopen : ctx.isClosed = false)
    (hblock : ctx.userNonblock = false) (event : Event) (errno : ℕ) (results : List RawCall) :
    (start (some ctx) event errno results).Kept results := by
  have hplace : (start (some ctx) event errno results).io.place = .retry := by
    simp [start, DoIo.begin, hsocket, hopen, hblock]
  constructor
  · rfl
  · simp [hplace]
  · exact fun _ => nofun
  · intro n hn
    rw [hplace] at hn
    cases hn

theorem Kept.raw (h : s.Kept results) {r : RawResult} (hr : s.io.raw r = some t.io)
    (ht : s.step (.raw r) = some t) : t.Kept results := by
  obtain ⟨q, rfl, hsupply, hmade, herrno⟩ := of_raw ht
  obtain ⟨-, -, ⟨hplain, -⟩ | ⟨hretry, hplace⟩⟩ := DoIo.of_raw hr
  · exact absurd hplain h.hooked.1
  have hpre : ∀ q ∈ s.made, q.Retry := h.waiting (by simp [DoIo.isDone, hretry])
  have hhistory : t.made ++ t.supply = results := by
    rw [hmade, List.append_assoc, List.singleton_append, ← hsupply]
    exact h.history
  by_cases hq : q.Retry
  · have hplace : t.io.place = .retry ∨ t.io.place = .blocked := by
      rw [hplace]
      exact RawCall.behind_of_retry hq
    refine ⟨hhistory, ?_, ?_, ?_⟩
    · rcases hplace with h | h <;> simp [h]
    · intro _ p hp
      rw [hmade, List.mem_append, List.mem_singleton] at hp
      rcases hp with hp | rfl
      · exact hpre p hp
      · exact hq
    · intro n hn
      rcases hplace with h | h <;> rw [h] at hn <;> cases hn
  · rw [RawCall.behind_of_not_retry hq] at hplace
    refine ⟨hhistory, by simp [hplace], by simp [DoIo.isDone, hplace], ?_⟩
    intro n hn
    rw [hplace, IoAt.done.injEq] at hn
    refine .inl ⟨s.made, q, hmade, hpre, hq, hn, ?_⟩
    intro hfail
    rw [herrno, if_pos hfail]

/-- The callback sets the flag. -/
theorem Kept.setCancelled (h : s.Kept results) (hio : t.io = { s.io with cancelled := true })
    (ht : s.step .setCancelled = some t) : t.Kept results := by
  obtain ⟨hsupply, hmade, herrno⟩ := frame ht nofun
  have hplace : t.io.place = s.io.place := by rw [hio]
  refine ⟨by rw [hmade, hsupply, h.history], by rw [hplace]; exact h.hooked, ?_, ?_⟩
  · intro hdone
    rw [hmade]
    exact h.waiting (by rwa [hio] at hdone)
  · intro n hn
    rcases h.done n (hplace ▸ hn) with ⟨pre, r, hpre⟩ | ⟨hretry, hn, hetimedout, -⟩
    · refine .inl ⟨pre, r, ?_⟩
      rw [hmade, herrno nofun]
      exact hpre
    · exact .inr ⟨by rwa [hmade], hn, by rw [herrno nofun, hetimedout], by rw [hio]⟩

/-- The call comes to another place, and has not been refused by `addEvent`. -/
theorem Kept.move (h : s.Kept results) {p p' : IoAt} (hp : s.io.place = p) (hp' : t.io.place = p')
    (hmoves : DoIo.Moves s.io.cancelled a p p')
    (hadd : ∀ rt serial, a = .addEvent rt serial → rt = 0)
    (hcancelled : t.io.cancelled = s.io.cancelled) (ht : s.step a = some t) : t.Kept results := by
  obtain ⟨hsupply, hmade, herrno⟩ := frame ht (by rintro r rfl; cases hmoves)
  have hretry : ∀ q ∈ t.made, q.Retry := by
    rw [hmade]
    apply h.waiting
    cases hmoves <;> simp [DoIo.isDone, hp]
  refine ⟨by rw [hmade, hsupply, h.history], ?_, fun _ => hretry, ?_⟩
  · cases hmoves with
    | refused serial hrt => exact absurd (hadd _ serial rfl) hrt
    | _ => simp [hp']
  · intro n hn
    rw [hp'] at hn
    cases hmoves with
    | withdraw => exact absurd hp h.hooked.2
    | timeOut hflag =>
      obtain ⟨io, -, rfl⟩ := Option.map_eq_some_iff.mp ht
      cases hn
      exact .inr ⟨hretry, rfl, if_pos hflag, hcancelled.trans hflag⟩
    | _ => cases hn

/-- **One step** keeps the invariant, if `addEvent` is not refused. -/
theorem Kept.step (h : s.Kept results) (hadd : ∀ rt serial, a = .addEvent rt serial → rt = 0)
    (ht : s.step a = some t) : t.Kept results := by
  obtain ⟨r, rfl, hr⟩ | ⟨rfl, -, hio⟩ | ⟨p, p', hp, hp', hcancelled, -, hmoves⟩ :=
    DoIo.step_cases (io_step ht)
  · exact h.raw hr ht
  · exact h.setCancelled hio ht
  · exact h.move hp hp' hmoves hadd hcancelled ht

/-! ## The flag -/

theorem cancelled_step (ht : s.step a = some t) :
    t.io.cancelled = true ↔ s.io.cancelled = true ∨ a = .setCancelled := by
  obtain ⟨r, rfl, hr⟩ | ⟨rfl, -, hio⟩ | ⟨p, p', -, -, hcancelled, -, hmoves⟩ :=
    DoIo.step_cases (io_step ht)
  · simp [(DoIo.of_raw hr).1]
  · simp [hio]
  · have ha : a ≠ .setCancelled := by
      rintro rfl
      cases hmoves
    simp [hcancelled, ha]

/-- The flag is set by the callback only, and stays so. -/
theorem cancelled_exec (ht : exec step s acts = some t) :
    t.io.cancelled = true ↔ s.io.cancelled = true ∨ .setCancelled ∈ acts := by
  -- on the run, from the state that its first step leads to
  induction acts generalizing s with
  | nil =>
    obtain rfl := Option.some.inj ht
    simp
  | cons a as ih =>
    obtain ⟨u, hu, ht⟩ := exec_cons_eq_some.mp ht
    rw [ih ht, cancelled_step hu, List.mem_cons, or_assoc, eq_comm (a := a)]

/-- The fiber has been resumed when the callback had run. -/
def Expired (s : IoCall) : Prop :=
  s.io.cancelled = true ∧ (s.io.place = .resumed ∨ s.io.place = .testing ∨
    s.io.place = .done (-1) ∧ s.errno = ETIMEDOUT)

theorem Expired.step (h : s.Expired) (ht : s.step a = some t) :
    t.Expired ∧ ∀ r, a ≠ .raw r := by
  obtain ⟨hflag, hplace⟩ := h
  obtain ⟨r, rfl, hr⟩ | ⟨rfl, hcancelled, -⟩ | ⟨p, p', hp, hp', hcancelled, -, hmoves⟩ :=
    DoIo.step_cases (io_step ht)
  · obtain ⟨-, -, ⟨hraw, -⟩ | ⟨hraw, -⟩⟩ := DoIo.of_raw hr <;> simp [hraw] at hplace
  · rw [hflag] at hcancelled
    cases hcancelled
  · refine ⟨⟨hcancelled.trans hflag, ?_⟩, by rintro r rfl; cases hmoves⟩
    rw [hp] at hplace
    cases hmoves with
    | cancelTimer => exact .inr (.inl hp')
    | timeOut =>
      obtain ⟨io, -, rfl⟩ := Option.map_eq_some_iff.mp ht
      exact .inr (.inr ⟨hp', if_pos hflag⟩)
    | again hunset =>
      rw [hflag] at hunset
      cases hunset
    | _ => simp at hplace

/-- A wakeup after the callback has run. -/
theorem expired_wake (hflag : s.io.cancelled = true) (ht : s.step .wake = some t) : t.Expired := by
  obtain ⟨r, ha, -⟩ | ⟨ha, -⟩ | ⟨p, p', -, hp', hcancelled, -, hmoves⟩ :=
    DoIo.step_cases (io_step ht)
  · cases ha
  · cases ha
  · cases hmoves
    exact ⟨hcancelled.trans hflag, .inl hp'⟩

/-- No raw call is made behind such a wakeup. -/
theorem Expired.exec (h : s.Expired) (ht : exec IoCall.step s acts = some t) :
    t.Expired ∧ ∀ r, .raw r ∉ acts := by
  -- on the run: each step leads to such a state, and is no raw call
  induction acts generalizing s with
  | nil =>
    obtain rfl := Option.some.inj ht
    exact ⟨h, fun _ => nofun⟩
  | cons a as ih =>
    obtain ⟨u, hu, ht⟩ := exec_cons_eq_some.mp ht
    obtain ⟨hu, ha⟩ := h.step hu
    obtain ⟨ht, has⟩ := ih hu ht
    refine ⟨ht, fun r hr => ?_⟩
    rcases List.mem_cons.mp hr with hr | hr
    · exact ha r hr.symm
    · exact has r hr

/-! ## The end of a call -/

/-- Something is left to do for a call that has not returned, as long as there are results. -/
theorem Stuck.done_or (h : s.Stuck) : (∃ n, s.io.place = .done n) ∨
    (s.io.place = .plain ∨ s.io.place = .retry) ∧ s.supply = [] := by
  have hraw (hplace : s.io.place = .plain ∨ s.io.place = .retry) : s.supply = [] := by
    cases hsupply : s.supply with
    | nil => rfl
    | cons q supply =>
      have hnone := h (.raw q.result) (by simp)
      simp only [step, hsupply, if_pos, Option.map_eq_none_iff] at hnone
      rcases hplace with hplace | hplace <;> simp [DoIo.step, DoIo.raw, hplace] at hnone
  have hstep {a : Act} (ha : a ≠ .setCancelled) (hraw : ∀ r, a ≠ .raw r) : s.io.step a = none := by
    have hnone := h a ha
    cases a with
    | raw r => exact absurd rfl (hraw r)
    | _ => exact Option.map_eq_none_iff.mp hnone
  cases hplace : s.io.place with
  | plain => exact .inr ⟨.inl rfl, hraw (.inl hplace)⟩
  | retry => exact .inr ⟨.inr rfl, hraw (.inr hplace)⟩
  | blocked => simpa [DoIo.step, hplace] using hstep (a := .addConditionTimer 0) (by simp) (by simp)
  | armed => simpa [DoIo.step, hplace] using hstep (a := .addEvent 0 0) (by simp) (by simp)
  | failed =>
    simpa [DoIo.step, DoIo.cancelTimer, hplace] using hstep (a := .cancelTimer) (by simp) (by simp)
  | registered serial =>
    simpa [DoIo.step, DoIo.yield, hplace] using hstep (a := .yield) (by simp) (by simp)
  | parked serial => simpa [DoIo.step, hplace] using hstep (a := .wake) (by simp) (by simp)
  | resumed =>
    simpa [DoIo.step, DoIo.cancelTimer, hplace] using hstep (a := .cancelTimer) (by simp) (by simp)
  | testing => simpa [DoIo.step, DoIo.test, hplace] using hstep (a := .test) (by simp) (by simp)
  | done n => exact .inl ⟨n, rfl⟩

/-- Without a timeout, the first result that is not to be retried is returned. -/
theorem Kept.first (h : s.Kept results) (hflag : s.io.cancelled = false) (hstuck : s.Stuck)
    {pre post : List RawCall} {r : RawCall} (hresults : results = pre ++ r :: post)
    (hpre : ∀ q ∈ pre, q.Retry) (hr : ¬ r.Retry) :
    s.io.place = .done r.n ∧ (r.n = -1 → s.errno = r.errno) ∧ s.made = pre ++ [r] := by
  have hhistory := h.history
  rcases hstuck.done_or with ⟨n, hn⟩ | ⟨hplace, hsupply⟩
  · rcases h.done n hn with ⟨pre', r', hmade, hpre', hr', rfl, herrno⟩ | ⟨-, -, -, hset⟩
    · rw [hmade, List.append_assoc, List.singleton_append, hresults] at hhistory
      obtain rfl : pre' = pre := by
        rw [← RawCall.takeWhile_retry hpre' hr', hhistory, RawCall.takeWhile_retry hpre hr]
      rw [List.append_cancel_left_eq, List.cons.injEq] at hhistory
      obtain rfl := hhistory.1
      exact ⟨hn, herrno, hmade⟩
    · rw [hflag] at hset
      cases hset
  · have hmade : s.made = results := by rw [← hhistory, hsupply, List.append_nil]
    have hwaiting : s.io.isDone = false := by rcases hplace with h | h <;> simp [DoIo.isDone, h]
    refine absurd (h.waiting hwaiting r ?_) hr
    rw [hmade, hresults]
    simp

theorem Kept.unseen (h : s.Kept results) (hdone : s.io.place = .done (-1)) :
    s.errno ≠ EINTR ∧ s.errno ≠ EAGAIN := by
  rcases h.done _ hdone with ⟨pre, r, -, -, hr, hn, herrno⟩ | ⟨-, -, herrno, -⟩
  · rw [herrno hn]
    exact ⟨fun h => hr ⟨hn, .inl h⟩, fun h => hr ⟨hn, .inr h⟩⟩
  · rw [herrno]
    decide

/-- Data is what the call returns. -/
theorem Kept.kept (h : s.Kept results) {r : RawCall} (hmade : r ∈ s.made) (hdata : 0 ≤ r.n) :
    s.io.place = .done r.n ∧ s.made.getLast? = some r := by
  have hr : ¬ r.Retry := by
    rintro ⟨hn, -⟩
    omega
  cases hdone : s.io.isDone with
  | false => exact absurd (h.waiting hdone r hmade) hr
  | true =>
    obtain ⟨n, hn⟩ : ∃ n, s.io.place = .done n := by
      unfold DoIo.isDone at hdone
      split at hdone
      · rename_i n hn
        exact ⟨n, hn⟩
      · cases hdone
    rcases h.done n hn with ⟨pre, q, hq, hpre, -, rfl, -⟩ | ⟨hretry, -⟩
    · rw [hq, List.mem_append, List.mem_singleton] at hmade
      rcases hmade with hmade | rfl
      · exact absurd (hpre r hmade) hr
      · exact ⟨hn, by rw [hq, List.getLast?_concat]⟩
    · exact absurd (hretry r hmade) hr

/-- A wakeup behind the callback ends the call. -/
theorem Expired.timedOut (h : s.Expired) (hstuck : s.Stuck) :
    s.io.place = .done (-1) ∧ s.errno = ETIMEDOUT := by
  rcases h.2 with hplace | hplace | hplace
  · rcases hstuck.done_or with ⟨n, hn⟩ | ⟨hn | hn, -⟩ <;> rw [hplace] at hn <;> cases hn
  · rcases hstuck.done_or with ⟨n, hn⟩ | ⟨hn | hn, -⟩ <;> rw [hplace] at hn <;> cases hn
  · exact hplace

/-- **The outcome of a hooked call**, for a socket that is open and that the user has not made
nonblocking, if `addEvent` is never refused: whatever the results of the raw calls are, and however
the fiber is resumed, the call comes to an end; it returns the first result that is neither `EINTR`
nor `EAGAIN`, or the timeout when its callback has run before a wakeup; and no data is lost. -/
theorem outcome {ctx : FdCtx} (hsocket : ctx.isSocket = true) (hopen : ctx.isClosed = false)
    (hblock : ctx.userNonblock = false) (event : Event) (errno : ℕ) (results : List RawCall)
    (acts : List Act) (hadd : ∀ rt serial, .addEvent rt serial ∈ acts → rt = 0) (s : IoCall)
    (hs : exec step (start (some ctx) event errno results) acts = some s) :
    Outcome results acts s := by
  have hstart := kept_start hsocket hopen hblock event errno results
  have hguarded : Guarded step (fun _ a => ∀ rt serial, a = .addEvent rt serial → rt = 0)
      (start (some ctx) event errno results) acts := by
    apply guarded_of_forall_mem
    rintro a ha rt serial rfl
    exact hadd rt serial ha
  have hkept : s.Kept results :=
    exec_invariant_of_guarded (fun _ _ _ h hadd ht => Kept.step h hadd ht) hstart hguarded hs
  constructor
  · have hlength := length_add_measure_le left (fun _ _ _ => left_lt) hs
    have hleft : (start (some ctx) event errno results).left = 7 * results.length + 1 := by
      simp [left, start, DoIo.begin, DoIo.distance, hsocket, hopen, hblock]
    omega
  · intro hunset hstuck pre r post hresults hpre hr
    have hflag : s.io.cancelled = false := by
      have hiff := cancelled_exec hs
      have hbegin : (start (some ctx) event errno results).io.cancelled = false := rfl
      simpa [hbegin, hunset] using hiff
    exact hkept.first hflag hstuck hresults hpre hr
  · rintro as bs cs rfl
    obtain ⟨t, ht, hs⟩ := exec_append_eq_some.mp hs
    obtain ⟨u, hu, hs⟩ := exec_cons_eq_some.mp hs
    have hflag : t.io.cancelled = true := (cancelled_exec ht).mpr (.inr (by simp))
    obtain ⟨hexpired, hraw⟩ := (expired_wake hflag hu).exec hs
    exact ⟨hraw, hexpired.timedOut⟩
  · exact hkept.unseen
  · exact fun r => hkept.kept

/-- A `recv` is interrupted, waits, and reads five bytes. -/
theorem outcome_five_bytes : ∃ s, Outcome [⟨-1, EINTR⟩, ⟨-1, EAGAIN⟩, ⟨5, 0⟩]
    [.raw .eintr, .raw .eagain, .addConditionTimer 0, .addEvent 0 0, .yield, .wake, .cancelTimer,
      .test, .raw (.other 5)] s ∧ s.io.place = .done 5 := by
  have hsocket : (FdCtx.construct true).isSocket = true := rfl
  exact ⟨_, outcome hsocket rfl rfl .read 0 _ _ (by simp) _ rfl, rfl⟩

end IoCall

end Dag
