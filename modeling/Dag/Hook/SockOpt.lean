import Dag.Hook.CallSteps
import Dag.Hook.Sleep

/-!
# The hooked setsockopt

The hooked `setsockopt` puts the timeouts of a socket into its `FdCtx`, in milliseconds, before it
gives them to the kernel. For the kernel a timeout of zero means to wait without a limit. For
`do_io` it is `(uint64_t)-1` that means this; zero is a timer that expires at once, and what is less
than a millisecond is dropped.

## Main definitions

* `Timeval.millis`: the conversion
* `setsockopt`: what becomes of the `FdCtx`
* `Hook.armedMs`: the delay of the timer of a call of `do_io`
* `Timeval.Representable`: the condition that a timeout keeps its meaning

## Main results

* `Hook.armed_of_exec`: whatever happens in between, a later call arms its timer with the timeout
  that was set
* `Hook.setsockopt_kept_iff`: the timer means what the timeout means exactly for whole milliseconds
  that are not zero
-/

namespace Dag

open Foundation

/-! ## The source -/

/-- `struct timeval`. -/
structure Timeval where
  tv_sec : BitVec 64
  tv_usec : BitVec 64
  deriving DecidableEq, Repr

/-- `v->tv_sec * 1000 + v->tv_usec / 1000`, as a `uint64_t`. A signed overflow, which is undefined,
wraps around. -/
def Timeval.millis (v : Timeval) : BitVec 64 := v.tv_sec * 1000 + v.tv_usec.sdiv 1000

/-- The options of `SOL_SOCKET`. -/
inductive OptName
  | SO_RCVTIMEO
  | SO_SNDTIMEO
  | other
  deriving DecidableEq, Repr

/-- The direction of a timeout. -/
def OptName.event? : OptName → Option Event
  | SO_RCVTIMEO => some .read
  | SO_SNDTIMEO => some .write
  | other => none

/-- `setsockopt(sockfd, level, optname, optval, optlen)`: what becomes of the `FdCtx`. Seconds whose
milliseconds overflow are read as wrapping around. -/
def setsockopt (hook_enable solSocket : Bool) (optname : OptName) (optval : Timeval)
    (ctx : Option FdCtx) : Option FdCtx :=
  if !hook_enable || !solSocket then ctx
  else
    match optname.event? with
    | some type => ctx.map fun ctx => ctx.setTimeout optval.millis.toNat type
    | none => ctx

namespace Timeval

/-- The timeout is one that the kernel accepts. -/
def Accepted (v : Timeval) : Prop :=
  0 ≤ v.tv_sec.toInt ∧ 0 ≤ v.tv_usec.toInt ∧ v.tv_usec.toInt < 10 ^ 6

instance : DecidablePred Accepted := fun v => inferInstanceAs (Decidable
  (0 ≤ v.tv_sec.toInt ∧ 0 ≤ v.tv_usec.toInt ∧ v.tv_usec.toInt < 10 ^ 6))

/-- The timeout in microseconds. -/
def micros (v : Timeval) : ℕ := v.tv_sec.toNat * 10 ^ 6 + v.tv_usec.toNat

/-- The timeout is not zero, it is a whole number of milliseconds, and one that is less than
`(uint64_t)-1`. -/
def Representable (v : Timeval) : Prop :=
  v.micros ≠ 0 ∧ 1000 ∣ v.tv_usec.toNat ∧
    v.tv_sec.toNat * 1000 + v.tv_usec.toNat / 1000 < 2 ^ 64 - 1

instance : DecidablePred Representable := fun v =>
  inferInstanceAs (Decidable (v.micros ≠ 0 ∧ 1000 ∣ v.tv_usec.toNat ∧
    v.tv_sec.toNat * 1000 + v.tv_usec.toNat / 1000 < 2 ^ 64 - 1))

variable {v : Timeval}

theorem toNat_millis (h : v.Accepted) :
    v.millis.toNat = (v.tv_sec.toNat * 1000 + v.tv_usec.toNat / 1000) % 2 ^ 64 := by
  obtain ⟨-, husec, -⟩ := h
  rw [millis, BitVec.toNat_add, BitVec.toNat_mul, toNat_sdiv husec (by decide), Nat.mod_add_mod]
  rfl

end Timeval

/-- What a timer means, by its delay: `none` waits without a limit, like a timeout of zero, and any
other timeout is waited for in full. -/
def KeepsMeaning (v : Timeval) (armed : Option ℕ) : Prop :=
  (v.micros = 0 → armed = none) ∧
    (v.micros ≠ 0 → ∃ ms, armed = some ms ∧ v.micros ≤ ms * 10 ^ 3)

/-- The timer that `do_io` arms for a timeout in milliseconds. -/
def armedFor (timeout : ℕ) : Option ℕ := if timeout = 2 ^ 64 - 1 then none else some timeout

theorem armedFor_of_ne {timeout : ℕ} (h : timeout ≠ 2 ^ 64 - 1) : armedFor timeout = some timeout :=
  if_neg h

/-- **The conversion keeps the meaning** exactly of what is representable. -/
theorem keepsMeaning_iff {v : Timeval} (h : v.Accepted) :
    KeepsMeaning v (armedFor v.millis.toNat) ↔ v.Representable := by
  have hmillis := Timeval.toNat_millis h
  have hmicros : v.micros = v.tv_sec.toNat * 10 ^ 6 + v.tv_usec.toNat := rfl
  constructor
  · rintro ⟨hzero, hlong⟩
    have hne : v.micros ≠ 0 := by
      intro hv
      have hnone := hzero hv
      rw [armedFor_of_ne (by omega)] at hnone
      cases hnone
    obtain ⟨ms, hms, hle⟩ := hlong hne
    unfold armedFor at hms
    split_ifs at hms with hlimit
    obtain rfl := Option.some.inj hms
    exact ⟨hne, by omega, by omega⟩
  · rintro ⟨hne, hwhole, hlt⟩
    rw [armedFor_of_ne (by omega)]
    exact ⟨fun hv => absurd hv hne, fun _ => ⟨_, rfl, by omega⟩⟩

/-! ## What a run leaves of a timeout -/

namespace DoIo

/-- The call does not come to wait: the descriptor is not for the hook, or the call has returned. -/
def Unarmed (d : DoIo) : Prop := d.place = .plain ∨ ∃ n, d.place = .done n

/-- A later state of a call: it has the same timeout, and does not come to wait if it did not. -/
def Follows (d d' : DoIo) : Prop := d'.timeout = d.timeout ∧ (d.Unarmed → d'.Unarmed)

variable {d d' : DoIo}

/-- A step reads no timeout, and does not make a call wait that has nothing to wait for. -/
theorem follows_of_step {a : Act} (h : d.step a = some d') : d.Follows d' := by
  obtain ⟨r, -, hr⟩ | ⟨-, -, rfl⟩ | ⟨p, p', hp, -, -, htimeout, hmoves⟩ := step_cases h
  · obtain ⟨-, htimeout, ⟨-, hdone⟩ | ⟨hretry, -⟩⟩ := of_raw hr
    · exact ⟨htimeout, fun _ => .inr ⟨_, hdone⟩⟩
    · refine ⟨htimeout, fun hunarmed => ?_⟩
      simp [Unarmed, hretry] at hunarmed
  · exact ⟨rfl, id⟩
  · refine ⟨htimeout, fun hunarmed => ?_⟩
    cases hmoves <;> simp [Unarmed, hp] at hunarmed

end DoIo

namespace Hook

/-- What a step makes of the `FdCtx`. -/
def ctxAfter (ctx : Option FdCtx) : Act → Option FdCtx
  | .del => none
  | .get isSocket => some (ctx.getD (FdCtx.construct isSocket))
  | .setTimeout type v => ctx.map fun ctx => ctx.setTimeout v type
  | .setUserNonblock v => ctx.map fun ctx => { ctx with userNonblock := v }
  | _ => ctx

variable {fd i : ℕ} {s t u : Hook} {d : DoIo} {type : Event} {v : ℕ}

theorem ctx_of_stepIo {a : IoAct} (ht : s.stepIo fd i d a = some t) : t.ctx = s.ctx := by
  cases a with
  | raw r | yield | resume | cancelTimer | test =>
    obtain ⟨d', -, rfl⟩ := Option.map_eq_some_iff.mp ht
    first
      | rfl
      | (unfold disarm; split <;> rfl)
  | addConditionTimer now =>
    simp only [stepIo] at ht
    split_ifs at ht
    obtain rfl := Option.some.inj ht
    unfold arm
    split_ifs <;> rfl
  | addEvent accepted =>
    obtain ⟨-, r, io, -, rfl⟩ := of_addEvent ht
    unfold added
    split_ifs <;> rfl

theorem ctx_of_step {a : Act} (ht : step fd s a = some t) : t.ctx = ctxAfter s.ctx a := by
  cases a with
  | io i a =>
    obtain ⟨d, -, ht⟩ := Option.bind_eq_some_iff.mp ht
    exact ctx_of_stepIo ht
  | cancelEvent i =>
    obtain ⟨-, d, r, io, -, -, rfl⟩ := of_cancelEvent ht
    rfl
  | dispatch ready =>
    obtain ⟨io, -, rfl⟩ := of_dispatch ht
    rfl
  | cancelAll =>
    obtain ⟨-, r, io, -, rfl⟩ := of_cancelAll ht
    rfl
  | listExpiredCb fuel now now' =>
    obtain ⟨r, -, rfl⟩ := Option.map_eq_some_iff.mp ht
    rfl
  | timer c =>
    simp only [step] at ht
    split_ifs at ht
    obtain ⟨m, -, rfl⟩ := Option.map_eq_some_iff.mp ht
    rfl
  | runCb i | setCancelled i =>
    simp only [step] at ht
    split_ifs at ht
    obtain ⟨d, -, rfl⟩ := Option.map_eq_some_iff.mp ht
    rfl
  | close | del | close_f | socket_f | get isSocket =>
    simp only [step] at ht
    split_ifs at ht
    all_goals
      obtain rfl := Option.some.inj ht
      rfl
  | call event | setTimeout type v | setUserNonblock v =>
    obtain rfl := Option.some.inj ht
    rfl

/-- Nothing is done about the timeout of a direction: it is not set, and the descriptor is not
closed. -/
def LeavesTimeout (type : Event) : Act → Prop
  | .setTimeout type' _ => type' ≠ type
  | .del => False
  | _ => True

theorem ctxAfter_getTimeout {ctx : Option FdCtx} {a : Act} (ha : LeavesTimeout type a)
    (h : ctx.map (FdCtx.getTimeout · type) = some v) :
    (ctxAfter ctx a).map (FdCtx.getTimeout · type) = some v := by
  obtain ⟨c, rfl, hc⟩ := Option.map_eq_some_iff.mp h
  cases a with
  | del => cases ha
  | setTimeout type' v' =>
    have hne : type' ≠ type := ha
    cases type <;> cases type' <;> first | contradiction | exact h
  | setUserNonblock v' => cases type <;> exact h
  | _ => exact h

theorem getTimeout_of_exec {acts : List Act} (hacts : ∀ a ∈ acts, LeavesTimeout type a)
    (h : s.ctx.map (FdCtx.getTimeout · type) = some v) (ht : exec (step fd) s acts = some t) :
    t.ctx.map (FdCtx.getTimeout · type) = some v := by
  refine exec_invariant_of_guarded (I := fun s => s.ctx.map (FdCtx.getTimeout · type) = some v)
    ?_ h (guarded_of_forall_mem hacts s) ht
  intro s a t hs ha ht
  change t.ctx.map (FdCtx.getTimeout · type) = some v
  rw [ctx_of_step ht]
  exact ctxAfter_getTimeout ha hs

/-- The call `i` has this timeout, or does not come to wait. -/
def HasTimeout (s : Hook) (i v : ℕ) : Prop :=
  ∃ d, s.calls[i]? = some d ∧ (d.timeout = v ∨ d.Unarmed)

theorem HasTimeout.setCall (h : s.HasTimeout i v) {j : ℕ} {d' : DoIo}
    (hd : ∀ d, s.calls[j]? = some d → d.Follows d') : (s.setCall j d').HasTimeout i v := by
  obtain ⟨d, hi, hv⟩ := h
  by_cases hj : j = i
  · subst hj
    refine ⟨d', ?_, hv.imp (fun hv => (hd d hi).1.trans hv) (hd d hi).2⟩
    change (s.calls.set j d')[j]? = some d'
    exact List.getElem?_set_self (List.getElem?_eq_some_iff.mp hi).1
  · refine ⟨d, ?_, hv⟩
    change (s.calls.set j d')[i]? = some d
    rw [List.getElem?_set_ne hj]
    exact hi

theorem HasTimeout.stepIo (h : s.HasTimeout i v) {j : ℕ} {a : IoAct} (hj : s.calls[j]? = some d)
    (ht : s.stepIo fd j d a = some t) : t.HasTimeout i v := by
  obtain ⟨b, d', -, hd', hcalls⟩ := DoIo.step_of_stepIo ht
  unfold HasTimeout
  rw [hcalls]
  refine h.setCall fun d₁ hd₁ => ?_
  obtain rfl := Option.some.inj (hj.symm.trans hd₁)
  exact DoIo.follows_of_step hd'

/-- The timeout of a call is read once. -/
theorem HasTimeout.step (h : s.HasTimeout i v) {a : Act} (ht : Hook.step fd s a = some t) :
    t.HasTimeout i v := by
  cases changesCalls_of_step ht with
  | begun event hcalls =>
    obtain ⟨d, hi, hv⟩ := h
    refine ⟨d, ?_, hv⟩
    rw [hcalls]
    exact (List.getElem?_append_left (List.getElem?_eq_some_iff.mp hi).1).trans hi
  | stepped hj hio => exact h.stepIo hj hio
  | @flagged j d hj hcalls =>
    unfold HasTimeout
    rw [hcalls]
    refine h.setCall fun d₁ hd₁ => ?_
    rw [Option.some.inj (hj.symm.trans hd₁)]
    exact ⟨rfl, id⟩
  | closed hcalls =>
    obtain ⟨d, hi, hv⟩ := h
    refine ⟨d.closed, ?_, hv⟩
    rw [hcalls, List.getElem?_map, hi, Option.map_some]
  | kept hcalls =>
    unfold HasTimeout
    rw [hcalls]
    exact h

/-! ## The timer of a later call -/

/-- The delay of the timer that the call `i` has. -/
def armedMs (s : Hook) (i : ℕ) : Option ℕ :=
  (s.calls[i]?.bind DoIo.timer).map fun k => (s.manager.timer k).ms

theorem armedMs_arm (hi : s.calls[i]? = some d) (now : ℤ) :
    (s.arm i d now).armedMs i = armedFor d.timeout := by
  have hlt := (List.getElem?_eq_some_iff.mp hi).1
  have hset : ∀ d' : DoIo, (s.calls.set i d')[i]? = some d' := fun _ => List.getElem?_set_self hlt
  unfold arm armedFor
  split_ifs with hlimit
  · simp [armedMs, setCall, hset]
  · have htimer := timer_addTimer_self s.manager now d.timeout (some (.timeout i)) false
    simp only [armedMs, setCall, hset, Option.bind_some, Option.map_some, htimer]
    rfl

theorem hasTimeout_call (h : s.ctx.map (FdCtx.getTimeout · type) = some v)
    (ht : step fd s (.call type) = some t) : t.HasTimeout s.calls.length v := by
  obtain rfl := Option.some.inj ht
  refine ⟨DoIo.begin s.ctx type, by simp, ?_⟩
  obtain ⟨ctx, hctx, hv⟩ := Option.map_eq_some_iff.mp h
  rw [hctx]
  unfold DoIo.begin
  dsimp only
  split_ifs
  · exact .inr (.inr ⟨_, rfl⟩)
  · exact .inr (.inl rfl)
  · exact .inl hv

/-- **A later call arms its timer with the timeout of the socket**, whatever happens before the call
and while it is made, as long as the timeout is not set again before the call and the descriptor is
not closed. -/
theorem armed_of_exec {acts acts' : List Act} {now : ℤ}
    (hset : s.ctx.map (FdCtx.getTimeout · type) = some v) (hacts : ∀ a ∈ acts, LeavesTimeout type a)
    (hu : exec (step fd) s acts = some u)
    (ht : exec (step fd) u
      (.call type :: (acts' ++ [.io u.calls.length (.addConditionTimer now)])) = some t) :
    t.armedMs u.calls.length = armedFor v := by
  obtain ⟨u', hu', ht⟩ := exec_cons_eq_some.mp ht
  obtain ⟨t', ht', ht⟩ := exec_append_eq_some.mp ht
  have hcall : t'.HasTimeout u.calls.length v :=
    exec_invariant (I := fun s => s.HasTimeout u.calls.length v) (fun _ _ _ h ht => h.step ht)
      (hasTimeout_call (getTimeout_of_exec hacts hset hu) hu') ht'
  obtain ⟨t'', ht'', ht⟩ := exec_cons_eq_some.mp ht
  obtain rfl := Option.some.inj ht
  obtain ⟨d, hd, ht''⟩ := Option.bind_eq_some_iff.mp ht''
  simp only [stepIo] at ht''
  split_ifs at ht'' with hplace
  obtain rfl := Option.some.inj ht''
  obtain ⟨d', hd', hv⟩ := hcall
  obtain rfl := Option.some.inj (hd.symm.trans hd')
  rw [armedMs_arm hd]
  rcases hv with hv | hv | ⟨n, hv⟩
  · rw [hv]
  · rw [hplace] at hv
    cases hv
  · rw [hplace] at hv
    cases hv

variable {optname : OptName} {optval : Timeval}

/-- The step of the hook that sets a timeout is the hooked `setsockopt`. -/
theorem step_setTimeout (htype : optname.event? = some type) :
    step fd s (.setTimeout type optval.millis.toNat) =
      some { s with ctx := setsockopt true true optname optval s.ctx } := by
  simp [step, setsockopt, htype]

theorem getTimeout_setsockopt (htype : optname.event? = some type) {ctx : Option FdCtx}
    (hctx : ctx ≠ none) :
    (setsockopt true true optname optval ctx).map (FdCtx.getTimeout · type) =
        some optval.millis.toNat ∧
      ∀ type' ≠ type, (setsockopt true true optname optval ctx).map (FdCtx.getTimeout · type') =
        ctx.map (FdCtx.getTimeout · type') := by
  obtain ⟨ctx, rfl⟩ := Option.ne_none_iff_exists'.mp hctx
  simp only [setsockopt, htype, Bool.not_true, Bool.or_false, Bool.false_eq_true, if_false,
    Option.map_some]
  constructor
  · cases type <;> rfl
  · intro type' hne
    cases type <;> cases type' <;> first | contradiction | rfl

/-- **A timeout keeps its meaning** exactly when it is not zero and a whole number of milliseconds
that fits: only then does a later call of that direction wait as the kernel would. The timeout of
the other direction is left as it is. -/
theorem setsockopt_kept_iff {acts acts' : List Act} {now : ℤ} (htype : optname.event? = some type)
    (hval : optval.Accepted) (hctx : s.ctx ≠ none) (hacts : ∀ a ∈ acts, LeavesTimeout type a)
    (hu : exec (step fd) { s with ctx := setsockopt true true optname optval s.ctx } acts = some u)
    (ht : exec (step fd) u
      (.call type :: (acts' ++ [.io u.calls.length (.addConditionTimer now)])) = some t) :
    (KeepsMeaning optval (t.armedMs u.calls.length) ∧
      ∀ type' ≠ type, (setsockopt true true optname optval s.ctx).map (FdCtx.getTimeout · type') =
        s.ctx.map (FdCtx.getTimeout · type')) ↔ optval.Representable := by
  obtain ⟨hset, hother⟩ := getTimeout_setsockopt htype hctx
  rw [armed_of_exec hset hacts hu ht, keepsMeaning_iff hval]
  exact and_iff_left hother

/-- A timeout of two seconds. -/
theorem setsockopt_kept_two_seconds :
    ∃ t, exec (step 5) { start IOManager.construct 0 (some (.construct true)) with
        ctx := setsockopt true true .SO_RCVTIMEO ⟨2, 0⟩ (some (.construct true)) }
        [.call .read, .io 0 (.raw .eagain), .io 0 (.addConditionTimer 0)] = some t ∧
      KeepsMeaning ⟨2, 0⟩ (t.armedMs 0) := by
  let s : Hook := start IOManager.construct 0 (some (.construct true))
  obtain ⟨t, ht⟩ : ∃ t, exec (step 5)
      { s with ctx := setsockopt true true .SO_RCVTIMEO ⟨2, 0⟩ s.ctx }
      (.call .read :: ([.io 0 (.raw .eagain)] ++ [.io 0 (.addConditionTimer 0)])) = some t :=
    ⟨_, rfl⟩
  have htype : OptName.SO_RCVTIMEO.event? = some .read := rfl
  have hval : Timeval.Accepted ⟨2, 0⟩ := by decide
  have hacts : ∀ a ∈ ([] : List Act), LeavesTimeout .read a := by simp
  exact ⟨t, ht, ((setsockopt_kept_iff (s := s) htype hval (by simp [s, start]) hacts rfl ht).mpr
    (by decide)).1⟩

/-- A timeout of zero: `recv` arms a timer of 0 milliseconds. -/
theorem zero_timeout_expires :
    ¬ ∀ (fd : ℕ) (s t : Hook) (optval : Timeval) (now : ℤ), optval.Accepted → s.ctx ≠ none →
      exec (step fd) { s with ctx := setsockopt true true .SO_RCVTIMEO optval s.ctx }
        [.call .read, .io s.calls.length (.raw .eagain),
          .io s.calls.length (.addConditionTimer now)] = some t →
        KeepsMeaning optval (t.armedMs s.calls.length) := by
  intro h
  obtain ⟨t, ht, harmed⟩ : ∃ t,
      exec (step 5) { start IOManager.construct 0 (some (.construct true)) with
        ctx := setsockopt true true .SO_RCVTIMEO ⟨0, 0⟩ (some (.construct true)) }
        [.call .read, .io 0 (.raw .eagain), .io 0 (.addConditionTimer 0)] = some t ∧
      t.armedMs 0 = some 0 := ⟨_, rfl, rfl⟩
  have hmeaning := h 5 (start IOManager.construct 0 (some (.construct true))) t ⟨0, 0⟩ 0
    (by decide) (by simp [start]) ht
  have hnone := hmeaning.1 rfl
  change t.armedMs 0 = none at hnone
  rw [harmed] at hnone
  cases hnone

end Hook

end Dag
