import Dag.Foundation.Run
import Dag.Hook.DoIo

/-!
# Connecting with a timeout

`connect_with_timeout` calls `connect_f` on a socket that does not block. While the connection is in
progress it waits for the socket to become writable, with a condition timer if there is a timeout,
and then reads `SO_ERROR`, which is 0 for a connection that is established.

It is 0 for a connection in progress, too. The call comes to `SO_ERROR` whenever it is resumed with
the flag `cancelled` not set, and also when `addEvent` has failed: a `cancelEvent` or `cancelAll` of
another fiber resumes it, and leaves the connection as it is. So does `idle()` of a worker, when it
dispatches what `epoll_wait` has returned before for the same number, or a hang-up or an error, which
it widens to `WRITE`.

The kernel settles a connection in progress at any time, and the socket is writable from then on. The
descriptor stays open while the call is under way. `cause` records how the call has come past its
wait; no step reads it.

## Main definitions

* `Connection`: the connection in the kernel
* `ConnectIo`, `ConnectIo.step`: a call of `connect_with_timeout`, and its steps
* `ConnectIo.Sound`: the call reports success of an established connection only
* `ConnectIo.Settled`: the condition that a connection is settled before its error is read

## Main results

* `ConnectIo.sound_iff`: success is reported of established connections only, exactly when all the
  steps meet the condition
-/

namespace Dag

open Foundation

/-- The connection of a socket, in the kernel. -/
inductive Connection
  | none
  | inProgress
  | established
  | failed (error : ℕ)
  deriving DecidableEq, Repr

/-- What `SO_ERROR` is. -/
def Connection.error : Connection → ℕ
  | failed error => error
  | _ => 0

/-- `EBADF` -/
def EBADF : ℕ := 9

/-- `ETIMEDOUT` -/
def ETIMEDOUT : ℕ := 110

/-- `EINPROGRESS` -/
def EINPROGRESS : ℕ := 115

/-- How a call has come past its wait. -/
inductive Cause
  /-- `addEvent` has failed -/
  | refused
  /-- the socket was writable, as the kernel has reported of the settled connection -/
  | writable
  /-- `idle()` has triggered `WRITE` without that: for a report of before, a hang-up or an error -/
  | stale
  /-- the callback of the timer has cancelled the event -/
  | timedOut
  /-- another fiber has cancelled the event -/
  | cancelled
  deriving DecidableEq, Repr

/-- Where a call of `connect_with_timeout` is. -/
inductive ConnectAt
  /-- before `connect_f`, whose result is returned -/
  | plain
  /-- before `connect_f` -/
  | calling
  /-- the connection is in progress -/
  | pending
  /-- before `addEvent` -/
  | armed
  /-- `addEvent` has returned 0 -/
  | registered
  /-- in `yield` -/
  | parked
  /-- behind `yield` -/
  | resumed
  /-- the timer has been cancelled, and the flag is to be tested -/
  | testing
  /-- `addEvent` has failed -/
  | failed
  /-- before `getsockopt` -/
  | checking
  | done (n : ℤ)
  deriving DecidableEq, Repr

/-- A call of `connect_with_timeout`. -/
structure ConnectIo where
  timeout_ms : ℕ
  connection : Connection
  /-- a timer has been armed -/
  timer : Bool
  /-- the flag of `timer_info` -/
  cancelled : Bool
  errno : ℕ
  place : ConnectAt
  cause : Option Cause
  deriving DecidableEq, Repr

namespace ConnectIo

/-- The beginning of `connect_with_timeout`, up to `connect_f`. -/
def begin (hook_enable : Bool) (ctx : Option FdCtx) (timeout_ms errno : ℕ) : ConnectIo :=
  let (errno, place) :=
    if !hook_enable then (errno, .plain)
    else
      match ctx with
      | none => (EBADF, .done (-1))
      | some ctx =>
        if ctx.isClosed then (EBADF, .done (-1))
        else if !ctx.isSocket || ctx.userNonblock then (errno, .plain)
        else (errno, ConnectAt.calling)
  ⟨timeout_ms, .none, false, false, errno, place, none⟩

/-- The steps of a call, of the kernel, and of the callback of the timer. -/
inductive Act
  /-- `connect_f`, with what becomes of the connection -/
  | connect_f (connection : Connection)
  /-- a connection in progress is established, or fails with an error -/
  | settle (error : Option ℕ)
  | addConditionTimer
  | addEvent (rt : ℤ)
  | yield
  /-- the callback sets the flag -/
  | setCancelled
  /-- the fiber is resumed -/
  | wake (cause : Cause)
  | cancelTimer
  | test
  /-- `getsockopt`, which may fail -/
  | getsockopt (ok : Bool)
  deriving DecidableEq, Repr

/-- `connect_f` has returned. -/
def connected (s : ConnectIo) (connection : Connection) : Option ConnectIo :=
  match connection, s.place with
  | .established, .plain | .established, .calling =>
    some { s with connection := .established, place := .done 0 }
  | .inProgress, .plain =>
    some { s with connection := .inProgress, errno := EINPROGRESS, place := .done (-1) }
  | .inProgress, .calling =>
    some { s with connection := .inProgress, errno := EINPROGRESS, place := .pending }
  | .failed error, .plain | .failed error, .calling =>
    if error ≠ 0 ∧ error ≠ EINPROGRESS then
      some { s with connection := .failed error, errno := error, place := .done (-1) }
    else none
  | _, _ => none

/-- The fiber can be resumed: a socket that is reported as writable has a connection that is settled,
and the callback has set its flag before it cancels the event. A report that says nothing of the
connection, and another fiber, can resume it at any time. -/
def Wakes (s : ConnectIo) : Cause → Prop
  | .refused => False
  | .writable => s.connection ≠ .inProgress
  | .stale => True
  | .timedOut => s.cancelled = true
  | .cancelled => True

instance (s : ConnectIo) : DecidablePred s.Wakes
  | .refused => inferInstanceAs (Decidable False)
  | .writable => inferInstanceAs (Decidable (s.connection ≠ .inProgress))
  | .stale => inferInstanceAs (Decidable True)
  | .timedOut => inferInstanceAs (Decidable (s.cancelled = true))
  | .cancelled => inferInstanceAs (Decidable True)

/-- One step. -/
def step (s : ConnectIo) : Act → Option ConnectIo
  | .connect_f connection => s.connected connection
  | .settle error =>
    if s.connection = .inProgress ∧ error ≠ some 0 then
      some { s with connection := error.elim .established .failed }
    else none
  | .addConditionTimer =>
    if s.place = .pending then
      some { s with timer := decide (s.timeout_ms ≠ 2 ^ 64 - 1), place := .armed }
    else none
  | .addEvent rt =>
    if s.place = .armed then
      if rt = 0 then some { s with place := .registered }
      else some { s with place := .failed, cause := some .refused }
    else none
  | .yield => if s.place = .registered then some { s with place := .parked } else none
  | .setCancelled =>
    if s.timer ∧ s.cancelled = false then some { s with cancelled := true } else none
  | .wake cause =>
    if s.place = .parked ∧ s.Wakes cause then
      some { s with place := .resumed, cause := some cause }
    else none
  | .cancelTimer =>
    match s.place with
    | .resumed => some { s with place := .testing }
    | .failed => some { s with place := .checking }
    | _ => none
  | .test =>
    if s.place = .testing then
      if s.cancelled then some { s with errno := ETIMEDOUT, place := .done (-1) }
      else some { s with place := .checking }
    else none
  | .getsockopt ok =>
    if s.place = .checking then
      if !ok then some { s with place := .done (-1) }
      else if s.connection.error = 0 then some { s with place := .done 0 }
      else some { s with errno := s.connection.error, place := .done (-1) }
    else none

/-- **Success is reported of an established connection only.** -/
def Sound (s : ConnectIo) : Prop := s.place = .done 0 → s.connection = .established

/-- The call has come past its wait without a word of the kernel, or of its timer, on the
connection. -/
def Unreported (s : ConnectIo) : Prop :=
  s.cause = some .refused ∨ s.cause = some .stale ∨ s.cause = some .cancelled

/-- **A connection is settled before its error is read**, by a call that could not register, or that a
stale report or another fiber has resumed. -/
def Settled (s : ConnectIo) : Act → Prop
  | .getsockopt ok => s.place = .checking → ok = true → s.Unreported → s.connection ≠ .inProgress
  | _ => True

/-! ## What a call keeps -/

variable {s t : ConnectIo}

/-- `connect_f` has said that the connection is in progress, and the call has not returned. -/
def Pending (s : ConnectIo) : Prop :=
  match s.place with
  | .plain | .calling | .done _ => False
  | _ => True

/-- The call is past its wait, and has not returned. -/
def Past (s : ConnectIo) : Prop :=
  match s.place with
  | .resumed | .testing | .failed | .checking => True
  | _ => False

/-- What the way past its wait says of a call. -/
def Known (s : ConnectIo) : Cause → Prop
  | .refused => True
  | .writable => s.connection ≠ .inProgress
  | .stale => True
  -- the test of the flag has been taken by no such call
  | .timedOut => s.cancelled = true ∧ (s.place = .resumed ∨ s.place = .testing)
  | .cancelled => True

/-- **The invariant**: a call that is past its wait has come there in one of the ways above, and what
that says of the call is still so. -/
structure Kept (s : ConnectIo) : Prop where
  sound : s.Sound
  begun : s.Pending → s.connection ≠ .none
  error : s.connection ≠ .failed 0
  past : s.Past → ∃ cause, s.cause = some cause ∧ s.Known cause

theorem kept_begin (hook_enable : Bool) (ctx : Option FdCtx) (timeout_ms errno : ℕ) :
    (begin hook_enable ctx timeout_ms errno).Kept := by
  have hplace : (begin hook_enable ctx timeout_ms errno).place = .plain ∨
      (begin hook_enable ctx timeout_ms errno).place = .calling ∨
      (begin hook_enable ctx timeout_ms errno).place = .done (-1) := by
    unfold begin
    cases hook_enable
    · exact .inl rfl
    cases ctx with
    | none => exact .inr (.inr rfl)
    | some ctx =>
      dsimp only [Bool.not_true]
      split_ifs <;> simp
  constructor
  · intro hdone
    simp [hdone] at hplace
  · intro hpending
    rcases hplace with h | h | h <;> simp [Pending, h] at hpending
  · exact nofun
  · intro hpast
    rcases hplace with h | h | h <;> simp [Past, h] at hpast

/-- `connect_f` returns a connection that is in progress, and the call goes on to wait for it; or
the call returns, with 0 if the connection is established. -/
theorem of_connected {connection : Connection} (ht : s.connected connection = some t) :
    t.connection = connection ∧ connection ≠ .none ∧ connection ≠ .failed 0 ∧
      (t.place = .pending ∨ t.place = .done (-1) ∨
        connection = .established ∧ t.place = .done 0) := by
  unfold connected at ht
  split at ht
  · cases ht
    simp
  · cases ht
    simp
  · cases ht
    simp
  · cases ht
    simp
  · split_ifs at ht with herror
    cases ht
    simp [herror.1]
  · split_ifs at ht with herror
    cases ht
    simp [herror.1]
  · cases ht

theorem kept_of_connected {connection : Connection} (ht : s.connected connection = some t) :
    t.Kept := by
  obtain ⟨hconnection, hnone, hfailed, hplace⟩ := of_connected ht
  constructor
  · intro hdone
    rcases hplace with h | h | ⟨h, -⟩
    · simp [h] at hdone
    · simp [h] at hdone
    · rw [hconnection, h]
  · intro _
    rwa [hconnection]
  · rwa [hconnection]
  · intro hpast
    rcases hplace with h | h | ⟨-, h⟩ <;> simp [Past, h] at hpast

/-- The call goes on, and leaves the connection and the flag as they are. -/
theorem Kept.move (h : s.Kept) (hpending : s.Pending) (hplace : t.Pending)
    (hconnection : t.connection = s.connection)
    (hpast : t.Past → ∃ cause, t.cause = some cause ∧ t.Known cause) : t.Kept := by
  constructor
  · intro hdone
    simp [Pending, hdone] at hplace
  · intro _
    rw [hconnection]
    exact h.begun hpending
  · rw [hconnection]
    exact h.error
  · exact hpast

/-- The call returns -1. -/
theorem Kept.fail (h : s.Kept) (hplace : t.place = .done (-1))
    (hconnection : t.connection = s.connection) : t.Kept := by
  constructor
  · intro hdone
    simp [hplace] at hdone
  · intro hpending
    simp [Pending, hplace] at hpending
  · rw [hconnection]
    exact h.error
  · intro hpast
    simp [Past, hplace] at hpast

/-- What is known of a call that is past its wait stays so, as long as a connection that is settled
stays settled, and a call whose flag is to be tested stays one. -/
theorem Kept.past_of (h : s.Kept) (hpast : s.Past) (hcause : t.cause = s.cause)
    (hconnection : s.connection ≠ .inProgress → t.connection ≠ .inProgress)
    (htimedOut : s.cancelled = true → s.place = .resumed ∨ s.place = .testing →
      t.cancelled = true ∧ (t.place = .resumed ∨ t.place = .testing)) :
    ∃ cause, t.cause = some cause ∧ t.Known cause := by
  obtain ⟨cause, hs, hknown⟩ := h.past hpast
  refine ⟨cause, hcause.trans hs, ?_⟩
  cases cause with
  | refused => trivial
  | writable => exact hconnection hknown
  | stale => trivial
  | timedOut => exact htimedOut hknown.1 hknown.2
  | cancelled => trivial

theorem Kept.settle (h : s.Kept) {error : Option ℕ} (hprogress : s.connection = .inProgress)
    (herror : error ≠ some 0) :
    Kept { s with connection := error.elim .established .failed } := by
  constructor
  · intro hdone
    have := h.sound hdone
    rw [hprogress] at this
    cases this
  · intro _
    cases error <;> simp
  · cases error with
    | none => exact nofun
    | some error => simpa using herror
  · intro hpast
    exact h.past_of hpast rfl (absurd hprogress) fun hflag hplace => ⟨hflag, hplace⟩

theorem Kept.setCancelled (h : s.Kept) : Kept { s with cancelled := true } := by
  refine ⟨h.sound, h.begun, h.error, ?_⟩
  intro hpast
  exact h.past_of hpast rfl id fun _ hplace => ⟨rfl, hplace⟩

/-- The fiber is resumed, and what wakes it is so. -/
theorem Kept.wake (h : s.Kept) {cause : Cause} (hplace : s.place = .parked)
    (hwakes : s.Wakes cause) : Kept { s with place := .resumed, cause := some cause } := by
  refine h.move (by simp [Pending, hplace]) trivial rfl fun _ => ⟨cause, rfl, ?_⟩
  cases cause with
  | refused => trivial
  | writable => exact hwakes
  | stale => trivial
  | timedOut => exact ⟨hwakes, .inl rfl⟩
  | cancelled => trivial

/-- A call whose flag is not set passes the test. -/
theorem Kept.test (h : s.Kept) (hplace : s.place = .testing) (hcancelled : s.cancelled = false) :
    Kept { s with place := .checking } := by
  refine h.move (by simp [Pending, hplace]) trivial rfl fun _ => ?_
  refine h.past_of (by simp [Past, hplace]) rfl id ?_
  -- the timer has not woken the call: its flag would be set
  intro hflag
  rw [hflag] at hcancelled
  cases hcancelled

/-- A connection whose error is 0 is established, if the condition is met: the socket was writable
once, or the condition says that the connection is not in progress. -/
theorem Kept.established (h : s.Kept) (hplace : s.place = .checking)
    (hsettled : s.Settled (.getsockopt true)) (herror : s.connection.error = 0) :
    s.connection = .established := by
  have hnone : s.connection ≠ .none := h.begun (by simp [Pending, hplace])
  have hprogress : s.connection ≠ .inProgress := by
    obtain ⟨cause, hcause, hknown⟩ := h.past (by simp [Past, hplace])
    cases cause with
    | refused => exact hsettled hplace rfl (.inl hcause)
    | writable => exact hknown
    | stale => exact hsettled hplace rfl (.inr (.inl hcause))
    | timedOut =>
      rcases hknown.2 with h | h <;> rw [hplace] at h <;> cases h
    | cancelled => exact hsettled hplace rfl (.inr (.inr hcause))
  cases hconnection : s.connection with
  | none => exact absurd hconnection hnone
  | inProgress => exact absurd hconnection hprogress
  | established => rfl
  | failed error =>
    rw [hconnection, Connection.error] at herror
    exact absurd (herror ▸ hconnection) h.error

theorem Kept.getsockopt (h : s.Kept) {ok : Bool} (hplace : s.place = .checking)
    (hsettled : s.Settled (.getsockopt ok)) (ht : s.step (.getsockopt ok) = some t) : t.Kept := by
  simp only [ConnectIo.step, if_pos hplace] at ht
  split_ifs at ht with hok herror
  · obtain rfl := Option.some.inj ht
    exact h.fail rfl rfl
  · obtain rfl := Option.some.inj ht
    obtain rfl : ok = true := by simpa using hok
    have hestablished := h.established hplace hsettled herror
    exact ⟨fun _ => hestablished, nofun, h.error, nofun⟩
  · obtain rfl := Option.some.inj ht
    exact h.fail rfl rfl

theorem Kept.cancelTimer (h : s.Kept) (ht : s.step .cancelTimer = some t) : t.Kept := by
  simp only [ConnectIo.step] at ht
  split at ht
  · rename_i hplace
    obtain rfl := Option.some.inj ht
    refine h.move (by simp [Pending, hplace]) trivial rfl fun _ => ?_
    exact h.past_of (by simp [Past, hplace]) rfl id fun hflag _ => ⟨hflag, .inr rfl⟩
  · rename_i hplace
    obtain rfl := Option.some.inj ht
    refine h.move (by simp [Pending, hplace]) trivial rfl fun _ => ?_
    refine h.past_of (by simp [Past, hplace]) rfl id ?_
    -- a call that could not register has not waited
    rintro - (hwait | hwait)
    · rw [hplace] at hwait
      cases hwait
    · rw [hplace] at hwait
      cases hwait
  · cases ht

/-- **One step** that meets the condition keeps the invariant. -/
theorem Kept.step (h : s.Kept) {a : Act} (hsettled : s.Settled a) (ht : s.step a = some t) :
    t.Kept := by
  cases a with
  | connect_f connection => exact kept_of_connected ht
  | settle error =>
    simp only [ConnectIo.step] at ht
    split_ifs at ht with hcan
    obtain rfl := Option.some.inj ht
    exact h.settle hcan.1 hcan.2
  | addConditionTimer =>
    simp only [ConnectIo.step] at ht
    split_ifs at ht with hplace
    obtain rfl := Option.some.inj ht
    exact h.move (by simp [Pending, hplace]) trivial rfl nofun
  | addEvent rt =>
    simp only [ConnectIo.step] at ht
    split_ifs at ht with hplace hrt
    · obtain rfl := Option.some.inj ht
      exact h.move (by simp [Pending, hplace]) trivial rfl nofun
    · obtain rfl := Option.some.inj ht
      exact h.move (by simp [Pending, hplace]) trivial rfl fun _ => ⟨.refused, rfl, trivial⟩
  | yield =>
    simp only [ConnectIo.step] at ht
    split_ifs at ht with hplace
    obtain rfl := Option.some.inj ht
    exact h.move (by simp [Pending, hplace]) trivial rfl nofun
  | setCancelled =>
    simp only [ConnectIo.step] at ht
    split_ifs at ht
    obtain rfl := Option.some.inj ht
    exact h.setCancelled
  | wake cause =>
    simp only [ConnectIo.step] at ht
    split_ifs at ht with hcan
    obtain rfl := Option.some.inj ht
    exact h.wake hcan.1 hcan.2
  | cancelTimer => exact h.cancelTimer ht
  | test =>
    simp only [ConnectIo.step] at ht
    split_ifs at ht with hplace hcancelled
    · obtain rfl := Option.some.inj ht
      exact h.fail rfl rfl
    · obtain rfl := Option.some.inj ht
      exact h.test hplace (by simpa using hcancelled)
  | getsockopt ok =>
    by_cases hplace : s.place = .checking
    · exact h.getsockopt hplace hsettled ht
    · rw [ConnectIo.step, if_neg hplace] at ht
      cases ht

/-- A step that does not meet the condition reports success of a connection in progress. -/
theorem settled_of_sound {a : Act} (h : ∀ t, s.step a = some t → t.Sound) : s.Settled a := by
  cases a with
  | getsockopt ok =>
    rintro hplace rfl _ hprogress
    have ht : s.step (.getsockopt true) = some { s with place := .done 0 } := by
      simp [step, hplace, hprogress, Connection.error]
    have := h _ ht rfl
    rw [hprogress] at this
    cases this
  | _ => trivial

/-- **Success is reported of established connections only**, exactly when a connection is settled
before its error is read wherever the call could not register its event, or has been resumed by a
stale report or by another fiber's `cancelEvent` or `cancelAll`. -/
theorem sound_iff (hook_enable : Bool) (ctx : Option FdCtx) (timeout_ms errno : ℕ)
    (acts : List Act) :
    Throughout step Sound (begin hook_enable ctx timeout_ms errno) acts ↔
      Guarded step Settled (begin hook_enable ctx timeout_ms errno) acts := by
  constructor
  · intro h
    rw [guarded_iff]
    rintro bs a cs s rfl hs
    apply settled_of_sound
    intro t ht
    exact h (bs ++ [a]) t ⟨cs, by simp⟩
      (exec_append_eq_some.mpr ⟨s, hs, exec_cons_eq_some.mpr ⟨t, ht, rfl⟩⟩)
  · intro hg bs t hbs ht
    have hkept := throughout_of_guarded (I := Kept) (fun _ _ _ h hg ht => h.step hg ht)
      (kept_begin hook_enable ctx timeout_ms errno) hg
    exact (hkept bs t hbs ht).sound

/-- Another fiber cancels the event of a call that waits for its connection. A stale report does the
same. -/
theorem success_in_progress :
    (¬ ∀ (ctx : FdCtx) (timeout_ms errno : ℕ) (acts : List Act),
      ctx.isSocket = true → ctx.userNonblock = false → ctx.isClosed = false →
        Throughout step Sound (begin true (some ctx) timeout_ms errno) acts) ∧
    ∃ s, exec step (begin true (some (FdCtx.construct true)) 1000 0)
        [.connect_f .inProgress, .addConditionTimer, .addEvent 0, .yield, .wake .stale,
          .cancelTimer, .test, .getsockopt true] = some s ∧ ¬ s.Sound := by
  constructor
  · intro h
    have hsound := h (FdCtx.construct true) 1000 0
      [.connect_f .inProgress, .addConditionTimer, .addEvent 0, .yield, .wake .cancelled,
        .cancelTimer, .test, .getsockopt true] rfl rfl rfl _ _ (List.prefix_refl _) rfl
    cases hsound rfl
  · refine ⟨_, rfl, fun hsound => ?_⟩
    cases hsound rfl

end ConnectIo

end Dag
