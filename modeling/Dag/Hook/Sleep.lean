import Dag.Timer.Kept
import Mathlib.Tactic.Ring

/-!
# Hooked sleeps

The hooked `sleep`, `usleep` and `nanosleep` arm a timer whose callback schedules the fiber again,
and yield. Each converts its argument to milliseconds in integers of its own: `sleep` multiplies in
32 bits, `usleep` divides and drops the rest, and `nanosleep` puts a sum of 64 bits into an `int`.
The constructor of the timer converts the milliseconds to nanoseconds.

Overflow of a signed integer is read as wrapping around. A reading of the clock is a number of
nanoseconds since the epoch, and fits in 64 bits.

## Main definitions

* `sleepMs`, `usleepMs`, `nanosleepMs`: the delays
* `SleepCall`, `SleepCall.arm`: the three functions, up to the `yield`
* `LongEnough`: delay and deadline of a timer are not too short
* `SleepCall.Fits`: the condition that nothing is dropped and nothing wraps around

## Main results

* `arm_longEnough_iff`: a sleep is not too short exactly when its argument fits
-/

namespace Dag

variable {κ : Type}

/-! ## The source -/

/-- `struct timespec`. -/
structure Timespec where
  tv_sec : BitVec 64
  tv_nsec : BitVec 64
  deriving DecidableEq, Repr

/-- `seconds*1000`, an `unsigned int`, as a `uint64_t`. -/
def sleepMs (seconds : BitVec 32) : BitVec 64 := (seconds * 1000).setWidth 64

/-- `usec/1000`, a `useconds_t`, as a `uint64_t`. -/
def usleepMs (usec : BitVec 32) : BitVec 64 := (usec / 1000).setWidth 64

/-- `int timeout_ms = req->tv_sec*1000 + req->tv_nsec/1000/1000`, as a `uint64_t`. -/
def nanosleepMs (req : Timespec) : BitVec 64 :=
  let timeout_ms : BitVec 32 :=
    (req.tv_sec * 1000 + (req.tv_nsec.sdiv 1000).sdiv 1000).setWidth 32
  timeout_ms.signExtend 64

/-- A call of one of the three functions. -/
inductive SleepCall
  | sleep (seconds : BitVec 32)
  | usleep (usec : BitVec 32)
  | nanosleep (req : Timespec)
  deriving DecidableEq, Repr

namespace SleepCall

/-- The argument of `addTimer`. -/
def ms : SleepCall → BitVec 64
  | sleep seconds => sleepMs seconds
  | usleep usec => usleepMs usec
  | nanosleep req => nanosleepMs req

/-- The call at `now`, with the hook enabled, up to the `yield`: the timer whose callback `cb`
schedules the fiber. -/
def arm (m : TimerManager κ) (now : ℤ) (cb : κ) (c : SleepCall) : ℕ × TimerManager κ :=
  m.addTimer now c.ms.toNat (some cb) false

/-! ## What is asked for -/

/-- The argument is one that the function accepts. -/
def Accepted : SleepCall → Prop
  | sleep _ => True
  | usleep _ => True
  | nanosleep req => 0 ≤ req.tv_sec.toInt ∧ 0 ≤ req.tv_nsec.toInt ∧ req.tv_nsec.toInt < 10 ^ 9

/-- The duration that is asked for, in nanoseconds. -/
def requested : SleepCall → ℕ
  | sleep seconds => seconds.toNat * 10 ^ 9
  | usleep usec => usec.toNat * 10 ^ 3
  | nanosleep req => req.tv_sec.toNat * 10 ^ 9 + req.tv_nsec.toNat

/-- The milliseconds are whole ones, and fit in the integers that the call puts them in. -/
def Whole : SleepCall → Prop
  | sleep seconds => seconds.toNat * 1000 < 2 ^ 32
  | usleep usec => 1000 ∣ usec.toNat
  | nanosleep req =>
    10 ^ 6 ∣ req.tv_nsec.toNat ∧ req.tv_sec.toNat * 1000 + req.tv_nsec.toNat / 10 ^ 6 < 2 ^ 31

instance : DecidablePred Whole
  | sleep seconds => inferInstanceAs (Decidable (seconds.toNat * 1000 < 2 ^ 32))
  | usleep usec => inferInstanceAs (Decidable (1000 ∣ usec.toNat))
  | nanosleep req => inferInstanceAs (Decidable (10 ^ 6 ∣ req.tv_nsec.toNat ∧
      req.tv_sec.toNat * 1000 + req.tv_nsec.toNat / 10 ^ 6 < 2 ^ 31))

/-- The milliseconds fit, and so does the deadline. -/
def Fits (now : ℤ) (c : SleepCall) : Prop := c.Whole ∧ now + c.requested < 2 ^ 63

end SleepCall

/-- Neither the delay nor the deadline of a timer made at `now` is less than a duration in
nanoseconds. -/
def LongEnough (now : ℤ) (ns : ℕ) (x : Timer κ) : Prop :=
  ns ≤ x.ms * 10 ^ 6 ∧ now + ns ≤ x.next

/-! ## The deadline -/

section Deadline

variable {now : ℤ} {ns ms : ℕ}

theorem timer_addTimer_self (m : TimerManager κ) (now : ℤ) (ms : ℕ) (cb : Option κ)
    (recurring : Bool) :
    (m.addTimer now ms cb recurring).2.timer (m.addTimer now ms cb recurring).1 =
      Timer.construct now ms cb recurring := by
  change (m.setTimer m.count (Timer.construct now ms cb recurring)).timer m.count = _
  rw [TimerManager.setTimer_timer_self]

/-- A deadline that is a sum which does not fit comes before that sum. -/
theorem le_bmod_iff {a : ℤ} (ha : -2 ^ 63 ≤ a) : a ≤ a.bmod (2 ^ 64) ↔ a < 2 ^ 63 := by
  constructor
  · intro h
    have hlt : a.bmod (2 ^ 64) < (2 ^ 64 + 1) / 2 := Int.bmod_lt (by decide)
    omega
  · intro h
    rw [Int.bmod_eq_of_le (by omega) (by omega)]

/-- The deadline of a timer whose delay is the duration asked for. -/
theorem le_addMs_iff (hnow : 0 ≤ now) (hns : ns = ms * 10 ^ 6) :
    now + ns ≤ addMs now ms ↔ now + ns < 2 ^ 63 := by
  have hsum : now + ms * 10 ^ 6 = now + (ns : ℤ) := by
    rw [hns]
    push_cast
    ring
  rw [addMs, hsum]
  exact le_bmod_iff (by omega)

/-- A delay that has become negative leads to a deadline in the past. -/
theorem addMs_lt_of_negative {r : ℕ} (hnow : 0 ≤ now) (hnow' : now < 2 ^ 63) (hr : r < 2 ^ 32)
    (hms : ms = r + (2 ^ 64 - 2 ^ 32)) : addMs now ms < now := by
  have hsum : now + ms * 10 ^ 6 = now - (2 ^ 32 - r) * 10 ^ 6 + 10 ^ 6 * (2 ^ 64 : ℕ) := by
    rw [hms]
    push_cast
    ring
  rw [addMs, hsum, Int.add_mul_bmod_self_right, Int.bmod_eq_of_le (by omega) (by omega)]
  omega

end Deadline

/-! ## The delays -/

theorem toNat_sleepMs (seconds : BitVec 32) :
    (sleepMs seconds).toNat = seconds.toNat * 1000 % 2 ^ 32 := by
  rw [sleepMs, BitVec.toNat_setWidth, BitVec.toNat_mul, Nat.mod_eq_of_lt]
  · rfl
  · exact (Nat.mod_lt _ (by decide)).trans (by decide)

theorem toNat_usleepMs (usec : BitVec 32) : (usleepMs usec).toNat = usec.toNat / 1000 := by
  rw [usleepMs, BitVec.toNat_setWidth, BitVec.toNat_udiv, Nat.mod_eq_of_lt]
  · rfl
  · have := usec.isLt
    change usec.toNat / 1000 < 2 ^ 64
    omega

/-- A division of a signed integer that is not negative. -/
theorem toNat_sdiv {x y : BitVec 64} (hx : 0 ≤ x.toInt) (hy : 0 ≤ y.toInt) :
    (x.sdiv y).toNat = x.toNat / y.toNat := by
  have hmsb : ∀ {z : BitVec 64}, 0 ≤ z.toInt → z.msb = false := by
    intro z hz
    simpa [BitVec.msb_eq_toInt] using hz
  simp [BitVec.sdiv_eq, hmsb hx, hmsb hy]

/-- The milliseconds of a `timespec`. -/
def Timespec.millis (req : Timespec) : ℕ :=
  req.tv_sec.toNat * 1000 + req.tv_nsec.toNat / 10 ^ 6

theorem toNat_nanosleepMs {req : Timespec} (h : (SleepCall.nanosleep req).Accepted) :
    (nanosleepMs req).toNat = req.millis % 2 ^ 32 +
      if req.millis % 2 ^ 32 < 2 ^ 31 then 0 else 2 ^ 64 - 2 ^ 32 := by
  obtain ⟨-, hnsec, -⟩ := h
  have hquot : ((req.tv_nsec.sdiv 1000).sdiv 1000).toNat = req.tv_nsec.toNat / 10 ^ 6 := by
    have hthousand : 0 ≤ (1000 : BitVec 64).toInt := by decide
    have hfirst := toNat_sdiv hnsec hthousand
    have hpos : 0 ≤ (req.tv_nsec.sdiv 1000).toInt := by
      rw [BitVec.toInt_eq_toNat_of_lt]
      · exact Int.natCast_nonneg _
      · rw [hfirst]
        have := req.tv_nsec.isLt
        change 2 * (req.tv_nsec.toNat / 1000) < 2 ^ 64
        omega
    rw [toNat_sdiv hpos hthousand, hfirst, Nat.div_div_eq_div_mul]
    rfl
  have hint : ((req.tv_sec * 1000 + (req.tv_nsec.sdiv 1000).sdiv 1000).setWidth 32).toNat =
      req.millis % 2 ^ 32 := by
    rw [BitVec.toNat_setWidth, BitVec.toNat_add, BitVec.toNat_mul, hquot, Nat.mod_add_mod,
      Nat.mod_mod_of_dvd _ (Nat.pow_dvd_pow 2 (by decide))]
    rfl
  have hlt : req.millis % 2 ^ 32 < 2 ^ 32 := Nat.mod_lt _ (by decide)
  rw [nanosleepMs, BitVec.toNat_signExtend, BitVec.toNat_setWidth, BitVec.msb_eq_decide, hint,
    Nat.mod_eq_of_lt (hlt.trans (by decide))]
  by_cases hsmall : req.millis % 2 ^ 32 < 2 ^ 31
  · rw [if_pos hsmall, if_neg (by simpa using hsmall)]
  · rw [if_neg hsmall, if_pos (by simpa using hsmall)]

/-! ## The sleeps -/

namespace SleepCall

variable {c : SleepCall}

/-- A whole number of milliseconds that fits is the delay. -/
theorem requested_of_whole (h : c.Accepted) (hwhole : c.Whole) :
    c.requested = c.ms.toNat * 10 ^ 6 := by
  cases c with
  | sleep seconds =>
    have hlt : seconds.toNat * 1000 < 2 ^ 32 := hwhole
    rw [ms, toNat_sleepMs, Nat.mod_eq_of_lt hlt, requested]
    ring
  | usleep usec =>
    obtain ⟨k, hk⟩ : 1000 ∣ usec.toNat := hwhole
    rw [ms, toNat_usleepMs, requested, hk]
    omega
  | nanosleep req =>
    obtain ⟨⟨k, hk⟩, hlt⟩ : 10 ^ 6 ∣ req.tv_nsec.toNat ∧ req.millis < 2 ^ 31 := hwhole
    have hmillis : req.millis % 2 ^ 32 = req.millis := Nat.mod_eq_of_lt (by omega)
    rw [ms, toNat_nanosleepMs h, hmillis, if_pos hlt, requested, Timespec.millis]
    omega

/-- A delay that is not negative is less than what is asked for, if that does not fit. -/
theorem whole_of_le (h : c.Accepted) (hms : c.ms.toNat < 2 ^ 63)
    (hle : c.requested ≤ c.ms.toNat * 10 ^ 6) : c.Whole := by
  cases c with
  | sleep seconds =>
    rw [ms, toNat_sleepMs, requested] at hle
    change seconds.toNat * 1000 < 2 ^ 32
    omega
  | usleep usec =>
    rw [ms, toNat_usleepMs, requested] at hle
    change 1000 ∣ usec.toNat
    omega
  | nanosleep req =>
    rw [ms, toNat_nanosleepMs h] at hle hms
    by_cases hsmall : req.millis % 2 ^ 32 < 2 ^ 31
    · rw [if_pos hsmall, requested] at hle
      change 10 ^ 6 ∣ req.tv_nsec.toNat ∧ req.millis < 2 ^ 31
      have hmillis : req.millis = req.tv_sec.toNat * 1000 + req.tv_nsec.toNat / 10 ^ 6 := rfl
      omega
    · rw [if_neg hsmall] at hms
      omega

/-- Only `nanosleep` has delays that are negative, and they are those of an `int`. -/
theorem ms_of_le (h : c.Accepted) (hms : 2 ^ 63 ≤ c.ms.toNat) :
    ∃ r < 2 ^ 32, c.ms.toNat = r + (2 ^ 64 - 2 ^ 32) := by
  cases c with
  | sleep seconds =>
    rw [ms, toNat_sleepMs] at hms
    omega
  | usleep usec =>
    have hlt := usec.isLt
    rw [ms, toNat_usleepMs] at hms
    omega
  | nanosleep req =>
    rw [ms, toNat_nanosleepMs h] at hms ⊢
    split_ifs at hms ⊢ with hsmall
    · omega
    · exact ⟨_, Nat.mod_lt _ (by decide), rfl⟩

end SleepCall

/-- **A sleep is not too short** exactly when its argument is a whole number of milliseconds that
fits, and its deadline fits. -/
theorem arm_longEnough_iff (m : TimerManager κ) {now : ℤ} (cb : κ) {c : SleepCall}
    (h : c.Accepted) (hnow : 0 ≤ now) (hnow' : now < 2 ^ 63) :
    LongEnough now c.requested ((c.arm m now cb).2.timer (c.arm m now cb).1) ↔ c.Fits now := by
  rw [SleepCall.arm, timer_addTimer_self]
  constructor
  · rintro ⟨hdelay, hdeadline⟩
    by_cases hms : c.ms.toNat < 2 ^ 63
    · have hwhole := SleepCall.whole_of_le h hms hdelay
      exact ⟨hwhole, (le_addMs_iff hnow (SleepCall.requested_of_whole h hwhole)).mp hdeadline⟩
    · -- the deadline of a negative delay is in the past
      obtain ⟨r, hr, hms⟩ := SleepCall.ms_of_le h (Nat.le_of_not_lt hms)
      have hlt := addMs_lt_of_negative hnow hnow' hr hms
      have hdeadline : now + c.requested ≤ addMs now c.ms.toNat := hdeadline
      omega
  · rintro ⟨hwhole, hdeadline⟩
    have hrequested := SleepCall.requested_of_whole h hwhole
    exact ⟨hrequested.le, (le_addMs_iff hnow hrequested).mpr hdeadline⟩

/-- A `sleep` of a second. -/
theorem arm_longEnough_second : LongEnough 0 (10 ^ 9)
    (((SleepCall.sleep 1).arm (TimerManager.construct 0) 0 0).2.timer
      ((SleepCall.sleep 1).arm (TimerManager.construct 0) 0 0).1) :=
  (arm_longEnough_iff (TimerManager.construct 0) 0 (c := .sleep 1) trivial (by decide)
    (by decide)).mpr ⟨by decide, by decide⟩

-- the product of `sleep` wraps around, and so does the `int` of `nanosleep`
example : (sleepMs 4294968).toNat = 704 := by decide
example : (nanosleepMs ⟨4294968, 0⟩).toNat = 704 := by decide

/-- A `usleep` of a microsecond, with a timer of 0 milliseconds. -/
theorem sleeps_too_short : ¬ ∀ c : SleepCall, c.Accepted →
    LongEnough 0 c.requested ((c.arm (TimerManager.construct 0) 0 0).2.timer
      (c.arm (TimerManager.construct 0) 0 0).1) := by
  intro h
  have hlong := (h (.usleep 1) trivial).1
  revert hlong
  decide

end Dag
