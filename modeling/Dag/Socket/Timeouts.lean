import Dag.Hook.SockOpt

/-!
# The timeouts of a socket

`setRecvTimeout(v)` and `SetSendTimeout(v)` split milliseconds into the seconds and microseconds of
a `timeval`, each an `int`, and the hooked `setsockopt` puts them together again for the `FdCtx`.
`getRecvTimeout` and `getSendTimeout` return what the `FdCtx` has. The seconds are cut to 32 bits on
the way.

## Main definitions

* `Socket.timeval`: the conversion
* `Socket.setTimeoutOf`, `Socket.getTimeoutOf`: the functions, for either direction

## Main results

* `Socket.timeout_kept_iff`: a timeout is read back, and waited for by a later call, exactly when its
  seconds are an `int`
-/

namespace Dag

open Foundation

namespace Socket

/-! ## The source -/

/-- `int(x)` of an `int64_t`, where a `time_t` is asked for. -/
def toInt32 (x : BitVec 64) : BitVec 64 := (x.setWidth 32).signExtend 64

/-- `struct timeval tv{int(v/1000), int (v % 1000 * 1000)}` -/
def timeval (v : BitVec 64) : Timeval := ⟨toInt32 (v.sdiv 1000), toInt32 (v.srem 1000 * 1000)⟩

/-- The functions that set a timeout, on a thread with the hook enabled or not: what becomes of the
`FdCtx`. -/
def setTimeoutOf (optname : OptName) (hook_enable : Bool) (v : BitVec 64) (ctx : Option FdCtx) :
    Option FdCtx :=
  setsockopt hook_enable true optname (timeval v) ctx

/-- `SetSendTimeout(v)`. -/
def setSendTimeout : Bool → BitVec 64 → Option FdCtx → Option FdCtx := setTimeoutOf .SO_SNDTIMEO

/-- `setRecvTimeout(v)`. -/
def setRecvTimeout : Bool → BitVec 64 → Option FdCtx → Option FdCtx := setTimeoutOf .SO_RCVTIMEO

/-- The functions that read a timeout. -/
def getTimeoutOf (type : Event) (ctx : Option FdCtx) : BitVec 64 :=
  match ctx with
  | some ctx => BitVec.ofNat 64 (ctx.getTimeout type)
  | none => -1

/-- `getSendTimeout()`. -/
def getSendTimeout : Option FdCtx → BitVec 64 := getTimeoutOf .write

/-- `getRecvTimeout()`. -/
def getRecvTimeout : Option FdCtx → BitVec 64 := getTimeoutOf .read

/-! ## The conversion -/

section Conversion

variable {x v : BitVec 64}

theorem toInt_toInt32 (x : BitVec 64) : (toInt32 x).toInt = x.toInt.bmod (2 ^ 32) := by
  rw [toInt32, BitVec.toInt_signExtend_of_le (by decide), BitVec.toInt_setWidth,
    BitVec.toInt_eq_toNat_bmod, Int.bmod_bmod_of_dvd (by decide)]

/-- The division of the source, and its remainder: the one that has the sign of the dividend. -/
theorem toInt_sdiv_thousand (v : BitVec 64) : (v.sdiv 1000).toInt = v.toInt.tdiv 1000 := by
  rw [BitVec.toInt_sdiv_of_ne_or_ne _ _ (.inr (by decide))]
  rfl

theorem toInt_srem_thousand (v : BitVec 64) : (v.srem 1000).toInt = v.toInt.tmod 1000 := by
  rw [BitVec.toInt_srem]
  rfl

theorem toInt_mul_of_bounds {y : BitVec 64} (hlow : -2 ^ 63 ≤ x.toInt * y.toInt)
    (hhigh : x.toInt * y.toInt < 2 ^ 63) : (x * y).toInt = x.toInt * y.toInt := by
  rw [BitVec.toInt_mul, Int.bmod_eq_of_le]
  · exact hlow
  · exact hhigh

theorem toInt_add_of_bounds {y : BitVec 64} (hlow : -2 ^ 63 ≤ x.toInt + y.toInt)
    (hhigh : x.toInt + y.toInt < 2 ^ 63) : (x + y).toInt = x.toInt + y.toInt := by
  rw [BitVec.toInt_add, Int.bmod_eq_of_le]
  · exact hlow
  · exact hhigh

/-- The milliseconds that are left over, behind the seconds. -/
theorem bounds_tmod (z : ℤ) : -1000 < z.tmod 1000 ∧ z.tmod 1000 < 1000 :=
  ⟨Int.lt_tmod_of_pos z (by decide), Int.tmod_lt_of_pos z (by decide)⟩

theorem toInt_tv_usec (v : BitVec 64) : (timeval v).tv_usec.toInt = v.toInt.tmod 1000 * 1000 := by
  obtain ⟨hlow, hhigh⟩ := bounds_tmod v.toInt
  have hrem : (v.srem 1000).toInt * (1000 : BitVec 64).toInt = v.toInt.tmod 1000 * 1000 := by
    rw [toInt_srem_thousand]
    rfl
  have hmul : (v.srem 1000 * 1000).toInt = v.toInt.tmod 1000 * 1000 := by
    rw [← hrem]
    apply toInt_mul_of_bounds <;> rw [hrem] <;> omega
  rw [timeval, toInt_toInt32, hmul, Int.bmod_eq_of_le] <;> omega

/-- What the `FdCtx` is given. -/
theorem toInt_millis (v : BitVec 64) :
    (timeval v).millis.toInt = (v.toInt.tdiv 1000).bmod (2 ^ 32) * 1000 + v.toInt.tmod 1000 := by
  obtain ⟨hlow, hhigh⟩ := bounds_tmod v.toInt
  have hsec : (timeval v).tv_sec.toInt = (v.toInt.tdiv 1000).bmod (2 ^ 32) := by
    rw [timeval, toInt_toInt32, toInt_sdiv_thousand]
  have hle : -2 ^ 31 ≤ (v.toInt.tdiv 1000).bmod (2 ^ 32) := Int.le_bmod (by decide)
  have hlt : (v.toInt.tdiv 1000).bmod (2 ^ 32) < 2 ^ 31 := Int.bmod_lt (by decide)
  have husec : ((timeval v).tv_usec.sdiv 1000).toInt = v.toInt.tmod 1000 := by
    rw [toInt_sdiv_thousand, toInt_tv_usec, Int.mul_tdiv_cancel _ (by decide)]
  have hmul : ((timeval v).tv_sec * 1000).toInt =
      (v.toInt.tdiv 1000).bmod (2 ^ 32) * 1000 := by
    have hprod : (timeval v).tv_sec.toInt * (1000 : BitVec 64).toInt =
        (v.toInt.tdiv 1000).bmod (2 ^ 32) * 1000 := by
      rw [hsec]
      rfl
    rw [← hprod]
    apply toInt_mul_of_bounds <;> rw [hprod] <;> omega
  rw [Timeval.millis, toInt_add_of_bounds] <;> rw [hmul, husec] <;> omega

/-- The seconds of the timeout are an `int`. -/
def SecondsFit (v : BitVec 64) : Prop :=
  -(2 ^ 31 * 1000 + 999) ≤ v.toInt ∧ v.toInt < 2 ^ 31 * 1000

instance : DecidablePred SecondsFit := fun _ => inferInstanceAs (Decidable (_ ∧ _))

theorem secondsFit_iff (z : ℤ) : (-2 ^ 31 ≤ z.tdiv 1000 ∧ z.tdiv 1000 < 2 ^ 31) ↔
    -(2 ^ 31 * 1000 + 999) ≤ z ∧ z < 2 ^ 31 * 1000 := by
  rcases Int.le_total 0 z with hz | hz
  · rw [Int.tdiv_eq_ediv_of_nonneg hz]
    omega
  · -- the division of a negative number is that of its opposite
    obtain ⟨y, rfl⟩ : ∃ y, z = -y := ⟨-z, (Int.neg_neg z).symm⟩
    rw [Int.neg_tdiv, Int.tdiv_eq_ediv_of_nonneg (by omega)]
    omega

/-- **The milliseconds come back** exactly when the seconds fit. -/
theorem millis_timeval_eq_iff (v : BitVec 64) : (timeval v).millis = v ↔ SecondsFit v := by
  have hsplit := Int.mul_tdiv_add_tmod v.toInt 1000
  unfold SecondsFit
  rw [← secondsFit_iff, ← BitVec.toInt_inj, toInt_millis]
  constructor
  · intro h
    have hle : -2 ^ 31 ≤ (v.toInt.tdiv 1000).bmod (2 ^ 32) := Int.le_bmod (by decide)
    have hlt : (v.toInt.tdiv 1000).bmod (2 ^ 32) < 2 ^ 31 := Int.bmod_lt (by decide)
    omega
  · rintro ⟨hle, hlt⟩
    rw [Int.bmod_eq_of_le] <;> omega

end Conversion

/-! ## The timeout of a later call -/

theorem armedFor_inj {a b : ℕ} : armedFor a = armedFor b ↔ a = b := by
  unfold armedFor
  constructor
  · intro h
    split_ifs at h with ha' hb'
    · exact ha'.trans hb'.symm
    · exact Option.some.inj h
  · rintro rfl
    rfl

theorem getTimeoutOf_congr {type : Event} {ctx ctx' : Option FdCtx}
    (h : ctx.map (FdCtx.getTimeout · type) = ctx'.map (FdCtx.getTimeout · type)) :
    getTimeoutOf type ctx = getTimeoutOf type ctx' := by
  cases ctx with
  | none =>
    cases ctx' with
    | none => rfl
    | some ctx' => cases h
  | some ctx =>
    cases ctx' with
    | none => cases h
    | some ctx' => exact congrArg (BitVec.ofNat 64) (Option.some.inj h)

theorem getTimeoutOf_eq {type : Event} {ctx : Option FdCtx} {v : BitVec 64}
    (h : ctx.map (FdCtx.getTimeout · type) = some v.toNat) : getTimeoutOf type ctx = v := by
  obtain ⟨ctx, rfl, hv⟩ := Option.map_eq_some_iff.mp h
  rw [getTimeoutOf, hv, BitVec.ofNat_toNat, BitVec.setWidth_eq]

open Hook in
/-- **A timeout that is set is the timeout**: on a socket that the hook knows, what is set with
`setRecvTimeout` (`SetSendTimeout`) is read back by `getRecvTimeout` (`getSendTimeout`) and armed by a
later call of that direction, whatever is done to the socket in between but setting it again and
closing the socket, exactly when the seconds are an `int`. The other timeout stays as it is. -/
theorem timeout_kept_iff {fd : ℕ} {s t u : Hook} {type : Event} {optname : OptName} {v : BitVec 64}
    {acts acts' : List Hook.Act} {now : ℤ} (htype : optname.event? = some type) (hctx : s.ctx ≠ none)
    (hacts : ∀ a ∈ acts, LeavesTimeout type a)
    (hu : exec (Hook.step fd) { s with ctx := setTimeoutOf optname true v s.ctx } acts = some u)
    (ht : exec (Hook.step fd) u
      (.call type :: (acts' ++ [.io u.calls.length (.addConditionTimer now)])) = some t) :
    (getTimeoutOf type u.ctx = v ∧ t.armedMs u.calls.length = armedFor v.toNat ∧
      ∀ type' ≠ type, getTimeoutOf type' (setTimeoutOf optname true v s.ctx) =
        getTimeoutOf type' s.ctx) ↔ SecondsFit v := by
  obtain ⟨hset, hother⟩ := @getTimeout_setsockopt _ _ (timeval v) htype _ hctx
  have hget := getTimeoutOf_eq (getTimeout_of_exec hacts hset hu)
  rw [armed_of_exec hset hacts hu ht, hget, armedFor_inj, BitVec.toNat_inj,
    millis_timeval_eq_iff]
  constructor
  · exact fun h => h.1
  · exact fun h => ⟨h, h, fun type' hne => getTimeoutOf_congr (hother type' hne)⟩

open Hook in
/-- The timeout of a `TcpServer`'s clients, 50 seconds. -/
theorem timeout_kept_fifty_seconds :
    ∃ t, exec (Hook.step 5) { Hook.start IOManager.construct 0 (some (.construct true)) with
        ctx := setRecvTimeout true 50000 (some (.construct true)) }
        [.call .read, .io 0 (.raw .eagain), .io 0 (.addConditionTimer 0)] = some t ∧
      t.armedMs 0 = some 50000 := by
  let s : Hook := Hook.start IOManager.construct 0 (some (.construct true))
  obtain ⟨t, ht⟩ : ∃ t, exec (Hook.step 5)
      { s with ctx := setTimeoutOf .SO_RCVTIMEO true 50000 s.ctx }
      (.call .read :: ([.io 0 (.raw .eagain)] ++ [.io 0 (.addConditionTimer 0)])) = some t :=
    ⟨_, rfl⟩
  have hacts : ∀ a ∈ ([] : List Hook.Act), LeavesTimeout .read a := by simp
  exact ⟨t, ht, ((timeout_kept_iff (s := s) rfl (by simp [s, Hook.start]) hacts rfl ht).mpr
    (by decide)).2.1⟩

example : (timeval (2 ^ 31 * 1000)).tv_sec.toInt = -2 ^ 31 := by decide

end Socket

end Dag
