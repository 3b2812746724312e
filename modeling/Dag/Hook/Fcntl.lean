import Dag.Hook.DoIo

/-!
# The hooked fcntl and O_NONBLOCK

`FdCtx::init` makes every socket non-blocking, for `do_io`. The hooked `fcntl` hides this: `F_SETFL`
notes in `m_userNonblock` whether the user has asked for `O_NONBLOCK`, and leaves the flag set in
the kernel; `F_GETFL` shows what has been noted. Before the first `F_SETFL` nothing has been noted,
and the flag is shown as clear, also when the socket was made with it. It is noted before the kernel
is asked, and stays so when the kernel refuses the call.

The kernel keeps the status flags of a descriptor in a word, of which `F_SETFL` changes some. The
flag `O_NONBLOCK` is one of these. The kernel may refuse a word, as it does one with `O_DIRECT` for a
socket: the call returns -1, and the flags stay as they are. Which words it accepts, with which
flags, is a parameter; it does not depend on `O_NONBLOCK`.

## Main definitions

* `fcntl_f`: the commands of the kernel
* `FlagState.init`, `FlagState.fcntl`: `FdCtx::init`, and the commands of the hook
* `answers`: the results of commands
* `heeded`: before each `F_GETFL` the last `F_SETFL` was accepted, or asked for what was so already

## Main results

* `nonblock_flags`: the kernel keeps the flag set
* `transparent_iff`: the user sees the flag as without the hook, exactly when `FdCtx::init` can set
  it and the commands are heeded
-/

namespace Dag

/-! ## The kernel -/

/-- The flag `O_NONBLOCK`. -/
def O_NONBLOCK : BitVec 32 := BitVec.twoPow 32 11

/-- The flag `O_DIRECT`. -/
def O_DIRECT : BitVec 32 := BitVec.twoPow 32 14

/-- The flags that `F_SETFL` can change: `O_APPEND`, `O_NONBLOCK`, `O_ASYNC`, `O_DIRECT` and
`O_NOATIME`. -/
def SETFL_MASK : BitVec 32 := 0o2000 ||| O_NONBLOCK ||| 0o20000 ||| O_DIRECT ||| 0o1000000

/-- `flags & O_NONBLOCK`, as a condition. -/
def nonblock (flags : BitVec 32) : Bool := flags &&& O_NONBLOCK != 0

/-- The commands of `fcntl` on the status flags. -/
inductive FlagCmd
  | F_SETFL (arg : BitVec 32)
  | F_GETFL
  deriving DecidableEq, Repr

section Kernel

variable (accepts : BitVec 32 → BitVec 32 → Bool)

/-- `fcntl_f(fd, cmd, arg)`, on the flags of the descriptor. A word that the kernel does not accept
with these flags leaves them as they are. -/
def fcntl_f (flags : BitVec 32) : FlagCmd → BitVec 32 × BitVec 32
  | .F_SETFL arg =>
    if accepts flags arg then (0, flags &&& ~~~SETFL_MASK ||| arg &&& SETFL_MASK) else (-1, flags)
  | .F_GETFL => (flags, flags)

/-- Whether the kernel accepts a word has nothing to do with `O_NONBLOCK`: with the flag or without
it, in the word and in the flags of the descriptor, the answer is the same. -/
def Indifferent : Prop :=
  ∀ flags flags' arg arg', flags ||| O_NONBLOCK = flags' ||| O_NONBLOCK →
    arg ||| O_NONBLOCK = arg' ||| O_NONBLOCK → accepts flags arg = accepts flags' arg'

/-- What the kernel accepts for a socket: there is no direct access to one. -/
def socketAccepts (_flags arg : BitVec 32) : Bool := arg &&& O_DIRECT == 0

end Kernel

/-! ## The source -/

/-- `FdCtx`, with what `fcntl` reads. -/
structure FlagCtx extends FdCtx where
  sysNonblock : Bool
  deriving DecidableEq, Repr

/-- A descriptor: its flags in the kernel, and its `FdCtx`. -/
structure FlagState where
  flags : BitVec 32
  ctx : Option FlagCtx
  deriving DecidableEq, Repr

namespace FlagState

variable (accepts : BitVec 32 → BitVec 32 → Bool)

/-- `FdCtx::init()`, for a descriptor that is a socket or not. -/
def init (isSocket : Bool) (flags : BitVec 32) : FlagState :=
  if isSocket then
    { flags := if nonblock flags then flags
        else (fcntl_f accepts flags (.F_SETFL (flags ||| O_NONBLOCK))).2
      ctx := some ⟨FdCtx.construct true, true⟩ }
  else ⟨flags, some ⟨FdCtx.construct false, false⟩⟩

/-- `fcntl_f(fd, cmd, arg)`, which leaves the `FdCtx` as it is. -/
def raw (s : FlagState) (cmd : FlagCmd) : BitVec 32 × FlagState :=
  let r := fcntl_f accepts s.flags cmd
  (r.1, { s with flags := r.2 })

/-- `fcntl(fd, cmd, arg)`. -/
def fcntl (s : FlagState) : FlagCmd → BitVec 32 × FlagState
  | .F_SETFL arg =>
    match s.ctx with
    | none => s.raw accepts (.F_SETFL arg)
    | some ctx =>
      if ctx.isClosed || !ctx.isSocket then s.raw accepts (.F_SETFL arg)
      else
        let ctx := { ctx with userNonblock := nonblock arg }
        let arg := if ctx.sysNonblock then arg ||| O_NONBLOCK else arg &&& ~~~O_NONBLOCK
        raw accepts { s with ctx := some ctx } (.F_SETFL arg)
  | .F_GETFL =>
    let (arg, s) := s.raw accepts .F_GETFL
    match s.ctx with
    | none => (arg, s)
    | some ctx =>
      if ctx.isClosed || !ctx.isSocket then (arg, s)
      else (if ctx.userNonblock then arg ||| O_NONBLOCK else arg &&& ~~~O_NONBLOCK, s)

end FlagState

/-! ## Histories of commands -/

section Histories

variable {σ : Type} (call : σ → FlagCmd → BitVec 32 × σ)

/-- The results of commands that are given one after another. -/
def answers : σ → List FlagCmd → List (BitVec 32)
  | _, [] => []
  | s, cmd :: cmds => (call s cmd).1 :: answers (call s cmd).2 cmds

/-- The state behind commands that are given one after another. -/
def stateAfter (s : σ) (cmds : List FlagCmd) : σ := cmds.foldl (fun s cmd => (call s cmd).2) s

end Histories

/-- The commands are heeded: before each `F_GETFL` the last `F_SETFL` was accepted, or asked for the
`O_NONBLOCK` that the flags had already. Before the first `F_SETFL` it is `granted` that says so. -/
def heeded (accepts : BitVec 32 → BitVec 32 → Bool) : BitVec 32 → Bool → List FlagCmd → Bool
  | _, _, [] => true
  | flags, _, .F_SETFL arg :: cmds =>
    heeded accepts (fcntl_f accepts flags (.F_SETFL arg)).2
      (accepts flags arg || nonblock arg == nonblock flags) cmds
  | flags, granted, .F_GETFL :: cmds => granted && heeded accepts flags granted cmds

/-! ## The flag -/

section Nonblock

variable (x y : BitVec 32)

theorem nonblock_eq_getLsbD : nonblock x = x.getLsbD 11 := by
  rw [nonblock, O_NONBLOCK, BitVec.and_twoPow]
  cases x.getLsbD 11 <;> rfl

@[simp] theorem nonblock_or_O_NONBLOCK : nonblock (x ||| O_NONBLOCK) = true := by
  simp [nonblock_eq_getLsbD, O_NONBLOCK]

@[simp] theorem nonblock_and_not_O_NONBLOCK : nonblock (x &&& ~~~O_NONBLOCK) = false := by
  simp [nonblock_eq_getLsbD, O_NONBLOCK]

theorem or_O_NONBLOCK_of_nonblock {x : BitVec 32} (h : nonblock x = true) :
    x ||| O_NONBLOCK = x := by
  rw [nonblock_eq_getLsbD] at h
  ext i hi
  by_cases heq : i = 11
  · subst heq
    simpa [O_NONBLOCK] using h
  · simp [O_NONBLOCK, BitVec.getElem_twoPow, heq]

/-- The word that `F_SETFL` leaves has the flag as it is in the argument. -/
@[simp] theorem nonblock_setfl :
    nonblock (x &&& ~~~SETFL_MASK ||| y &&& SETFL_MASK) = nonblock y := by
  have hmask : SETFL_MASK[11] = true := by decide
  simp [nonblock_eq_getLsbD, hmask]

/-- For the other flags, it does not matter how the flag is in the words. -/
theorem setfl_or_O_NONBLOCK :
    (x &&& ~~~SETFL_MASK ||| y &&& SETFL_MASK) ||| O_NONBLOCK =
      ((x ||| O_NONBLOCK) &&& ~~~SETFL_MASK ||| (y ||| O_NONBLOCK) &&& SETFL_MASK) ||| O_NONBLOCK := by
  ext i hi
  by_cases heq : i = 11
  · subst heq
    simp [O_NONBLOCK]
  · simp [O_NONBLOCK, BitVec.getElem_twoPow, heq]

/-- Setting the flag changes no other. -/
theorem setfl_self :
    x &&& ~~~SETFL_MASK ||| (x ||| O_NONBLOCK) &&& SETFL_MASK = x ||| O_NONBLOCK := by
  have hmask : SETFL_MASK[11] = true := by decide
  ext i hi
  by_cases heq : i = 11
  · subst heq
    simp [O_NONBLOCK, hmask]
  · simp only [O_NONBLOCK, BitVec.getElem_or, BitVec.getElem_and, BitVec.getElem_not,
      BitVec.getElem_twoPow, heq, decide_false, Bool.or_false]
    cases SETFL_MASK[i] <;> simp

theorem indifferent_socketAccepts : Indifferent socketAccepts := by
  have hbit : ∀ x : BitVec 32, x &&& O_DIRECT = (x ||| O_NONBLOCK) &&& O_DIRECT := by
    intro x
    have hapart : O_DIRECT &&& O_NONBLOCK = 0#32 := by decide
    rw [BitVec.and_comm (x ||| _), BitVec.and_or_distrib_left, hapart, BitVec.or_zero,
      BitVec.and_comm]
  rintro - - arg arg' - harg
  rw [socketAccepts, socketAccepts, hbit arg, harg, ← hbit arg']

end Nonblock

/-! ## The invariant -/

variable {accepts : BitVec 32 → BitVec 32 → Bool} {s : FlagState} {ctx : FlagCtx}
  {flags : BitVec 32}

/-- The `FdCtx` is that of a socket which is open, and the flag is set in the kernel. The other flags
are `flags`. -/
structure Hidden (s : FlagState) (ctx : FlagCtx) (flags : BitVec 32) : Prop where
  ctx_eq : s.ctx = some ctx
  isSocket : ctx.isSocket = true
  isOpen : ctx.isClosed = false
  sysNonblock : ctx.sysNonblock = true
  flags_eq : s.flags = flags ||| O_NONBLOCK

theorem Hidden.nonblock_flags (h : Hidden s ctx flags) : nonblock s.flags = true := by
  rw [h.flags_eq]
  exact nonblock_or_O_NONBLOCK flags

/-- `FdCtx::init` can set the flag: it is set, or the kernel accepts it. -/
def Settable (accepts : BitVec 32 → BitVec 32 → Bool) (flags : BitVec 32) : Prop :=
  nonblock flags = true ∨ accepts flags (flags ||| O_NONBLOCK) = true

theorem hidden_init (h : Settable accepts flags) :
    Hidden (.init accepts true flags) ⟨FdCtx.construct true, true⟩ flags where
  ctx_eq := rfl
  isSocket := rfl
  isOpen := rfl
  sysNonblock := rfl
  flags_eq := by
    change (if nonblock flags then flags else _) = flags ||| O_NONBLOCK
    split_ifs with hset
    · exact (or_O_NONBLOCK_of_nonblock hset).symm
    · have hok := h.resolve_left hset
      simp only [fcntl_f, hok, if_true]
      exact setfl_self flags

theorem nonblock_flags_init_iff :
    nonblock (FlagState.init accepts true flags).flags = true ↔ Settable accepts flags := by
  refine ⟨fun h => ?_, fun h => (hidden_init h).nonblock_flags⟩
  by_contra hnot
  obtain ⟨hclear, hrefused⟩ := not_or.mp hnot
  have hflags : (FlagState.init accepts true flags).flags = flags := by
    simp [FlagState.init, fcntl_f, hclear, hrefused]
  exact hclear (hflags ▸ h)

/-- `F_SETFL` notes the flag, whatever has been noted before, and returns what the kernel does
without the hook. -/
theorem Hidden.setfl (haccepts : Indifferent accepts) (h : Hidden s ctx flags) (arg : BitVec 32) :
    (s.fcntl accepts (.F_SETFL arg)).1 = (fcntl_f accepts flags (.F_SETFL arg)).1 ∧
      Hidden (s.fcntl accepts (.F_SETFL arg)).2 { ctx with userNonblock := nonblock arg }
        (fcntl_f accepts flags (.F_SETFL arg)).2 := by
  obtain ⟨hctx, hsocket, hopen, hsys, hflags⟩ := h
  have hstep : s.fcntl accepts (.F_SETFL arg) =
      FlagState.raw accepts { s with ctx := some { ctx with userNonblock := nonblock arg } }
        (.F_SETFL (arg ||| O_NONBLOCK)) := by
    simp [FlagState.fcntl, hctx, hsocket, hopen, hsys]
  have hsame : accepts s.flags (arg ||| O_NONBLOCK) = accepts flags arg := by
    apply haccepts
    · rw [hflags, BitVec.or_assoc, BitVec.or_self]
    · rw [BitVec.or_assoc, BitVec.or_self]
  rw [hstep]
  cases hok : accepts flags arg with
  | true =>
    have hanswer : accepts s.flags (arg ||| O_NONBLOCK) = true := hsame.trans hok
    simp only [FlagState.raw, fcntl_f, hanswer, hok, if_true]
    refine ⟨trivial, rfl, hsocket, hopen, hsys, ?_⟩
    change s.flags &&& ~~~SETFL_MASK ||| (arg ||| O_NONBLOCK) &&& SETFL_MASK = _
    rw [setfl_or_O_NONBLOCK, ← hflags]
    exact (or_O_NONBLOCK_of_nonblock (by simp)).symm
  | false =>
    have hanswer : accepts s.flags (arg ||| O_NONBLOCK) = false := hsame.trans hok
    simp only [FlagState.raw, fcntl_f, hanswer, hok, Bool.false_eq_true, if_false]
    exact ⟨trivial, rfl, hsocket, hopen, hsys, hflags⟩

/-- `F_GETFL` shows what has been noted. -/
theorem Hidden.getfl (h : Hidden s ctx flags) :
    nonblock (s.fcntl accepts .F_GETFL).1 = ctx.userNonblock ∧
      (s.fcntl accepts .F_GETFL).2 = s := by
  obtain ⟨hctx, hsocket, hopen, -, -⟩ := h
  obtain ⟨flags, c⟩ := s
  obtain rfl : c = some ctx := hctx
  cases huser : ctx.userNonblock <;>
    simp [FlagState.fcntl, FlagState.raw, fcntl_f, hsocket, hopen, huser]

/-- The flag that the kernel has behind `F_SETFL`. -/
theorem nonblock_fcntl_f_setfl (arg : BitVec 32) :
    nonblock (fcntl_f accepts flags (.F_SETFL arg)).2 =
      if accepts flags arg then nonblock arg else nonblock flags := by
  cases hok : accepts flags arg <;> simp [fcntl_f, hok]

/-- **What the user sees**: the flag as without the hook, exactly when the commands are heeded. -/
theorem Hidden.answers_iff (haccepts : Indifferent accepts) (h : Hidden s ctx flags)
    (cmds : List FlagCmd) :
    (answers (FlagState.fcntl accepts) s cmds).map nonblock =
        (answers (fcntl_f accepts) flags cmds).map nonblock ↔
      heeded accepts flags (ctx.userNonblock == nonblock flags) cmds = true := by
  induction cmds generalizing s ctx flags with
  | nil => exact iff_of_true rfl rfl
  | cons cmd cmds ih =>
    simp only [answers, List.map_cons, List.cons.injEq]
    cases cmd with
    | F_SETFL arg =>
      obtain ⟨hresult, hidden⟩ := h.setfl haccepts arg
      have hgranted : (nonblock arg == nonblock (fcntl_f accepts flags (.F_SETFL arg)).2) =
          (accepts flags arg || nonblock arg == nonblock flags) := by
        rw [nonblock_fcntl_f_setfl]
        cases accepts flags arg <;> simp
      rw [hresult, and_iff_right rfl, ih hidden, hgranted, heeded]
    | F_GETFL =>
      obtain ⟨hresult, hstate⟩ := @Hidden.getfl accepts _ _ _ h
      rw [hresult, hstate, heeded, Bool.and_eq_true, beq_iff_eq]
      exact and_congr_right fun _ => ih h

/-- A command leaves the flag set in the kernel. -/
theorem Hidden.step (haccepts : Indifferent accepts) (h : Hidden s ctx flags) (cmd : FlagCmd) :
    ∃ ctx' flags', Hidden (s.fcntl accepts cmd).2 ctx' flags' := by
  cases cmd with
  | F_SETFL arg => exact ⟨_, _, (h.setfl haccepts arg).2⟩
  | F_GETFL =>
    rw [h.getfl.2]
    exact ⟨ctx, flags, h⟩

theorem Hidden.stateAfter (haccepts : Indifferent accepts) (h : Hidden s ctx flags)
    (cmds : List FlagCmd) :
    ∃ ctx' flags', Hidden (stateAfter (FlagState.fcntl accepts) s cmds) ctx' flags' := by
  induction cmds generalizing s ctx flags with
  | nil => exact ⟨ctx, flags, h⟩
  | cons cmd cmds ih =>
    obtain ⟨ctx', flags', h'⟩ := h.step haccepts cmd
    exact ih h'

/-- **The kernel keeps the flag set** from the creation of the `FdCtx` on, where it can be set. -/
theorem nonblock_flags (haccepts : Indifferent accepts) (h : Settable accepts flags)
    (cmds : List FlagCmd) :
    nonblock (stateAfter (FlagState.fcntl accepts) (.init accepts true flags) cmds).flags = true := by
  obtain ⟨ctx', flags', hidden⟩ := (hidden_init h).stateAfter haccepts cmds
  exact hidden.nonblock_flags

/-- **The flag is transparent** exactly when the kernel lets `FdCtx::init` set it, and the commands
are heeded, where the socket is made without it if an `F_GETFL` comes first: each `F_GETFL` shows it
as it would be without the hook. The kernel keeps it set. -/
theorem transparent_iff (haccepts : Indifferent accepts) (flags : BitVec 32)
    (cmds : List FlagCmd) :
    ((answers (FlagState.fcntl accepts) (.init accepts true flags) cmds).map nonblock =
        (answers (fcntl_f accepts) flags cmds).map nonblock ∧
      ∀ cs, cs <+: cmds →
        nonblock (stateAfter (FlagState.fcntl accepts) (.init accepts true flags) cs).flags =
          true) ↔
      Settable accepts flags ∧ heeded accepts flags (!nonblock flags) cmds = true := by
  have hgranted : ((FlagCtx.mk (FdCtx.construct true) true).userNonblock == nonblock flags) =
      !nonblock flags := by
    cases nonblock flags <;> rfl
  constructor
  · rintro ⟨hshown, hkept⟩
    have hset : Settable accepts flags :=
      nonblock_flags_init_iff.mp (hkept [] (List.nil_prefix))
    have hheeded := ((hidden_init hset).answers_iff haccepts cmds).mp hshown
    rw [hgranted] at hheeded
    exact ⟨hset, hheeded⟩
  · rintro ⟨hset, hheeded⟩
    refine ⟨?_, fun cs _ => nonblock_flags haccepts hset cs⟩
    refine ((hidden_init hset).answers_iff haccepts cmds).mpr ?_
    rw [hgranted]
    exact hheeded

/-- `O_DIRECT` is refused, and asks for no other `O_NONBLOCK` than the socket has. -/
theorem transparent_iff_refused :
    (answers (FlagState.fcntl socketAccepts) (.init socketAccepts true 0)
        [.F_SETFL O_DIRECT, .F_GETFL]).map nonblock =
      (answers (fcntl_f socketAccepts) 0 [.F_SETFL O_DIRECT, .F_GETFL]).map nonblock :=
  ((transparent_iff indifferent_socketAccepts 0 _).mpr ⟨.inr (by decide), by decide⟩).1

/-- A socket made with `SOCK_NONBLOCK`, and asked for its flags; and one that is asked for them
behind a call that the kernel has refused. -/
theorem made_nonblock :
    (¬ ∀ (flags : BitVec 32) (cmds : List FlagCmd),
      (answers (FlagState.fcntl socketAccepts) (.init socketAccepts true flags) cmds).map nonblock =
          (answers (fcntl_f socketAccepts) flags cmds).map nonblock ∧
        ∀ cs, cs <+: cmds →
          nonblock (stateAfter (FlagState.fcntl socketAccepts)
            (.init socketAccepts true flags) cs).flags = true) ∧
    (answers (FlagState.fcntl socketAccepts) (.init socketAccepts true 0)
        [.F_SETFL (O_DIRECT ||| O_NONBLOCK), .F_GETFL]).map nonblock ≠
      (answers (fcntl_f socketAccepts) 0
        [.F_SETFL (O_DIRECT ||| O_NONBLOCK), .F_GETFL]).map nonblock := by
  refine ⟨fun h => ?_, by decide⟩
  have hshown := (h O_NONBLOCK [.F_GETFL]).1
  revert hshown
  decide

end Dag
