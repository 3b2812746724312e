import Dag.IOManager.Outcomes
import Dag.Foundation.Run

/-!
# IO events: removal, and the descriptors without a context

`delEvent`, `cancelEvent` and `cancelAll` look the context of their file descriptor up in the table.
Where `addEvent` compares the size of the table with the file descriptor, they compare it with 0.
The table is never empty, so the test lets every file descriptor through, and one that the table has
no context for is an index outside of it.

A run consists of calls, and of calls of `addEvent` in two parts, between which it holds no lock:
the lookup that finds the table too small, and the resize together with what follows it.

## Main definitions

* `Removal`, `Removal.run`: the three operations
* `TableStep`, `RemovalState.step`: calls, and calls of `addEvent` in two parts
* `Safe`: removal is safe on a file descriptor

## Main results

* `removal_fault`: removal from a context that the table does not have
* `removal_avoids`: removal from one that it has
* `safe_iff`: in every reachable state, removal is safe exactly on the file descriptors that have a
  context
-/

namespace Dag

open Foundation

namespace IOManager

/-! ## The operations -/

/-- The operations that remove registrations. -/
inductive Removal
  | delEvent (event : Event)
  | cancelEvent (event : Event)
  | cancelAll
  deriving DecidableEq, Repr

namespace Removal

def run (answer : EpollOp → Bool) (fd : ℕ) : Removal → Op Bool
  | .delEvent event => IOManager.delEvent answer fd event
  | .cancelEvent event => IOManager.cancelEvent answer fd event
  | .cancelAll => IOManager.cancelAll answer fd

/-- The operation is asked to remove `event`. -/
def Asks : Removal → Event → Prop
  | .delEvent e, event => event = e
  | .cancelEvent e, event => event = e
  | .cancelAll, _ => True

end Removal

/-- The table has a context for `fd`, and `event` is registered in it. -/
def Registers (s : IOManager) (fd : ℕ) (event : Event) : Prop :=
  ∃ c, s.fdContexts[fd]? = some c ∧ c.events.has event = true

/-- **Removal is safe on `fd`**: it does not index the table outside of it, and returns false and
changes nothing when none of the events asked for is registered. -/
def Safe (s : IOManager) (fd : ℕ) : Prop :=
  ∀ (answer : EpollOp → Bool) (r : Removal), r.run answer fd s ≠ .fault .outOfRange ∧
    ((∀ event, r.Asks event → ¬ s.Registers fd event) → r.run answer fd s = .ok false s)

/-! ## Runs -/

/-- A manager, and the file descriptors of the calls of `addEvent` that have found the table too
small. -/
structure RemovalState where
  manager : IOManager
  tooSmall : List ℕ

/-- The steps. -/
inductive TableStep
  /-- A call, with the answers of `epoll_ctl`. -/
  | call (answer : EpollOp → Bool) (c : IOCall)
  /-- A call of `addEvent` finds the table too small, and releases the lock. -/
  | lookup (fd : ℕ)
  /-- It goes on with the resize. -/
  | resize (answer : EpollOp → Bool) (fd : ℕ) (event : Event) (cb scheduler : Option ℕ) (self : ℕ)

namespace RemovalState

def construct : RemovalState := ⟨IOManager.construct, []⟩

def step (σ : RemovalState) : TableStep → Option RemovalState
  | .call answer c => (IOManager.step σ.manager (answer, c)).map fun s => { σ with manager := s }
  | .lookup fd =>
    if fd < σ.manager.fdContexts.length then none
    else some { σ with tooSmall := fd :: σ.tooSmall }
  | .resize answer fd event cb scheduler self =>
    if fd ∈ σ.tooSmall then
      let x : Op ℤ := do
        contextResize (fd * 3 / 2)
        addEventLocked answer fd event cb scheduler self
      (x σ.manager).state?.map fun s => ⟨s, σ.tooSmall.erase fd⟩
    else none

end RemovalState

/-! ## Indices in the table -/

section Avoids

variable {I : IOManager → Prop} {n fd : ℕ} {answer : EpollOp → Bool} {event : Event}

/-- The table has `n` contexts. -/
def Sized (n : ℕ) (s : IOManager) : Prop := s.fdContexts.length = n

theorem assert_avoids (b : Bool) : Avoids I .outOfRange (assert b) := by
  apply Avoids.lift
  split_ifs <;> simp

theorem context_avoids (hfd : fd < n) : Avoids (Sized n) .outOfRange (context fd) := by
  intro s hs
  have hlt : fd < s.fdContexts.length := hs.symm ▸ hfd
  rw [context_eq (List.getElem?_eq_getElem hlt)]
  exact hs

theorem setContext_avoids (fd : ℕ) (c : FdContext) :
    Avoids (Sized n) .outOfRange (setContext fd c) := by
  intro s hs
  show (s.fdContexts.set fd c).length = n
  rw [List.length_set]
  exact hs

theorem addPending_avoids (d : ℤ) : Avoids (Sized n) .outOfRange (addPending d) := fun _ hs => hs

theorem epoll_ctl_avoids (op : EpollOp) (m : Events) :
    Avoids (Sized n) .outOfRange (epoll_ctl answer op fd m) := by
  apply Avoids.get_bind
  intro s hs
  split_ifs <;> exact hs

theorem schedulerLock_avoids (scheduler : Option ℕ) (task : Option (ℕ × Waiter)) :
    Avoids (Sized n) .outOfRange (schedulerLock scheduler task) := by
  apply Avoids.bind
  · apply Avoids.lift
    cases scheduler <;> simp
  · intro k
    apply Avoids.get_bind
    intro s hs
    cases task <;> exact hs

theorem triggerEvent_avoids (hfd : fd < n) (event : Event) :
    Avoids (Sized n) .outOfRange (triggerEvent fd event) := by
  apply (context_avoids hfd).bind
  intro c
  apply (assert_avoids _).bind
  intro _
  apply (schedulerLock_avoids _ _).bind
  intro _
  exact setContext_avoids fd _

theorem triggerIf_avoids (hfd : fd < n) (m : Events) (event : Event) :
    Avoids (Sized n) .outOfRange (triggerIf m fd event) := by
  unfold triggerIf
  split_ifs
  · exact (triggerEvent_avoids hfd event).bind fun _ => addPending_avoids _
  · exact Avoids.pure _

/-- The end of `addEvent` and of `delEvent`: it sets one context. -/
theorem avoids_of_set {x : Op Unit} {new : IOManager → FdContext → IOManager} (hfd : fd < n)
    (hx : ∀ s c, s.fdContexts[fd]? = some c → x s = .ok () (new s c))
    (hnew : ∀ s c, (new s c).fdContexts.length = s.fdContexts.length) :
    Avoids (Sized n) .outOfRange x := by
  intro s hs
  have hlt : fd < s.fdContexts.length := hs.symm ▸ hfd
  rw [hx s _ (List.getElem?_eq_getElem hlt)]
  exact (hnew s _).trans hs

theorem dropEvent_avoids (hfd : fd < n) (event : Event) :
    Avoids (Sized n) .outOfRange (dropEvent fd event) := by
  apply avoids_of_set hfd fun s c hc => dropEvent_eq hc
  exact fun s c => List.length_set

theorem registerEvent_avoids (hfd : fd < n) (event : Event) (scheduler : Option ℕ) (w : Waiter) :
    Avoids (Sized n) .outOfRange (registerEvent fd event scheduler w) := by
  apply avoids_of_set hfd fun s c hc => registerEvent_eq hc scheduler w
  exact fun s c => List.length_set

theorem lookup_avoids (hfd : fd < n) : Avoids (Sized n) .outOfRange (lookup fd) := by
  apply Avoids.get_bind
  intro s hs
  split_ifs
  · exact ((context_avoids hfd).bind fun _ => Avoids.pure _) s hs
  · exact hs

/-- **Removal from a context that the table has** does not index the table outside of it. -/
theorem removal_avoids (hfd : fd < n) (r : Removal) :
    Avoids (Sized n) .outOfRange (r.run answer fd) := by
  cases r with
  | delEvent event =>
    apply (lookup_avoids hfd).bind
    rintro (_ | c)
    · exact Avoids.pure _
    refine Avoids.ite (fun _ => ?_) fun _ => Avoids.pure _
    apply (epoll_ctl_avoids _ _).bind
    intro _
    apply (addPending_avoids _).bind
    intro _
    exact (dropEvent_avoids hfd event).bind fun _ => Avoids.pure _
  | cancelEvent event =>
    apply (lookup_avoids hfd).bind
    rintro (_ | c)
    · exact Avoids.pure _
    refine Avoids.ite (fun _ => ?_) fun _ => Avoids.pure _
    apply (epoll_ctl_avoids _ _).bind
    intro done
    refine Avoids.ite (fun _ => ?_) fun _ => Avoids.pure _
    apply (addPending_avoids _).bind
    intro _
    exact (triggerEvent_avoids hfd event).bind fun _ => Avoids.pure _
  | cancelAll =>
    apply (lookup_avoids hfd).bind
    rintro (_ | c)
    · exact Avoids.pure _
    refine Avoids.ite (fun _ => Avoids.pure _) fun _ => ?_
    apply (epoll_ctl_avoids _ _).bind
    intro done
    refine Avoids.ite (fun _ => ?_) fun _ => Avoids.pure _
    apply (triggerIf_avoids hfd _ _).bind
    intro _
    apply (context_avoids hfd).bind
    intro c'
    apply (triggerIf_avoids hfd _ _).bind
    intro _
    apply (context_avoids hfd).bind
    intro c''
    exact (assert_avoids _).bind fun _ => Avoids.pure _

theorem addEventLocked_avoids (hfd : fd < n) (event : Event) (cb scheduler : Option ℕ)
    (self : ℕ) : Avoids (Sized n) .outOfRange
      (addEventLocked answer fd event cb scheduler self) := by
  apply (context_avoids hfd).bind
  intro c
  apply (assert_avoids _).bind
  intro _
  apply (epoll_ctl_avoids _ _).bind
  intro done
  refine Avoids.ite (fun _ => ?_) fun _ => Avoids.pure _
  apply (addPending_avoids _).bind
  intro _
  apply (assert_avoids _).bind
  intro _
  exact (registerEvent_avoids hfd event _ _).bind fun _ => Avoids.pure _

theorem dispatch_avoids (hfd : fd < n) (ready : Ready) :
    Avoids (Sized n) .outOfRange (dispatch answer fd ready) := by
  apply (context_avoids hfd).bind
  intro c
  refine Avoids.ite (fun _ => Avoids.pure _) fun _ => ?_
  apply (epoll_ctl_avoids _ _).bind
  intro done
  refine Avoids.ite (fun _ => ?_) fun _ => Avoids.pure _
  exact (triggerIf_avoids hfd _ _).bind fun _ => triggerIf_avoids hfd _ _

end Avoids

/-! ## Indices outside of the table -/

section Outside

variable {s t : IOManager} {fd : ℕ} {answer : EpollOp → Bool}

theorem context_fault (hfd : s.fdContexts.length ≤ fd) :
    context fd s = .fault .outOfRange := by
  simp [context, List.getElem?_eq_none hfd]

/-- The lookup lets every file descriptor through. -/
theorem lookup_fault (hpos : 0 < s.fdContexts.length) (hfd : s.fdContexts.length ≤ fd) :
    lookup fd s = .fault .outOfRange := by
  rw [lookup, Prog.get_bind, if_pos hpos, Prog.bind_fault (context_fault hfd)]

/-- **Removal from a context that the table does not have** is an index outside of the table. -/
theorem removal_fault (hpos : 0 < s.fdContexts.length) (hfd : s.fdContexts.length ≤ fd)
    (r : Removal) : r.run answer fd s = .fault .outOfRange := by
  cases r with
  | delEvent event => exact Prog.bind_fault (lookup_fault hpos hfd)
  | cancelEvent event => exact Prog.bind_fault (lookup_fault hpos hfd)
  | cancelAll => exact Prog.bind_fault (lookup_fault hpos hfd)

/-- Removal of what is not registered in a context that the table has. -/
theorem removal_skip (hfd : fd < s.fdContexts.length) {r : Removal}
    (h : ∀ event, r.Asks event → ¬ s.Registers fd event) :
    r.run answer fd s = .ok false s := by
  have hc := List.getElem?_eq_getElem hfd
  have hev : ∀ event, r.Asks event → s.fdContexts[fd].events.has event = false :=
    fun event ha => eq_false_of_ne_true fun he => h event ha ⟨_, hc, he⟩
  cases r with
  | delEvent event => exact delEvent_skip hc (hev event rfl)
  | cancelEvent event => exact cancelEvent_skip hc (hev event rfl)
  | cancelAll =>
    apply cancelAll_skip hc
    rw [Events.isNone_iff]
    exact fun event => hev event trivial

/-- In a table that is not empty, removal is safe on the file descriptors it has a context for. -/
theorem safe_iff_of_pos (hpos : 0 < s.fdContexts.length) (fd : ℕ) :
    s.Safe fd ↔ fd < s.fdContexts.length := by
  constructor
  · intro h
    by_contra hfd
    exact (h (fun _ => true) .cancelAll).1 (removal_fault hpos (Nat.not_lt.mp hfd) _)
  · intro hfd answer r
    exact ⟨(removal_avoids hfd r).ne_fault rfl, fun h => removal_skip hfd h⟩

end Outside

/-! ## The table is never empty -/

section Length

variable {s t : IOManager} {fd : ℕ} {answer : EpollOp → Bool}

/-- An operation that is safe inside the table and faults outside leaves the size as it was. -/
theorem length_of_state {α : Type} {x : Op α}
    (hin : ∀ n, fd < n → Avoids (Sized n) .outOfRange x)
    (hout : s.fdContexts.length ≤ fd → x s = .fault .outOfRange) (h : (x s).state? = some t) :
    t.fdContexts.length = s.fdContexts.length := by
  rcases Nat.lt_or_ge fd s.fdContexts.length with hlt | hge
  · exact (hin _ hlt).of_state rfl h
  · rw [hout hge] at h
    cases h

theorem addEventLocked_length {event : Event} {cb scheduler : Option ℕ} {self : ℕ}
    (h : (addEventLocked answer fd event cb scheduler self s).state? = some t) :
    t.fdContexts.length = s.fdContexts.length :=
  length_of_state (fun _ hfd => addEventLocked_avoids hfd event cb scheduler self)
    (fun hfd => Prog.bind_fault (context_fault hfd)) h

theorem state_skip {α : Type} (x : Op α) (s : IOManager) :
    ((do let _ ← x : Op Unit) s).state? = (x s).state? := by
  rw [Prog.bind_apply]
  cases x s <;> rfl

theorem removal_length (hpos : 0 < s.fdContexts.length) (r : Removal)
    (h : (r.run answer fd s).state? = some t) : t.fdContexts.length = s.fdContexts.length :=
  length_of_state (fun _ hfd => removal_avoids hfd r) (fun hfd => removal_fault hpos hfd r) h

/-- A call leaves the size of the table, or sets it to what a file descriptor outside asks for. -/
theorem length_of_step {c : IOCall} (hpos : 0 < s.fdContexts.length)
    (h : IOManager.step s (answer, c) = some t) :
    t.fdContexts.length = s.fdContexts.length ∨
      ∃ fd, s.fdContexts.length ≤ fd ∧ t.fdContexts.length = fd * 3 / 2 := by
  cases c with
  | addEvent fd event cb scheduler self =>
    have hstate := (state_skip (addEvent answer fd event cb scheduler self) s).symm.trans h
    rcases Nat.lt_or_ge fd s.fdContexts.length with hlt | hge
    · rw [addEvent_of_lt hlt] at hstate
      exact .inl (addEventLocked_length hstate)
    · rw [addEvent_of_not_lt (Nat.not_lt.mpr hge)] at hstate
      exact .inr ⟨fd, hge, (addEventLocked_length hstate).trans (length_resize _ _ _)⟩
  | delEvent fd event =>
    exact .inl (removal_length hpos (.delEvent event) ((state_skip _ s).symm.trans h))
  | cancelEvent fd event =>
    exact .inl (removal_length hpos (.cancelEvent event) ((state_skip _ s).symm.trans h))
  | cancelAll fd =>
    exact .inl (removal_length hpos .cancelAll ((state_skip _ s).symm.trans h))
  | dispatch fd ready =>
    exact .inl (length_of_state (fun _ hfd => dispatch_avoids hfd ready)
      (fun hfd => Prog.bind_fault (context_fault hfd)) h)

end Length

/-! ## Every reachable state -/

namespace RemovalState

variable {σ τ : RemovalState} {a : TableStep}

/-- The table is not smaller than at the start, and the calls that have found it too small ask for
more. -/
structure Ample (σ : RemovalState) : Prop where
  length_ge : 32 ≤ σ.manager.fdContexts.length
  tooSmall_ge : ∀ fd ∈ σ.tooSmall, 32 ≤ fd

theorem ample_construct : construct.Ample where
  length_ge := Nat.le_of_eq (length_resize _ 32 []).symm
  tooSmall_ge := by simp [construct]

theorem Ample.step (h : σ.Ample) (ht : step σ a = some τ) : τ.Ample := by
  have hlength := h.length_ge
  cases a with
  | call answer c =>
    obtain ⟨s, hs, rfl⟩ := Option.map_eq_some_iff.mp ht
    refine ⟨?_, h.tooSmall_ge⟩
    rcases length_of_step (by omega) hs with heq | ⟨fd, hfd, heq⟩
    · exact heq ▸ hlength
    · show 32 ≤ s.fdContexts.length
      omega
  | lookup fd =>
    simp only [RemovalState.step] at ht
    split_ifs at ht with hfd
    obtain rfl := Option.some.inj ht
    refine ⟨hlength, ?_⟩
    intro fd' hmem
    rcases List.mem_cons.mp hmem with rfl | hmem
    · omega
    · exact h.tooSmall_ge fd' hmem
  | resize answer fd event cb scheduler self =>
    simp only [RemovalState.step] at ht
    split_ifs at ht with hfd
    obtain ⟨s, hs, rfl⟩ := Option.map_eq_some_iff.mp ht
    have hge := h.tooSmall_ge fd hfd
    have heq := (addEventLocked_length hs).trans (length_resize _ _ _)
    refine ⟨?_, fun fd' hmem => h.tooSmall_ge fd' (List.mem_of_mem_erase hmem)⟩
    show 32 ≤ s.fdContexts.length
    omega

end RemovalState

/-- **Removal is safe exactly on the file descriptors that have a context**, in every reachable
state. -/
theorem safe_iff {as : List TableStep} {σ : RemovalState}
    (h : exec RemovalState.step RemovalState.construct as = some σ) (fd : ℕ) :
    σ.manager.Safe fd ↔ fd < σ.manager.fdContexts.length := by
  have hample : σ.Ample :=
    exec_invariant (fun _ _ _ hi ht => hi.step ht) RemovalState.ample_construct h
  have hlength := hample.length_ge
  exact safe_iff_of_pos (by omega) fd

theorem safe_iff_grown :
    ∃ σ, exec RemovalState.step RemovalState.construct
        [.call (fun _ => true) (.addEvent 40 .read (some 1) (some 7) 3), .lookup 70,
          .resize (fun _ => true) 70 .write (some 2) (some 7) 4] = some σ ∧
      (σ.manager.Safe 90 ↔ 90 < σ.manager.fdContexts.length) := by
  obtain ⟨σ, hσ⟩ : ∃ σ, exec RemovalState.step RemovalState.construct
      [.call (fun _ => true) (.addEvent 40 .read (some 1) (some 7) 3), .lookup 70,
        .resize (fun _ => true) 70 .write (some 2) (some 7) 4] = some σ := ⟨_, rfl⟩
  exact ⟨σ, hσ, safe_iff hσ 90⟩

/-- A new manager has contexts for the file descriptors below 32. -/
theorem not_safe_of_large :
    ¬ ∀ (as : List TableStep) (σ : RemovalState) (fd : ℕ),
      exec RemovalState.step RemovalState.construct as = some σ → σ.manager.Safe fd := by
  intro h
  have hsafe := (h [] RemovalState.construct 32 rfl (fun _ => true) .cancelAll).1
  exact hsafe rfl

end IOManager

end Dag
