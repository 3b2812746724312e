import Dag.FdManager.Get
import Dag.Foundation.Ownership

/-!
# The descriptors of sockets

A `Socket` takes its descriptor from `socket` or from `accept` and gives it back with `close`, each
of which is one of the hooked functions. With the hook of the thread enabled, `socket` has a context
made for the descriptor in the table of `FdMgr`, and `close` has it removed; `accept` has one made in
either case, and `Socket::init` wants to find it. Between the calls of the kernel and the parts of
`get` that lock the table, any other thread may run.

What `bind`, `listen` and `connect` do in the kernel changes no descriptor: `bind` and `connect` make
one when there is none yet, and `connect` closes it when it fails.

## Main definitions

* `Sockets`, `Sockets.step`: many `Socket` objects, the kernel and the table, and the steps of threads
* `Sockets.Holds`: a `Socket`, or a call under way, holds a descriptor
* `Sockets.Alone`: a call that changes a `Socket` is the only one on it
* `Sockets.Owned`: the account of the descriptors

## Main results

* `owned_of_exec`: in every interleaving of calls that are alone on their sockets, each open
  descriptor has exactly one holder, no other one is closed, and `accept` loses none
* `not_owned_of_two_closes`: two calls of `close` on one socket
-/

namespace Dag

open Foundation

/-- A `Socket`: `m_sock`, `m_family` and `m_isConnected`. -/
structure SocketObject where
  sock : BitVec 32
  family : ℕ
  isConnected : Bool
  deriving DecidableEq, Repr

/-- The function that has called `newSock`; `connect` with the family of its address. -/
inductive Renewal
  | bind
  | connect (family : ℕ)
  | createUDP
  deriving DecidableEq, Repr

/-- What a context is asked for: `newSock` of a `Socket`, or `accept`, with the family that the new
`Socket` gets. -/
inductive GetFor
  | newSock (o : ℕ) (c : Renewal)
  | accept (family : ℕ)
  deriving DecidableEq, Repr

/-- Where a thread is: outside of all calls, or about to take the next step of one. Of `close`, `d`
says whether it is called by `~Socket`. -/
inductive Place
  | out
  | socket_f (o : ℕ) (c : Renewal)
  | accept_f (fd : BitVec 32) (family : ℕ)
  | get (fd : BitVec 32) (g : GetFor)
  | create (fd : BitVec 32) (g : GetFor)
  | returned (fd : BitVec 32) (g : GetFor)
  | connect (o : ℕ)
  | close (o : ℕ) (fd : BitVec 32) (d : Bool)
  | del (o : ℕ) (fd : BitVec 32) (d : Bool)
  | close_f (o : ℕ) (fd : BitVec 32) (d : Bool)
  | closed (o : ℕ) (d : Bool)
  deriving DecidableEq, Repr

/-- The calls: those of a `Socket`, its construction, `CreateUDP` and `~Socket`. -/
inductive SocketCall
  | construct (family : ℕ)
  | createUDP (family : ℕ)
  | bind (o : ℕ)
  | connect (o : ℕ) (family : ℕ)
  | accept (o : ℕ)
  | close (o : ℕ)
  | destroy (o : ℕ)
  deriving DecidableEq, Repr

/-- The steps: a thread sets its hook flag, it calls a function, and it takes the next step of its
call, for which the kernel returns `r`. -/
inductive SocketsAct (n : ℕ)
  | set_hook_enable (i : Fin n) (flag : Bool)
  | call (i : Fin n) (c : SocketCall)
  | run (i : Fin n) (r : BitVec 32)
  deriving DecidableEq, Repr

/-- The state: for the kernel, which descriptors are open and which of them have `O_NONBLOCK` set;
the table of `FdMgr`, and which of its contexts have `m_isSocket` set; the `Socket` objects, by
numbers in the order of their construction; for each thread `t_hook_enable` and its place. -/
structure Sockets (n : ℕ) where
  isOpen : BitVec 32 → Bool
  nonblock : BitVec 32 → Bool
  fds : FdManager
  isSocket : ℕ → Bool
  objects : ℕ → Option SocketObject
  constructed : ℕ
  hooked : Fin n → Bool
  place : Fin n → Place

namespace Sockets

variable {n : ℕ}

/-- Nothing is open, and no `Socket` is there. -/
def start (n : ℕ) : Sockets n where
  isOpen := fun _ => false
  nonblock := fun _ => false
  fds := FdManager.construct
  isSocket := fun _ => false
  objects := fun _ => none
  constructed := 0
  hooked := fun _ => false
  place := fun _ => .out

def goTo (s : Sockets n) (i : Fin n) (p : Place) : Sockets n :=
  { s with place := Function.update s.place i p }

/-- The thread goes on, and the `Socket` is as given. -/
def put (s : Sockets n) (i : Fin n) (o : ℕ) (k : Option SocketObject) (p : Place) : Sockets n :=
  { s with
    objects := Function.update s.objects o k
    place := Function.update s.place i p }

/-- `Socket(family, type, protocol)`, or what `accept` makes of it. -/
def construct (s : Sockets n) (k : SocketObject) : Sockets n :=
  { s with
    objects := Function.update s.objects s.constructed (some k)
    constructed := s.constructed + 1 }

/-- The kernel may return `r` for a new descriptor. -/
def Free (s : Sockets n) (r : BitVec 32) : Prop := 0 ≤ r.toInt ∧ s.isOpen r = false

instance (s : Sockets n) : DecidablePred s.Free := fun _ => inferInstanceAs (Decidable (_ ∧ _))

/-- The kernel opens `r`; the types of `Socket::Type` do not set `O_NONBLOCK`. -/
def opening (s : Sockets n) (r : BitVec 32) : Sockets n :=
  { s with
    isOpen := Function.update s.isOpen r true
    nonblock := Function.update s.nonblock r false }

/-- `ctx && ctx->isSocket() && !ctx->isClosed()` in `init(fd)`; no function sets `m_isClosed`. -/
def init (s : Sockets n) (fd : BitVec 32) : Bool :=
  match s.fds.ctx fd with
  | some c => s.isSocket c
  | none => false

/-- `close()`, up to the call of the hooked function. -/
def close (s : Sockets n) (i : Fin n) (o : ℕ) (k : SocketObject) (d : Bool) : Sockets n :=
  if k.sock = -1 then s.put i o (if d then none else some { k with isConnected := false }) .out
  else
    s.put i o (some { k with isConnected := false })
      (if s.hooked i then .close o k.sock d else .close_f o k.sock d)

/-- `connect(addr, timeout_ms)` from where the `Socket` has a descriptor. -/
def connecting (o : ℕ) (k : SocketObject) (family : ℕ) : Place :=
  if family = k.family then .connect o else .out

def call (s : Sockets n) (i : Fin n) : SocketCall → Option (Sockets n)
  | .construct family => some (s.construct ⟨-1, family, false⟩)
  | .createUDP family =>
    some ((s.construct ⟨-1, family, false⟩).goTo i (.socket_f s.constructed .createUDP))
  | .bind o =>
    (s.objects o).map fun k => s.goTo i (if k.sock = -1 then .socket_f o .bind else .out)
  | .connect o family =>
    (s.objects o).map fun k =>
      s.goTo i (if k.sock = -1 then .socket_f o (.connect family) else connecting o k family)
  | .accept o => (s.objects o).map fun k => s.goTo i (.accept_f k.sock k.family)
  | .close o => (s.objects o).map fun k => s.close i o k false
  | .destroy o => (s.objects o).map fun k => s.close i o k true

/-- What becomes of the `Socket` that `newSock` has been called for, when `socket` has returned. -/
def renewed (k : SocketObject) (r : BitVec 32) : Renewal → SocketObject
  | .createUDP => { k with sock := r, isConnected := true }
  | _ => { k with sock := r }

/-- Where the function goes on that has called `newSock`. -/
def behind (o : ℕ) (k : SocketObject) : Renewal → Place
  | .connect family => connecting o k family
  | _ => .out

/-- The next step of the call of a thread. -/
def run (s : Sockets n) (i : Fin n) (r : BitVec 32) : Option (Sockets n) :=
  match s.place i with
  | .out => none
  | .socket_f o c =>
    if r = -1 then (s.objects o).map fun k => s.put i o (some (renewed k r c)) .out
    else if s.Free r then
      some ((s.opening r).goTo i
        (if s.hooked i then .get r (.newSock o c) else .returned r (.newSock o c)))
    else none
  | .accept_f fd family =>
    if r = -1 then some (s.goTo i .out)
    else if s.Free r ∧ s.isOpen fd = true then some ((s.opening r).goTo i (.get r (.accept family)))
    else none
  | .get fd g =>
    (s.fds.step (.read i fd true)).map fun fds =>
      { s with fds := fds }.goTo i (if fds.creating i = none then .returned fd g else .create fd g)
  | .create fd g =>
    (s.fds.step (.write i)).map fun fds =>
      -- `FdCtx(fd)` asks the kernel for the kind of the descriptor, and sets `O_NONBLOCK`
      { s with
        fds := fds
        isSocket := Function.update s.isSocket s.fds.allocated (s.isOpen fd)
        nonblock := Function.update s.nonblock fd (s.isOpen fd || s.nonblock fd) }.goTo i
          (.returned fd g)
  | .returned fd (.newSock o c) =>
    (s.objects o).map fun k => s.put i o (some (renewed k fd c)) (behind o k c)
  | .returned fd (.accept family) =>
    (s.fds.step (.read i fd false)).map fun fds =>
      let t := { s with fds := fds }.goTo i .out
      if s.init fd then t.construct ⟨fd, family, true⟩ else t
  | .connect o =>
    (s.objects o).map fun k =>
      if r = 0 then s.put i o (some { k with isConnected := true }) .out else s.close i o k false
  | .close o fd d =>
    (s.fds.step (.read i fd false)).map fun fds =>
      { s with fds := fds }.goTo i
        (if s.fds.ctx fd = none then .close_f o fd d else .del o fd d)
  | .del o fd d => (s.fds.step (.del fd)).map fun fds => { s with fds := fds }.goTo i (.close_f o fd d)
  | .close_f o fd d =>
    some ({ s with isOpen := Function.update s.isOpen fd false }.goTo i (.closed o d))
  | .closed o d =>
    (s.objects o).map fun k => s.put i o (if d then none else some { k with sock := -1 }) .out

def step (s : Sockets n) : SocketsAct n → Option (Sockets n)
  | .set_hook_enable i flag =>
    if s.place i = .out then some { s with hooked := Function.update s.hooked i flag } else none
  | .call i c => if s.place i = .out then s.call i c else none
  | .run i r => s.run i r

/-! ## What is to hold -/

end Sockets

/-- The descriptor that a call holds which has got it from the kernel. -/
def Place.inFlight : Place → Option (BitVec 32)
  | .get fd _ => some fd
  | .create fd _ => some fd
  | .returned fd _ => some fd
  | _ => none

/-- The `Socket` whose descriptor the call has closed, though `m_sock` is not -1 yet. -/
def Place.spent : Place → Option ℕ
  | .closed o _ => some o
  | _ => none

/-- The `Socket` that the call changes. -/
def Place.subject : Place → Option ℕ
  | .socket_f o _ => some o
  | .get _ (.newSock o _) => some o
  | .create _ (.newSock o _) => some o
  | .returned _ (.newSock o _) => some o
  | .connect o => some o
  | .close o _ _ => some o
  | .del o _ _ => some o
  | .close_f o _ _ => some o
  | .closed o _ => some o
  | _ => none

/-- The `Socket` that a call is going to change. -/
def SocketCall.subject : SocketCall → Option ℕ
  | .bind o => some o
  | .connect o _ => some o
  | .close o => some o
  | .destroy o => some o
  | _ => none

/-- Who may hold a descriptor: a `Socket`, or the call of a thread. -/
inductive Holder (n : ℕ)
  | object (o : ℕ)
  | thread (i : Fin n)
  deriving DecidableEq, Repr

namespace Sockets

variable {n : ℕ}

/-- The `Socket`, or the call of the thread, holds the descriptor. -/
def Holding (place : Fin n → Place) (objects : ℕ → Option SocketObject) :
    Holder n → BitVec 32 → Prop
  | .object o, fd =>
    fd ≠ -1 ∧ (∃ k, objects o = some k ∧ k.sock = fd) ∧ ∀ i, (place i).spent ≠ some o
  | .thread i, fd => (place i).inFlight = some fd

def Holds (s : Sockets n) : Holder n → BitVec 32 → Prop := Holding s.place s.objects

/-- **The call is alone on its socket**: no other call that changes it is under way. -/
def Alone (s : Sockets n) : SocketsAct n → Prop
  | .call _ c => ∀ o, c.subject = some o → ∀ j, (s.place j).subject ≠ some o
  | _ => True

instance (s : Sockets n) : DecidablePred s.Alone
  | .call _ c =>
    inferInstanceAs (Decidable (∀ o ∈ c.subject, ∀ j, (s.place j).subject ≠ some o))
  | .set_hook_enable _ _ | .run _ _ => inferInstanceAs (Decidable True)

/-- **The account of the descriptors**: those that are open are held, each by one holder; what is
about to be closed is held by the `Socket` that closes it; a descriptor from `accept` passes the test
of `init`; and there is one context for a descriptor. -/
structure Owned (s : Sockets n) : Prop where
  isOpen_iff : ∀ fd, s.isOpen fd = true ↔ ∃ h, s.Holds h fd
  unique : ∀ h h' fd, s.Holds h fd → s.Holds h' fd → h = h'
  closing : ∀ i o fd d, s.place i = .close_f o fd d → s.Holds (.object o) fd
  accepts : ∀ i fd family, s.place i = .returned fd (.accept family) → s.init fd = true
  single : ∀ fd, FdManager.Single fd s.fds

/-! ## One step, for the holders -/

end Sockets

/-- What a call relies on of the `Socket` that it changes. -/
def Place.Relies : Place → SocketObject → Prop
  | .socket_f _ _, k => k.sock = -1
  | .get _ (.newSock _ _), k => k.sock = -1
  | .create _ (.newSock _ _), k => k.sock = -1
  | .returned _ (.newSock _ _), k => k.sock = -1
  | .close _ fd _, k => k.sock = fd ∧ fd ≠ -1
  | .del _ fd _, k => k.sock = fd ∧ fd ≠ -1
  | .close_f _ fd _, k => k.sock = fd ∧ fd ≠ -1
  | _, _ => True

theorem Place.subject_of_spent {p : Place} {o : ℕ} (h : p.spent = some o) : p.subject = some o := by
  cases p with
  | closed => exact h
  | _ => cases h

/-- A call that holds a descriptor is about no `Socket`, or about one without a descriptor. -/
theorem Place.sock_of_inFlight {p : Place} {fd : BitVec 32} (h : p.inFlight = some fd) :
    p.subject = none ∨ ∀ k, p.Relies k → k.sock = -1 := by
  cases p with
  | get _ g | create _ g | returned _ g =>
    cases g with
    | newSock => exact .inr fun _ hk => hk
    | accept => exact .inl rfl
  | _ => cases h

namespace Sockets

variable {n : ℕ} {s t : Sockets n} {i j : Fin n} {o : ℕ} {fd : BitVec 32} {p : Place}

/-- What carries the account of the holders along a run. -/
structure Books (s : Sockets n) : Prop where
  exclusive : Exclusive s.Holds fun fd => s.isOpen fd = true
  nonneg : ∀ fd, s.isOpen fd = true → 0 ≤ fd.toInt
  alone : ∀ i j o, (s.place i).subject = some o → (s.place j).subject = some o → i = j
  relies : ∀ i o, (s.place i).subject = some o →
    ∃ k, s.objects o = some k ∧ (s.place i).Relies k
  bounded : ∀ o k, s.objects o = some k → o < s.constructed

/-- The thread, and the `Socket` that its step is about. -/
def Acting (i : Fin n) (o : ℕ) (h : Holder n) : Prop := h = .thread i ∨ h = .object o

/-- What the two hold together. -/
def Share (s : Sockets n) (i : Fin n) (o : ℕ) (fd : BitVec 32) : Prop :=
  (s.place i).inFlight = some fd ∨
    fd ≠ -1 ∧ (∃ k, s.objects o = some k ∧ k.sock = fd) ∧ (s.place i).spent ≠ some o

/-- The step is the thread's, and about the `Socket`. -/
structure Moves (s t : Sockets n) (i : Fin n) (o : ℕ) : Prop where
  place : ∀ j, j ≠ i → t.place j = s.place j
  objects : ∀ o', o' ≠ o → t.objects o' = s.objects o'
  others : ∀ j, j ≠ i → (s.place j).subject ≠ some o
  before : ∀ o', (s.place i).subject = some o' → o' = o
  after : ∀ o', (t.place i).subject = some o' →
    o' = o ∧ ∃ k, t.objects o = some k ∧ (t.place i).Relies k
  one : (t.place i).inFlight = none ∨ ∀ k, t.objects o = some k → k.sock = -1
  constructed : s.constructed ≤ t.constructed
  bounded : ∀ k, t.objects o = some k → o < t.constructed

theorem together_iff (h : ∀ j, j ≠ i → (s.place j).subject ≠ some o) :
    Together (Acting i o) s.Holds fd ↔ s.Share i o fd := by
  constructor
  · rintro ⟨h, rfl | rfl, hh⟩
    · exact .inl hh
    · exact .inr ⟨hh.1, hh.2.1, hh.2.2 i⟩
  · rintro (hh | ⟨hne, hk, hspent⟩)
    · exact ⟨.thread i, .inl rfl, hh⟩
    · refine ⟨.object o, .inr rfl, hne, hk, ?_⟩
      intro j hj
      by_cases hji : j = i
      · subst hji
        exact hspent hj
      · exact h j hji (Place.subject_of_spent hj)

theorem Moves.others_after (hm : Moves s t i o) (j : Fin n) (hj : j ≠ i) :
    (t.place j).subject ≠ some o := by
  rw [hm.place j hj]
  exact hm.others j hj

theorem Moves.changesOnly (hm : Moves s t i o) :
    ChangesOnly (Acting i o) s.Holds t.Holds := by
  constructor
  · rintro (o' | j) e hP
    · have ho : o' ≠ o := by
        rintro rfl
        exact hP (.inr rfl)
      have hspent : (∀ j, (t.place j).spent ≠ some o') ↔ ∀ j, (s.place j).spent ≠ some o' := by
        apply forall_congr'
        intro j
        by_cases hj : j = i
        · subst hj
          constructor
          · intro _ h
            exact ho (hm.before o' (Place.subject_of_spent h))
          · intro _ h
            exact ho (hm.after o' (Place.subject_of_spent h)).1
        · rw [hm.place j hj]
      show (e ≠ -1 ∧ (∃ k, t.objects o' = some k ∧ k.sock = e) ∧ _) ↔ _
      rw [hm.objects o' ho, hspent]
      rfl
    · have hj : j ≠ i := by
        rintro rfl
        exact hP (.inl rfl)
      show (t.place j).inFlight = some e ↔ (s.place j).inFlight = some e
      rw [hm.place j hj]
  · have hone : ∀ e, t.Holds (.thread i) e → ¬ t.Holds (.object o) e := by
      rintro e hi ⟨hne, ⟨k, hk, hsock⟩, -⟩
      rcases hm.one with h | h
      · exact Option.some_ne_none e (hi.symm.trans h)
      · exact hne (hsock.symm.trans (h k hk))
    rintro h h' e (rfl | rfl) (rfl | rfl) hd hd'
    · rfl
    · exact absurd hd' (hone e hd)
    · exact absurd hd (hone e hd')
    · rfl

/-- The account, except for the descriptors themselves. -/
theorem Books.of_moves (hb : s.Books) (hm : Moves s t i o)
    (hx : Exclusive t.Holds fun fd => t.isOpen fd = true)
    (hn : ∀ fd, t.isOpen fd = true → 0 ≤ fd.toInt) : t.Books where
  exclusive := hx
  nonneg := hn
  alone := by
    intro j j' o' hj hj'
    by_cases hji : j = i
    · subst hji
      by_cases hji' : j' = j
      · exact hji'.symm
      · obtain ⟨rfl, -⟩ := hm.after o' hj
        exact absurd hj' (hm.others_after j' hji')
    · by_cases hji' : j' = i
      · subst hji'
        obtain ⟨rfl, -⟩ := hm.after o' hj'
        exact absurd hj (hm.others_after j hji)
      · rw [hm.place j hji] at hj
        rw [hm.place j' hji'] at hj'
        exact hb.alone j j' o' hj hj'
  relies := by
    intro j o' hj
    by_cases hji : j = i
    · subst hji
      obtain ⟨rfl, hk⟩ := hm.after o' hj
      exact hk
    · have ho : o' ≠ o := by
        rintro rfl
        exact hm.others_after j hji hj
      rw [hm.place j hji] at hj ⊢
      rw [hm.objects o' ho]
      exact hb.relies j o' hj
  bounded := by
    intro o' k hk
    by_cases ho : o' = o
    · subst ho
      exact hm.bounded k hk
    · rw [hm.objects o' ho] at hk
      exact Nat.lt_of_lt_of_le (hb.bounded o' k hk) hm.constructed

/-- The descriptor stays with the two, or they have none. -/
theorem Books.pass (hb : s.Books) (hm : Moves s t i o) (hopen : t.isOpen = s.isOpen)
    (hshare : ∀ fd, t.Share i o fd ↔ s.Share i o fd) : t.Books := by
  apply hb.of_moves hm
  · rw [hopen]
    apply hb.exclusive.pass hm.changesOnly
    intro fd
    rw [together_iff hm.others_after, together_iff hm.others]
    exact hshare fd
  · rw [hopen]
    exact hb.nonneg

/-- The kernel opens a descriptor for them. -/
theorem Books.acquire (hb : s.Books) (hm : Moves s t i o) (hfree : s.Free fd)
    (hopen : t.isOpen = Function.update s.isOpen fd true)
    (hshare : ∀ e, t.Share i o e ↔ s.Share i o e ∨ e = fd) : t.Books := by
  have hused : ∀ e, t.isOpen e = true ↔ s.isOpen e = true ∨ e = fd := by
    intro e
    rw [hopen, Function.update_apply]
    split_ifs with he <;> simp [he]
  apply hb.of_moves hm
  · apply hb.exclusive.acquire hm.changesOnly (d := fd)
    · simp [hfree.2]
    · intro e
      rw [together_iff hm.others_after, together_iff hm.others]
      exact hshare e
    · exact hused
  · intro e he
    rcases (hused e).mp he with he | rfl
    · exact hb.nonneg e he
    · exact hfree.1

/-- The kernel closes their descriptor. -/
theorem Books.release (hb : s.Books) (hm : Moves s t i o) (hfd : s.Share i o fd)
    (hopen : t.isOpen = Function.update s.isOpen fd false)
    (hshare : ∀ e, t.Share i o e ↔ s.Share i o e ∧ e ≠ fd) : t.Books := by
  have hused : ∀ e, t.isOpen e = true ↔ s.isOpen e = true ∧ e ≠ fd := by
    intro e
    rw [hopen, Function.update_apply]
    split_ifs with he <;> simp [he]
  apply hb.of_moves hm
  · apply hb.exclusive.release hm.changesOnly (d := fd)
    · exact (together_iff hm.others).mpr hfd
    · intro e
      rw [together_iff hm.others_after, together_iff hm.others]
      exact hshare e
    · exact hused
  · intro e he
    exact hb.nonneg e ((hused e).mp he).1

/-! ### The steps of a thread -/

/-- The `Socket` that the next step of a thread is about: the one that its call changes, or else the
next one to be constructed. -/
def about (s : Sockets n) (i : Fin n) : ℕ := (s.place i).subject.getD s.constructed

theorem Books.others (hb : s.Books) : ∀ j, j ≠ i → (s.place j).subject ≠ some (s.about i) := by
  intro j hj h
  cases hi : (s.place i).subject with
  | none =>
    rw [about, hi] at h
    obtain ⟨k, hk, -⟩ := hb.relies j _ h
    exact Nat.lt_irrefl _ (hb.bounded _ k hk)
  | some o =>
    rw [about, hi] at h
    exact hj (hb.alone j i o h hi)

theorem about_eq (h : (s.place i).subject = some o) : s.about i = o := by
  rw [about, h]
  rfl

theorem subject_eq_about (h : (s.place i).subject = some o) : o = s.about i := (about_eq h).symm

theorem Books.objects_constructed (hb : s.Books) : s.objects s.constructed = none := by
  cases hk : s.objects s.constructed with
  | none => rfl
  | some k => exact absurd (hb.bounded _ k hk) (Nat.lt_irrefl _)

theorem Books.one (hb : s.Books) (i : Fin n) :
    (s.place i).inFlight = none ∨ ∀ k, s.objects (s.about i) = some k → k.sock = -1 := by
  cases hi : (s.place i).inFlight with
  | none => exact .inl rfl
  | some fd =>
    right
    intro k hk
    cases hsubject : (s.place i).subject with
    | none =>
      rw [about, hsubject] at hk
      exact absurd (hb.objects_constructed.symm.trans hk) (Option.some_ne_none k).symm
    | some o =>
      rw [about_eq hsubject] at hk
      obtain ⟨k', hk', hrelies⟩ := hb.relies i o hsubject
      obtain rfl := Option.some.inj (hk.symm.trans hk')
      rcases Place.sock_of_inFlight hi with hnone | hsock
      · exact absurd (hnone.symm.trans hsubject) (Option.some_ne_none o).symm
      · exact hsock k hrelies

theorem share_iff {k : Option SocketObject} (hplace : t.place = Function.update s.place i p)
    (hobjects : t.objects = Function.update s.objects o k) :
    t.Share i o fd ↔ p.inFlight = some fd ∨
      fd ≠ -1 ∧ (∃ k', k = some k' ∧ k'.sock = fd) ∧ p.spent ≠ some o := by
  rw [Share, hplace, hobjects, Function.update_self, Function.update_self]

theorem moves_of_update {k : Option SocketObject} (hplace : t.place = Function.update s.place i p)
    (hobjects : t.objects = Function.update s.objects o k)
    (hothers : ∀ j, j ≠ i → (s.place j).subject ≠ some o)
    (hbefore : ∀ o', (s.place i).subject = some o' → o' = o)
    (hafter : ∀ o', p.subject = some o' → o' = o ∧ ∃ k', k = some k' ∧ p.Relies k')
    (hone : p.inFlight = none ∨ ∀ k', k = some k' → k'.sock = -1)
    (hc : s.constructed ≤ t.constructed) (hk : ∀ k', k = some k' → o < t.constructed) :
    Moves s t i o where
  place := fun j hj => by rw [hplace, Function.update_of_ne hj]
  objects := fun o' ho => by rw [hobjects, Function.update_of_ne ho]
  others := hothers
  before := hbefore
  after := by
    rw [hplace, hobjects, Function.update_self, Function.update_self]
    exact hafter
  one := by
    rw [hplace, hobjects, Function.update_self, Function.update_self]
    exact hone
  constructed := hc
  bounded := by
    rw [hobjects, Function.update_self]
    exact hk

/-- A step on which the call keeps what it holds, and no `Socket` changes. -/
theorem Books.keep (hb : s.Books) (hplace : t.place = Function.update s.place i p)
    (hobjects : t.objects = s.objects) (hc : t.constructed = s.constructed)
    (hopen : t.isOpen = s.isOpen) (hflight : p.inFlight = (s.place i).inFlight)
    (hspent : p.spent = (s.place i).spent)
    (hsubject : p.subject = none ∨
      p.subject = (s.place i).subject ∧ ∀ k, (s.place i).Relies k → p.Relies k) : t.Books := by
  have hupdate : t.objects = Function.update s.objects (s.about i) (s.objects (s.about i)) := by
    rw [hobjects, Function.update_eq_self]
  have hm : Moves s t i (s.about i) := by
    apply moves_of_update hplace hupdate hb.others
    · exact fun o' h => subject_eq_about h
    · intro o' ho
      rcases hsubject with h | ⟨h, hrelies⟩
      · exact absurd (h.symm.trans ho) (Option.some_ne_none o').symm
      · have hi := h.symm.trans ho
        obtain ⟨k, hk, hr⟩ := hb.relies i o' hi
        rw [about_eq hi]
        exact ⟨rfl, k, hk, hrelies k hr⟩
    · rw [hflight]
      exact hb.one i
    · exact Nat.le_of_eq hc.symm
    · intro k hk
      rw [hc]
      exact hb.bounded _ k hk
  apply hb.pass hm hopen
  intro fd
  rw [share_iff hplace hupdate, hflight, hspent]
  rfl

/-- A step on which one `Socket` changes, but not its descriptor, of a call that holds none. -/
theorem Books.put (hb : s.Books) {k : SocketObject} {k' : Option SocketObject}
    (hk : s.objects o = some k)
    (hothers : ∀ j, j ≠ i → (s.place j).subject ≠ some o)
    (hbefore : ∀ o', (s.place i).subject = some o' → o' = o)
    (hflight : (s.place i).inFlight = none) (hspent : (s.place i).spent = none)
    (hsock : ∀ fd, fd ≠ -1 → ((∃ l, k' = some l ∧ l.sock = fd) ↔ k.sock = fd))
    (hflight' : p.inFlight = none) (hspent' : p.spent = none)
    (hafter : ∀ o', p.subject = some o' → o' = o ∧ ∃ l, k' = some l ∧ p.Relies l) :
    (s.put i o k' p).Books := by
  have hm : Moves s (s.put i o k' p) i o :=
    moves_of_update rfl rfl hothers hbefore hafter (.inl hflight') (Nat.le_refl _)
      fun _ _ => hb.bounded o k hk
  apply hb.pass hm rfl
  intro fd
  rw [share_iff (k := k') (p := p) rfl rfl, Share, hflight, hspent, hflight', hspent']
  apply or_congr_right
  apply and_congr_right
  intro hne
  rw [hsock fd hne, hk]
  constructor
  · rintro ⟨h, -⟩
    exact ⟨⟨k, rfl, h⟩, Option.some_ne_none o |>.symm⟩
  · rintro ⟨⟨l, hl, h⟩, -⟩
    obtain rfl := Option.some.inj hl
    exact ⟨h, Option.some_ne_none o |>.symm⟩

theorem put_self {k : SocketObject} (hk : s.objects o = some k) :
    s.put i o (some k) p = s.goTo i p := by
  rw [Sockets.put, ← hk, Function.update_eq_self]
  rfl

theorem Books.close (hb : s.Books) {k : SocketObject} {d : Bool} (hk : s.objects o = some k)
    (hothers : ∀ j, j ≠ i → (s.place j).subject ≠ some o)
    (hbefore : ∀ o', (s.place i).subject = some o' → o' = o)
    (hflight : (s.place i).inFlight = none) (hspent : (s.place i).spent = none) :
    (s.close i o k d).Books := by
  unfold Sockets.close
  by_cases hsock : k.sock = -1
  · rw [if_pos hsock]
    apply hb.put hk hothers hbefore hflight hspent
    · intro fd hne
      have hk' : ¬ k.sock = fd := fun h => hne (h.symm.trans hsock)
      rw [iff_false_right hk']
      rintro ⟨l, hl, h⟩
      cases d with
      | false =>
        obtain rfl := Option.some.inj hl
        exact hk' h
      | true => cases hl
    · rfl
    · rfl
    · intro o' h
      cases h
  · rw [if_neg hsock]
    apply hb.put hk hothers hbefore hflight hspent
    · intro fd _
      simp
    · split_ifs <;> rfl
    · split_ifs <;> rfl
    · intro o' h
      have ho : o = o' := by split_ifs at h <;> exact Option.some.inj h
      refine ⟨ho.symm, _, rfl, ?_⟩
      split_ifs <;> exact ⟨rfl, hsock⟩

/-- A new `Socket`, without a descriptor; the call that constructs it may go on with it. -/
theorem Books.construct (hb : s.Books) {k : SocketObject} (hk : k.sock = -1)
    (hflight : (s.place i).inFlight = none) (hsubject : (s.place i).subject = none)
    (hflight' : p.inFlight = none)
    (hafter : ∀ o', p.subject = some o' → o' = s.constructed ∧ p.Relies k) :
    ((s.construct k).goTo i p).Books := by
  have hm : Moves s ((s.construct k).goTo i p) i s.constructed := by
    apply moves_of_update (p := p) (k := some k) rfl rfl
    · have hothers := hb.others (i := i)
      rwa [about, hsubject] at hothers
    · intro o' h
      exact absurd (hsubject.symm.trans h) (Option.some_ne_none o').symm
    · intro o' h
      obtain ⟨ho, hrelies⟩ := hafter o' h
      exact ⟨ho, k, rfl, hrelies⟩
    · exact .inl hflight'
    · exact Nat.le_succ _
    · intro _ _
      exact Nat.lt_succ_self _
  apply hb.pass hm rfl
  intro fd
  rw [share_iff (s := s) (k := some k) (p := p) rfl rfl, Share, hflight, hflight',
    hb.objects_constructed]
  apply or_congr_right
  apply and_congr_right
  intro hne
  constructor
  · rintro ⟨⟨l, hl, h⟩, -⟩
    obtain rfl := Option.some.inj hl
    exact absurd (h.symm.trans hk) hne
  · rintro ⟨⟨l, hl, -⟩, -⟩
    cases hl

theorem subject_of_out (hi : s.place i = .out) (o' : ℕ) : (s.place i).subject ≠ some o' := by
  rw [hi]
  exact (Option.some_ne_none o').symm

theorem Books.call (hb : s.Books) (hi : s.place i = .out) {c : SocketCall}
    (halone : s.Alone (.call i c)) (h : s.call i c = some t) : t.Books := by
  have hflight : (s.place i).inFlight = none := by rw [hi]; rfl
  have hspent : (s.place i).spent = none := by rw [hi]; rfl
  have hbefore : ∀ o o', (s.place i).subject = some o' → o' = o :=
    fun o o' h' => absurd h' (subject_of_out hi o')
  have hgo : ∀ (o : ℕ) (k : SocketObject) (p : Place), s.objects o = some k →
      (∀ j, (s.place j).subject ≠ some o) → p.inFlight = none → p.spent = none →
      (∀ o', p.subject = some o' → o' = o ∧ p.Relies k) → (s.goTo i p).Books := by
    intro o k p hk hothers hin hsp hafter
    rw [← put_self hk]
    apply hb.put hk (fun j _ => hothers j) (hbefore o) hflight hspent _ hin hsp
    · intro o' h'
      obtain ⟨ho, hrelies⟩ := hafter o' h'
      exact ⟨ho, k, rfl, hrelies⟩
    · intro fd _
      simp
  cases c with
  | construct family =>
    obtain rfl := Option.some.inj h
    have hnew := hb.construct (i := i) (k := ⟨-1, family, false⟩) (p := .out) rfl hflight
      (by rw [hi]; rfl) rfl fun o' h' => by cases h'
    have hself : (s.construct ⟨-1, family, false⟩).goTo i .out = s.construct ⟨-1, family, false⟩ := by
      rw [goTo, ← hi]
      exact congrArg (fun place => { s.construct ⟨-1, family, false⟩ with place := place })
        (Function.update_eq_self i s.place)
    rwa [hself] at hnew
  | createUDP family =>
    obtain rfl := Option.some.inj h
    apply hb.construct rfl hflight (by rw [hi]; rfl) rfl
    intro o' h'
    exact ⟨(Option.some.inj h').symm, rfl⟩
  | bind o =>
    obtain ⟨k, hk, rfl⟩ := Option.map_eq_some_iff.mp h
    apply hgo o k _ hk (halone o rfl)
    · split_ifs <;> rfl
    · split_ifs <;> rfl
    · intro o' h'
      split_ifs at h' ⊢ with hsock
      · exact ⟨(Option.some.inj h').symm, hsock⟩
      · cases h'
  | connect o family =>
    obtain ⟨k, hk, rfl⟩ := Option.map_eq_some_iff.mp h
    unfold connecting
    apply hgo o k _ hk (halone o rfl)
    · split_ifs <;> rfl
    · split_ifs <;> rfl
    · intro o' h'
      split_ifs at h' ⊢ with hsock
      · exact ⟨(Option.some.inj h').symm, hsock⟩
      · exact ⟨(Option.some.inj h').symm, trivial⟩
      · cases h'
  | accept o =>
    obtain ⟨k, hk, rfl⟩ := Option.map_eq_some_iff.mp h
    exact hb.keep rfl rfl rfl rfl hflight.symm hspent.symm (.inl rfl)
  | close o =>
    obtain ⟨k, hk, rfl⟩ := Option.map_eq_some_iff.mp h
    exact hb.close hk (fun j _ => halone o rfl j) (hbefore o) hflight hspent
  | destroy o =>
    obtain ⟨k, hk, rfl⟩ := Option.map_eq_some_iff.mp h
    exact hb.close hk (fun j _ => halone o rfl j) (hbefore o) hflight hspent

/-- The kernel returns a new descriptor to a call. -/
theorem Books.opening (hb : s.Books) {r : BitVec 32} (ht : t = (s.opening r).goTo i p)
    (hfree : s.Free r)
    (hflight : (s.place i).inFlight = none)
    (hone : ∀ k, s.objects (s.about i) = some k → k.sock = -1) (hflight' : p.inFlight = some r)
    (hsubject : p.subject = (s.place i).subject)
    (hrelies : ∀ k, (s.place i).Relies k → p.Relies k) : t.Books := by
  have hplace : t.place = Function.update s.place i p := by rw [ht]; rfl
  have hobjects : t.objects = Function.update s.objects (s.about i) (s.objects (s.about i)) := by
    rw [ht, Function.update_eq_self]
    rfl
  have hm : Moves s t i (s.about i) := by
    apply moves_of_update hplace hobjects hb.others
    · exact fun o' h => subject_eq_about h
    · intro o' h
      have hi := hsubject.symm.trans h
      obtain ⟨k, hk, hr⟩ := hb.relies i o' hi
      rw [about_eq hi]
      exact ⟨rfl, k, hk, hrelies k hr⟩
    · exact .inr hone
    · rw [ht]
      exact Nat.le_refl _
    · rw [ht]
      exact fun k hk => hb.bounded _ k hk
  apply hb.acquire hm hfree (by rw [ht]; rfl)
  intro e
  rw [share_iff hplace hobjects, Share, hflight, hflight']
  constructor
  · rintro (h | ⟨hne, ⟨k, hk, h⟩, -⟩)
    · exact .inr (Option.some.inj h).symm
    · exact absurd (h.symm.trans (hone k hk)) hne
  · rintro ((h | ⟨hne, ⟨k, hk, h⟩, -⟩) | rfl)
    · cases h
    · exact absurd (h.symm.trans (hone k hk)) hne
    · exact .inl rfl

/-- `m_sock` is set to the descriptor that the call holds. -/
theorem Books.give (hb : s.Books) {k : SocketObject} (hflight : (s.place i).inFlight = some fd)
    (hsock : k.sock = fd) (hplace : t.place = Function.update s.place i p)
    (hobjects : t.objects = Function.update s.objects (s.about i) (some k))
    (hopen : t.isOpen = s.isOpen) (hflight' : p.inFlight = none) (hspent' : p.spent = none)
    (hsubject : ∀ o', p.subject = some o' → o' = s.about i ∧ p.Relies k)
    (hc : s.constructed ≤ t.constructed) (habout : s.about i < t.constructed) : t.Books := by
  have hm : Moves s t i (s.about i) := by
    apply moves_of_update hplace hobjects hb.others
    · exact fun o' h => subject_eq_about h
    · intro o' h
      obtain ⟨ho, hrelies⟩ := hsubject o' h
      exact ⟨ho, k, rfl, hrelies⟩
    · exact .inl hflight'
    · exact hc
    · exact fun _ _ => habout
  have hisOpen : s.isOpen fd = true := (hb.exclusive.used_iff fd).mpr ⟨.thread i, hflight⟩
  have hne : fd ≠ -1 := by
    rintro rfl
    exact absurd (hb.nonneg _ hisOpen) (by decide)
  apply hb.pass hm hopen
  intro e
  rw [share_iff hplace hobjects, Share, hflight, hflight']
  constructor
  · rintro (h | ⟨-, ⟨l, hl, h⟩, -⟩)
    · cases h
    · obtain rfl := Option.some.inj hl
      exact .inl (congrArg some (hsock.symm.trans h))
  · rintro (h | ⟨hne', ⟨l, hl, h⟩, -⟩)
    · obtain rfl := Option.some.inj h
      refine .inr ⟨hne, ⟨k, rfl, hsock⟩, ?_⟩
      rw [hspent']
      exact (Option.some_ne_none _).symm
    · rcases hb.one i with hnone | hone
      · exact absurd (hflight.symm.trans hnone) (Option.some_ne_none fd)
      · exact absurd (h.symm.trans (hone l hl)) hne'

/-- What `close` has been called with is held by its `Socket`. -/
theorem Books.holds_of_relies (hb : s.Books) (hsubject : (s.place i).subject = some o)
    (hspent : (s.place i).spent = none)
    (hrelies : ∀ k, (s.place i).Relies k → k.sock = fd ∧ fd ≠ -1) : s.Holds (.object o) fd := by
  obtain ⟨k, hk, hr⟩ := hb.relies i o hsubject
  obtain ⟨hsock, hne⟩ := hrelies k hr
  refine ⟨hne, ⟨k, hk, hsock⟩, ?_⟩
  intro j hj
  obtain rfl := hb.alone i j o hsubject (Place.subject_of_spent hj)
  exact absurd (hspent.symm.trans hj) (Option.some_ne_none o).symm

theorem Books.closing (hb : s.Books) {d : Bool} (hi : s.place i = .close_f o fd d) :
    s.Holds (.object o) fd := by
  apply hb.holds_of_relies (i := i) <;> rw [hi]
  · rfl
  · rfl
  · exact fun _ h => h

/-- `close_f(fd)`. -/
theorem Books.close_f (hb : s.Books) {d : Bool} (hi : s.place i = .close_f o fd d)
    (ht : t = { s with isOpen := Function.update s.isOpen fd false }.goTo i (.closed o d)) :
    t.Books := by
  have hplace : t.place = Function.update s.place i (.closed o d) := by rw [ht]; rfl
  have hsubject : (s.place i).subject = some o := by rw [hi]; rfl
  have hobjects : t.objects = Function.update s.objects o (s.objects o) := by
    rw [ht, Function.update_eq_self]
    rfl
  obtain ⟨hne, ⟨k, hk, hsock⟩, -⟩ := hb.closing hi
  have hspent : (s.place i).spent ≠ some o := by
    rw [hi]
    exact (Option.some_ne_none o).symm
  have hothers := hb.others (i := i)
  rw [about_eq hsubject] at hothers
  have hm : Moves s t i o := by
    apply moves_of_update hplace hobjects hothers
    · intro o' h
      exact Option.some.inj (h.symm.trans hsubject)
    · intro o' h
      exact ⟨(Option.some.inj h).symm, k, hk, trivial⟩
    · exact .inl rfl
    · rw [ht]
      exact Nat.le_refl _
    · rw [ht]
      exact fun k hk => hb.bounded o k hk
  apply hb.release hm (.inr ⟨hne, ⟨k, hk, hsock⟩, hspent⟩) (by rw [ht]; rfl)
  intro e
  rw [share_iff hplace hobjects]
  constructor
  · rintro (h | ⟨-, -, h⟩)
    · cases h
    · exact absurd rfl h
  · rintro ⟨h | ⟨-, ⟨l, hl, h⟩, -⟩, he⟩
    · rw [hi] at h
      cases h
    · obtain rfl := Option.some.inj (hk.symm.trans hl)
      exact absurd (h.symm.trans hsock) he

/-- `m_sock` is set to -1, or the `Socket` is gone. -/
theorem Books.closed (hb : s.Books) {d : Bool} {k : SocketObject} (hi : s.place i = .closed o d)
    (hk : s.objects o = some k) :
    (s.put i o (if d then none else some { k with sock := -1 }) .out).Books := by
  have hsubject : (s.place i).subject = some o := by rw [hi]; rfl
  have hothers := hb.others (i := i)
  rw [about_eq hsubject] at hothers
  have hm : Moves s (s.put i o (if d then none else some { k with sock := -1 }) .out) i o := by
    apply moves_of_update (p := .out) rfl rfl hothers
    · intro o' h
      exact Option.some.inj (h.symm.trans hsubject)
    · intro o' h
      cases h
    · exact .inl rfl
    · exact Nat.le_refl _
    · exact fun _ _ => hb.bounded o k hk
  apply hb.pass hm rfl
  intro e
  rw [share_iff (s := s) (p := .out) rfl rfl, Share, hi]
  constructor
  · rintro (h | ⟨hne, ⟨l, hl, h⟩, -⟩)
    · cases h
    · cases d with
      | false =>
        obtain rfl := Option.some.inj hl
        exact absurd h.symm hne
      | true => cases hl
  · rintro (h | ⟨-, -, h⟩)
    · cases h
    · exact absurd rfl h

theorem inFlight_behind (o : ℕ) (k : SocketObject) (c : Renewal) :
    (behind o k c).inFlight = none ∧ (behind o k c).spent = none := by
  unfold behind connecting
  split
  · split_ifs <;> exact ⟨rfl, rfl⟩
  · exact ⟨rfl, rfl⟩

theorem subject_behind {o' : ℕ} {k : SocketObject} {c : Renewal}
    (h : (behind o k c).subject = some o') : behind o k c = .connect o ∧ o' = o := by
  unfold behind connecting at h ⊢
  split at h
  · split_ifs at h ⊢
    · exact ⟨rfl, (Option.some.inj h).symm⟩
    · cases h
  · cases h

theorem Books.run (hb : s.Books) {r : BitVec 32}
    (hinit : ∀ fd family, s.place i = .returned fd (.accept family) → s.init fd = true)
    (h : s.run i r = some t) : t.Books := by
  cases hi : s.place i with
  | out =>
    simp only [Sockets.run, hi] at h
    cases h
  | socket_f o c =>
    have hsubject : (s.place i).subject = some o := by rw [hi]; rfl
    obtain ⟨k, hk, hsock⟩ := hb.relies i o hsubject
    rw [hi] at hsock
    have hsock : k.sock = -1 := hsock
    simp only [Sockets.run, hi] at h
    by_cases hr : r = -1
    · rw [if_pos hr] at h
      obtain ⟨k', hk', rfl⟩ := Option.map_eq_some_iff.mp h
      obtain rfl := Option.some.inj (hk.symm.trans hk')
      have hothers := hb.others (i := i)
      rw [about_eq hsubject] at hothers
      apply hb.put hk hothers
      · exact fun o' ho => Option.some.inj (ho.symm.trans hsubject)
      · rw [hi]; rfl
      · rw [hi]; rfl
      · intro fd hne
        have hr' : (renewed k r c).sock = -1 := by cases c <;> exact hr
        simp [hr', hsock]
      · rfl
      · rfl
      · intro o' ho
        cases ho
    · rw [if_neg hr] at h
      by_cases hfree : s.Free r
      · rw [if_pos hfree] at h
        apply hb.opening (Option.some.inj h).symm hfree
        · rw [hi]; rfl
        · intro k' hk'
          rw [about_eq hsubject] at hk'
          obtain rfl := Option.some.inj (hk.symm.trans hk')
          exact hsock
        · split_ifs <;> rfl
        · rw [hi]
          split_ifs <;> rfl
        · rw [hi]
          split_ifs <;> exact fun _ hk => hk
      · rw [if_neg hfree] at h
        cases h
  | accept_f fd family =>
    simp only [Sockets.run, hi] at h
    split_ifs at h with hr hfree
    · obtain rfl := Option.some.inj h
      exact hb.keep rfl rfl rfl rfl (by rw [hi]; rfl) (by rw [hi]; rfl) (.inl rfl)
    · obtain rfl := Option.some.inj h
      apply hb.opening (p := .get r (.accept family)) rfl hfree.1
      · rw [hi]; rfl
      · intro k hk
        rw [about, hi] at hk
        exact absurd (hb.objects_constructed.symm.trans hk) (Option.some_ne_none k).symm
      · rfl
      · rw [hi]; rfl
      · exact fun _ _ => trivial
  | get fd g =>
    simp only [Sockets.run, hi] at h
    obtain ⟨fds, -, rfl⟩ := Option.map_eq_some_iff.mp h
    refine hb.keep rfl rfl rfl rfl ?_ ?_ (.inr ?_)
    · rw [hi]
      split_ifs <;> rfl
    · rw [hi]
      split_ifs <;> rfl
    · rw [hi]
      cases g <;> split_ifs <;> exact ⟨rfl, fun _ hk => hk⟩
  | create fd g =>
    simp only [Sockets.run, hi] at h
    obtain ⟨fds, -, rfl⟩ := Option.map_eq_some_iff.mp h
    refine hb.keep rfl rfl rfl rfl ?_ ?_ (.inr ?_)
    · rw [hi]; rfl
    · rw [hi]; rfl
    · rw [hi]
      cases g <;> exact ⟨rfl, fun _ hk => hk⟩
  | returned fd g =>
    have hflight : (s.place i).inFlight = some fd := by rw [hi]; rfl
    cases g with
    | newSock o c =>
      simp only [Sockets.run, hi] at h
      obtain ⟨k, hk, rfl⟩ := Option.map_eq_some_iff.mp h
      have habout : s.about i = o := about_eq (by rw [hi]; rfl)
      have hsock : (renewed k fd c).sock = fd := by cases c <;> rfl
      apply hb.give hflight hsock
      · rfl
      · rw [habout]
        rfl
      · rfl
      · exact (inFlight_behind o k c).1
      · exact (inFlight_behind o k c).2
      · intro o' ho
        obtain ⟨hcall, rfl⟩ := subject_behind ho
        rw [habout, hcall]
        exact ⟨rfl, trivial⟩
      · exact Nat.le_refl _
      · rw [habout]
        exact hb.bounded o k hk
    | accept family =>
      simp only [Sockets.run, hi] at h
      obtain ⟨fds, -, rfl⟩ := Option.map_eq_some_iff.mp h
      have habout : s.about i = s.constructed := by rw [about, hi]; rfl
      rw [if_pos (hinit fd family hi)]
      apply hb.give (k := ⟨fd, family, true⟩) (p := .out) hflight rfl
      · rfl
      · rw [habout]
        rfl
      · rfl
      · rfl
      · rfl
      · intro o' ho
        cases ho
      · exact Nat.le_succ _
      · rw [habout]
        exact Nat.lt_succ_self _
  | connect o =>
    have hsubject : (s.place i).subject = some o := by rw [hi]; rfl
    have hothers := hb.others (i := i)
    rw [about_eq hsubject] at hothers
    simp only [Sockets.run, hi] at h
    obtain ⟨k, hk, rfl⟩ := Option.map_eq_some_iff.mp h
    split_ifs
    · apply hb.put hk hothers
      · exact fun o' ho => Option.some.inj (ho.symm.trans hsubject)
      · rw [hi]; rfl
      · rw [hi]; rfl
      · intro fd _
        simp
      · rfl
      · rfl
      · intro o' ho
        cases ho
    · apply hb.close hk hothers
      · exact fun o' ho => Option.some.inj (ho.symm.trans hsubject)
      · rw [hi]; rfl
      · rw [hi]; rfl
  | close o fd d =>
    simp only [Sockets.run, hi] at h
    obtain ⟨fds, -, rfl⟩ := Option.map_eq_some_iff.mp h
    refine hb.keep rfl rfl rfl rfl ?_ ?_ (.inr ?_)
    · rw [hi]
      split_ifs <;> rfl
    · rw [hi]
      split_ifs <;> rfl
    · rw [hi]
      split_ifs <;> exact ⟨rfl, fun _ hk => hk⟩
  | del o fd d =>
    simp only [Sockets.run, hi] at h
    obtain ⟨fds, -, rfl⟩ := Option.map_eq_some_iff.mp h
    refine hb.keep rfl rfl rfl rfl ?_ ?_ (.inr ?_)
    · rw [hi]; rfl
    · rw [hi]; rfl
    · rw [hi]
      exact ⟨rfl, fun _ hk => hk⟩
  | close_f o fd d =>
    simp only [Sockets.run, hi] at h
    obtain rfl := Option.some.inj h
    exact hb.close_f hi rfl
  | closed o d =>
    simp only [Sockets.run, hi] at h
    obtain ⟨k, hk, rfl⟩ := Option.map_eq_some_iff.mp h
    exact hb.closed hi hk

/-! ## One step, for the table -/

end Sockets

/-- The descriptor that a call is about to make a context for. -/
def Place.creating : Place → Option (BitVec 32)
  | .create fd _ => some fd
  | _ => none

/-- The descriptor that `accept` has returned, with its context. -/
def Place.accepted : Place → Option (BitVec 32)
  | .returned fd (.accept _) => some fd
  | _ => none

theorem Place.inFlight_of_creating {p : Place} {fd : BitVec 32} (h : p.creating = some fd) :
    p.inFlight = some fd := by
  cases p with
  | create => exact h
  | _ => cases h

theorem Place.inFlight_of_accepted {p : Place} {fd : BitVec 32} (h : p.accepted = some fd) :
    p.inFlight = some fd := by
  cases p with
  | returned _ g =>
    cases g with
    | newSock => cases h
    | accept => exact h
  | _ => cases h

theorem Place.creating_of_inFlight {p : Place} (h : p.inFlight = none) : p.creating = none := by
  cases hc : p.creating with
  | none => rfl
  | some fd => exact absurd (h.symm.trans (inFlight_of_creating hc)) (Option.some_ne_none fd).symm

theorem Place.accepted_of_inFlight {p : Place} (h : p.inFlight = none) : p.accepted = none := by
  cases hc : p.accepted with
  | none => rfl
  | some fd => exact absurd (h.symm.trans (inFlight_of_accepted hc)) (Option.some_ne_none fd).symm

namespace FdManager

theorem ctx_of_step_read {s t : FdManager} {thread : ℕ} {fd : BitVec 32} {auto_create : Bool}
    (h : s.step (.read thread fd auto_create) = some t) :
    (∀ fd', t.ctx fd' = s.ctx fd') ∧ ∀ j, j ≠ thread → t.creating j = s.creating j := by
  simp only [step] at h
  split_ifs at h
  obtain rfl := Option.some.inj h
  unfold readPart
  split_ifs
  · exact ⟨fun _ => rfl, fun _ _ => rfl⟩
  · exact ⟨fun _ => rfl, fun j hj => Function.update_of_ne hj _ _⟩
  · exact ⟨fun _ => rfl, fun _ _ => rfl⟩
  · exact ⟨fun _ => rfl, fun _ _ => rfl⟩
  · exact ⟨fun _ => rfl, fun j hj => Function.update_of_ne hj _ _⟩

/-- What the part of `get(fd, true)` under the read lock has found. -/
theorem found_of_step_read {s t : FdManager} {thread : ℕ} {fd : BitVec 32}
    (h : s.step (.read thread fd true) = some t) (hne : fd ≠ -1) :
    t.creating thread = none ∧ s.ctx fd ≠ none ∨
      t.creating thread = some fd ∧ s.ctx fd = none := by
  simp only [step] at h
  split_ifs at h with hnone
  obtain rfl := Option.some.inj h
  unfold readPart
  rw [if_neg hne]
  by_cases hle : s.datas.length ≤ size_t fd
  · rw [if_pos hle]
    exact .inr ⟨Function.update_self _ _ _, entry_of_length_le hle⟩
  · rw [if_neg hle]
    cases hctx : s.ctx fd with
    | some c => exact .inl ⟨hnone, Option.some_ne_none c⟩
    | none => exact .inr ⟨Function.update_self _ _ _, rfl⟩

end FdManager

namespace Sockets

variable {n : ℕ} {s t : Sockets n} {i j : Fin n} {o : ℕ} {fd : BitVec 32} {p : Place}

/-- What carries the account of the contexts along a run. -/
structure Tables (s : Sockets n) : Prop where
  inv : FdManager.Inv s.fds
  current : ∀ fd, FdManager.Current fd s.fds
  creating : ∀ i fd, (s.place i).creating = some fd →
    s.fds.creating i = some fd ∧ s.fds.ctx fd = none
  accepted : ∀ i fd, (s.place i).accepted = some fd → s.fds.ctx fd ≠ none
  isSocket : ∀ fd c, s.fds.ctx fd = some c → s.isSocket c = true

/-- A step that does not lead to where a context is made or found. -/
theorem Tables.keep (ht : s.Tables) (hplace : t.place = Function.update s.place i p)
    (hfds : t.fds = s.fds) (hsocket : t.isSocket = s.isSocket) (hcreating : p.creating = none)
    (haccepted : p.accepted = none) : t.Tables := by
  constructor
  · rw [hfds]
    exact ht.inv
  · rw [hfds]
    exact ht.current
  · intro j fd hj
    rw [hplace, Function.update_apply] at hj
    rw [hfds]
    split_ifs at hj
    · exact absurd (hcreating.symm.trans hj) (Option.some_ne_none fd).symm
    · exact ht.creating j fd hj
  · intro j fd hj
    rw [hplace, Function.update_apply] at hj
    rw [hfds]
    split_ifs at hj
    · exact absurd (haccepted.symm.trans hj) (Option.some_ne_none fd).symm
    · exact ht.accepted j fd hj
  · rw [hfds, hsocket]
    exact ht.isSocket

/-- The part of `get` under the read lock. -/
theorem Tables.read (ht : s.Tables) {auto_create : Bool}
    (hr : s.fds.step (.read i fd auto_create) = some t.fds)
    (hplace : t.place = Function.update s.place i p) (hsocket : t.isSocket = s.isSocket)
    (hcreating : ∀ e, p.creating = some e → t.fds.creating i = some e ∧ s.fds.ctx e = none)
    (haccepted : ∀ e, p.accepted = some e → s.fds.ctx e ≠ none) : t.Tables := by
  obtain ⟨hctx, hothers⟩ := FdManager.ctx_of_step_read hr
  constructor
  · exact ht.inv.step hr
  · intro e
    apply (ht.current e).step _ hr
    intro thread h
    cases h
  · intro j e hj
    rw [hplace, Function.update_apply] at hj
    rw [hctx]
    split_ifs at hj with hji
    · rw [hji]
      exact hcreating e hj
    · rw [hothers j (Fin.val_ne_of_ne hji)]
      exact ht.creating j e hj
  · intro j e hj
    rw [hplace, Function.update_apply] at hj
    rw [hctx]
    split_ifs at hj
    · exact haccepted e hj
    · exact ht.accepted j e hj
  · intro e c hc
    rw [hctx] at hc
    rw [hsocket]
    exact ht.isSocket e c hc

/-- A descriptor is in the hands of one call. -/
theorem Books.inFlight_inj (hb : s.Books) (hi : (s.place i).inFlight = some fd)
    (hj : (s.place j).inFlight = some fd) : i = j :=
  Holder.thread.inj (hb.exclusive.unique (.thread i) (.thread j) fd hi hj)

/-- The part of `get` under the write lock. -/
theorem Tables.create (ht : s.Tables) (hb : s.Books) {g : GetFor} {fds : FdManager}
    (hi : s.place i = .create fd g) (hw : s.fds.step (.write i) = some fds) (hfds : t.fds = fds)
    (hplace : t.place = Function.update s.place i (.returned fd g))
    (hsocket : t.isSocket = Function.update s.isSocket s.fds.allocated (s.isOpen fd)) :
    t.Tables := by
  have hflight : (s.place i).inFlight = some fd := by rw [hi]; rfl
  have hisOpen : s.isOpen fd = true := (hb.exclusive.used_iff fd).mpr ⟨.thread i, hflight⟩
  obtain ⟨hcreating, hvacant⟩ := ht.creating i fd (by rw [hi]; rfl)
  obtain ⟨u, hu, hthread, rfl⟩ : ∃ u, FdManager.Creates s.fds fd u ∧
      u.creating = s.fds.creating ∧ u.withCreating i none = fds := by
    simp only [FdManager.step, hcreating] at hw
    obtain ⟨u, hu, rfl⟩ := Option.map_eq_some_iff.mp hw
    exact ⟨u, FdManager.creates_of_writePart hu, FdManager.creating_of_writePart hu, rfl⟩
  have hctx : ∀ e, t.fds.ctx e = if e = fd then some s.fds.allocated else s.fds.ctx e := by
    rw [hfds]
    exact hu.ctx_eq
  have hothers : ∀ j : Fin n, j ≠ i → t.fds.creating j = s.fds.creating j := by
    intro j hj
    rw [hfds]
    exact (Function.update_of_ne (Fin.val_ne_of_ne hj) _ _).trans (congrFun hthread j)
  constructor
  · rw [hfds]
    exact ht.inv.step hw
  · intro e
    rw [hfds]
    apply (ht.current e).step _ hw
    intro thread h he
    obtain rfl := FdAct.write.inj h
    obtain rfl := Option.some.inj (hcreating.symm.trans he)
    exact hvacant
  · intro j e hj
    rw [hplace, Function.update_apply] at hj
    split_ifs at hj with hji
    · cases hj
    · obtain ⟨hcj, hnone⟩ := ht.creating j e hj
      refine ⟨(hothers j hji).trans hcj, ?_⟩
      rw [hctx, if_neg, hnone]
      rintro rfl
      exact hji (hb.inFlight_inj (Place.inFlight_of_creating hj) hflight)
  · intro j e hj
    rw [hplace, Function.update_apply] at hj
    rw [hctx]
    by_cases heq : e = fd
    · rw [if_pos heq]
      exact Option.some_ne_none _
    · rw [if_neg heq]
      split_ifs at hj
      · exact absurd (Option.some.inj (Place.inFlight_of_accepted hj)).symm heq
      · exact ht.accepted j e hj
  · intro e c hc
    rw [hctx] at hc
    rw [hsocket, Function.update_apply]
    by_cases hnew : c = s.fds.allocated
    · rw [if_pos hnew]
      exact hisOpen
    · rw [if_neg hnew]
      split_ifs at hc
      · exact absurd (Option.some.inj hc).symm hnew
      · exact ht.isSocket e c hc

/-- `del(fd)`, of a descriptor that no call holds. -/
theorem Tables.del (ht : s.Tables) (hfree : ∀ j, (s.place j).inFlight ≠ some fd)
    (hd : s.fds.step (.del fd) = some t.fds) (hplace : t.place = Function.update s.place i p)
    (hsocket : t.isSocket = s.isSocket) (hcreating : p.creating = none)
    (haccepted : p.accepted = none) : t.Tables := by
  have ht' : t.fds = s.fds.del fd := (Option.some.inj hd).symm
  have hctx : ∀ e, t.fds.ctx e = if e = fd then none else s.fds.ctx e := by
    rw [ht']
    exact FdManager.ctx_del s.fds fd
  have hothers : t.fds.creating = s.fds.creating := by
    rw [ht', FdManager.del]
    split_ifs <;> rfl
  constructor
  · exact ht.inv.step hd
  · intro e
    apply (ht.current e).step _ hd
    intro thread h
    cases h
  · intro j e hj
    rw [hplace, Function.update_apply] at hj
    rw [hctx, hothers]
    split_ifs at hj
    · exact absurd (hcreating.symm.trans hj) (Option.some_ne_none e).symm
    · obtain ⟨hthread, hnone⟩ := ht.creating j e hj
      exact ⟨hthread, by split_ifs <;> first | rfl | exact hnone⟩
  · intro j e hj
    rw [hplace, Function.update_apply] at hj
    rw [hctx]
    split_ifs at hj with hji
    · exact absurd (haccepted.symm.trans hj) (Option.some_ne_none e).symm
    · rw [if_neg]
      · exact ht.accepted j e hj
      · rintro rfl
        exact hfree j (Place.inFlight_of_accepted hj)
  · intro e c hc
    rw [hctx] at hc
    rw [hsocket]
    split_ifs at hc
    exact ht.isSocket e c hc

theorem Tables.accepts (ht : s.Tables) {family : ℕ} (hi : s.place i = .returned fd (.accept family)) :
    s.init fd = true := by
  have hctx := ht.accepted i fd (by rw [hi]; rfl)
  obtain ⟨c, hc⟩ := Option.ne_none_iff_exists'.mp hctx
  rw [init, hc]
  exact ht.isSocket fd c hc

theorem Tables.call (ht : s.Tables) (hi : s.place i = .out) {c : SocketCall}
    (h : s.call i c = some t) : t.Tables := by
  have hclose : ∀ o k d, (s.close i o k d).Tables := by
    intro o k d
    unfold Sockets.close
    split_ifs <;> exact ht.keep rfl rfl rfl rfl rfl
  cases c with
  | construct family =>
    obtain rfl := Option.some.inj h
    refine ht.keep (i := i) (p := .out) ?_ rfl rfl rfl rfl
    rw [← hi, Function.update_eq_self]
    rfl
  | createUDP family =>
    obtain rfl := Option.some.inj h
    exact ht.keep rfl rfl rfl rfl rfl
  | bind o =>
    obtain ⟨k, -, rfl⟩ := Option.map_eq_some_iff.mp h
    refine ht.keep rfl rfl rfl ?_ ?_ <;> split_ifs <;> rfl
  | connect o family =>
    obtain ⟨k, -, rfl⟩ := Option.map_eq_some_iff.mp h
    unfold connecting
    refine ht.keep rfl rfl rfl ?_ ?_ <;> split_ifs <;> rfl
  | accept o =>
    obtain ⟨k, -, rfl⟩ := Option.map_eq_some_iff.mp h
    exact ht.keep rfl rfl rfl rfl rfl
  | close o =>
    obtain ⟨k, -, rfl⟩ := Option.map_eq_some_iff.mp h
    exact hclose o k false
  | destroy o =>
    obtain ⟨k, -, rfl⟩ := Option.map_eq_some_iff.mp h
    exact hclose o k true

theorem Tables.run (ht : s.Tables) (hb : s.Books) {r : BitVec 32} (h : s.run i r = some t) :
    t.Tables := by
  cases hi : s.place i with
  | out =>
    simp only [Sockets.run, hi] at h
    cases h
  | socket_f o c =>
    simp only [Sockets.run, hi] at h
    by_cases hr : r = -1
    · rw [if_pos hr] at h
      obtain ⟨k, -, rfl⟩ := Option.map_eq_some_iff.mp h
      exact ht.keep rfl rfl rfl rfl rfl
    · rw [if_neg hr] at h
      by_cases hfree : s.Free r
      · rw [if_pos hfree] at h
        obtain rfl := Option.some.inj h
        refine ht.keep rfl rfl rfl ?_ ?_ <;> split_ifs <;> rfl
      · rw [if_neg hfree] at h
        cases h
  | accept_f fd family =>
    simp only [Sockets.run, hi] at h
    split_ifs at h
    · obtain rfl := Option.some.inj h
      exact ht.keep rfl rfl rfl rfl rfl
    · obtain rfl := Option.some.inj h
      exact ht.keep rfl rfl rfl rfl rfl
  | get fd g =>
    simp only [Sockets.run, hi] at h
    obtain ⟨fds, hfds, rfl⟩ := Option.map_eq_some_iff.mp h
    have hne : fd ≠ -1 := by
      rintro rfl
      have hisOpen := (hb.exclusive.used_iff (-1)).mpr ⟨.thread i, by rw [Holds, Holding, hi]; rfl⟩
      exact absurd (hb.nonneg _ hisOpen) (by decide)
    refine ht.read hfds rfl rfl ?_ ?_
    · intro e he
      rcases FdManager.found_of_step_read hfds hne with ⟨hnone, -⟩ | ⟨hsome, hctx⟩
      · rw [if_pos hnone] at he
        cases he
      · rw [if_neg (by rw [hsome]; exact Option.some_ne_none fd)] at he
        obtain rfl := Option.some.inj he
        exact ⟨hsome, hctx⟩
    · intro e he
      rcases FdManager.found_of_step_read hfds hne with ⟨hnone, hctx⟩ | ⟨hsome, -⟩
      · rw [if_pos hnone] at he
        obtain rfl := Option.some.inj ((Place.inFlight_of_accepted he).symm.trans rfl)
        exact hctx
      · rw [if_neg (by rw [hsome]; exact Option.some_ne_none fd)] at he
        cases he
  | create fd g =>
    simp only [Sockets.run, hi] at h
    obtain ⟨fds, hfds, rfl⟩ := Option.map_eq_some_iff.mp h
    exact ht.create hb hi hfds rfl rfl rfl
  | returned fd g =>
    cases g with
    | newSock o c =>
      simp only [Sockets.run, hi] at h
      obtain ⟨k, -, rfl⟩ := Option.map_eq_some_iff.mp h
      have hflight := (inFlight_behind o k c).1
      exact ht.keep rfl rfl rfl (Place.creating_of_inFlight hflight)
        (Place.accepted_of_inFlight hflight)
    | accept family =>
      simp only [Sockets.run, hi] at h
      obtain ⟨fds, hfds, rfl⟩ := Option.map_eq_some_iff.mp h
      rw [if_pos (ht.accepts hi)]
      exact ht.read hfds rfl rfl (fun e he => by cases he) (fun e he => by cases he)
  | connect o =>
    simp only [Sockets.run, hi] at h
    obtain ⟨k, -, rfl⟩ := Option.map_eq_some_iff.mp h
    unfold Sockets.close
    split_ifs <;> exact ht.keep rfl rfl rfl rfl rfl
  | close o fd d =>
    simp only [Sockets.run, hi] at h
    obtain ⟨fds, hfds, rfl⟩ := Option.map_eq_some_iff.mp h
    refine ht.read hfds rfl rfl ?_ ?_
    · intro e he
      split_ifs at he <;> cases he
    · intro e he
      split_ifs at he <;> cases he
  | del o fd d =>
    simp only [Sockets.run, hi] at h
    obtain ⟨fds, hfds, rfl⟩ := Option.map_eq_some_iff.mp h
    refine ht.del ?_ hfds rfl rfl rfl rfl
    intro j hj
    have hholds : s.Holds (.object o) fd := by
      apply hb.holds_of_relies (i := i) <;> rw [hi]
      · rfl
      · rfl
      · exact fun _ h => h
    cases hb.exclusive.unique (.thread j) (.object o) fd hj hholds
  | close_f o fd d =>
    simp only [Sockets.run, hi] at h
    obtain rfl := Option.some.inj h
    exact ht.keep rfl rfl rfl rfl rfl
  | closed o d =>
    simp only [Sockets.run, hi] at h
    obtain ⟨k, -, rfl⟩ := Option.map_eq_some_iff.mp h
    exact ht.keep rfl rfl rfl rfl rfl

/-! ## Runs -/

/-- What carries the account of the descriptors along a run. -/
structure Inv (s : Sockets n) : Prop where
  books : s.Books
  tables : s.Tables

theorem Inv.owned (hi : s.Inv) : s.Owned where
  isOpen_iff := hi.books.exclusive.used_iff
  unique := hi.books.exclusive.unique
  closing := fun _ _ _ _ hp => hi.books.closing hp
  accepts := fun _ _ _ hp => hi.tables.accepts hp
  single := fun fd => (hi.tables.current fd).single

theorem inv_start : (start n).Inv where
  books := by
    constructor
    · constructor
      · intro fd
        constructor
        · intro h
          cases h
        · rintro ⟨o | i, h⟩
          · obtain ⟨-, ⟨k, hk, -⟩, -⟩ := h
            cases hk
          · cases h
      · rintro (o | i) h' fd h
        · obtain ⟨-, ⟨k, hk, -⟩, -⟩ := h
          cases hk
        · cases h
    · intro fd h
      cases h
    · intro i j o h
      cases h
    · intro i o h
      cases h
    · intro o k h
      cases h
  tables := by
    constructor
    · exact FdManager.inv_construct
    · intro fd c h
      cases h
    · intro i fd h
      cases h
    · intro i fd h
      cases h
    · intro fd c h
      cases FdManager.inv_construct.returned_of_ctx fd c h

/-- **One step**, of a call that is alone on its socket. -/
theorem Inv.step {a : SocketsAct n} (hi : s.Inv) (ha : s.Alone a) (h : s.step a = some t) :
    t.Inv := by
  cases a with
  | set_hook_enable i flag =>
    simp only [Sockets.step] at h
    split_ifs at h with hp
    obtain rfl := Option.some.inj h
    have hplace : s.place = Function.update s.place i (s.place i) :=
      (Function.update_eq_self _ _).symm
    constructor
    · exact hi.books.keep hplace rfl rfl rfl rfl rfl (.inr ⟨rfl, fun _ hk => hk⟩)
    · exact hi.tables.keep hplace rfl rfl (by rw [hp]; rfl) (by rw [hp]; rfl)
  | call i c =>
    simp only [Sockets.step] at h
    split_ifs at h with hp
    exact ⟨hi.books.call hp ha h, hi.tables.call hp h⟩
  | run i r =>
    exact ⟨hi.books.run (fun _ _ hp => hi.tables.accepts hp) h, hi.tables.run hi.books h⟩

theorem inv_of_exec {as : List (SocketsAct n)} (hg : Guarded step Alone (start n) as)
    (hu : exec step (start n) as = some s) : s.Inv :=
  exec_invariant_of_guarded (fun _ _ _ hi ha ht => hi.step ha ht) inv_start hg hu

/-- **The account of the descriptors.** Let any number of threads, with the hook on or off, create,
accept, connect, close and destroy sockets in any interleaving of their steps, each call alone on the
socket that it changes. Then each open descriptor has one holder, a socket or a call under way; `close`
closes what its socket holds; no descriptor that `accept` has got is lost; and no descriptor has two
contexts. -/
theorem owned_of_exec {as : List (SocketsAct n)} (hg : Guarded step Alone (start n) as)
    (hu : exec step (start n) as = some s) : s.Owned :=
  (inv_of_exec hg hu).owned

/-- A thread with the hook enabled makes a socket, another one accepts a connection from it, and the
first one is closed. -/
theorem owned_of_exec_two_threads :
    ∃ s : Sockets 2, exec step (start 2) [.set_hook_enable 0 true, .call 0 (.construct 2),
        .call 0 (.bind 0), .run 0 5, .run 0 0, .run 0 0, .run 0 0, .call 1 (.accept 0), .run 1 6,
        .run 1 0, .run 1 0, .run 1 0, .call 0 (.close 0), .run 0 0, .run 0 0, .run 0 0] = some s ∧
      s.Owned ∧ s.isOpen 5 = false ∧ s.Holds (.object 1) 6 := by
  obtain ⟨s, hs⟩ : ∃ s : Sockets 2, exec step (start 2) [.set_hook_enable 0 true,
      .call 0 (.construct 2), .call 0 (.bind 0), .run 0 5, .run 0 0, .run 0 0, .run 0 0,
      .call 1 (.accept 0), .run 1 6, .run 1 0, .run 1 0, .run 1 0, .call 0 (.close 0), .run 0 0,
      .run 0 0, .run 0 0] = some s := ⟨_, rfl⟩
  refine ⟨s, hs, owned_of_exec (by decide) hs, ?_⟩
  obtain rfl := Option.some.inj hs
  exact ⟨rfl, by decide, ⟨_, rfl, rfl⟩, by decide⟩

/-- When all calls have returned and all sockets are gone, nothing is open. -/
theorem Owned.closed_of_out (h : s.Owned) (hout : ∀ i, s.place i = .out)
    (hobjects : ∀ o, s.objects o = none) (fd : BitVec 32) : s.isOpen fd = false := by
  apply eq_false_of_ne_true
  intro hopen
  rcases (h.isOpen_iff fd).mp hopen with ⟨o | i, hh⟩
  · obtain ⟨-, ⟨k, hk, -⟩, -⟩ := hh
    exact absurd ((hobjects o).symm.trans hk) (Option.some_ne_none k).symm
  · have hi : (s.place i).inFlight = some fd := hh
    rw [hout i] at hi
    cases hi

/-- Two threads close one socket. The second one closes the descriptor again, which the kernel has
given to another socket by then. -/
theorem not_owned_of_two_closes :
    ∃ s : Sockets 2, exec step (start 2) [.call 0 (.construct 2), .call 0 (.construct 2),
        .call 0 (.bind 0), .run 0 5, .run 0 0, .call 0 (.close 0), .call 1 (.close 0), .run 0 0,
        .run 0 0, .call 0 (.bind 1), .run 0 5, .run 0 0, .run 1 0] = some s ∧
      s.objects 1 = some ⟨5, 2, false⟩ ∧ s.isOpen 5 = false ∧ ¬ s.Owned := by
  obtain ⟨s, hs⟩ : ∃ s : Sockets 2, exec step (start 2) [.call 0 (.construct 2),
      .call 0 (.construct 2), .call 0 (.bind 0), .run 0 5, .run 0 0, .call 0 (.close 0),
      .call 1 (.close 0), .run 0 0, .run 0 0, .call 0 (.bind 1), .run 0 5, .run 0 0,
      .run 1 0] = some s := ⟨_, rfl⟩
  refine ⟨s, hs, ?_⟩
  obtain rfl := Option.some.inj hs
  refine ⟨rfl, rfl, fun howned => ?_⟩
  have hopen := (howned.isOpen_iff 5).mpr ⟨.object 1, by decide, ⟨_, rfl, rfl⟩, by decide⟩
  cases hopen

end Sockets

end Dag
