import Dag.Foundation.Run

/-!
# TcpServer: start, stop and the accept loops

`start` clears the flag `m_isStop` and enqueues an accept loop for each listening socket. `stop` sets
the flag at once, and enqueues a closure that closes the listening sockets; it closes those that
`m_socks` holds when it is run. An accept loop reads the flag between two calls of `accept`, and
returns when it is set. On a closed socket `accept` fails at once: a loop over such a socket that
finds the flag cleared goes round for ever.

The scheduler runs the closures in any order, and resumes the loops in any order. Sockets are named
by numbers, in the order of their creation, and so are the clients that are accepted.

## Main definitions

* `TcpServer`, `TcpServer.step`: the server and its steps
* `Spinning`: an accept loop over a closed socket, with the flag cleared
* `NeverSpins`: no order of the scheduler's steps leads a run there
* `Settled`: the condition on a call of `start`

## Main results

* `Advances`, `step_cases`: what a step of the scheduler does, and what any step does
* `neverSpins_iff`: no order leads a run there exactly when all its calls of `start` meet the
  condition
* `not_neverSpins_of_restart`: a `start` before the closure of the last `stop` has been run
-/

namespace Dag

open Foundation

/-- A closure in the queue of `m_acceptWorker`: `startAccept(sock)`, or the one that `stop`
enqueues. -/
inductive Closure
  | startAccept (sock : ℕ)
  | stop
  deriving DecidableEq, Repr

/-- A call of `startAccept(sock)` that has not returned: it is inside `accept`, or about to read the
flag. -/
structure AcceptLoop where
  sock : ℕ
  accepting : Bool
  deriving DecidableEq, Repr

/-- A `TcpServer`, with the number of sockets created, those that have been closed, the closures
that have not been run, the accept loops, and the clients handed to `handleClient` with their receive
timeouts. -/
structure TcpServer where
  isStop : Bool
  socks : List ℕ
  recvTimeout : ℕ
  created : ℕ
  closed : List ℕ
  queue : List Closure
  loops : List AcceptLoop
  handled : List (ℕ × ℕ)
  deriving DecidableEq, Repr

/-- The steps: the calls, with whether each address can be bound, a closure that is run, a loop that
reads the flag, and a loop whose `accept` returns a client or null. -/
inductive ServerAct
  | bind (oks : List Bool)
  | start
  | stop
  | run (c : Closure)
  | test (sock : ℕ)
  | accept (sock : ℕ) (client : Option ℕ)
  deriving DecidableEq, Repr

/-- A step that the scheduler chooses. -/
def ServerAct.Scheduled : ServerAct → Prop
  | .run _ => True
  | .test _ => True
  | .accept _ _ => True
  | _ => False

namespace TcpServer

/-- `TcpServer()`. -/
def construct : TcpServer := ⟨true, [], 50000, 0, [], [], [], []⟩

/-- The loop of `bind(addrs, fails)`. -/
def bindLoop : List Bool → TcpServer → TcpServer
  | [], s => s
  | ok :: oks, s => bindLoop oks { s with
      socks := if ok then s.socks ++ [s.created] else s.socks
      created := s.created + 1 }

/-- `bind(addrs, fails)`: when one address fails, no socket is kept. -/
def bind (s : TcpServer) (oks : List Bool) : TcpServer :=
  let t := bindLoop oks s
  if oks.all id then t else { t with socks := [] }

/-- `start()`. -/
def start (s : TcpServer) : TcpServer :=
  if !s.isStop then s
  else { s with isStop := false, queue := s.queue ++ s.socks.map .startAccept }

/-- `stop()`. -/
def stop (s : TcpServer) : TcpServer :=
  { s with isStop := true, queue := s.queue ++ [.stop] }

/-- A closure is run: `startAccept` comes to its loop, and the closure of `stop` is run to its
end. -/
def runClosure (s : TcpServer) : Closure → TcpServer
  | .startAccept sock => { s with loops := s.loops ++ [⟨sock, false⟩] }
  | .stop => { s with closed := s.closed ++ s.socks, socks := [] }

def step (s : TcpServer) : ServerAct → Option TcpServer
  | .bind oks => some (s.bind oks)
  | .start => some s.start
  | .stop => some s.stop
  | .run c =>
    if c ∈ s.queue then some ({ s with queue := s.queue.erase c }.runClosure c) else none
  | .test sock =>
    if ⟨sock, false⟩ ∈ s.loops then
      let rest := s.loops.erase ⟨sock, false⟩
      -- `while(!m_isStop)`
      some { s with loops := if s.isStop then rest else rest ++ [⟨sock, true⟩] }
    else none
  | .accept sock client =>
    -- on a closed socket `accept` returns null
    if ⟨sock, true⟩ ∈ s.loops ∧ (sock ∈ s.closed → client = none) then
      some { s with
        loops := s.loops.erase ⟨sock, true⟩ ++ [⟨sock, false⟩]
        handled := s.handled ++ client.toList.map fun client => (client, s.recvTimeout) }
    else none

/-! ## What is to hold -/

/-- An accept loop goes round over a closed socket, and nothing makes it return. -/
def Spinning (s : TcpServer) : Prop :=
  s.isStop = false ∧ ∃ l ∈ s.loops, l.sock ∈ s.closed

/-- **No accept loop ever spins**: not in a state of the run, nor in one that the scheduler leads to
from there, whatever closures it runs and whatever loops it resumes. -/
def NeverSpins (as : List ServerAct) : Prop :=
  ∀ bs cs s, bs <+: as → (∀ a ∈ cs, a.Scheduled) → exec step construct (bs ++ cs) = some s →
    ¬ s.Spinning

/-- An accept loop over the socket is there, or is to come. -/
def Live (s : TcpServer) (sock : ℕ) : Prop :=
  .startAccept sock ∈ s.queue ∨ ∃ l ∈ s.loops, l.sock = sock

/-- A call of `start` that finds the flag set finds no closure of `stop` waiting, unless there is no
socket that it would close, and no loop over a closed socket, neither there nor to come. -/
def Settled (s : TcpServer) (a : ServerAct) : Prop :=
  a = .start → s.isStop = true →
    (.stop ∈ s.queue → s.socks = []) ∧ ∀ sock, s.Live sock → sock ∉ s.closed

/-! ## Steps -/

section Steps

variable {s t : TcpServer} {a : ServerAct} {sock : ℕ}

/-- What a step of the scheduler does: it closes the sockets if it runs a closure of `stop`, and
otherwise neither opens nor closes any. -/
structure Advances (s t : TcpServer) : Prop where
  isStop_eq : t.isStop = s.isStop
  created_eq : t.created = s.created
  live : ∀ sock, t.Live sock → s.Live sock
  stop_mem : .stop ∈ t.queue → .stop ∈ s.queue
  socks_closed : (t.socks = s.socks ∧ t.closed = s.closed) ∨
    (.stop ∈ s.queue ∧ t.socks = [] ∧ t.closed = s.closed ++ s.socks)

/-- A step of the loops alone. -/
theorem Advances.of_loops {loops : List AcceptLoop} (handled : List (ℕ × ℕ))
    (hloops : ∀ l ∈ loops, ∃ l' ∈ s.loops, l'.sock = l.sock) :
    Advances s { s with loops := loops, handled := handled } := by
  refine ⟨rfl, rfl, ?_, id, .inl ⟨rfl, rfl⟩⟩
  rintro sock (hmem | ⟨l, hl, rfl⟩)
  · exact .inl hmem
  · exact .inr (hloops l hl)

/-- The loops, when one of them has gone on over its socket. -/
theorem exists_loop_of_move {l : AcceptLoop} {b : Bool} (h : ⟨sock, b⟩ ∈ s.loops)
    (hl : l ∈ s.loops.erase ⟨sock, b⟩ ++ [⟨sock, !b⟩]) : ∃ l' ∈ s.loops, l'.sock = l.sock := by
  rcases List.mem_append.mp hl with hl | hl
  · exact ⟨l, List.mem_of_mem_erase hl, rfl⟩
  · obtain rfl := List.mem_singleton.mp hl
    exact ⟨_, h, rfl⟩

theorem advances_runClosure {c : Closure} (hc : c ∈ s.queue) :
    Advances s ({ s with queue := s.queue.erase c }.runClosure c) := by
  cases c with
  | startAccept sock =>
    refine ⟨rfl, rfl, ?_, fun h => List.mem_of_mem_erase h, .inl ⟨rfl, rfl⟩⟩
    rintro sock' (hmem | ⟨l, hl, rfl⟩)
    · exact .inl (List.mem_of_mem_erase hmem)
    · rcases List.mem_append.mp hl with hl | hl
      · exact .inr ⟨l, hl, rfl⟩
      · obtain rfl := List.mem_singleton.mp hl
        exact .inl hc
  | stop =>
    refine ⟨rfl, rfl, ?_, fun h => List.mem_of_mem_erase h, .inr ⟨hc, rfl, rfl⟩⟩
    rintro sock' (hmem | hl)
    · exact .inl (List.mem_of_mem_erase hmem)
    · exact .inr hl

theorem advances_of_step (hsched : a.Scheduled) (h : step s a = some t) : Advances s t := by
  cases a with
  | bind oks => exact hsched.elim
  | start => exact hsched.elim
  | stop => exact hsched.elim
  | run c =>
    simp only [step] at h
    split_ifs at h with hc
    obtain rfl := Option.some.inj h
    exact advances_runClosure hc
  | test sock =>
    simp only [step] at h
    split_ifs at h with hl hstop
    · obtain rfl := Option.some.inj h
      apply Advances.of_loops
      exact fun l hmem => ⟨l, List.mem_of_mem_erase hmem, rfl⟩
    · obtain rfl := Option.some.inj h
      apply Advances.of_loops
      exact fun l hmem => exists_loop_of_move hl hmem
  | accept sock client =>
    simp only [step] at h
    split_ifs at h with hl
    obtain rfl := Option.some.inj h
    apply Advances.of_loops
    exact fun l hmem => exists_loop_of_move hl.1 hmem

/-- What `bind` does: sockets that are new come to `m_socks`, or it is cleared. -/
structure Binds (s t : TcpServer) : Prop where
  isStop_eq : t.isStop = s.isStop
  closed_eq : t.closed = s.closed
  queue_eq : t.queue = s.queue
  loops_eq : t.loops = s.loops
  created_le : s.created ≤ t.created
  mem_socks : ∀ sock ∈ t.socks, sock ∈ s.socks ∨ s.created ≤ sock ∧ sock < t.created

theorem binds_bindLoop : ∀ (oks : List Bool) (s : TcpServer), Binds s (bindLoop oks s) := by
  intro oks
  -- on the addresses: each of them takes the next number
  induction oks with
  | nil => exact fun s => ⟨rfl, rfl, rfl, rfl, Nat.le_refl _, fun sock h => .inl h⟩
  | cons ok oks ih =>
    intro s
    have h := ih { s with
      socks := if ok then s.socks ++ [s.created] else s.socks
      created := s.created + 1 }
    have hle : s.created + 1 ≤ (bindLoop (ok :: oks) s).created := h.created_le
    refine ⟨h.isStop_eq, h.closed_eq, h.queue_eq, h.loops_eq, by omega, ?_⟩
    intro sock hmem
    rcases h.mem_socks sock hmem with hold | ⟨hge, hlt⟩
    · cases ok with
      | true =>
        rcases List.mem_append.mp hold with hold | hnew
        · exact .inl hold
        · obtain rfl := List.mem_singleton.mp hnew
          exact .inr ⟨Nat.le_refl _, by omega⟩
      | false => exact .inl hold
    · exact .inr ⟨Nat.le_of_succ_le hge, hlt⟩

theorem binds_bind (s : TcpServer) (oks : List Bool) : Binds s (s.bind oks) := by
  have h := binds_bindLoop oks s
  unfold bind
  dsimp only
  split_ifs
  · exact h
  · refine ⟨h.isStop_eq, h.closed_eq, h.queue_eq, h.loops_eq, h.created_le, ?_⟩
    intro sock hmem
    cases hmem

/-- **What a step can do**: bind sockets, start or stop the server, or what the scheduler does. -/
theorem step_cases (h : step s a = some t) :
    Binds s t ∨ (a = .start ∧ t = s.start) ∨ t = s.stop ∨ Advances s t := by
  cases a with
  | bind oks =>
    obtain rfl := Option.some.inj h
    exact .inl (binds_bind s oks)
  | start => exact .inr (.inl ⟨rfl, (Option.some.inj h).symm⟩)
  | stop => exact .inr (.inr (.inl (Option.some.inj h).symm))
  | run c => exact .inr (.inr (.inr (advances_of_step (a := .run c) trivial h)))
  | test sock => exact .inr (.inr (.inr (advances_of_step (a := .test sock) trivial h)))
  | accept sock client =>
    exact .inr (.inr (.inr (advances_of_step (a := .accept sock client) trivial h)))

theorem start_of_running (h : s.isStop = false) : s.start = s := by
  simp [start, h]

theorem start_of_stopped (h : s.isStop = true) : s.start =
    { s with isStop := false, queue := s.queue ++ s.socks.map .startAccept } := by
  simp [start, h]

/-- Behind a `start` the loops to come are those over `m_socks`, too. -/
theorem live_start (h : s.isStop = true) :
    s.start.Live sock ↔ s.Live sock ∨ sock ∈ s.socks := by
  rw [start_of_stopped h]
  unfold Live
  simp only [List.mem_append, List.mem_map, Closure.startAccept.injEq, exists_eq_right]
  exact or_right_comm

theorem stop_mem_start (h : s.isStop = true) : .stop ∈ s.start.queue ↔ .stop ∈ s.queue := by
  rw [start_of_stopped h]
  simp

theorem live_stop : s.stop.Live sock ↔ s.Live sock := by
  simp [Live, stop]

end Steps

/-! ## Runs -/

section Runs

variable {s t : TcpServer} {a : ServerAct} {as : List ServerAct}

/-- What holds in every run: numbers are given to sockets once, and the sockets of the server are
open. -/
structure Inv (s : TcpServer) : Prop where
  socks_lt : ∀ sock ∈ s.socks, sock < s.created
  live_lt : ∀ sock, s.Live sock → sock < s.created
  closed_lt : ∀ sock ∈ s.closed, sock < s.created
  open_socks : ∀ sock ∈ s.socks, sock ∉ s.closed

/-- While the flag is cleared no loop is over a closed socket, nor over one that a closure of `stop`
is going to close. -/
structure Calm (s : TcpServer) : Prop where
  open_live : s.isStop = false → ∀ sock, s.Live sock → sock ∉ s.closed
  stop_live : s.isStop = false → .stop ∈ s.queue → ∀ sock, s.Live sock → sock ∉ s.socks

theorem inv_construct : Inv construct := by
  constructor <;> simp [construct, Live]

theorem calm_construct : Calm construct := by
  constructor <;> simp [construct]

theorem Calm.not_spinning (h : Calm s) : ¬ s.Spinning := by
  rintro ⟨hstop, l, hl, hclosed⟩
  exact h.open_live hstop l.sock (.inr ⟨l, hl, rfl⟩) hclosed

theorem Binds.live_iff (h : Binds s t) (sock : ℕ) : t.Live sock ↔ s.Live sock := by
  unfold Live
  rw [h.queue_eq, h.loops_eq]

theorem Inv.bind (hi : Inv s) (h : Binds s t) : Inv t := by
  have hle := h.created_le
  constructor
  · intro sock hmem
    rcases h.mem_socks sock hmem with hold | ⟨-, hlt⟩
    · exact Nat.lt_of_lt_of_le (hi.socks_lt sock hold) hle
    · exact hlt
  · intro sock hlive
    exact Nat.lt_of_lt_of_le (hi.live_lt sock ((h.live_iff sock).mp hlive)) hle
  · intro sock hmem
    rw [h.closed_eq] at hmem
    exact Nat.lt_of_lt_of_le (hi.closed_lt sock hmem) hle
  · intro sock hmem hclosed
    rw [h.closed_eq] at hclosed
    rcases h.mem_socks sock hmem with hold | ⟨hge, -⟩
    · exact hi.open_socks sock hold hclosed
    · exact Nat.not_lt.mpr hge (hi.closed_lt sock hclosed)

theorem Inv.advances (hi : Inv s) (h : Advances s t) : Inv t := by
  have hlive : ∀ sock, t.Live sock → sock < t.created := fun sock hl =>
    h.created_eq ▸ hi.live_lt sock (h.live sock hl)
  obtain ⟨hsocks, hclosed⟩ | ⟨-, hsocks, hclosed⟩ := h.socks_closed
  · constructor
    · rw [hsocks, h.created_eq]
      exact hi.socks_lt
    · exact hlive
    · rw [hclosed, h.created_eq]
      exact hi.closed_lt
    · rw [hsocks, hclosed]
      exact hi.open_socks
  · constructor
    · simp [hsocks]
    · exact hlive
    · rw [hclosed, h.created_eq]
      intro sock hmem
      rcases List.mem_append.mp hmem with hmem | hmem
      · exact hi.closed_lt sock hmem
      · exact hi.socks_lt sock hmem
    · simp [hsocks]

theorem Inv.start (hi : Inv s) : Inv s.start := by
  cases hstop : s.isStop with
  | false => rwa [start_of_running hstop]
  | true =>
    have heq := start_of_stopped hstop
    refine ⟨by rw [heq]; exact hi.socks_lt, ?_, by rw [heq]; exact hi.closed_lt,
      by rw [heq]; exact hi.open_socks⟩
    intro sock hlive
    have hcreated : s.start.created = s.created := by rw [heq]
    rw [hcreated]
    rcases (live_start hstop).mp hlive with hlive | hmem
    · exact hi.live_lt sock hlive
    · exact hi.socks_lt sock hmem

theorem Inv.stop (hi : Inv s) : Inv s.stop :=
  ⟨hi.socks_lt, fun sock hlive => hi.live_lt sock (live_stop.mp hlive), hi.closed_lt, hi.open_socks⟩

theorem Inv.step (hi : Inv s) (h : step s a = some t) : Inv t := by
  rcases step_cases h with hbind | ⟨-, rfl⟩ | rfl | hadvance
  · exact hi.bind hbind
  · exact hi.start
  · exact hi.stop
  · exact hi.advances hadvance

theorem Calm.bind (hc : Calm s) (hi : Inv s) (h : Binds s t) : Calm t := by
  constructor
  · intro hstop sock hlive
    rw [h.closed_eq]
    exact hc.open_live (h.isStop_eq ▸ hstop) sock ((h.live_iff sock).mp hlive)
  · intro hstop hmem sock hlive hsock
    have hold := (h.live_iff sock).mp hlive
    rcases h.mem_socks sock hsock with hsock | ⟨hge, -⟩
    · exact hc.stop_live (h.isStop_eq ▸ hstop) (h.queue_eq ▸ hmem) sock hold hsock
    · exact Nat.not_lt.mpr hge (hi.live_lt sock hold)

theorem Calm.advances (hc : Calm s) (h : Advances s t) : Calm t := by
  obtain ⟨hsocks, hclosed⟩ | ⟨hrun, hsocks, hclosed⟩ := h.socks_closed
  · constructor
    · intro hstop sock hlive
      rw [hclosed]
      exact hc.open_live (h.isStop_eq ▸ hstop) sock (h.live sock hlive)
    · intro hstop hmem sock hlive
      rw [hsocks]
      exact hc.stop_live (h.isStop_eq ▸ hstop) (h.stop_mem hmem) sock (h.live sock hlive)
  · constructor
    · intro hstop sock hlive hmem
      rw [hclosed] at hmem
      rw [h.isStop_eq] at hstop
      rcases List.mem_append.mp hmem with hmem | hmem
      · exact hc.open_live hstop sock (h.live sock hlive) hmem
      · exact hc.stop_live hstop hrun sock (h.live sock hlive) hmem
    · simp [hsocks]

theorem Calm.start (hc : Calm s) (hi : Inv s) (hs : Settled s .start) : Calm s.start := by
  cases hstop : s.isStop with
  | false => rwa [start_of_running hstop]
  | true =>
    obtain ⟨hempty, hopen⟩ := hs rfl hstop
    have heq := start_of_stopped hstop
    constructor
    · intro _ sock hlive
      have hclosed : s.start.closed = s.closed := by rw [heq]
      rw [hclosed]
      rcases (live_start hstop).mp hlive with hlive | hmem
      · exact hopen sock hlive
      · exact hi.open_socks sock hmem
    · intro _ hmem sock _
      have hsocks : s.start.socks = s.socks := by rw [heq]
      rw [hsocks, hempty ((stop_mem_start hstop).mp hmem)]
      exact List.not_mem_nil

theorem Calm.stop (s : TcpServer) : Calm s.stop := by
  constructor <;> simp [TcpServer.stop]

theorem Calm.step (hc : Calm s) (hi : Inv s) (hs : Settled s a) (h : step s a = some t) :
    Calm t := by
  rcases step_cases h with hbind | ⟨rfl, rfl⟩ | rfl | hadvance
  · exact hc.bind hi hbind
  · exact hc.start hi hs
  · exact Calm.stop s
  · exact hc.advances hadvance

/-! ## Where the scheduler can lead -/

theorem step_run {c : Closure} (hc : c ∈ s.queue) :
    step s (.run c) = some ({ s with queue := s.queue.erase c }.runClosure c) :=
  if_pos hc

/-- A loop to come over a closed socket spins as soon as it comes, when the flag is cleared. -/
theorem spins_of_live (hstop : s.isStop = false) {sock : ℕ} (hlive : s.Live sock)
    (hclosed : sock ∈ s.closed) :
    ∃ cs t, (∀ b ∈ cs, b.Scheduled) ∧ exec step s cs = some t ∧ t.Spinning := by
  rcases hlive with hmem | ⟨l, hl, rfl⟩
  · refine ⟨[.run (.startAccept sock)], _, ?_, exec_cons_eq_some.mpr ⟨_, step_run hmem, rfl⟩, ?_⟩
    · intro b hb
      obtain rfl := List.mem_singleton.mp hb
      trivial
    · exact ⟨hstop, ⟨sock, false⟩, List.mem_append_right _ List.mem_cons_self, hclosed⟩
  · exact ⟨[], s, by simp, rfl, hstop, l, hl, hclosed⟩

/-- A loop to come over a socket of the server spins, when the closure of `stop` is run behind its
start. -/
theorem spins_of_stop (hstop : s.isStop = false) {sock : ℕ} (hqueue : .startAccept sock ∈ s.queue)
    (hsock : sock ∈ s.socks) (hmem : .stop ∈ s.queue) :
    ∃ cs t, (∀ b ∈ cs, b.Scheduled) ∧ exec step s cs = some t ∧ t.Spinning := by
  set u := { s with queue := s.queue.erase (.startAccept sock) }.runClosure (.startAccept sock)
    with hu
  have hwaits : .stop ∈ u.queue := (List.mem_erase_of_ne (by simp)).mpr hmem
  refine ⟨[.run (.startAccept sock), .run .stop], _, ?_, exec_cons_eq_some.mpr
    ⟨u, step_run hqueue, exec_cons_eq_some.mpr ⟨_, step_run hwaits, rfl⟩⟩, ?_⟩
  · intro b hb
    rcases List.mem_cons.mp hb with rfl | hb
    · trivial
    · obtain rfl := List.mem_singleton.mp hb
      trivial
  · exact ⟨hstop, ⟨sock, false⟩, List.mem_append_right _ List.mem_cons_self,
      List.mem_append_right _ hsock⟩

/-- Behind a `start` that does not meet the condition, the scheduler can make a loop spin. -/
theorem spins_of_not_settled (hs : ¬ Settled s a) :
    a = .start ∧ ∃ cs t, (∀ b ∈ cs, b.Scheduled) ∧ exec step s.start cs = some t ∧ t.Spinning := by
  obtain ⟨ha, hs⟩ := Classical.not_imp.mp hs
  obtain ⟨hstop, hs⟩ := Classical.not_imp.mp hs
  refine ⟨ha, ?_⟩
  have heq := start_of_stopped hstop
  have hrunning : s.start.isStop = false := by rw [heq]
  by_cases hopen : ∀ sock, s.Live sock → sock ∉ s.closed
  · -- a closure of `stop` waits to close a socket that a loop is started over
    have hwaits : ¬ (.stop ∈ s.queue → s.socks = []) := fun h => hs ⟨h, hopen⟩
    obtain ⟨hmem, hne⟩ := Classical.not_imp.mp hwaits
    obtain ⟨sock, hsock⟩ := List.exists_mem_of_ne_nil _ hne
    have hsock' : sock ∈ s.start.socks := by
      rw [heq]
      exact hsock
    refine spins_of_stop hrunning ?_ hsock' ((stop_mem_start hstop).mpr hmem)
    rw [heq]
    exact List.mem_append_right _ (List.mem_map.mpr ⟨sock, hsock, rfl⟩)
  · -- a loop from before is over a closed socket
    push Not at hopen
    obtain ⟨sock, hlive, hclosed⟩ := hopen
    apply spins_of_live hrunning ((live_start hstop).mpr (.inl hlive))
    rw [heq]
    exact hclosed

theorem settled_of_scheduled (h : a.Scheduled) : Settled s a := by
  rintro rfl
  exact h.elim

/-- **No accept loop ever spins** exactly when every call of `start` that finds the flag set is
settled. -/
theorem neverSpins_iff (as : List ServerAct) :
    NeverSpins as ↔ Guarded step Settled construct as := by
  have hinv : ∀ {bs : List ServerAct} {s : TcpServer}, exec step construct bs = some s → Inv s :=
    fun hs => exec_invariant (fun _ _ _ hi ht => hi.step ht) inv_construct hs
  constructor
  · intro h
    rw [guarded_iff]
    rintro bs a ds s rfl hs
    by_contra hsettled
    obtain ⟨rfl, cs, t, hcs, ht, hspin⟩ := spins_of_not_settled hsettled
    -- the call of `start` is on the run, and the scheduler goes on from there
    apply h (bs ++ [.start]) cs t ⟨ds, by simp⟩ hcs _ hspin
    apply exec_append_eq_some.mpr
    exact ⟨s.start, exec_append_eq_some.mpr ⟨s, hs, rfl⟩, ht⟩
  · intro hg bs cs s hbs hcs hs
    have hguard : Guarded step Settled construct (bs ++ cs) := by
      apply guarded_append.mpr
      refine ⟨Guarded.beginning hg hbs, ?_⟩
      intro t _
      rw [guarded_iff]
      rintro cs₁ a cs₂ u rfl _
      exact settled_of_scheduled (hcs a (by simp))
    have hcalm : Inv s ∧ Calm s := exec_invariant_of_guarded (I := fun s => Inv s ∧ Calm s)
      (fun _ _ _ hi hg ht => ⟨hi.1.step ht, hi.2.step hi.1 hg ht⟩) ⟨inv_construct, calm_construct⟩
      hguard hs
    exact hcalm.2.not_spinning

/-- The server is stopped and started again before the closure of `stop` has been run: that closure
closes the socket of the new loop. -/
theorem not_neverSpins_of_restart :
    ¬ ∀ (as : List ServerAct) (s : TcpServer), exec step construct as = some s → ¬ s.Spinning := by
  intro h
  apply h [.bind [true], .start, .run (.startAccept 0), .stop, .start, .run .stop] _ rfl
  exact ⟨rfl, ⟨0, false⟩, by decide, by decide⟩

end Runs

end TcpServer

end Dag
