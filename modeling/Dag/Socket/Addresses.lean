import Dag.Foundation.Run

/-!
# The addresses of a socket

A `Socket` asks the kernel for the addresses of its two ends when they are first asked for, and
keeps them: `connect` asks for both of them once it has succeeded. `close` closes the descriptor and
leaves the addresses as they are, and a socket that has been closed can be connected again.

The kernel knows the ends of the socket that the descriptor is for. `getsockname` reports the local
end, which an unconnected socket has too, and `getpeername` the other one, if the socket is
connected. What `socket` and `connect` do in the kernel is in the labels of the steps.

## Main definitions

* `KernelSocket`, `Socket`: the ends as the kernel knows them, and the socket with its addresses
* `Socket.step`: the steps
* `Socket.Current`: the addresses of a connected socket are those of its connection
* `Socket.Unseen`: the condition that a connection finds no other addresses

## Main results

* `Socket.current_iff`: the addresses are current in every state exactly when all the steps meet the
  condition
-/

namespace Dag

open Foundation

/-- A socket in the kernel: the other end, if it is connected, and the local one. -/
structure KernelSocket (α : Type) where
  peer : Option α
  name : α
  deriving DecidableEq, Repr

/-- What the two functions return: what the kernel has reported, or `UnknownAddress(family)`. -/
inductive Address (α : Type)
  | reported (a : α)
  | unknown (family : ℕ)
  deriving DecidableEq, Repr

/-- A `Socket`; `sock` is what the descriptor is for, `none` if that is -1. -/
structure Socket (α : Type) where
  sock : Option (KernelSocket α)
  family : ℕ
  isConnected : Bool
  localAddress : Option α
  remoteAddress : Option α
  deriving DecidableEq, Repr

/-- What is done with a socket. In `connect`, `created` is the local end of the socket that `socket`
makes, if it makes one, and `established` are the two ends of the connection, if there is one. -/
inductive SocketAct (α : Type)
  | connect (family : ℕ) (created : Option α) (established : Option (α × α))
  | close
  | getRemoteAddress
  | getLocalAddress
  deriving DecidableEq, Repr

namespace Socket

variable {α : Type}

/-- `Socket(family, type, protocol)`. -/
def construct (family : ℕ) : Socket α := ⟨none, family, false, none, none⟩

/-- `getRemoteAddress()`. -/
def getRemoteAddress (s : Socket α) : Address α × Socket α :=
  match s.remoteAddress with
  | some a => (.reported a, s)
  | none =>
    match s.sock.bind KernelSocket.peer with
    | none => (.unknown s.family, s)
    | some a => (.reported a, { s with remoteAddress := some a })

/-- `getLocalAddress()`. -/
def getLocalAddress (s : Socket α) : Address α × Socket α :=
  match s.localAddress with
  | some a => (.reported a, s)
  | none =>
    match s.sock.map KernelSocket.name with
    | none => (.unknown s.family, s)
    | some a => (.reported a, { s with localAddress := some a })

/-- `close()`. -/
def close (s : Socket α) : Bool × Socket α :=
  if !s.isConnected && s.sock.isNone then (true, s)
  else (false, { s with isConnected := false, sock := none })

/-- `newSock()`, when the socket is not valid. -/
def renew (s : Socket α) (created : Option α) : Socket α :=
  if s.sock.isNone then { s with sock := created.map fun name => ⟨none, name⟩ } else s

/-- `connect(addr, timeout_ms)`, for an address of this family. -/
def connect (s : Socket α) (family : ℕ) (created : Option α) (established : Option (α × α)) :
    Bool × Socket α :=
  let s := s.renew created
  if s.sock.isNone then (false, s)
  else if family ≠ s.family then (false, s)
  else
    match established with
    | none => (false, s.close.2)
    | some (peer, name) =>
      let s := { s with sock := some ⟨some peer, name⟩, isConnected := true }
      (true, s.getRemoteAddress.2.getLocalAddress.2)

/-- What a call makes of the socket. -/
def act (s : Socket α) : SocketAct α → Socket α
  | .connect family created established => (s.connect family created established).2
  | .close => s.close.2
  | .getRemoteAddress => s.getRemoteAddress.2
  | .getLocalAddress => s.getLocalAddress.2

/-- One step. -/
def step (s : Socket α) (a : SocketAct α) : Option (Socket α) := some (s.act a)

/-- **The addresses of a connected socket** are those of its connection. -/
def Current (s : Socket α) : Prop :=
  ∀ peer name, s.sock = some ⟨some peer, name⟩ → s.isConnected = true →
    s.getRemoteAddress.1 = .reported peer ∧ s.getLocalAddress.1 = .reported name

/-- A connection that is established finds no addresses, or its own. -/
def Unseen (s : Socket α) : SocketAct α → Prop
  | .connect family created (some (peer, name)) =>
    (s.renew created).sock ≠ none → family = s.family →
      (∀ a, s.remoteAddress = some a → a = peer) ∧ ∀ a, s.localAddress = some a → a = name
  | _ => True

/-! ## One step -/

variable {s t : Socket α} {peer name : α}

@[simp] theorem renew_localAddress (s : Socket α) (created : Option α) :
    (s.renew created).localAddress = s.localAddress := by
  unfold renew
  split_ifs <;> rfl

@[simp] theorem renew_remoteAddress (s : Socket α) (created : Option α) :
    (s.renew created).remoteAddress = s.remoteAddress := by
  unfold renew
  split_ifs <;> rfl

@[simp] theorem renew_family (s : Socket α) (created : Option α) :
    (s.renew created).family = s.family := by
  unfold renew
  split_ifs <;> rfl

/-- A connection that is established keeps the addresses that it finds. -/
theorem connect_established {family : ℕ} {created : Option α}
    (hvalid : (s.renew created).sock ≠ none) (hfamily : family = s.family) :
    (s.connect family created (some (peer, name))).2 =
      ⟨some ⟨some peer, name⟩, s.family, true, some (s.localAddress.getD name),
        some (s.remoteAddress.getD peer)⟩ := by
  have hsome : (s.renew created).sock.isNone = false := by
    rw [Option.isNone_eq_false_iff, Option.isSome_iff_ne_none]
    exact hvalid
  simp only [connect, hsome, hfamily, renew_family]
  cases hremote : s.remoteAddress <;> cases hlocal : s.localAddress <;>
    simp [getRemoteAddress, getLocalAddress, hremote, hlocal]

/-- **The invariant**: a connected socket has kept the addresses of its connection. -/
def Kept (s : Socket α) : Prop :=
  ∀ peer name, s.sock = some ⟨some peer, name⟩ →
    s.remoteAddress = some peer ∧ s.localAddress = some name

theorem Kept.current (h : s.Kept) : s.Current := by
  intro peer name hsock _
  obtain ⟨hremote, hlocal⟩ := h peer name hsock
  simp [getRemoteAddress, getLocalAddress, hremote, hlocal]

theorem kept_construct (family : ℕ) : (construct family : Socket α).Kept := nofun

theorem Kept.getRemoteAddress (h : s.Kept) : s.getRemoteAddress.2.Kept := by
  unfold Socket.getRemoteAddress
  split
  · exact h
  split
  · exact h
  · rename_i hnone _ a ha
    intro peer name hsock
    rw [(h peer name hsock).1] at hnone
    cases hnone

theorem Kept.getLocalAddress (h : s.Kept) : s.getLocalAddress.2.Kept := by
  unfold Socket.getLocalAddress
  split
  · exact h
  split
  · exact h
  · rename_i hnone _ a ha
    intro peer name hsock
    rw [(h peer name hsock).2] at hnone
    cases hnone

theorem Kept.close (h : s.Kept) : s.close.2.Kept := by
  unfold Socket.close
  split_ifs
  · exact h
  · exact nofun

theorem Kept.renew (h : s.Kept) (created : Option α) : (s.renew created).Kept := by
  unfold Socket.renew
  split_ifs
  · intro peer name hsock
    obtain ⟨a, -, ha⟩ := Option.map_eq_some_iff.mp hsock
    cases ha
  · exact h

theorem Kept.connect (h : s.Kept) {family : ℕ} {created : Option α} {established : Option (α × α)}
    (hunseen : s.Unseen (.connect family created established)) :
    (s.connect family created established).2.Kept := by
  by_cases hvalid : (s.renew created).sock = none
  · simpa [Socket.connect, hvalid] using h.renew created
  by_cases hfamily : family = s.family
  · cases established with
    | none => simpa [Socket.connect, hvalid, hfamily] using (h.renew created).close
    | some ends =>
      obtain ⟨peer, name⟩ := ends
      obtain ⟨hremote, hlocal⟩ := hunseen hvalid hfamily
      rw [connect_established hvalid hfamily]
      rintro _ _ ⟨⟩
      constructor
      · cases hs : s.remoteAddress with
        | none => rfl
        | some a => rw [hremote a hs, Option.getD_some]
      · cases hs : s.localAddress with
        | none => rfl
        | some a => rw [hlocal a hs, Option.getD_some]
  · simpa [Socket.connect, hvalid, hfamily] using h.renew created

/-- **One step** that meets the condition keeps the invariant. -/
theorem Kept.step (h : s.Kept) {a : SocketAct α} (hunseen : s.Unseen a)
    (ht : s.step a = some t) : t.Kept := by
  obtain rfl := Option.some.inj ht
  cases a with
  | connect family created established => exact h.connect hunseen
  | close => exact h.close
  | getRemoteAddress => exact h.getRemoteAddress
  | getLocalAddress => exact h.getLocalAddress

/-- A step that does not meet the condition leads to a state in which an address is that of an
earlier connection. -/
theorem unseen_of_current {a : SocketAct α} (ht : s.step a = some t) (h : t.Current) :
    s.Unseen a := by
  obtain rfl := Option.some.inj ht
  cases a with
  | connect family created established =>
    cases established with
    | none => trivial
    | some ends =>
      obtain ⟨peer, name⟩ := ends
      intro hvalid hfamily
      rw [act, connect_established hvalid hfamily] at h
      obtain ⟨hremote, hlocal⟩ := h peer name rfl rfl
      simp only [getRemoteAddress, getLocalAddress, Address.reported.injEq] at hremote hlocal
      constructor
      · intro a ha
        rwa [ha, Option.getD_some] at hremote
      · intro a ha
        rwa [ha, Option.getD_some] at hlocal
  | close => trivial
  | getRemoteAddress => trivial
  | getLocalAddress => trivial

/-- **The addresses follow the connection** exactly when no connection is established while an
address of another one, or of the socket before it was connected, is kept: in every state, a socket
that is connected returns the addresses of the connection that it has. -/
theorem current_iff (family : ℕ) (acts : List (SocketAct α)) :
    Throughout step Current (construct family) acts ↔
      Guarded step Unseen (construct family) acts := by
  constructor
  · intro h
    rw [guarded_iff]
    rintro bs a cs t rfl ht
    have hnext : exec step (construct family) (bs ++ [a]) = some (t.act a) :=
      exec_append_eq_some.mpr ⟨t, ht, rfl⟩
    exact unseen_of_current rfl (h _ _ ⟨cs, by simp⟩ hnext)
  · intro hg bs t hbs ht
    have hkept := throughout_of_guarded (I := Kept) (fun _ _ _ h hg ht => h.step hg ht)
      (kept_construct family) hg
    exact (hkept bs t hbs ht).current

/-- A socket is connected, closed, and connected to another address. -/
theorem address_of_closed : ¬ ∀ (family : ℕ) (acts : List (SocketAct ℕ)),
    Throughout step Current (construct family) acts := by
  intro h
  have hcurrent := h 2 [.connect 2 (some 0) (some (10, 1)), .close,
    .connect 2 (some 0) (some (20, 2))] _ _ (List.prefix_refl _) rfl
  have hremote := (hcurrent 20 2 rfl rfl).1
  cases hremote

end Socket

end Dag
