import Dag.ByteArray.Gather

/-!
# Fixed-size transfers through a socket

`Stream::writeFixSize` and `Stream::readFixSize` call `write` and `read` until a given number of
bytes has been transferred, or a call fails. A `SocketStream` makes these calls on byte arrays: it
gathers or provides `iovec`s from the position on, hands them to the socket, and moves the position
by what the socket has transferred, which may be less than it was offered.

Here one party writes `n` bytes of its byte array to a socket and another one reads `n` bytes into
its own. Between them is a first-in first-out channel of bytes. A party whose call has failed may
call again, for what is left of the `n` bytes.

## Main definitions

* `SocketStream.write`, `SocketStream.read`: one call on a byte array
* `FixSize`: a call of `writeFixSize` or `readFixSize` under way
* `Transfer`, `Transfer.step`: both parties and the channel

## Main results

* `SocketStream.write_eq`, `SocketStream.read_eq`: what one call does
* `Transfer.transferred_of_exec`: what has been transferred, in every state of every run
-/

namespace Dag

open Foundation

/-! ## One call on a socket -/

namespace SocketStream

/-- `iovs[0]`. -/
def front : List ByteArray.Iovec → Except Fault ByteArray.Iovec
  | [] => .error .overrun
  | v :: _ => .ok v

/-- `read(ba, length)`. The socket is not connected, or `recv` has stored the bytes `d` through the
`iovec`s it was given and returns `rt`. -/
def read (π : Platform) (length : ℕ) (recv : Option ℤ) (d : List UInt8) : ByteArray.Op ℤ := do
  match recv with
  | none => return -1
  | some rt =>
    let (_, iovs) ← ByteArray.getWriteBuffers π length
    let _ ← Prog.lift (front iovs)
    let s ← Prog.get
    let chain ← Prog.lift (ByteArray.scatter iovs d s.root)
    Prog.set { s with root := chain }
    if 0 < rt then
      ByteArray.setPosition (s.position + rt.toNat)
      return rt
    else return rt

/-- `write(ba, length)`, with the bytes that `send` was offered. The socket is not connected, or
`send` returns `rt`. -/
def write (length : ℕ) (send : Option ℤ) : ByteArray.Op (ℤ × List UInt8) := do
  match send with
  | none => return (-1, [])
  | some rt =>
    let (_, iovs) ← ByteArray.getReadBuffers length
    let _ ← Prog.lift (front iovs)
    let s ← Prog.get
    let offered ← Prog.lift (ByteArray.gather s.root iovs)
    if 0 < rt then
      ByteArray.setPosition (s.position + rt.toNat)
      return (rt, offered)
    else return (rt, offered)

section Calls

variable {s : ByteArray} {length : ℕ}

theorem front_eq {iovs : List ByteArray.Iovec} (h : iovs ≠ []) : ∃ v, front iovs = .ok v := by
  obtain ⟨v, vs, rfl⟩ := List.exists_cons_of_ne_nil h
  exact ⟨v, rfl⟩

/-- **A call of `write`** offers the bytes from the position on, and moves the position by what the
socket has taken. -/
theorem write_eq (h : s.WellFormed) (hpos : 0 < length) (hle : length ≤ s.getReadSize)
    {send : Option ℤ} (hsend : ∀ rt ∈ send, rt ≤ length) :
    ∃ len offered, write length send s = .ok (len, offered) (s.movedTo (s.position + len.toNat)) ∧
      (offered = slice s.stored s.position length ∨ len = -1 ∧ offered = []) ∧
      len = send.getD (-1) := by
  cases send with
  | none => exact ⟨-1, [], by simp [write, h.movedTo_self], Or.inr ⟨rfl, rfl⟩, rfl⟩
  | some rt =>
    have hrt := hsend rt rfl
    have hps := h.position_le
    have hsc := h.size_le
    unfold ByteArray.getReadSize at hle
    obtain ⟨iovs, hiovs, hcovers⟩ := ByteArray.getReadBuffers_eq h length
    rw [ByteArray.getReadSize, Nat.min_eq_left hle] at hiovs hcovers
    obtain ⟨v, hv⟩ := front_eq (hcovers.ne_nil (by omega))
    have hgather := hcovers.gather_eq h
    rw [← ByteArray.slice_stored (by omega)] at hgather
    refine ⟨rt, slice s.stored s.position length, ?_, Or.inl rfl, rfl⟩
    rw [write]
    dsimp only
    rw [Prog.bind_ok hiovs]
    simp only [hv, hgather, Prog.lift_bind, Prog.get_bind]
    split_ifs with hrtpos
    · rw [Prog.bind_ok (ByteArray.setPosition_eq h (by omega)),
        ByteArray.movedTo_max_of_le (by omega)]
      rfl
    · rw [show rt.toNat = 0 by omega, Nat.add_zero, h.movedTo_self]
      rfl

/-- **A call of `read`** receives the bytes that the socket has stored. -/
theorem read_eq (π : Platform) (h : s.WellFormed) (hpos : 0 < length) {recv : Option ℤ}
    {d : List UInt8} (hd : d.length = (recv.getD 0).toNat) (hle : d.length ≤ length) :
    ∃ t, read π length recv d s = .ok (recv.getD (-1)) t ∧ ByteArray.Receives s d t := by
  cases recv with
  | none =>
    obtain rfl : d = [] := List.length_eq_zero_iff.mp hd
    exact ⟨s, rfl, h, (splice_nil _ _).symm, rfl⟩
  | some rt =>
    obtain ⟨t, iovs, hrun, hcovers, hreceive⟩ := ByteArray.receive_eq π h length
    obtain ⟨chain, u, hscatter, hnil, hset, hu⟩ := hreceive d hle
    obtain ⟨v, hv⟩ := front_eq (hcovers.ne_nil (by omega))
    rw [Option.getD_some] at hd
    rw [read]
    dsimp only
    rw [Prog.bind_ok hrun]
    simp only [hv, hscatter, Prog.lift_bind, Prog.get_bind, Prog.set_bind]
    split_ifs with hrt
    · refine ⟨u, ?_, hu⟩
      rw [← hd, Prog.bind_ok hset]
      rfl
    · have hd₀ : d = [] := List.length_eq_zero_iff.mp (by omega)
      exact ⟨_, rfl, hnil hd₀⟩

end Calls

end SocketStream

/-! ## The loops -/

/-- A call of `readFixSize` or `writeFixSize` under way: its argument, its counter `left`, and what
it has returned, if it has. -/
structure FixSize where
  length : ℕ
  left : ℤ
  result : Option ℤ
  deriving DecidableEq, Repr

namespace FixSize

/-- The test of the loop: `length` is returned as an `int`. -/
def test (c : FixSize) : FixSize :=
  { c with result := if 0 < c.left then none else some (toInt32 c.length) }

/-- The call, up to the first test of the loop. -/
def call (length : ℕ) : FixSize := test ⟨length, toInt64 length, none⟩

/-- The body of the loop, and the next test, when `read` or `write` has returned `len`. -/
def next (c : FixSize) (len : ℤ) : FixSize :=
  if len ≤ 0 then { c with result := some len } else test { c with left := c.left - len }

end FixSize

/-- Two parties, a byte array each, and the channel from the one to the other. `broken` says that
an operation on a byte array has thrown or faulted. The bytes `sent` and `received` so far are
recorded, and no step but a new call of the parties reads how many they are. -/
structure Transfer where
  sender : ByteArray
  writing : FixSize
  channel : List UInt8
  receiver : ByteArray
  reading : FixSize
  sent : List UInt8
  received : List UInt8
  broken : Bool
  deriving DecidableEq

namespace Transfer

/-- `writeFixSize(s, n)` and `readFixSize(r, n)` are called. -/
def start (n : ℕ) (s r : ByteArray) : Transfer where
  sender := s
  writing := .call n
  channel := []
  receiver := r
  reading := .call n
  sent := []
  received := []
  broken := false

/-- The steps. -/
inductive Act
  /-- one pass of the loop of `writeFixSize`, with what `send` returns if it is called -/
  | write (send : Option ℤ)
  /-- one pass of the loop of `readFixSize`, with what `recv` returns if it is called -/
  | read (recv : Option ℤ)
  /-- `writeFixSize` has failed, and is called for what is left -/
  | writeAgain
  /-- `readFixSize` has failed, and is called for what is left -/
  | readAgain
  deriving DecidableEq, Repr

/-- One step. -/
def step (π : Platform) (n : ℕ) (t : Transfer) : Act → Option Transfer
  | .write send =>
    let len := send.getD 0
    -- `send` takes no more than it is offered
    if t.writing.result = none ∧ len ≤ t.writing.left ∧ len ≤ t.sender.getReadSize then
      match SocketStream.write t.writing.left.toNat send t.sender with
      | .ok (len, offered) sender => some { t with
          sender := sender
          writing := t.writing.next len
          channel := t.channel ++ offered.take len.toNat
          sent := t.sent ++ offered.take len.toNat }
      | _ => some { t with broken := true }
    else none
  | .read recv =>
    let len := recv.getD 0
    let d := t.channel.take len.toNat
    -- `recv` stores no more than it has room for, and than there is in the channel
    if t.reading.result = none ∧ len ≤ t.reading.left ∧ len ≤ t.channel.length then
      match SocketStream.read π t.reading.left.toNat recv d t.receiver with
      | .ok len receiver => some { t with
          receiver := receiver
          reading := t.reading.next len
          channel := t.channel.drop d.length
          received := t.received ++ d }
      | _ => some { t with broken := true }
    else none
  | .writeAgain =>
    if ∃ r ∈ t.writing.result, r ≤ 0 then
      some { t with writing := .call (n - t.sent.length) }
    else none
  | .readAgain =>
    if ∃ r ∈ t.reading.result, r ≤ 0 then
      some { t with reading := .call (n - t.received.length) }
    else none

end Transfer

/-! ## The counter of a loop -/

namespace FixSize

/-- The call is one for what is left of `n` bytes, of which `moved` have been transferred; it has
returned its argument when all have been, and a result `≤ 0` while there are some left. -/
structure Tracks (n moved : ℕ) (c : FixSize) : Prop where
  length_pos : 0 < c.length
  length_le : c.length ≤ n
  running : c.result = none → c.left = n - moved ∧ moved < n
  failed : ∀ r ∈ c.result, r ≤ 0 → moved < n
  done : ∀ r ∈ c.result, 0 < r → r = c.length ∧ moved = n

section Tracks

variable {n moved : ℕ} {c : FixSize}

theorem tracks_test (hn : n ≤ 2147483647) (hpos : 0 < c.length) (hle : c.length ≤ n)
    (hmoved : moved ≤ n) (hleft : c.left = n - moved) : Tracks n moved c.test := by
  have hint : toInt32 c.length = c.length := toInt32_of_le (Nat.le_trans hle hn)
  by_cases hlt : 0 < c.left
  · have hresult : c.test.result = none := by rw [test, if_pos hlt]
    refine ⟨hpos, hle, fun _ => ⟨hleft, by omega⟩, ?_, ?_⟩
    all_goals rw [hresult]; exact nofun
  · have hresult : c.test.result = some (c.length : ℤ) := by rw [test, if_neg hlt, hint]
    refine ⟨hpos, hle, fun hnone => ?_, fun r hr hneg => ?_, fun r hr _ => ?_⟩
    · rw [hresult] at hnone
      cases hnone
    · rw [hresult] at hr
      obtain rfl := Option.some.inj hr
      omega
    · rw [hresult] at hr
      obtain rfl := Option.some.inj hr
      exact ⟨rfl, by omega⟩

theorem tracks_call (hn : n ≤ 2147483647) (hmoved : moved < n) :
    Tracks n moved (call (n - moved)) := by
  have hint : toInt64 ((n - moved : ℕ) : ℤ) = (n - moved : ℕ) := toInt64_of_lt (by omega)
  rw [call, hint]
  refine tracks_test hn ?_ ?_ (Nat.le_of_lt hmoved) ?_
  · exact Nat.sub_pos_of_lt hmoved
  · exact Nat.sub_le _ _
  · exact Int.ofNat_sub (Nat.le_of_lt hmoved)

/-- One pass of the loop. -/
theorem Tracks.next (h : Tracks n moved c) (hn : n ≤ 2147483647) (hrun : c.result = none) {len : ℤ}
    (hlen : len ≤ c.left) : Tracks n (moved + len.toNat) (c.next len) := by
  obtain ⟨hleft, hlt⟩ := h.running hrun
  rw [FixSize.next]
  split_ifs with hneg
  · rw [Int.toNat_of_nonpos hneg, Nat.add_zero]
    refine ⟨h.length_pos, h.length_le, nofun, fun _ _ _ => hlt, fun r hr hpos => ?_⟩
    obtain rfl := Option.some.inj hr
    omega
  · exact tracks_test hn h.length_pos h.length_le (by omega)
      (show c.left - len = _ by omega)

end Tracks

end FixSize

/-! ## What has been transferred -/

namespace Transfer

/-- **The invariant** of a transfer of `n` bytes from `s₀` to `r₀`: the bytes sent are the first ones
from the sender's old position on, and its position is behind them; they are the bytes received and
those in the channel; and the receiver has received the former. -/
structure Inv (n : ℕ) (s₀ r₀ : ByteArray) (t : Transfer) : Prop where
  not_broken : t.broken = false
  sender_eq : t.sender = s₀.movedTo (s₀.position + t.sent.length)
  sent_le : t.sent.length ≤ n
  sent_eq : t.sent = slice s₀.stored s₀.position t.sent.length
  fifo : t.sent = t.received ++ t.channel
  receives : ByteArray.Receives r₀ t.received t.receiver
  writing : t.writing.Tracks n t.sent.length
  reading : t.reading.Tracks n t.received.length

section Step

variable {π : Platform} {n : ℕ} {s₀ r₀ : ByteArray} {t u : Transfer}

theorem inv_start (hs : s₀.WellFormed) (hr : r₀.WellFormed) (hpos : 1 ≤ n)
    (hn : n ≤ 2147483647) : Inv n s₀ r₀ (start n s₀ r₀) where
  not_broken := rfl
  sender_eq := by
    rw [ByteArray.movedTo]
    change s₀ = { s₀ with cur := ByteArray.nodeAt s₀.baseSize s₀.capacity s₀.position }
    rw [← hs.cur_eq]
  sent_le := Nat.zero_le _
  sent_eq := rfl
  fifo := rfl
  receives := ⟨hr, (splice_nil _ _).symm, rfl⟩
  writing := FixSize.tracks_call hn hpos
  reading := FixSize.tracks_call hn hpos

/-- One pass of the loop of the sender. -/
theorem Inv.write (h : Inv n s₀ r₀ t) (hs : s₀.WellFormed) (hn : n ≤ 2147483647)
    (hread : n ≤ s₀.getReadSize) {send : Option ℤ} (hu : t.step π n (.write send) = some u) :
    Inv n s₀ r₀ u := by
  simp only [step] at hu
  split_ifs at hu with hguard
  obtain ⟨hrun, hleft, hoffer⟩ := hguard
  obtain ⟨hcount, hlt⟩ := h.writing.running hrun
  have hps := hs.position_le
  unfold ByteArray.getReadSize at hread
  have hwf : t.sender.WellFormed := by
    rw [h.sender_eq]
    exact hs.movedTo (by omega)
  have hsize : t.sender.getReadSize = s₀.size - (s₀.position + t.sent.length) := by
    rw [h.sender_eq]
    rfl
  have hpos : 0 < t.writing.left.toNat := by omega
  have hsend : ∀ rt ∈ send, rt ≤ t.writing.left.toNat := by
    rintro rt rfl
    rw [Option.getD_some] at hleft
    omega
  obtain ⟨len, offered, hcall, hoffered, hlen⟩ :=
    SocketStream.write_eq hwf hpos (by omega) hsend
  rw [hcall] at hu
  obtain rfl := Option.some.inj hu
  have hle : len ≤ t.writing.left := by
    cases send with
    | none =>
      rw [hlen, Option.getD_none]
      omega
    | some rt =>
      rw [hlen]
      exact hleft
  have hlength := hs.length_stored
  have htaken : offered.take len.toNat =
      slice s₀.stored (s₀.position + t.sent.length) len.toNat := by
    rcases hoffered with rfl | ⟨rfl, rfl⟩
    · rw [take_slice (by omega), h.sender_eq]
      rfl
    · rfl
  have hsent : (offered.take len.toNat).length = len.toNat := by
    rw [htaken, length_slice (by omega)]
  refine ⟨h.not_broken, ?_, ?_, ?_, ?_, h.receives, ?_, h.reading⟩
  · rw [List.length_append, hsent, h.sender_eq]
    change s₀.movedTo (s₀.position + t.sent.length + len.toNat) = _
    rw [Nat.add_assoc]
  · rw [List.length_append, hsent]
    omega
  · rw [List.length_append, hsent, slice_add, ← h.sent_eq, htaken]
  · rw [h.fifo, List.append_assoc]
  · rw [List.length_append, hsent]
    exact h.writing.next hn hrun hle

/-- One pass of the loop of the receiver. -/
theorem Inv.read (h : Inv n s₀ r₀ t) (hr : r₀.WellFormed) (hn : n ≤ 2147483647)
    {recv : Option ℤ} (hu : t.step π n (.read recv) = some u) : Inv n s₀ r₀ u := by
  simp only [step] at hu
  split_ifs at hu with hguard
  obtain ⟨hrun, hleft, hthere⟩ := hguard
  obtain ⟨hcount, hlt⟩ := h.reading.running hrun
  set d := t.channel.take (recv.getD 0).toNat with hd
  have hlength : d.length = (recv.getD 0).toNat := by
    rw [hd, List.length_take]
    omega
  have hpos : 0 < t.reading.left.toNat := by omega
  obtain ⟨v, hcall, hv⟩ :=
    SocketStream.read_eq π h.receives.wellFormed hpos hlength (by omega)
  rw [hcall] at hu
  obtain rfl := Option.some.inj hu
  have hlen : (recv.getD (-1)).toNat = d.length ∧ recv.getD (-1) ≤ t.reading.left := by
    rw [hlength]
    cases recv with
    | none =>
      rw [Option.getD_none, Option.getD_none]
      omega
    | some rt => exact ⟨rfl, hleft⟩
  refine ⟨h.not_broken, h.sender_eq, h.sent_le, h.sent_eq, ?_, h.receives.trans hr hv, h.writing, ?_⟩
  · rw [h.fifo, List.append_assoc, hlength]
    congr 1
    exact (List.take_append_drop _ _).symm
  · rw [List.length_append, ← hlen.1]
    exact h.reading.next hn hrun hlen.2

/-- The step lemma. -/
theorem Inv.step (h : Inv n s₀ r₀ t) (hs : s₀.WellFormed) (hr : r₀.WellFormed)
    (hn : n ≤ 2147483647) (hread : n ≤ s₀.getReadSize) {a : Act} (hu : t.step π n a = some u) :
    Inv n s₀ r₀ u := by
  cases a with
  | write send => exact h.write hs hn hread hu
  | read recv => exact h.read hr hn hu
  | writeAgain =>
    simp only [Transfer.step] at hu
    split_ifs at hu with hfailed
    obtain rfl := Option.some.inj hu
    obtain ⟨r, hr', hneg⟩ := hfailed
    exact ⟨h.not_broken, h.sender_eq, h.sent_le, h.sent_eq, h.fifo, h.receives,
      FixSize.tracks_call hn (h.writing.failed r hr' hneg), h.reading⟩
  | readAgain =>
    simp only [Transfer.step] at hu
    split_ifs at hu with hfailed
    obtain rfl := Option.some.inj hu
    obtain ⟨r, hr', hneg⟩ := hfailed
    exact ⟨h.not_broken, h.sender_eq, h.sent_le, h.sent_eq, h.fifo, h.receives, h.writing,
      FixSize.tracks_call hn (h.reading.failed r hr' hneg)⟩

end Step

/-! ## Runs -/

/-- **End-to-end transfer.** In every state of every run, of whatever results of the socket, the
sender's position has advanced by the number of bytes sent and its bytes are as they were, the
receiver's position has advanced by the number of bytes received and they stand from its old
position on, the bytes sent are the first of the `n` bytes from the sender's old position on, and
the bytes received are the first of those. A call that returns a positive result returns its
argument, and all `n` bytes have then been transferred; when both have returned one, the `n` bytes
from the receiver's old position on are those from the sender's. -/
theorem transferred_of_exec (π : Platform) {n : ℕ} (hpos : 1 ≤ n) (hn : n ≤ 2147483647)
    {s₀ r₀ : ByteArray} (hs : s₀.WellFormed) (hr : r₀.WellFormed) (hread : n ≤ s₀.getReadSize)
    {as : List Act} {t : Transfer} (ht : exec (step π n) (start n s₀ r₀) as = some t) :
    t.broken = false ∧
    (t.sender.position = s₀.position + t.sent.length ∧ t.sender.stored = s₀.stored ∧
      t.sent <+: slice s₀.stored s₀.position n) ∧
    (t.receiver.position = r₀.position + t.received.length ∧
      slice t.receiver.stored r₀.position t.received.length = t.received ∧
      t.received <+: t.sent) ∧
    (∀ r ∈ t.writing.result, 0 < r → r = t.writing.length ∧ t.sent.length = n) ∧
    (∀ r ∈ t.reading.result, 0 < r → r = t.reading.length ∧ t.received.length = n) ∧
    ((∃ r ∈ t.writing.result, 0 < r) → (∃ r ∈ t.reading.result, 0 < r) →
      slice t.receiver.stored r₀.position n = slice s₀.stored s₀.position n ∧
      t.sender.position = s₀.position + n ∧ t.receiver.position = r₀.position + n) := by
  have h : Inv n s₀ r₀ t :=
    exec_invariant (fun _ _ _ h hu => h.step hs hr hn hread hu) (inv_start hs hr hpos hn) ht
  have hposition : t.sender.position = s₀.position + t.sent.length := by
    rw [h.sender_eq]
    rfl
  have hstored : t.sender.stored = s₀.stored := by
    rw [h.sender_eq]
    exact ByteArray.stored_movedTo ..
  have hprefix : t.sent <+: slice s₀.stored s₀.position n := by
    rw [h.sent_eq, ← take_slice h.sent_le]
    exact List.take_prefix ..
  have hslice := h.receives.slice_eq hr
  refine ⟨h.not_broken, ⟨hposition, hstored, hprefix⟩,
    ⟨h.receives.position_eq, hslice, h.fifo ▸ List.prefix_append ..⟩, h.writing.done,
    h.reading.done, ?_⟩
  rintro ⟨r, hr₁, hr₂⟩ ⟨q, hq₁, hq₂⟩
  have hsent := (h.writing.done r hr₁ hr₂).2
  have hreceived := (h.reading.done q hq₁ hq₂).2
  have hall : t.received = t.sent := by
    have hchannel := congrArg List.length h.fifo
    rw [List.length_append] at hchannel
    have hnil : t.channel = [] := List.length_eq_zero_iff.mp (by omega)
    rw [h.fifo, hnil, List.append_nil]
  have hsent_eq := h.sent_eq
  rw [hsent] at hposition hsent_eq
  rw [hreceived] at hslice
  exact ⟨hslice.trans (hall.trans hsent_eq), hposition, hreceived ▸ h.receives.position_eq⟩

/-- Three bytes from blocks of two into blocks of three, by a send of two and one of one, with a
receive that fails between those that take the bytes. -/
theorem transferred_of_exec_three_bytes :
    ∃ s₀ r₀ t,
      ByteArray.write ⟨.little, fun _ _ => 0⟩ [7, 8, 9]
        (ByteArray.construct ⟨.little, fun _ _ => 0⟩ 2) = .ok () s₀ ∧
      r₀ = ByteArray.construct ⟨.little, fun _ _ => 0⟩ 3 ∧
      exec (step ⟨.little, fun _ _ => 0⟩ 3) (start 3 (s₀.movedTo 0) r₀)
        [.write (some 2), .read (some 1), .read (some (-1)), .write (some 1), .readAgain,
          .read (some 2)] = some t ∧
      slice t.receiver.stored 0 3 = [7, 8, 9] := by
  obtain ⟨s₀, hs₀⟩ : ∃ s₀, ByteArray.write ⟨.little, fun _ _ => 0⟩ [7, 8, 9]
      (ByteArray.construct ⟨.little, fun _ _ => 0⟩ 2) = .ok () s₀ := ⟨_, rfl⟩
  have hwf₀ : s₀.WellFormed := by
    obtain ⟨s, hs, hw⟩ := ByteArray.write_eq ⟨.little, fun _ _ => 0⟩
      (ByteArray.wellFormed_construct _ (by decide : 1 ≤ 2)) [7, 8, 9]
    rw [hs] at hs₀
    obtain ⟨-, rfl⟩ := Outcome.ok.inj hs₀
    exact hw.wellFormed
  obtain ⟨t, ht⟩ : ∃ t, exec (step ⟨.little, fun _ _ => 0⟩ 3) (start 3 (s₀.movedTo 0)
      (ByteArray.construct ⟨.little, fun _ _ => 0⟩ 3))
      [.write (some 2), .read (some 1), .read (some (-1)), .write (some 1), .readAgain,
        .read (some 2)] = some t := by
    obtain ⟨-, rfl⟩ := Outcome.ok.inj hs₀
    exact ⟨_, rfl⟩
  refine ⟨s₀, _, t, hs₀, rfl, ht, ?_⟩
  have hmain := transferred_of_exec ⟨.little, fun _ _ => 0⟩ (by decide) (by decide)
    (hwf₀.movedTo (Nat.zero_le _)) (ByteArray.wellFormed_construct _ (by decide)) ?_ ht
  · obtain ⟨-, rfl⟩ := Outcome.ok.inj hs₀
    obtain rfl := Option.some.inj ht
    exact (hmain.2.2.2.2.2 ⟨3, by decide, by decide⟩ ⟨2, by decide, by decide⟩).1
  · obtain ⟨-, rfl⟩ := Outcome.ok.inj hs₀
    decide

end Transfer

end Dag
