import Dag.Socket.Descriptors

/-!
# The contexts of descriptors that are closed

`accept` has a context made for its descriptor whether the hook of the thread is enabled or not, and
`close` has the context removed only when it is. A context that is left behind is found by the next
`socket` or `accept` to which the kernel gives the number: no new one is made then, and so the kernel
is not told to make the descriptor non-blocking, though the hooked functions rely on that.

## Main definitions

* `Sockets.Fresh`: the contexts are those of open descriptors, which are non-blocking
* `Sockets.Hooked`: a thread without the hook closes no descriptor that has a context

## Main results

* `fresh_iff`: the contexts are fresh in all states of a run exactly when every step meets the
  condition
* `blocking_of_close`: a `close` without the hook, and the next descriptor of that number
-/

namespace Dag

open Foundation

/-- The descriptor that a call is about to close. -/
def Place.shutting : Place → Option (BitVec 32)
  | .close_f _ fd _ => some fd
  | _ => none

theorem Place.eq_of_shutting {p : Place} {fd : BitVec 32} (h : p.shutting = some fd) :
    ∃ o d, p = .close_f o fd d := by
  cases p with
  | close_f o e d =>
    obtain rfl := Option.some.inj h
    exact ⟨o, d, rfl⟩
  | _ => cases h

namespace Sockets

variable {n : ℕ} {s t : Sockets n} {i j : Fin n} {o : ℕ} {fd : BitVec 32} {p : Place}

/-- **The contexts are fresh**: each of them is that of an open descriptor, and the kernel does not
block in a call for it. -/
def Fresh (s : Sockets n) : Prop :=
  ∀ fd, s.fds.ctx fd ≠ none → s.isOpen fd = true ∧ s.nonblock fd = true

/-- **A descriptor that has a context is closed with the hook enabled.** -/
def Hooked (s : Sockets n) : SocketsAct n → Prop
  | .run i _ =>
    ∀ fd, (s.place i).shutting = some fd → s.hooked i = false → s.fds.ctx fd = none
  | _ => True

instance (s : Sockets n) : DecidablePred s.Hooked
  | .run i _ =>
    inferInstanceAs (Decidable
      (∀ fd ∈ (s.place i).shutting, s.hooked i = false → s.fds.ctx fd = none))
  | .set_hook_enable _ _ | .call _ _ => inferInstanceAs (Decidable True)

/-- What carries `Fresh` along a run: a thread with the hook has had the context removed before it
closes the descriptor. -/
structure Clean (s : Sockets n) : Prop where
  fresh : s.Fresh
  removed : ∀ i o fd d, s.place i = .close_f o fd d → s.hooked i = true → s.fds.ctx fd = none

/-! ## One step -/

/-- A step that changes neither the descriptors nor the contexts. -/
theorem Clean.keep (hc : s.Clean) (hplace : t.place = Function.update s.place i p)
    (hctx : ∀ fd, t.fds.ctx fd = s.fds.ctx fd) (hopen : t.isOpen = s.isOpen)
    (hnonblock : t.nonblock = s.nonblock) (hhooked : t.hooked = s.hooked)
    (hp : ∀ o fd d, p = .close_f o fd d → s.hooked i = true → s.fds.ctx fd = none) : t.Clean := by
  constructor
  · intro fd h
    rw [hctx] at h
    rw [hopen, hnonblock]
    exact hc.fresh fd h
  · intro j o fd d hj hhook
    rw [hplace, Function.update_apply] at hj
    rw [hhooked] at hhook
    rw [hctx]
    split_ifs at hj with hji
    · rw [hji] at hhook
      exact hp o fd d hj hhook
    · exact hc.removed j o fd d hj hhook

/-- The kernel opens a descriptor, of which there is no context. -/
theorem Clean.opening (hc : s.Clean) {r : BitVec 32} (hfree : s.Free r)
    (hp : ∀ o fd d, p ≠ .close_f o fd d) : ((s.opening r).goTo i p).Clean := by
  have hnone : s.fds.ctx r = none := by
    by_contra h
    exact absurd ((hc.fresh r h).1.symm.trans hfree.2) Bool.noConfusion
  constructor
  · intro fd h
    have hne : fd ≠ r := by
      rintro rfl
      exact h hnone
    have hfresh := hc.fresh fd h
    show Function.update s.isOpen r true fd = true ∧ Function.update s.nonblock r false fd = true
    rw [Function.update_of_ne hne, Function.update_of_ne hne]
    exact hfresh
  · intro j o fd d hj
    have hj : Function.update s.place i p j = .close_f o fd d := hj
    rw [Function.update_apply] at hj
    split_ifs at hj
    · exact absurd hj (hp o fd d)
    · exact hc.removed j o fd d hj

/-- A context is made for a descriptor that a call holds. -/
theorem Clean.create (hc : s.Clean) (hi : s.Inv) {g : GetFor} {fds : FdManager}
    (hp : s.place i = .create fd g) (hw : s.fds.step (.write i) = some fds)
    (hplace : t.place = Function.update s.place i (.returned fd g)) (hfds : t.fds = fds)
    (hopen : t.isOpen = s.isOpen) (hhooked : t.hooked = s.hooked)
    (hnonblock : t.nonblock = Function.update s.nonblock fd (s.isOpen fd || s.nonblock fd)) :
    t.Clean := by
  have hflight : s.Holds (.thread i) fd := by rw [Holds, Holding, hp]; rfl
  have hisOpen : s.isOpen fd = true := (hi.books.exclusive.used_iff fd).mpr ⟨_, hflight⟩
  obtain ⟨hcreating, -⟩ := hi.tables.creating i fd (by rw [hp]; rfl)
  have hctx : ∀ e, e ≠ fd → t.fds.ctx e = s.fds.ctx e := by
    intro e he
    simp only [FdManager.step, hcreating] at hw
    obtain ⟨u, hu, rfl⟩ := Option.map_eq_some_iff.mp hw
    rw [hfds]
    exact ((FdManager.creates_of_writePart hu).ctx_eq e).trans (if_neg he)
  constructor
  · intro e h
    rw [hopen, hnonblock, Function.update_apply]
    by_cases he : e = fd
    · rw [he, if_pos rfl, hisOpen]
      exact ⟨rfl, rfl⟩
    · rw [if_neg he]
      rw [hctx e he] at h
      exact hc.fresh e h
  · intro j o e d hj hhook
    rw [hplace, Function.update_apply] at hj
    rw [hhooked] at hhook
    split_ifs at hj
    have hne : e ≠ fd := by
      rintro rfl
      cases hi.books.exclusive.unique _ _ e hflight (hi.books.closing hj)
    rw [hctx e hne]
    exact hc.removed j o e d hj hhook

/-- The hooked `close` removes the context. -/
theorem Clean.del (hc : s.Clean) {d : Bool} (hfds : t.fds = s.fds.del fd)
    (hplace : t.place = Function.update s.place i (.close_f o fd d)) (hopen : t.isOpen = s.isOpen)
    (hnonblock : t.nonblock = s.nonblock) (hhooked : t.hooked = s.hooked) : t.Clean := by
  have hctx : ∀ e, t.fds.ctx e = if e = fd then none else s.fds.ctx e := by
    rw [hfds]
    exact FdManager.ctx_del s.fds fd
  constructor
  · intro e h
    rw [hctx] at h
    rw [hopen, hnonblock]
    split_ifs at h
    · exact absurd rfl h
    · exact hc.fresh e h
  · intro j o' e d' hj hhook
    rw [hplace, Function.update_apply] at hj
    rw [hhooked] at hhook
    rw [hctx]
    split_ifs with he
    · rfl
    · split_ifs at hj
      · injection hj with _ hfd _
        exact absurd hfd.symm he
      · exact hc.removed j o' e d' hj hhook

/-- A descriptor without a context is closed. -/
theorem Clean.close_f (hc : s.Clean) {d : Bool} (hnone : s.fds.ctx fd = none) :
    ({ s with isOpen := Function.update s.isOpen fd false }.goTo i (.closed o d)).Clean := by
  constructor
  · intro e h
    have hne : e ≠ fd := by
      rintro rfl
      exact h hnone
    show Function.update s.isOpen fd false e = true ∧ _
    rw [Function.update_of_ne hne]
    exact hc.fresh e h
  · intro j o' e d' hj
    have hj : Function.update s.place i (.closed o d) j = .close_f o' e d' := hj
    rw [Function.update_apply] at hj
    split_ifs at hj
    exact hc.removed j o' e d' hj

theorem Clean.close (hc : s.Clean) (o : ℕ) (k : SocketObject) (d : Bool) :
    (s.close i o k d).Clean := by
  unfold Sockets.close
  split_ifs with hsock hhook hhook
  · refine hc.keep rfl (fun _ => rfl) rfl rfl rfl ?_
    intro _ _ _ h
    cases h
  · refine hc.keep rfl (fun _ => rfl) rfl rfl rfl ?_
    intro _ _ _ h
    cases h
  · refine hc.keep rfl (fun _ => rfl) rfl rfl rfl ?_
    intro _ _ _ h
    cases h
  · refine hc.keep rfl (fun _ => rfl) rfl rfl rfl ?_
    intro _ _ _ _ h
    exact absurd h hhook

theorem Clean.call (hc : s.Clean) (hi : s.place i = .out) {c : SocketCall}
    (h : s.call i c = some t) : t.Clean := by
  have hgo : ∀ (t' : Sockets n) p, t'.place = Function.update s.place i p → t'.fds = s.fds →
      t'.isOpen = s.isOpen → t'.nonblock = s.nonblock → t'.hooked = s.hooked →
      (∀ o fd d, p ≠ .close_f o fd d) → t'.Clean := by
    intro t' p hplace hfds hopen hnonblock hhooked hp
    refine hc.keep hplace (fun fd => by rw [hfds]) hopen hnonblock hhooked ?_
    exact fun o fd d h => absurd h (hp o fd d)
  cases c with
  | construct family =>
    obtain rfl := Option.some.inj h
    refine hgo _ .out ?_ rfl rfl rfl rfl fun _ _ _ h' => by cases h'
    rw [← hi, Function.update_eq_self]
    rfl
  | createUDP family =>
    obtain rfl := Option.some.inj h
    exact hgo _ _ rfl rfl rfl rfl rfl fun _ _ _ h' => by cases h'
  | bind o =>
    obtain ⟨k, -, rfl⟩ := Option.map_eq_some_iff.mp h
    exact hgo _ _ rfl rfl rfl rfl rfl fun _ _ _ h' => by split_ifs at h'
  | connect o family =>
    obtain ⟨k, -, rfl⟩ := Option.map_eq_some_iff.mp h
    unfold connecting
    exact hgo _ _ rfl rfl rfl rfl rfl fun _ _ _ h' => by split_ifs at h'
  | accept o =>
    obtain ⟨k, -, rfl⟩ := Option.map_eq_some_iff.mp h
    exact hgo _ _ rfl rfl rfl rfl rfl fun _ _ _ h' => by cases h'
  | close o =>
    obtain ⟨k, -, rfl⟩ := Option.map_eq_some_iff.mp h
    exact hc.close o k false
  | destroy o =>
    obtain ⟨k, -, rfl⟩ := Option.map_eq_some_iff.mp h
    exact hc.close o k true

theorem behind_ne_close_f (o : ℕ) (k : SocketObject) (c : Renewal) (o' : ℕ) (fd : BitVec 32)
    (d : Bool) : behind o k c ≠ .close_f o' fd d := by
  intro h
  unfold behind connecting at h
  split at h
  · split_ifs at h
  · cases h

theorem Clean.run (hc : s.Clean) (hi : s.Inv) {r : BitVec 32} (hh : s.Hooked (.run i r))
    (h : s.run i r = some t) : t.Clean := by
  cases hp : s.place i with
  | out =>
    simp only [Sockets.run, hp] at h
    cases h
  | socket_f o c =>
    simp only [Sockets.run, hp] at h
    by_cases hr : r = -1
    · rw [if_pos hr] at h
      obtain ⟨k, -, rfl⟩ := Option.map_eq_some_iff.mp h
      exact hc.keep rfl (fun _ => rfl) rfl rfl rfl fun _ _ _ h' => by cases h'
    · rw [if_neg hr] at h
      by_cases hfree : s.Free r
      · rw [if_pos hfree] at h
        obtain rfl := Option.some.inj h
        exact hc.opening hfree fun _ _ _ h' => by split_ifs at h'
      · rw [if_neg hfree] at h
        cases h
  | accept_f fd family =>
    simp only [Sockets.run, hp] at h
    split_ifs at h with hr hfree
    · obtain rfl := Option.some.inj h
      exact hc.keep rfl (fun _ => rfl) rfl rfl rfl fun _ _ _ h' => by cases h'
    · obtain rfl := Option.some.inj h
      exact hc.opening hfree.1 fun _ _ _ h' => by cases h'
  | get fd g =>
    simp only [Sockets.run, hp] at h
    obtain ⟨fds, hfds, rfl⟩ := Option.map_eq_some_iff.mp h
    exact hc.keep rfl (FdManager.ctx_of_step_read hfds).1 rfl rfl rfl fun _ _ _ h' => by
      split_ifs at h'
  | create fd g =>
    simp only [Sockets.run, hp] at h
    obtain ⟨fds, hfds, rfl⟩ := Option.map_eq_some_iff.mp h
    exact hc.create hi hp hfds rfl rfl rfl rfl rfl
  | returned fd g =>
    cases g with
    | newSock o c =>
      simp only [Sockets.run, hp] at h
      obtain ⟨k, -, rfl⟩ := Option.map_eq_some_iff.mp h
      exact hc.keep rfl (fun _ => rfl) rfl rfl rfl fun o' fd' d h' =>
        absurd h' (behind_ne_close_f o k c o' fd' d)
    | accept family =>
      simp only [Sockets.run, hp] at h
      obtain ⟨fds, hfds, rfl⟩ := Option.map_eq_some_iff.mp h
      rw [if_pos (hi.tables.accepts hp)]
      exact hc.keep rfl (FdManager.ctx_of_step_read hfds).1 rfl rfl rfl fun _ _ _ h' => by cases h'
  | connect o =>
    simp only [Sockets.run, hp] at h
    obtain ⟨k, -, rfl⟩ := Option.map_eq_some_iff.mp h
    split_ifs
    · exact hc.keep rfl (fun _ => rfl) rfl rfl rfl fun _ _ _ h' => by cases h'
    · exact hc.close o k false
  | close o fd d =>
    simp only [Sockets.run, hp] at h
    obtain ⟨fds, hfds, rfl⟩ := Option.map_eq_some_iff.mp h
    refine hc.keep rfl (FdManager.ctx_of_step_read hfds).1 rfl rfl rfl ?_
    intro o' fd' d' h' _
    split_ifs at h' with hnone
    injection h' with _ hfd _
    rw [← hfd]
    exact hnone
  | del o fd d =>
    simp only [Sockets.run, hp] at h
    obtain ⟨fds, hfds, rfl⟩ := Option.map_eq_some_iff.mp h
    exact hc.del (Option.some.inj hfds).symm rfl rfl rfl rfl
  | close_f o fd d =>
    simp only [Sockets.run, hp] at h
    obtain rfl := Option.some.inj h
    apply hc.close_f
    cases hhook : s.hooked i with
    | true => exact hc.removed i o fd d hp hhook
    | false => exact hh fd (by rw [hp]; rfl) hhook
  | closed o d =>
    simp only [Sockets.run, hp] at h
    obtain ⟨k, -, rfl⟩ := Option.map_eq_some_iff.mp h
    exact hc.keep rfl (fun _ => rfl) rfl rfl rfl fun _ _ _ h' => by cases h'

/-! ## Runs -/

variable {a : SocketsAct n} {as : List (SocketsAct n)}

theorem Clean.step (hc : s.Clean) (hi : s.Inv) (hh : s.Hooked a) (h : s.step a = some t) :
    t.Clean := by
  cases a with
  | set_hook_enable i flag =>
    simp only [Sockets.step] at h
    split_ifs at h with hp
    obtain rfl := Option.some.inj h
    refine ⟨hc.fresh, fun j o fd d hj hhook => ?_⟩
    have hji : j ≠ i := by
      rintro rfl
      cases hp.symm.trans hj
    exact hc.removed j o fd d hj ((Function.update_of_ne hji flag s.hooked).symm.trans hhook)
  | call i c =>
    simp only [Sockets.step] at h
    split_ifs at h with hp
    exact hc.call hp h
  | run i r => exact hc.run hi hh h

theorem clean_start : (start n).Clean := by
  constructor
  · intro fd h
    exact absurd (entry_append_replicate [] 64 (size_t fd)) h
  · intro i o fd d h
    cases h

/-- The step that does not meet the condition leaves a context without its descriptor. -/
theorem not_fresh_of_not_hooked (hh : ¬ s.Hooked a) : ∃ t, s.step a = some t ∧ ¬ t.Fresh := by
  cases a with
  | set_hook_enable | call => exact absurd trivial hh
  | run i r =>
    unfold Hooked at hh
    push Not at hh
    obtain ⟨fd, hshut, -, hctx⟩ := hh
    obtain ⟨o, d, hp⟩ := Place.eq_of_shutting hshut
    refine ⟨{ s with isOpen := Function.update s.isOpen fd false }.goTo i (.closed o d), ?_, ?_⟩
    · simp only [Sockets.step, Sockets.run, hp]
    · intro hfresh
      have hopen : Function.update s.isOpen fd false fd = true := (hfresh fd hctx).1
      rw [Function.update_self] at hopen
      cases hopen

/-- **Fresh contexts.** Let any number of threads create, accept, connect, close and destroy sockets
in any interleaving, each call alone on its socket. Every context in the table is that of an open and
non-blocking descriptor, in all states of the run, exactly when no thread closes a descriptor that
has a context with its hook disabled. -/
theorem fresh_iff (ha : Guarded step Alone (start n) as) :
    Throughout step Fresh (start n) as ↔ Guarded step Hooked (start n) as := by
  constructor
  · intro hfresh
    rw [guarded_iff]
    rintro bs a cs s rfl hs
    by_contra hh
    obtain ⟨t, ht, hnot⟩ := not_fresh_of_not_hooked hh
    apply hnot
    apply hfresh (bs ++ [a]) t
    · exact ⟨cs, by simp⟩
    · exact exec_append_eq_some.mpr ⟨s, hs, exec_cons_eq_some.mpr ⟨t, ht, rfl⟩⟩
  · intro hh bs t hb ht
    have hg := (ha.and hh).beginning hb
    have hclean : t.Inv ∧ t.Clean :=
      exec_invariant_of_guarded (I := fun t => t.Inv ∧ t.Clean)
        (fun _ _ _ hi hg ht => ⟨hi.1.step hg.1 ht, hi.2.step hi.1 hg.2 ht⟩)
        ⟨inv_start, clean_start⟩ hg ht
    exact hclean.2.fresh

/-- A thread with the hook makes a socket; one without it accepts a connection and closes it. -/
theorem fresh_iff_two_threads :
    ¬ Throughout step Fresh (start 2) [.set_hook_enable 0 true, .call 0 (.construct 2),
      .call 0 (.bind 0), .run 0 5, .run 0 0, .run 0 0, .run 0 0, .call 1 (.accept 0), .run 1 6,
      .run 1 0, .run 1 0, .run 1 0, .call 1 (.close 1), .run 1 0] := by
  rw [fresh_iff (by decide)]
  intro hg
  have hhooked := guarded_iff.mp hg [.set_hook_enable 0 true, .call 0 (.construct 2),
    .call 0 (.bind 0), .run 0 5, .run 0 0, .run 0 0, .run 0 0, .call 1 (.accept 0), .run 1 6,
    .run 1 0, .run 1 0, .run 1 0, .call 1 (.close 1)] (.run 1 0) [] _ rfl rfl
  cases hhooked 6 rfl rfl

/-- A thread without the hook closes the connection that it has accepted. The thread with the hook
gets the number for its next socket: it is given the old context, and the descriptor is blocking. -/
theorem blocking_of_close :
    ∃ s : Sockets 2, exec step (start 2) [.set_hook_enable 0 true, .call 0 (.construct 2),
        .call 0 (.construct 2), .call 0 (.bind 0), .run 0 5, .run 0 0, .run 0 0, .run 0 0,
        .call 1 (.accept 0), .run 1 6, .run 1 0, .run 1 0, .run 1 0, .call 1 (.close 2), .run 1 0,
        .run 1 0, .call 0 (.bind 1), .run 0 6, .run 0 0, .run 0 0] = some s ∧
      s.objects 1 = some ⟨6, 2, false⟩ ∧ s.init 6 = true ∧ s.nonblock 6 = false := by
  exact ⟨_, rfl, by decide, by decide, by decide⟩

end Sockets

end Dag
