import Dag.Scheduler.Tasks

/-!
# Tasks are neither lost nor duplicated

Every accepted task is in one place: in the queue, with a worker, or behind its end. Tasks pinned to
a thread are taken by the worker of that thread only, tasks that are not pinned are taken in the
order they came in, and the active count is the number of workers that have a task.

## Main definitions

* `queued`, `holders`, `ended`: how often a task is in each of the three places
* `Conserved`: the invariant

## Main results

* `scan_found`, `scan_none`: what the scan of the queue does
* `Conserved.step`: every step keeps the invariant
* `conserved_of_exec`: the invariant along every run
-/

namespace Dag

open Foundation

/-! ## The scan -/

/-- **What the scan finds** is the first task that the thread may run. -/
theorem scan_found {thread_id : ℤ} : ∀ {es : List Entry} {e : Entry},
    (scan thread_id es).found = some e →
      ∃ pre post, es = pre ++ e :: post ∧ (scan thread_id es).tasks = pre ++ post ∧
        (∀ x ∈ pre, x.task.thread ≠ -1 ∧ x.task.thread ≠ thread_id) ∧
          (e.task.thread = -1 ∨ e.task.thread = thread_id) := by
  intro es
  -- on the queue: a task that is passed over goes in front of what is found behind it
  induction es with
  | nil => exact fun h => by cases h
  | cons x es ih =>
    intro e h
    by_cases hskip : x.task.thread ≠ -1 ∧ x.task.thread ≠ thread_id
    · rw [scan, if_pos hskip] at h ⊢
      obtain ⟨pre, post, hes, htasks, hpre, he⟩ := ih h
      refine ⟨x :: pre, post, by rw [hes, List.cons_append], ?_, ?_, he⟩
      · exact congrArg (List.cons x) htasks
      · intro y hy
        rcases List.mem_cons.mp hy with rfl | hy
        · exact hskip
        · exact hpre y hy
    · rw [scan, if_neg hskip] at h ⊢
      obtain rfl := Option.some.inj h
      refine ⟨[], es, rfl, rfl, nofun, ?_⟩
      by_cases hany : x.task.thread = -1
      · exact Or.inl hany
      · exact Or.inr (not_not.mp fun hne => hskip ⟨hany, hne⟩)

/-- When the scan finds nothing, it has passed over the whole queue. -/
theorem scan_none {thread_id : ℤ} : ∀ {es : List Entry}, (scan thread_id es).found = none →
    (scan thread_id es).tasks = es ∧ ∀ x ∈ es, x.task.thread ≠ -1 := by
  intro es
  induction es with
  | nil => exact fun _ => ⟨rfl, nofun⟩
  | cons x es ih =>
    intro h
    by_cases hskip : x.task.thread ≠ -1 ∧ x.task.thread ≠ thread_id
    · rw [scan, if_pos hskip] at h ⊢
      obtain ⟨htasks, hall⟩ := ih h
      refine ⟨congrArg (List.cons x) htasks, fun y hy => ?_⟩
      rcases List.mem_cons.mp hy with rfl | hy
      · exact hskip.1
      · exact hall y hy
    · rw [scan, if_neg hskip] at h
      cases h

/-! ## Places -/

/-- The worker has the task of this number. -/
def Phase.Has (i : ℕ) : Phase → Prop
  | .hold e => e.serial = i
  | _ => False

/-- The worker has a task. -/
def Phase.Busy : Phase → Prop
  | .hold _ => True
  | _ => False

/-- The worker is in its idle fiber. -/
def Phase.Idle : Phase → Prop
  | .idle => True
  | _ => False

instance (i : ℕ) : DecidablePred (Phase.Has i)
  | .hold e => inferInstanceAs (Decidable (e.serial = i))
  | .scan | .spare | .idle | .exited => inferInstanceAs (Decidable False)

instance : DecidablePred Phase.Busy
  | .hold _ => inferInstanceAs (Decidable True)
  | .scan | .spare | .idle | .exited => inferInstanceAs (Decidable False)

instance : DecidablePred Phase.Idle
  | .idle => inferInstanceAs (Decidable True)
  | .scan | .hold _ | .spare | .exited => inferInstanceAs (Decidable False)

namespace Scheduler

variable {n : ℕ}

/-- How often the task of this number is in the queue. -/
def queued (s : Scheduler n) (i : ℕ) : ℕ := (s.tasks.map Entry.serial).count i

/-- How many workers have the task of this number. -/
def holders (s : Scheduler n) (i : ℕ) : ℕ := census (Phase.Has i) s.phase

/-- How often the task of this number has ended: its resume has returned, or it was dropped. -/
def ended (s : Scheduler n) (i : ℕ) : ℕ := s.resumed.count i + s.dropped.count i

/-- The entry is an accepted task with its number. -/
def Genuine (s : Scheduler n) (e : Entry) : Prop := s.accepted[e.serial]? = some e.task

/-- **The invariant**: every accepted task is in one place, with what it was accepted with. -/
structure Conserved (tid : Fin n → ℤ) (s : Scheduler n) : Prop where
  placed : ∀ i, s.queued i + s.holders i + s.ended i = if i < s.accepted.length then 1 else 0
  genuine : ∀ e ∈ s.taken ++ s.tasks, s.Genuine e
  held : ∀ w e, s.phase w = .hold e → e ∈ s.taken ∧ (e.Unpinned ∨ e.task.thread = tid w)
  ordered : (((s.taken ++ s.tasks).filter Entry.Unpinned).map Entry.serial).Pairwise (· < ·)
  active_eq : s.activeThreadCount = census Phase.Busy s.phase
  idle_eq : s.idleThreadCount = census Phase.Idle s.phase

/-! ## One step -/

section Step

variable {tid : Fin n → ℤ} {s t : Scheduler n} {e : Entry} {w : Fin n}

theorem Genuine.lt (h : s.Genuine e) : e.serial < s.accepted.length :=
  (List.getElem?_eq_some_iff.mp h).1

theorem conserved_start (tid : Fin n → ℤ) : Conserved tid (start n) where
  placed := by
    intro i
    have hholders : census (Phase.Has i) (start n).phase = 0 := census_eq_zero.mpr fun _ => id
    rw [queued, holders, ended, hholders]
    simp [start]
  genuine := nofun
  held := nofun
  ordered := List.Pairwise.nil
  active_eq := by
    have hbusy : census Phase.Busy (start n).phase = 0 := census_eq_zero.mpr fun _ => id
    rw [hbusy]
    rfl
  idle_eq := by
    have hidle : census Phase.Idle (start n).phase = 0 := census_eq_zero.mpr fun _ => id
    rw [hidle]
    rfl

/-- An accepted task is the newest, and comes last. -/
theorem Conserved.schedulerLock (h : Conserved tid s) (fc : FiberOrCb) (thread : ℤ) :
    Conserved tid (s.schedulerLock fc thread).2 := by
  unfold Scheduler.schedulerLock
  dsimp only
  split_ifs with hnull
  · set task := SchedulerTask.construct fc thread
    have hold : ∀ e : Entry, s.Genuine e → (s.accepted ++ [task])[e.serial]? = some e.task := by
      intro e he
      rw [List.getElem?_append_left he.lt]
      exact he
    refine ⟨fun i => ?_, fun e he => ?_, h.held, ?_, h.active_eq, h.idle_eq⟩
    · have hplaced := h.placed i
      simp only [queued, holders, ended, List.map_append, List.count_append, List.map_cons,
        List.map_nil, List.count_singleton, List.length_append, List.length_singleton,
        beq_iff_eq] at hplaced ⊢
      split_ifs at hplaced ⊢ <;> omega
    · rw [← List.append_assoc] at he
      rcases List.mem_append.mp he with he | he
      · exact hold e (h.genuine e he)
      · obtain rfl := List.mem_singleton.mp he
        exact List.getElem?_concat_length ..
    · rw [← List.append_assoc, List.filter_append, List.map_append, List.pairwise_append]
      refine ⟨h.ordered, ?_, fun i hi j hj => ?_⟩
      · exact (List.pairwise_singleton (· < ·) _).sublist (List.filter_sublist.map _)
      · obtain ⟨e, he, rfl⟩ := List.mem_map.mp hi
        obtain ⟨e', he', rfl⟩ := List.mem_map.mp hj
        obtain rfl := List.mem_singleton.mp (List.mem_of_mem_filter he')
        exact (h.genuine e (List.mem_of_mem_filter he)).lt
  · exact h

/-- A dequeue on a worker about to scan either takes a task out of the queue, or finds none that
the worker may run. -/
theorem dequeue_cases {tickle_me : Bool} (ht : s.dequeue tid w = some (tickle_me, t)) :
    s.phase w = .scan ∧
      ((∃ pre e post, s.tasks = pre ++ e :: post ∧ (∀ x ∈ pre, ¬ x.Unpinned) ∧
          (e.Unpinned ∨ e.task.thread = tid w) ∧
          t = { s with
            tasks := pre ++ post
            phase := Function.update s.phase w (.hold e)
            activeThreadCount := s.activeThreadCount + 1
            taken := s.taken ++ [e] }) ∨
        ((∀ x ∈ s.tasks, ¬ x.Unpinned) ∧
          t = { s with phase := Function.update s.phase w .spare })) := by
  unfold Scheduler.dequeue at ht
  split at ht
  · rename_i hw
    refine ⟨hw, ?_⟩
    dsimp only at ht
    split at ht
    · rename_i e hfound
      obtain ⟨pre, post, hes, htasks, hpre, he⟩ := scan_found hfound
      obtain ⟨rfl, rfl⟩ := Prod.mk.inj (Option.some.inj ht)
      refine Or.inl ⟨pre, e, post, hes, fun x hx => (hpre x hx).1, he, ?_⟩
      rw [htasks]
    · rename_i hfound
      obtain ⟨htasks, hall⟩ := scan_none hfound
      obtain ⟨rfl, rfl⟩ := Prod.mk.inj (Option.some.inj ht)
      exact Or.inr ⟨hall, by rw [htasks]⟩
  · cases ht

/-- A worker with a task, after a worker's change of phase, is that worker or had the task
before. -/
theorem hold_update {f : Fin n → Phase} {ph : Phase} {v : Fin n}
    (h : Function.update f w ph v = .hold e) :
    (v = w ∧ ph = .hold e) ∨ (v ≠ w ∧ f v = .hold e) := by
  by_cases hvw : v = w
  · subst hvw
    rw [Function.update_self] at h
    exact Or.inl ⟨rfl, h⟩
  · rw [Function.update_of_ne hvw] at h
    exact Or.inr ⟨hvw, h⟩

/-- A worker's change of phase between phases in which it has no task. -/
theorem Conserved.update (h : Conserved tid s) {ph : Phase} (hw : ¬ (s.phase w).Busy)
    (hph : ¬ ph.Busy) {term : Fin n → Bool} {idle : ℤ}
    (hidle : idle = census Phase.Idle (Function.update s.phase w ph)) :
    Conserved tid { s with
      phase := Function.update s.phase w ph
      idleTerm := term
      idleThreadCount := idle } := by
  have hbusy : ∀ {ph : Phase} {i : ℕ}, ¬ ph.Busy → ¬ ph.Has i := by
    intro ph i hnot hhas
    cases ph with
    | hold e => exact hnot trivial
    | scan | spare | idle | exited => exact hhas
  refine ⟨fun i => ?_, h.genuine, fun v e hv => ?_, h.ordered, ?_, hidle⟩
  · have hhas : census (Phase.Has i) (Function.update s.phase w ph) = s.holders i :=
      census_update_of_iff (iff_of_false (hbusy hph) (hbusy hw))
    rw [← h.placed i, ← hhas]
    rfl
  · rcases hold_update hv with ⟨-, rfl⟩ | ⟨-, hv⟩
    · exact absurd trivial hph
    · exact h.held v e hv
  · rw [census_update_of_iff (iff_of_false hph hw)]
    exact h.active_eq

/-- A dequeue moves one task from the queue to the worker. -/
theorem Conserved.dequeue (h : Conserved tid s) {tickle_me : Bool}
    (ht : s.dequeue tid w = some (tickle_me, t)) : Conserved tid t := by
  obtain ⟨hw, ⟨pre, e, post, htasks, hpre, he, rfl⟩ | ⟨_, rfl⟩⟩ := dequeue_cases ht
  · have hperm : (s.taken ++ [e] ++ (pre ++ post)).Perm (s.taken ++ s.tasks) := by
      rw [htasks, List.append_assoc, List.singleton_append]
      exact List.Perm.append_left _ List.perm_middle.symm
    refine ⟨fun i => ?_, fun x hx => h.genuine x (hperm.mem_iff.mp hx), fun v x hv => ?_, ?_, ?_, ?_⟩
    · have hplaced := h.placed i
      have hcensus := census_update (Phase.Has i) s.phase w (.hold e)
      rw [hw, if_neg (show ¬ Phase.scan.Has i from id)] at hcensus
      simp only [queued, holders, ended, htasks, List.map_append, List.map_cons,
        List.count_append, List.count_cons, beq_iff_eq] at hplaced ⊢
      by_cases hi : e.serial = i
      · rw [if_pos (show (Phase.hold e).Has i from hi)] at hcensus
        rw [if_pos hi] at hplaced
        omega
      · rw [if_neg (show ¬ (Phase.hold e).Has i from hi)] at hcensus
        rw [if_neg hi] at hplaced
        omega
    · rcases hold_update hv with ⟨rfl, heq⟩ | ⟨-, hv⟩
      · obtain rfl := Phase.hold.inj heq
        exact ⟨List.mem_append_right _ (List.mem_singleton.mpr rfl), he⟩
      · exact ⟨List.mem_append_left _ (h.held v x hv).1, (h.held v x hv).2⟩
    · -- the tasks passed over are pinned, so `e` is the first one that is not, or is pinned itself
      have hskip : pre.filter (fun x => decide x.Unpinned) = [] := by
        rw [List.filter_eq_nil_iff]
        intro x hx
        rw [decide_eq_true_eq]
        exact hpre x hx
      have hordered := h.ordered
      rw [htasks] at hordered
      simp only [List.filter_append, List.filter_cons, List.filter_nil, hskip,
        List.nil_append] at hordered ⊢
      by_cases hany : e.Unpinned
      · simpa [hany] using hordered
      · simpa [hany] using hordered
    · have hcensus := census_update Phase.Busy s.phase w (.hold e)
      rw [hw, if_neg (show ¬ Phase.scan.Busy from id),
        if_pos (show (Phase.hold e).Busy from trivial)] at hcensus
      have hactive := h.active_eq
      change s.activeThreadCount + 1 = (census Phase.Busy (Function.update s.phase w (.hold e)) : ℤ)
      omega
    · change s.idleThreadCount = (census Phase.Idle (Function.update s.phase w (.hold e)) : ℤ)
      rw [census_update_of_iff (iff_of_false id (hw ▸ id)), h.idle_eq]
  · refine h.update (hw ▸ id) id ?_
    rw [census_update_of_iff (iff_of_false id (hw ▸ id)), h.idle_eq]

/-- The end of a task moves it from the worker to behind its end. -/
theorem Conserved.finish (h : Conserved tid s) {term : Bool} (ht : s.finish w term = some t) :
    Conserved tid t := by
  obtain ⟨e, hw, rfl⟩ := finish_cases ht
  refine ⟨fun i => ?_, h.genuine, fun v x hv => ?_, h.ordered, ?_, ?_⟩
  · have hplaced := h.placed i
    have hcensus := census_update (Phase.Has i) s.phase w .scan
    rw [hw, if_neg (show ¬ Phase.scan.Has i from id)] at hcensus
    have hended : ∀ skip : Bool,
        (if skip then s.resumed else s.resumed ++ [e.serial]).count i +
          (if skip then s.dropped ++ [e.serial] else s.dropped).count i =
        s.ended i + if e.serial = i then 1 else 0 := by
      intro skip
      cases skip <;> simp [ended, List.count_append, List.count_singleton] <;> omega
    simp only [queued, holders, ended, hended] at hplaced ⊢
    by_cases hi : e.serial = i
    · rw [if_pos (show (Phase.hold e).Has i from hi)] at hcensus
      rw [if_pos hi]
      omega
    · rw [if_neg (show ¬ (Phase.hold e).Has i from hi)] at hcensus
      rw [if_neg hi]
      omega
  · rcases hold_update hv with ⟨-, heq⟩ | ⟨-, hv⟩
    · cases heq
    · exact h.held v x hv
  · have hcensus := census_update Phase.Busy s.phase w .scan
    rw [hw, if_neg (show ¬ Phase.scan.Busy from id),
      if_pos (show (Phase.hold e).Busy from trivial)] at hcensus
    have hactive := h.active_eq
    change s.activeThreadCount - 1 = (census Phase.Busy (Function.update s.phase w .scan) : ℤ)
    omega
  · change s.idleThreadCount = (census Phase.Idle (Function.update s.phase w .scan) : ℤ)
    rw [census_update_of_iff (iff_of_false id (hw ▸ id)), h.idle_eq]

theorem Conserved.enterIdle (h : Conserved tid s) (ht : s.enterIdle w = some t) :
    Conserved tid t := by
  obtain ⟨hw, ⟨_, rfl⟩ | ⟨_, rfl⟩⟩ := enterIdle_cases ht
  · refine h.update (hw ▸ id) id ?_
    rw [census_update_of_iff (iff_of_false id (hw ▸ id)), h.idle_eq]
  · refine h.update (hw ▸ id) id ?_
    have hcensus := census_update Phase.Idle s.phase w .idle
    rw [hw, if_neg (show ¬ Phase.spare.Idle from id),
      if_pos (show Phase.idle.Idle from trivial)] at hcensus
    have hidle := h.idle_eq
    omega

theorem Conserved.leaveIdle (h : Conserved tid s) {term : Bool}
    (ht : s.leaveIdle w term = some t) : Conserved tid t := by
  obtain ⟨hw, rfl⟩ := leaveIdle_cases ht
  refine h.update (hw ▸ id) id ?_
  have hcensus := census_update Phase.Idle s.phase w .scan
  rw [hw, if_neg (show ¬ Phase.scan.Idle from id),
    if_pos (show Phase.idle.Idle from trivial)] at hcensus
  have hidle := h.idle_eq
  omega

/-- The step lemma. -/
theorem Conserved.step (h : Conserved tid s) {a : Act n} (ht : s.step tid a = some t) :
    Conserved tid t := by
  cases a with
  | schedulerLock fc thread =>
    obtain rfl := Option.some.inj ht
    exact h.schedulerLock fc thread
  | dequeue w =>
    obtain ⟨⟨tickle_me, u⟩, hu, rfl⟩ := Option.map_eq_some_iff.mp ht
    exact h.dequeue hu
  | finish w term => exact h.finish ht
  | enterIdle w => exact h.enterIdle ht
  | leaveIdle w term => exact h.leaveIdle ht

end Step

/-! ## Runs -/

/-- **Task conservation**: in every interleaving of the steps, every accepted task is in the queue,
with one worker, or behind its end, and nowhere else; it is the task that was accepted; a worker has
a pinned task only on the thread it is pinned to; the tasks that are not pinned, those taken and
then those in the queue, are in the order in which they were accepted; and the active count is the
number of workers that have a task. -/
theorem conserved_of_exec {tid : Fin n → ℤ} {as : List (Act n)} {s : Scheduler n}
    (h : exec (step tid) (start n) as = some s) :
    (∀ i < s.accepted.length, s.queued i + s.holders i + s.ended i = 1) ∧
    (∀ e ∈ s.tasks, s.Genuine e) ∧
    (∀ w e, s.phase w = .hold e → s.Genuine e ∧ (e.Unpinned ∨ e.task.thread = tid w)) ∧
    (((s.taken ++ s.tasks).filter Entry.Unpinned).map Entry.serial).Pairwise (· < ·) ∧
    s.activeThreadCount = census Phase.Busy s.phase := by
  have hs : Conserved tid s :=
    exec_invariant (fun _ _ _ hi ht => hi.step ht) (conserved_start tid) h
  refine ⟨fun i hi => (hs.placed i).trans (if_pos hi),
    fun e he => hs.genuine e (List.mem_append_right _ he), fun w e hw => ?_, hs.ordered,
    hs.active_eq⟩
  exact ⟨hs.genuine e (List.mem_append_left _ (hs.held w e hw).1), (hs.held w e hw).2⟩

theorem conserved_of_exec_two_workers :
    ∃ s : Scheduler 2, exec (step fun w => 10 + (w : ℤ)) (start 2)
        [.schedulerLock (.cb (some 1)) 11, .schedulerLock (.fiber (some 2)) (-1), .dequeue 0,
          .dequeue 1, .finish 0 true] = some s ∧
      (∀ i < s.accepted.length, s.queued i + s.holders i + s.ended i = 1) ∧
      s.dropped = [1] ∧ s.activeThreadCount = 1 := by
  obtain ⟨s, hs⟩ : ∃ s : Scheduler 2, exec (step fun w => 10 + (w : ℤ)) (start 2)
        [.schedulerLock (.cb (some 1)) 11, .schedulerLock (.fiber (some 2)) (-1), .dequeue 0,
          .dequeue 1, .finish 0 true] = some s := ⟨_, rfl⟩
  refine ⟨s, hs, (conserved_of_exec hs).1, ?_⟩
  obtain rfl := Option.some.inj hs
  decide

end Scheduler

end Dag
