import Dag.Scheduler.Shutdown

/-!
# The order of tasks

A worker takes the first task in the queue that it may run: one that is not pinned, or that is pinned
to its thread. So a task is overtaken by those in front of it only. Each scan by a worker that may
run a task either takes it, or takes one in front of it; tasks for the same thread, and those for any
thread, are taken in the order in which they came in.

A task that is pinned to a thread which is no worker's is never taken. It stays in the queue, so that
`stopping()` is never true, and no worker leaves `run`.

## Main definitions

* `Entry.MayRun θ`: the task may run on the thread `θ`
* `Scheduler.Turn e`: a scan by a worker that may run the task

## Main results

* `scan_behind`: what a scan does to a task in the queue
* `Scheduler.taken_in_turn`: the order of the tasks for one thread, and how long a task waits
* `Shutdown.stranded_of_exec`: what a task does that is pinned to no worker's thread
-/

namespace Dag

open Foundation

/-- The task may run on the thread. -/
def Entry.MayRun (thread_id : ℤ) (e : Entry) : Prop := e.Unpinned ∨ e.task.thread = thread_id

instance (thread_id : ℤ) : DecidablePred (Entry.MayRun thread_id) := fun e =>
  inferInstanceAs (Decidable (e.Unpinned ∨ e.task.thread = thread_id))

theorem scan_cons_of_mayRun {thread_id : ℤ} {x : Entry} (h : x.MayRun thread_id) (es : List Entry) :
    (scan thread_id (x :: es)).found = some x ∧ (scan thread_id (x :: es)).tasks = es := by
  have hskip : ¬ (x.task.thread ≠ -1 ∧ x.task.thread ≠ thread_id) := by
    rintro ⟨hany, hne⟩
    exact h.elim hany hne
  rw [scan, if_neg hskip]
  exact ⟨rfl, rfl⟩

theorem scan_cons_of_not_mayRun {thread_id : ℤ} {x : Entry} (h : ¬ x.MayRun thread_id)
    (es : List Entry) :
    (scan thread_id (x :: es)).found = (scan thread_id es).found ∧
      (scan thread_id (x :: es)).tasks = x :: (scan thread_id es).tasks := by
  have hskip : x.task.thread ≠ -1 ∧ x.task.thread ≠ thread_id := not_or.mp h
  rw [scan, if_pos hskip]
  exact ⟨rfl, rfl⟩

/-- **What a scan does to a task in the queue**: it takes it, or it takes one in front of it, or, when
the thread may not run the task, one behind it or none. -/
theorem scan_behind (thread_id : ℤ) (e : Entry) (post : List Entry) : ∀ pre : List Entry,
    ((scan thread_id (pre ++ e :: post)).found = some e ∧ e.MayRun thread_id ∧
      (scan thread_id (pre ++ e :: post)).tasks = pre ++ post) ∨
    ∃ pre' post', (scan thread_id (pre ++ e :: post)).tasks = pre' ++ e :: post' ∧
      pre'.length + (if e.MayRun thread_id then 1 else 0) ≤ pre.length := by
  intro pre
  -- on the tasks in front: the first of them is taken, or passed over
  induction pre with
  | nil =>
    by_cases he : e.MayRun thread_id
    · obtain ⟨hfound, htasks⟩ := scan_cons_of_mayRun he post
      exact Or.inl ⟨hfound, he, htasks⟩
    · refine Or.inr ⟨[], (scan thread_id post).tasks, (scan_cons_of_not_mayRun he post).2, ?_⟩
      rw [if_neg he]
      rfl
  | cons x pre ih =>
    rw [List.cons_append]
    by_cases hx : x.MayRun thread_id
    · refine Or.inr ⟨pre, post, (scan_cons_of_mayRun hx _).2, ?_⟩
      rw [List.length_cons]
      split_ifs <;> omega
    · obtain ⟨hfound, htasks⟩ := scan_cons_of_not_mayRun hx (pre ++ e :: post)
      rw [hfound, htasks]
      rcases ih with ⟨hfound, he, htasks⟩ | ⟨pre', post', htasks, hlength⟩
      · exact Or.inl ⟨hfound, he, by rw [htasks, List.cons_append]⟩
      · refine Or.inr ⟨x :: pre', post', by rw [htasks, List.cons_append], ?_⟩
        rw [List.length_cons, List.length_cons]
        omega

namespace Scheduler

variable {n : ℕ} {tid : Fin n → ℤ} {s t : Scheduler n} {e : Entry} {w : Fin n}

/-- A worker that may run the task scans the queue. -/
def Turn (tid : Fin n → ℤ) (e : Entry) : Act n → Prop
  | .dequeue w => e.MayRun (tid w)
  | _ => False

instance (tid : Fin n → ℤ) (e : Entry) : DecidablePred (Turn tid e)
  | .dequeue w => inferInstanceAs (Decidable (e.MayRun (tid w)))
  | .schedulerLock .. | .finish .. | .enterIdle _ | .leaveIdle .. =>
    inferInstanceAs (Decidable False)

/-! ## The queue -/

/-- **What a step does to the queue**: a task is added at its end, or the queue is scanned, or it is
left alone. -/
theorem queue_cases {a : Act n} (ht : s.step tid a = some t) :
    (∃ task, (∀ w, a ≠ .dequeue w) ∧ t.tasks = s.tasks ++ [⟨s.accepted.length, task⟩] ∧
      t.taken = s.taken) ∨
    (∃ w, a = .dequeue w ∧ t.tasks = (scan (tid w) s.tasks).tasks ∧
      t.taken = s.taken ++ (scan (tid w) s.tasks).found.toList) ∨
    ((∀ w, a ≠ .dequeue w) ∧ t.tasks = s.tasks ∧ t.taken = s.taken) := by
  cases a with
  | schedulerLock fc thread =>
    obtain rfl := Option.some.inj ht
    unfold Scheduler.schedulerLock
    dsimp only
    split_ifs
    · exact Or.inl ⟨SchedulerTask.construct fc thread, nofun, rfl, rfl⟩
    · exact Or.inr (Or.inr ⟨nofun, rfl, rfl⟩)
  | dequeue w =>
    obtain ⟨⟨tickle_me, u⟩, hu, rfl⟩ := Option.map_eq_some_iff.mp ht
    refine Or.inr (Or.inl ⟨w, rfl, ?_⟩)
    unfold Scheduler.dequeue at hu
    split at hu
    · dsimp only at hu
      split at hu
      · rename_i x hfound
        obtain ⟨-, rfl⟩ := Prod.mk.inj (Option.some.inj hu)
        rw [hfound]
        exact ⟨rfl, rfl⟩
      · rename_i hfound
        obtain ⟨-, rfl⟩ := Prod.mk.inj (Option.some.inj hu)
        rw [hfound]
        exact ⟨rfl, (List.append_nil _).symm⟩
    · cases hu
  | finish w term =>
    obtain ⟨x, -, rfl⟩ := finish_cases ht
    exact Or.inr (Or.inr ⟨nofun, rfl, rfl⟩)
  | enterIdle w =>
    obtain ⟨-, ⟨-, rfl⟩ | ⟨-, rfl⟩⟩ := enterIdle_cases ht
    all_goals exact Or.inr (Or.inr ⟨nofun, rfl, rfl⟩)
  | leaveIdle w term =>
    obtain ⟨-, rfl⟩ := leaveIdle_cases ht
    exact Or.inr (Or.inr ⟨nofun, rfl, rfl⟩)

theorem not_turn {a : Act n} (h : ∀ w, a ≠ .dequeue w) : ¬ Turn tid e a := by
  cases a with
  | dequeue w => exact absurd rfl (h w)
  | schedulerLock fc thread | finish w term | enterIdle w | leaveIdle w term => exact id

theorem mem_taken_step {a : Act n} (h : e ∈ s.taken) (ht : s.step tid a = some t) :
    e ∈ t.taken := by
  rcases queue_cases ht with ⟨task, -, -, htaken⟩ | ⟨w, -, -, htaken⟩ | ⟨-, -, htaken⟩
  · exact htaken ▸ h
  · rw [htaken]
    exact List.mem_append_left _ h
  · exact htaken ▸ h

/-! ## Waiting -/

/-- **One step**: a task in the queue is taken, or no more tasks than before are in front of it, and
one less behind a turn. -/
theorem ahead_step {a : Act n} {pre post : List Entry} (hs : s.tasks = pre ++ e :: post)
    (ht : s.step tid a = some t) :
    e ∈ t.taken ∨ ∃ pre' post', t.tasks = pre' ++ e :: post' ∧
      pre'.length + (if Turn tid e a then 1 else 0) ≤ pre.length := by
  rcases queue_cases ht with ⟨task, ha, htasks, -⟩ | ⟨w, rfl, htasks, htaken⟩ | ⟨ha, htasks, -⟩
  · refine Or.inr ⟨pre, post ++ [⟨s.accepted.length, task⟩], ?_, ?_⟩
    · rw [htasks, hs, List.append_assoc, List.cons_append]
    · rw [if_neg (not_turn ha), Nat.add_zero]
  · rw [hs] at htasks htaken
    rcases scan_behind (tid w) e post pre with ⟨hfound, -, -⟩ | ⟨pre', post', hrest, hlength⟩
    · rw [htaken, hfound]
      exact Or.inl (List.mem_append_right _ (List.mem_singleton.mpr rfl))
    · exact Or.inr ⟨pre', post', htasks.trans hrest, hlength⟩
  · refine Or.inr ⟨pre, post, htasks.trans hs, ?_⟩
    rw [if_neg (not_turn ha), Nat.add_zero]

/-- A run: every turn brings a task that is still in the queue one place forward. -/
theorem ahead_exec {bs : List (Act n)} {pre post : List Entry} (hs : s.tasks = pre ++ e :: post)
    (ht : exec (step tid) s bs = some t) :
    e ∈ t.taken ∨ ∃ pre' post', t.tasks = pre' ++ e :: post' ∧
      pre'.length + bs.countP (fun a => Turn tid e a) ≤ pre.length := by
  induction bs generalizing s pre post with
  | nil =>
    obtain rfl := Option.some.inj ht
    exact Or.inr ⟨pre, post, hs, le_rfl⟩
  | cons b bs ih =>
    obtain ⟨u, hu, ht⟩ := exec_cons_eq_some.mp ht
    rcases ahead_step hs hu with htaken | ⟨pre', post', htasks, hlength⟩
    · exact Or.inl (exec_invariant (fun _ _ _ h hv => mem_taken_step h hv) htaken ht)
    · refine (ih htasks ht).imp_right ?_
      rintro ⟨pre'', post'', htasks', hlength'⟩
      refine ⟨pre'', post'', htasks', ?_⟩
      rw [List.countP_cons]
      simp only [decide_eq_true_eq]
      omega

/-! ## The order for one thread -/

/-- The tasks for the thread, or for any thread when it is `-1`, those taken and then those in the
queue. -/
def forThread (thread : ℤ) (s : Scheduler n) : List Entry :=
  (s.taken ++ s.tasks).filter fun e => e.task.thread = thread

/-- What a scan takes, and what it leaves behind, are for each thread in the order of the queue. -/
theorem filter_scan (thread_id thread : ℤ) : ∀ es : List Entry,
    ((scan thread_id es).found.toList ++ (scan thread_id es).tasks).filter
        (fun e => e.task.thread = thread) =
      es.filter fun e => e.task.thread = thread := by
  intro es
  induction es with
  | nil => rfl
  | cons x es ih =>
    by_cases hx : x.MayRun thread_id
    · obtain ⟨hfound, htasks⟩ := scan_cons_of_mayRun hx es
      rw [hfound, htasks]
      rfl
    · obtain ⟨hfound, htasks⟩ := scan_cons_of_not_mayRun hx es
      rw [hfound, htasks]
      cases hfind : (scan thread_id es).found with
      | none =>
        rw [hfind] at ih
        simp only [Option.toList_none, List.nil_append, List.filter_cons] at ih ⊢
        rw [ih]
      | some y =>
        have hne : x.task.thread ≠ y.task.thread := by
          obtain ⟨-, -, -, -, -, hy⟩ := scan_found hfind
          intro heq
          exact hx (hy.imp (fun h => heq.trans h) fun h => heq.trans h)
        rw [hfind] at ih
        simp only [Option.toList_some, List.singleton_append, List.filter_cons] at ih ⊢
        rw [← ih]
        by_cases hxt : x.task.thread = thread
        · have hyt : y.task.thread ≠ thread := fun h => hne (hxt.trans h.symm)
          simp [hxt, hyt]
        · simp [hxt]

/-- The tasks for each thread are in the order in which they came in. -/
def InOrder (s : Scheduler n) : Prop :=
  ∀ thread, ((s.forThread thread).map Entry.serial).Pairwise (· < ·)

theorem InOrder.step (h : s.InOrder) (hc : Conserved tid s) {a : Act n}
    (ht : s.step tid a = some t) : t.InOrder := by
  intro thread
  rcases queue_cases ht with ⟨task, -, htasks, htaken⟩ | ⟨w, -, htasks, htaken⟩ |
    ⟨-, htasks, htaken⟩
  · rw [forThread, htasks, htaken, ← List.append_assoc, List.filter_append, List.map_append,
      List.pairwise_append]
    refine ⟨h thread, ?_, fun i hi j hj => ?_⟩
    · exact (List.pairwise_singleton (· < ·) _).sublist (List.filter_sublist.map _)
    · obtain ⟨x, hx, rfl⟩ := List.mem_map.mp hi
      obtain ⟨y, hy, rfl⟩ := List.mem_map.mp hj
      obtain rfl := List.mem_singleton.mp (List.mem_of_mem_filter hy)
      exact (hc.genuine x (List.mem_of_mem_filter hx)).lt
  · have hsame : t.forThread thread = s.forThread thread := by
      rw [forThread, forThread, htasks, htaken, List.append_assoc, List.filter_append,
        filter_scan, ← List.filter_append]
    rw [hsame]
    exact h thread
  · rw [forThread, htasks, htaken]
    exact h thread

/-! ## Runs -/

section Runs

variable {as bs : List (Act n)}

/-- **Tasks are taken in turn**, in every interleaving. The tasks for one thread, and those for any
thread, are taken in the order in which they were accepted; and a task that is in the queue behind
`pre` has been taken when workers that may run it have scanned the queue more often than there are
tasks in `pre`, whatever has come in meanwhile. -/
theorem taken_in_turn (hs : exec (step tid) (start n) as = some s)
    (ht : exec (step tid) s bs = some t) :
    (∀ thread, (((t.taken ++ t.tasks).filter fun e => e.task.thread = thread).map
      Entry.serial).Pairwise (· < ·)) ∧
    ∀ pre e post, s.tasks = pre ++ e :: post →
      pre.length < bs.countP (fun a => Turn tid e a) → e ∈ t.taken := by
  have hinv : Conserved tid t ∧ t.InOrder :=
    exec_invariant (I := fun s => Conserved tid s ∧ s.InOrder)
      (fun _ _ _ hi ht => ⟨hi.1.step ht, hi.2.step hi.1 ht⟩)
      ⟨conserved_start tid, fun _ => List.Pairwise.nil⟩ (exec_append_eq_some.mpr ⟨s, hs, ht⟩)
  refine ⟨hinv.2, fun pre e post htasks hlt => ?_⟩
  rcases ahead_exec htasks ht with htaken | ⟨pre', post', -, hle⟩
  · exact htaken
  · omega

/-- The task of worker 1 is behind one for any thread: it has been taken behind two of its scans. -/
theorem taken_in_turn_two_workers :
    ∃ s t : Scheduler 2,
      exec (step fun w => 10 + (w : ℤ)) (start 2)
        [.schedulerLock (.cb (some 1)) (-1), .schedulerLock (.cb (some 2)) 11] = some s ∧
      exec (step fun w => 10 + (w : ℤ)) s
        [.schedulerLock (.cb (some 3)) 11, .dequeue 1, .finish 1 false, .dequeue 1] = some t ∧
      ⟨1, ⟨none, some 2, 11⟩⟩ ∈ t.taken := by
  obtain ⟨s, hs⟩ : ∃ s : Scheduler 2, exec (step fun w => 10 + (w : ℤ)) (start 2)
      [.schedulerLock (.cb (some 1)) (-1), .schedulerLock (.cb (some 2)) 11] = some s := ⟨_, rfl⟩
  obtain ⟨t, ht⟩ : ∃ t : Scheduler 2, exec (step fun w => 10 + (w : ℤ)) s
      [.schedulerLock (.cb (some 3)) 11, .dequeue 1, .finish 1 false, .dequeue 1] = some t := by
    obtain rfl := Option.some.inj hs
    exact ⟨_, rfl⟩
  refine ⟨s, t, hs, ht, ?_⟩
  refine (taken_in_turn hs ht).2 [⟨0, ⟨none, some 1, -1⟩⟩] _ [] ?_ (by decide)
  obtain rfl := Option.some.inj hs
  decide

end Runs

end Scheduler

/-! ## Tasks for no worker -/

namespace Shutdown

variable {n : ℕ} {tid : Fin n → ℤ} {s t : Shutdown n} {e : Entry} {as bs : List (Act n)}

/-- The task is in the queue, and no worker may run it. -/
structure Stranded (tid : Fin n → ℤ) (e : Entry) (s : Shutdown n) : Prop where
  queued : e ∈ s.core.tasks
  nobody : ∀ w, ¬ e.MayRun (tid w)

theorem Stranded.step (h : s.Stranded tid e) {a : Act n} (ht : s.step tid a = some t) :
    t.Stranded tid e := by
  refine ⟨?_, h.nobody⟩
  rcases core_step ht with hcore | ⟨b, hb, -⟩
  · rw [hcore]
    exact h.queued
  · rcases Scheduler.queue_cases hb with ⟨task, -, htasks, -⟩ | ⟨w, -, htasks, -⟩ | ⟨-, htasks, -⟩
    · rw [htasks]
      exact List.mem_append_left _ h.queued
    · obtain ⟨pre, post, hqueue⟩ := List.append_of_mem h.queued
      rw [htasks, hqueue]
      rcases scan_behind (tid w) e post pre with ⟨-, he, -⟩ | ⟨pre', post', hrest, -⟩
      · exact absurd he (h.nobody w)
      · rw [hrest]
        exact List.mem_append_right _ List.mem_cons_self
    · rw [htasks]
      exact h.queued

/-- **A task that is pinned to no worker's thread blocks the shutdown**: once it has been accepted, in
every run in which only tasks call `schedulerLock` after `m_stopping` is set, it stays in the queue,
`stopping()` is false, and no worker leaves `run`, nor has one left. -/
theorem stranded_of_exec (hg : Guarded (step tid) OnlyTasks (start n) (as ++ bs))
    (hs : exec (step tid) (start n) as = some s) (ht : exec (step tid) s bs = some t)
    (he : e ∈ s.core.tasks) (hpinned : e.task.thread ≠ -1)
    (hnobody : ∀ w, e.task.thread ≠ tid w) :
    e ∈ t.core.tasks ∧ t.stopping = false ∧ ∀ w, t.core.phase w ≠ .exited := by
  have hstranded : t.Stranded tid e :=
    exec_invariant (fun _ _ _ h hu => Stranded.step h hu)
      ⟨he, fun w hmay => hmay.elim hpinned (hnobody w)⟩ ht
  have hinv : Inv tid t := inv_of_exec hg (exec_append_eq_some.mpr ⟨s, hs, ht⟩)
  have hloud : ¬ t.Quiet := fun hq => List.not_mem_nil (hq.tasks ▸ hstranded.queued)
  refine ⟨hstranded.queued, Bool.eq_false_iff.mpr fun hstop => ?_, fun w hw => ?_⟩
  · exact hloud ((quiet_of_stopping hinv.conserved).mp hstop)
  · exact hloud (hinv.quiet w (Or.inr hw))

/-- A callback for the thread 99, and one worker on the thread 10. -/
theorem stranded_of_exec_one_worker :
    ∃ s t : Shutdown 1,
      exec (step fun _ => 10) (start 1) [.schedulerLock (.cb (some 7)) 99] = some s ∧
      exec (step fun _ => 10) s [.stop, .dequeue 0, .enterIdle 0, .idle 0] = some t ∧
      t.stopping = false := by
  obtain ⟨s, hs⟩ : ∃ s : Shutdown 1, exec (step fun _ => 10) (start 1)
      [.schedulerLock (.cb (some 7)) 99] = some s := ⟨_, rfl⟩
  obtain ⟨t, ht⟩ : ∃ t : Shutdown 1, exec (step fun _ => 10) s
      [.stop, .dequeue 0, .enterIdle 0, .idle 0] = some t := by
    obtain rfl := Option.some.inj hs
    exact ⟨_, rfl⟩
  refine ⟨s, t, hs, ht, (stranded_of_exec (e := ⟨0, ⟨none, some 7, 99⟩⟩) ?_ hs ht ?_ ?_ ?_).2.1⟩
  · decide
  · obtain rfl := Option.some.inj hs
    decide
  · decide
  · decide

end Shutdown

end Dag
