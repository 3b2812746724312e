import Dag.Logger.Formatter
import Dag.Foundation.Locks
import Mathlib.Data.Fintype.Basic

/-!
# Logging: loggers and standard output

A `Logger` hands an event to its appenders, one after another, when the level of the event is at
least its own. A `StdoutLogAppender` formats the event to `std::cout` between `lock()` and
`unlock()` of its spin lock, item after item. An appender can be in several loggers, any number of
times in each, and any number of threads log at the same time.

Appenders and loggers are named by numbers. The appenders are those of standard output, and their
formatters stay as they are. The list of appenders that `Logger::log` goes through is read without
the lock of the logger, so that nobody may change it meanwhile: a step that would do so is refused.

## Main definitions

* `Logger`, `Logger.log`: a logger, and the appenders it hands an event to
* `Logging`, `Logging.step`: threads that log
* `Logging.output k`: what has been put out through the appender `k`
* `Logging.due i`: what the thread `i` should have logged in a run

## Main results

* `Logging.handed_of_exec`: nothing that a thread should log is lost or doubled on the way
* `Logging.output_of_exec`: the output of an appender is whole lines, and the beginning of the
  line of its owner
-/

namespace Dag

open Foundation

/-- The number of a `LogLevel::Level`. -/
def LogLevel.value : LogLevel → ℕ
  | .DEBUG => 0
  | .INFO => 1
  | .ERROR => 2
  | .FATAL => 3
  | .UNKNOWN => 4

/-- A `Logger`. -/
structure Logger where
  logger_name : Text
  logger_level : LogLevel
  appenders : List ℕ
  deriving DecidableEq, Repr

namespace Logger

/-- `addAppender(appender)`. -/
def addAppender (s : Logger) (appender : ℕ) : Logger :=
  { s with appenders := s.appenders ++ [appender] }

/-- `delAppender(appender)`: `std::list::remove` takes out all that are equal. -/
def delAppender (s : Logger) (appender : ℕ) : Logger :=
  { s with appenders := s.appenders.filter (· ≠ appender) }

/-- `clearAppender()`. -/
def clearAppender (s : Logger) : Logger := { s with appenders := [] }

/-- `setLoggerLevel(loggerLevel)`. -/
def setLoggerLevel (s : Logger) (loggerLevel : LogLevel) : Logger :=
  { s with logger_level := loggerLevel }

/-- `log(event)`: the calls `appender->log(event)` that it makes. -/
def log (s : Logger) (event : LogEvent) : List (ℕ × LogEvent) :=
  if s.logger_level.value ≤ event.level.value then s.appenders.map fun k => (k, event) else []

/-- A change of a logger. -/
inductive Change
  | addAppender (appender : ℕ)
  | delAppender (appender : ℕ)
  | clearAppender
  | setLoggerLevel (loggerLevel : LogLevel)
  deriving DecidableEq, Repr

def change (s : Logger) : Change → Logger
  | .addAppender appender => s.addAppender appender
  | .delAppender appender => s.delAppender appender
  | .clearAppender => s.clearAppender
  | .setLoggerLevel loggerLevel => s.setLoggerLevel loggerLevel

end Logger

/-- The text that each item puts into the output for `StdoutLogAppender::log(event)`. -/
def StdoutLogAppender.log (strftime : Strftime) (formatter : ℕ → LogFormatter)
    (op : ℕ × LogEvent) : List Text :=
  (formatter op.1).items.map (FormatItem.format strftime op.2)

/-- Threads that log: `locks` are the spin locks of the appenders, `loop` is the logger whose
appenders the thread goes through, and `todo` is what is left of them. Each appender has a lock of its
own, so that lines are whole in what comes from one appender; in `std::cout`, which all of them write
to, the lines of two appenders may be mixed. A change of a logger, as `addAppender` and `delAppender`
make, is refused while a thread is in the loop of its `log`. -/
structure Logging (ι : Type*) where
  loggers : ℕ → Logger
  locks : Locks ι ℕ (ℕ × LogEvent) Text
  loop : ι → Option ℕ
  todo : ι → List (ℕ × LogEvent)

namespace Logging

variable {ι : Type*}

inductive Act (ι : Type*)
  /-- `logger->log(event)` -/
  | log (i : ι) (logger : ℕ) (event : LogEvent)
  /-- the next appender, or the end of the loop -/
  | next (i : ι)
  /-- one `test_and_set` in `lock()` -/
  | testAndSet (i : ι)
  /-- `item->format(os, event)` of the next item -/
  | item (i : ι)
  | unlock (i : ι)
  /-- a change of a logger -/
  | change (logger : ℕ) (c : Logger.Change)
  deriving DecidableEq, Repr

/-- Nobody logs. -/
def start (ι : Type*) (loggers : ℕ → Logger) : Logging ι :=
  ⟨loggers, Locks.start _ _ _ _, fun _ => none, fun _ => []⟩

section Step

variable [Fintype ι] [DecidableEq ι] (strftime : Strftime) (formatter : ℕ → LogFormatter)

/-- A step of the spin locks. -/
def lockStep (s : Logging ι) (a : Locks.Act ι (ℕ × LogEvent)) : Option (Logging ι) :=
  (s.locks.step Prod.fst (StdoutLogAppender.log strftime formatter) a).map fun locks =>
    { s with locks := locks }

def step (s : Logging ι) : Act ι → Option (Logging ι)
  | .log i logger event =>
    if s.loop i = none then some { s with
      loop := Function.update s.loop i (some logger)
      todo := Function.update s.todo i ((s.loggers logger).log event) }
    else none
  | .next i =>
    if s.loop i = none ∨ s.locks.place i ≠ .outside then none
    else match s.todo i with
      | op :: ops =>
        lockStep strftime formatter { s with todo := Function.update s.todo i ops } (.call i op)
      | [] => some { s with loop := Function.update s.loop i none }
  | .testAndSet i => lockStep strftime formatter s (.testAndSet i)
  | .item i => lockStep strftime formatter s (.act i)
  | .unlock i => lockStep strftime formatter s (.release i)
  | .change logger c =>
    -- not while a thread goes through the appenders of the logger
    if ∀ i, s.loop i ≠ some logger then
      some { s with loggers := Function.update s.loggers logger ((s.loggers logger).change c) }
    else none

end Step

/-- What a step asks the thread `i` to log: its event, if the level is high enough, once for every
time that an appender is in the logger at that moment. -/
def asked [DecidableEq ι] (i : ι) (loggers : ℕ → Logger) : Act ι → List (ℕ × LogEvent)
  | .log j logger event => if j = i then (loggers logger).log event else []
  | _ => []

/-- The loggers behind a step. -/
def changed (loggers : ℕ → Logger) : Act ι → ℕ → Logger
  | .change logger c => Function.update loggers logger ((loggers logger).change c)
  | _ => loggers

/-- **What the thread `i` should log** in a run. -/
def due [DecidableEq ι] (i : ι) : (ℕ → Logger) → List (Act ι) → List (ℕ × LogEvent)
  | _, [] => []
  | loggers, a :: as => asked i loggers a ++ due i (changed loggers a) as

/-- `std::cout`. -/
def cout (s : Logging ι) : Text := s.locks.history.flatMap Prod.snd

/-- What has been put out through the appender `k`. -/
def output (k : ℕ) (s : Logging ι) : Text := (s.locks.historyOn Prod.fst k).flatMap Prod.snd

/-- A line: the formatted output of an event that a thread has handed to an appender. -/
def line (strftime : Strftime) (formatter : ℕ → LogFormatter) (c : ι × ℕ × LogEvent) : Text :=
  (formatter c.2.1).format strftime c.2.2

/-- What the thread `i` has handed to the appenders. -/
def handed [DecidableEq ι] (i : ι) (s : Logging ι) : List (ℕ × LogEvent) :=
  (Locks.ofThread i s.locks.called).map Prod.snd

/-- What the thread `i` has still to log: an event that waits for the lock, and the rest of its
loop. -/
def left (i : ι) (s : Logging ι) : List (ℕ × LogEvent) :=
  (Locks.pending i (s.locks.place i)).map Prod.snd ++ s.todo i

/-! ## What a thread logs -/

section Due

variable [Fintype ι] [DecidableEq ι] {strftime : Strftime} {formatter : ℕ → LogFormatter}
variable {s t : Logging ι} {a : Act ι} {i : ι} {as : List (Act ι)} {loggers : ℕ → Logger}

omit [Fintype ι] in
/-- A step of the locks calls what it is asked to call, and nothing else. -/
theorem lockStep_cases {b : Locks.Act ι (ℕ × LogEvent)}
    (ht : lockStep strftime formatter s b = some t) :
    ∃ locks, s.locks.step Prod.fst (StdoutLogAppender.log strftime formatter) b = some locks ∧
      t = { s with locks := locks } ∧
      ((∃ i op, b = .call i op ∧ locks.called = s.locks.called ++ [(i, op)]) ∨
        ((∀ i op, b ≠ .call i op) ∧ locks.called = s.locks.called)) := by
  obtain ⟨locks, hlocks, rfl⟩ := Option.map_eq_some_iff.mp ht
  refine ⟨locks, hlocks, rfl, ?_⟩
  rcases Locks.step_cases hlocks with ⟨j, op, rfl, -, rfl⟩ | ⟨j, op, rfl, -, -, rfl⟩ |
    ⟨j, op, rfl, -, -, rfl⟩ | ⟨j, op, b, rest, rfl, -, rfl⟩ | ⟨j, op, rfl, -, rfl⟩
  · exact Or.inl ⟨j, op, rfl, rfl⟩
  all_goals exact Or.inr ⟨nofun, rfl⟩

omit [Fintype ι] in
/-- The steps of a thread that has been at its lock. -/
theorem lockStep_frame {b : Locks.Act ι (ℕ × LogEvent)} (hb : ∀ i op, b ≠ .call i op)
    (ht : lockStep strftime formatter s b = some t) :
    t.loggers = s.loggers ∧ t.loop = s.loop ∧ t.todo = s.todo ∧
      ∀ i, t.handed i = s.handed i := by
  obtain ⟨locks, -, rfl, ⟨i, op, rfl, -⟩ | ⟨-, hcalled⟩⟩ := lockStep_cases ht
  · exact absurd rfl (hb i op)
  · exact ⟨rfl, rfl, rfl, fun i => by rw [handed, handed, hcalled]⟩

/-- A thread that is in no loop has nothing to go through. -/
def LoopInv (s : Logging ι) : Prop := ∀ i, s.loop i = none → s.todo i = []

/-- **What one step does for each thread**: what it is asked to log goes behind what it has still to
go through, from the front of which it is handed to an appender. -/
theorem handed_step (h : s.LoopInv) (ht : s.step strftime formatter a = some t) :
    t.LoopInv ∧ t.loggers = changed s.loggers a ∧
      ∀ i, t.handed i ++ t.todo i = s.handed i ++ s.todo i ++ asked i s.loggers a := by
  have hframe : ∀ {b : Locks.Act ι (ℕ × LogEvent)}, (∀ i op, b ≠ .call i op) →
      lockStep strftime formatter s b = some t →
      t.LoopInv ∧ t.loggers = s.loggers ∧
        ∀ i, t.handed i ++ t.todo i = s.handed i ++ s.todo i ++ [] := by
    intro b hb hu
    obtain ⟨hloggers, hloop, htodo, hhanded⟩ := lockStep_frame hb hu
    refine ⟨fun i hi => ?_, hloggers, fun i => ?_⟩
    · rw [htodo]
      exact h i (hloop ▸ hi)
    · rw [htodo, hhanded, List.append_nil]
  cases a with
  | log j logger event =>
    simp only [step] at ht
    split_ifs at ht with hloop
    obtain rfl := Option.some.inj ht
    refine ⟨fun i hi => ?_, rfl, fun i => ?_⟩
    · by_cases hij : i = j
      · subst hij
        simp at hi
      · have hi' : s.loop i = none := by simpa [hij] using hi
        simpa [hij] using h i hi'
    · by_cases hij : i = j
      · subst hij
        simp [handed, asked, h i hloop]
      · simp [handed, asked, hij, Ne.symm hij]
  | next j =>
    simp only [step] at ht
    split_ifs at ht with hbusy
    obtain ⟨hloop, -⟩ := not_or.mp hbusy
    split at ht
    · rename_i op ops htodo
      obtain ⟨locks, -, rfl, ⟨i, op', hcall, hcalled⟩ | ⟨hcon, -⟩⟩ := lockStep_cases ht
      · obtain ⟨rfl, rfl⟩ := Locks.Act.call.inj hcall
        refine ⟨fun i hi => ?_, rfl, fun i => ?_⟩
        · by_cases hij : i = j
          · exact absurd (hij ▸ hi) hloop
          · simpa [hij] using h i hi
        · by_cases hij : i = j
          · subst hij
            simp [handed, asked, hcalled, Locks.ofThread, htodo]
          · simp [handed, asked, hcalled, Locks.ofThread, hij, Ne.symm hij]
      · exact absurd rfl (hcon j op)
    · rename_i htodo
      obtain rfl := Option.some.inj ht
      refine ⟨fun i hi => ?_, rfl, fun i => by simp [handed, asked]⟩
      by_cases hij : i = j
      · rw [hij]
        exact htodo
      · exact h i (by simpa [hij] using hi)
  | testAndSet j => exact hframe (fun _ _ hcall => by cases hcall) ht
  | item j => exact hframe (fun _ _ hcall => by cases hcall) ht
  | unlock j => exact hframe (fun _ _ hcall => by cases hcall) ht
  | change logger c =>
    simp only [step] at ht
    split_ifs at ht
    obtain rfl := Option.some.inj ht
    exact ⟨h, rfl, fun i => by simp [handed, asked]⟩

/-- **Nothing is lost or doubled on the way** to the appenders: what a thread should log is what it
has handed to them, and what it has still to go through. -/
theorem handed_of_exec (h : s.LoopInv) (ht : exec (step strftime formatter) s as = some t) (i : ι) :
    t.handed i ++ t.todo i = s.handed i ++ s.todo i ++ due i s.loggers as := by
  induction as generalizing s with
  | nil =>
    obtain rfl := Option.some.inj ht
    exact (List.append_nil _).symm
  | cons a as ih =>
    obtain ⟨u, hu, ht⟩ := exec_cons_eq_some.mp ht
    obtain ⟨hinv, hloggers, hstep⟩ := handed_step h hu
    rw [ih hinv ht, hstep i, hloggers, due, List.append_assoc]

end Due

/-! ## What comes out -/

section Output

variable [Fintype ι] [DecidableEq ι] {strftime : Strftime} {formatter : ℕ → LogFormatter}
variable {s t : Logging ι} {a : Act ι} {as : List (Act ι)} {loggers : ℕ → Logger}

/-- The invariant of the spin locks. -/
abbrev LocksInv (strftime : Strftime) (formatter : ℕ → LogFormatter) (s : Logging ι) : Prop :=
  Locks.Inv Prod.fst (StdoutLogAppender.log strftime formatter) s.locks

theorem locksInv_step (h : s.LocksInv strftime formatter)
    (ht : s.step strftime formatter a = some t) : t.LocksInv strftime formatter := by
  have hlock : ∀ {u : Logging ι} {b : Locks.Act ι (ℕ × LogEvent)},
      lockStep strftime formatter u b = some t → u.locks = s.locks →
        t.LocksInv strftime formatter := by
    intro u b hu heq
    obtain ⟨locks, hlocks, rfl⟩ := Option.map_eq_some_iff.mp hu
    rw [heq] at hlocks
    exact h.step hlocks
  cases a with
  | log j logger event =>
    simp only [step] at ht
    split_ifs at ht
    obtain rfl := Option.some.inj ht
    exact h
  | next j =>
    simp only [step] at ht
    split_ifs at ht
    split at ht
    · exact hlock ht rfl
    · obtain rfl := Option.some.inj ht
      exact h
  | testAndSet j | item j | unlock j => exact hlock ht rfl
  | change logger c =>
    simp only [step] at ht
    split_ifs at ht
    obtain rfl := Option.some.inj ht
    exact h

theorem flatMap_snd {β : Type*} (c : β) (texts : List Text) :
    (texts.map (Prod.mk c)).flatMap Prod.snd = texts.flatten := by
  rw [List.flatMap_def, List.map_map]
  exact congrArg List.flatten (List.map_id texts)

omit [Fintype ι] [DecidableEq ι] in
/-- Whole operations of an appender put out whole lines. -/
theorem flatMap_whole (ops : List (ι × ℕ × LogEvent)) :
    (Locks.whole (StdoutLogAppender.log strftime formatter) ops).flatMap Prod.snd =
      ops.flatMap (line strftime formatter) := by
  induction ops with
  | nil => rfl
  | cons c ops ih =>
    rw [Locks.whole, List.flatMap_cons, List.flatMap_append]
    refine congrArg₂ (· ++ ·) ?_ ih
    rw [flatMap_snd, StdoutLogAppender.log, line, LogFormatter.format, List.flatMap_def]

omit [Fintype ι] [DecidableEq ι] in
/-- When everything goes through the appender `k`, its output is all that there is. -/
theorem cout_eq_output {k : ℕ} (h : ∀ x ∈ s.locks.history, x.1.1 = k) : s.cout = s.output k := by
  rw [cout, output, Locks.historyOn_eq h]

/-- What a thread should have logged is what has taken the lock of an appender, and what is left. -/
theorem due_of_exec (h : exec (step strftime formatter) (start ι loggers) as = some s) (i : ι) :
    due i loggers as = (Locks.ofThread i s.locks.entered).map Prod.snd ++ s.left i := by
  have hlocks : s.LocksInv strftime formatter :=
    exec_invariant (fun _ _ _ hi ht => locksInv_step hi ht) Locks.inv_start h
  have hhanded := handed_of_exec (s := start ι loggers) (fun _ _ => rfl) h i
  rw [handed, hlocks.order i, List.map_append, List.append_assoc] at hhanded
  exact hhanded.symm

/-- **Lines come out whole**: any number of threads log to any loggers, in any interleaving. What
comes out of an appender is the lines of the events that have taken its lock, one after another, and
of the last of them only a beginning while one thread, and no other, is between `lock()` and
`unlock()`. These events are, for each thread and in its order, all that it should have logged
through the appender, up to what it has still to log. -/
theorem output_of_exec (h : exec (step strftime formatter) (start ι loggers) as = some s) (k : ℕ) :
    ∃ entered : List (ι × ℕ × LogEvent),
      (∀ i, (due i loggers as).filter (fun op => op.1 = k) =
        (Locks.ofThread i entered).map Prod.snd ++ (s.left i).filter fun op => op.1 = k) ∧
      (((∀ i event rest, s.locks.place i ≠ .inside (k, event) rest) ∧
          s.output k = entered.flatMap (line strftime formatter)) ∨
        ∃ i event rest past begun, s.locks.place i = .inside (k, event) rest ∧
          (∀ j event' rest', s.locks.place j = .inside (k, event') rest' → j = i) ∧
          entered = past ++ [(i, k, event)] ∧
          line strftime formatter (i, k, event) = begun ++ rest.flatten ∧
          s.output k = past.flatMap (line strftime formatter) ++ begun) := by
  have hlocks : s.LocksInv strftime formatter :=
    exec_invariant (fun _ _ _ hi ht => locksInv_step hi ht) Locks.inv_start h
  refine ⟨s.locks.enteredOn Prod.fst k, fun i => ?_, ?_⟩
  · rw [due_of_exec h i, List.filter_append, List.filter_map, Locks.ofThread, Locks.ofThread,
      Locks.enteredOn, List.filter_comm]
    rfl
  · rcases hlocks.historyOn_cases k with ⟨hfree, hhistory⟩ |
      ⟨i, ⟨k', event⟩, rest, past, front, hi, rfl, hentered, hprog, hhistory⟩
    · refine Or.inl ⟨fun i event rest hi => ?_, ?_⟩
      · exact absurd ((hlocks.held i _ rest hi).symm.trans hfree) (by decide)
      · rw [output, hhistory, flatMap_whole]
    · refine Or.inr ⟨i, event, rest, past, front.flatten, hi, fun j event' rest' hj => ?_, hentered,
        ?_, ?_⟩
      · exact hlocks.exclusive j i _ _ _ _ hj hi rfl
      · rw [line, LogFormatter.format, List.flatMap_def, ← List.flatten_append]
        exact congrArg List.flatten hprog
      · rw [output, hhistory, List.flatMap_append, flatMap_whole, flatMap_snd]

/-- An event with a message of one character. -/
def said (c : Char) : LogEvent := ⟨.INFO, [], [c], [], [], 1, [], 0, 0, 1, 0⟩

/-- Thread 1 spins until thread 0 has put out its line. -/
theorem output_of_exec_two_threads :
    ∃ s : Logging (Fin 2),
      exec (step (fun _ _ => []) fun _ => ⟨false, [], [.message, .newLine]⟩)
        (start (Fin 2) fun _ => ⟨[], .DEBUG, [0]⟩)
        [.log 0 0 (said 'a'), .next 0, .testAndSet 0, .item 0, .log 1 0 (said 'b'), .next 1,
          .testAndSet 1, .item 0, .unlock 0, .testAndSet 1, .item 1] = some s ∧
      s.output 0 = ['a', '\n', 'b'] ∧
      ∃ entered : List (Fin 2 × ℕ × LogEvent),
        ((∀ i event rest, s.locks.place i ≠ .inside (0, event) rest) ∧ s.output 0 =
            entered.flatMap (line (fun _ _ => []) fun _ => ⟨false, [], [.message, .newLine]⟩)) ∨
          ∃ i event past, entered = past ++ [(i, 0, event)] := by
  obtain ⟨s, hs⟩ : ∃ s : Logging (Fin 2),
      exec (step (fun _ _ => []) fun _ => ⟨false, [], [.message, .newLine]⟩)
        (start (Fin 2) fun _ => ⟨[], .DEBUG, [0]⟩)
        [.log 0 0 (said 'a'), .next 0, .testAndSet 0, .item 0, .log 1 0 (said 'b'), .next 1,
          .testAndSet 1, .item 0, .unlock 0, .testAndSet 1, .item 1] = some s := ⟨_, rfl⟩
  obtain ⟨entered, -, hcases⟩ := output_of_exec hs 0
  refine ⟨s, hs, ?_, entered, ?_⟩
  · obtain rfl := Option.some.inj hs
    decide
  · rcases hcases with hfree | ⟨i, event, rest, past, begun, -, -, hentered, -⟩
    · exact Or.inl hfree
    · exact Or.inr ⟨i, event, past, hentered⟩

example :
    (exec (step (fun _ _ => []) fun _ => ⟨false, [], [.message, .newLine]⟩)
        (start (Fin 2) fun logger => ⟨[], .DEBUG, [logger]⟩)
        [.log 0 0 (said 'a'), .log 1 1 (said 'b'), .next 0, .next 1, .testAndSet 0, .testAndSet 1,
          .item 0, .item 1, .item 0, .item 1]).map cout = some ['a', 'b', '\n', '\n'] := by
  decide

end Output

end Logging

end Dag
