import Dag.Logger.Formatter
import Dag.Foundation.Run

/-!
# Logging: the file appender

A `FileLogAppender` writes the events it is given to a file. When the time of an event is more than
3 seconds behind that of the last opening, it closes the file and opens it again, so as to make sure
that the log can be written. It opens the file in the default mode of `std::ofstream`, in which the
file is truncated.

What the stream still buffers counts as contents of the file.

## Main definitions

* `OFStream`, `FileLogAppender`: the stream and the appender with its file
* `FileLogAppender.step`: an event, or a change of the formatter
* `outputs`: the formatted output of all the events of a run
* `Lossless`: the condition that a reopening finds the file empty

## Main results

* `log_eq`: what an event does to an appender whose file is open
* `contents_eq_iff`: the file holds the output of all the events exactly when all the steps meet the
  condition
* `not_contents_eq_of_later`: two events ten seconds apart
-/

namespace Dag

open Foundation

/-- The state of a `std::ofstream`: whether it has a file open, and its `failbit`. -/
structure OFStream where
  isOpen : Bool
  fail : Bool
  deriving DecidableEq, Repr

/-- `filestream.close()`, which fails when there is no open file. -/
def OFStream.close (o : OFStream) : OFStream :=
  if o.isOpen then { o with isOpen := false } else { o with fail := true }

/-- A `FileLogAppender`, with the contents of its file. -/
structure FileLogAppender where
  formatter : LogFormatter
  filestream : OFStream
  contents : Text
  reopen_error : Bool
  last_open_time : BitVec 64
  deriving DecidableEq, Repr

/-- What a user does with an appender: log an event, with whether the file can be opened then, and
replace the formatter. -/
inductive AppenderAct
  | log (event : LogEvent) (opens : Bool)
  | setFormatter (formatter : LogFormatter)
  deriving DecidableEq, Repr

namespace AppenderAct

/-- The file can be opened. -/
def Opens : AppenderAct → Prop
  | .log _ opens => opens = true
  | .setFormatter _ => True

/-- The event that is logged. -/
def event? : AppenderAct → Option LogEvent
  | .log event _ => some event
  | .setFormatter _ => none

end AppenderAct

namespace FileLogAppender

/-- `filestream_.open(filename_)`, which fails when a file is open already, and truncates the file
when it succeeds. -/
def openFile (s : FileLogAppender) (opens : Bool) : FileLogAppender :=
  if !s.filestream.isOpen && opens then { s with filestream := ⟨true, false⟩, contents := [] }
  else { s with filestream := { s.filestream with fail := true } }

/-- `reopen()`. -/
def reopen (s : FileLogAppender) (opens : Bool) : FileLogAppender :=
  let closed := if s.filestream.fail then s else { s with filestream := s.filestream.close }
  let opened := closed.openFile opens
  { opened with reopen_error := opened.filestream.fail }

/-- `FileLogAppender(filename)`, with the formatter that its base class is given, for a file that
has held `old`. -/
def construct (formatter : LogFormatter) (old : Text) (opens : Bool) : FileLogAppender :=
  reopen ⟨formatter, ⟨false, false⟩, old, false, 0⟩ opens

/-- `filestream_ << text`. -/
def put (s : FileLogAppender) (text : Text) : FileLogAppender :=
  if s.filestream.fail then s else { s with contents := s.contents ++ text }

variable (strftime : Strftime)

/-- `log(event)`. -/
def log (s : FileLogAppender) (event : LogEvent) (opens : Bool) : FileLogAppender :=
  let now := event.time
  -- `last_open_time_ + 3` is computed in `uint64_t`
  let t := if s.last_open_time + 3 < now then { s.reopen opens with last_open_time := now } else s
  if t.reopen_error then t else t.put (t.formatter.format strftime event)

def step (s : FileLogAppender) : AppenderAct → Option FileLogAppender
  | .log event opens => some (s.log strftime event opens)
  | .setFormatter formatter => some { s with formatter := formatter }

/-- **The formatted output of all the events** of a run, in order, with the formatter that each of
them finds. -/
def outputs : LogFormatter → List AppenderAct → Text
  | _, [] => []
  | formatter, .log event _ :: as => formatter.format strftime event ++ outputs formatter as
  | _, .setFormatter formatter :: as => outputs formatter as

/-- When the file is reopened for an event, nothing has been written to it. -/
def Lossless (s : FileLogAppender) (a : AppenderAct) : Prop :=
  ∀ event opens, a = .log event opens → s.last_open_time + 3 < event.time → s.contents = []

/-! ## One event -/

section Step

variable {strftime : Strftime} {s t : FileLogAppender}

/-- The file is open, and nothing has gone wrong. -/
structure Ready (s : FileLogAppender) : Prop where
  filestream_eq : s.filestream = ⟨true, false⟩
  reopen_error_eq : s.reopen_error = false

theorem ready_construct (formatter : LogFormatter) (old : Text) :
    (construct formatter old true).Ready := ⟨rfl, rfl⟩

/-- A reopening leaves an empty file. -/
theorem reopen_eq (h : s.Ready) : s.reopen true = { s with contents := [] } := by
  obtain ⟨formatter, filestream, contents, reopen_error, last_open_time⟩ := s
  obtain ⟨rfl, rfl⟩ := h
  rfl

theorem put_eq (h : s.Ready) (text : Text) :
    s.put text = { s with contents := s.contents ++ text } := by
  rw [put, h.filestream_eq]
  rfl

/-- **What an event does**: its output is appended, after a reopening to an empty file. -/
theorem log_eq (h : s.Ready) (event : LogEvent) :
    s.log strftime event true = { s with
      contents := (if s.last_open_time + 3 < event.time then [] else s.contents) ++
        s.formatter.format strftime event
      last_open_time :=
        if s.last_open_time + 3 < event.time then event.time else s.last_open_time } := by
  by_cases hlate : s.last_open_time + 3 < event.time
  · have hopen : Ready { s with
        contents := [], reopen_error := false, last_open_time := event.time } :=
      ⟨h.filestream_eq, rfl⟩
    simp only [log, if_pos hlate, reopen_eq h, h.reopen_error_eq, Bool.false_eq_true, if_false,
      put_eq hopen]
  · simp only [log, if_neg hlate, h.reopen_error_eq, Bool.false_eq_true, if_false, put_eq h]

theorem Ready.setFormatter (h : s.Ready) (formatter : LogFormatter) :
    Ready { s with formatter := formatter } := ⟨h.filestream_eq, h.reopen_error_eq⟩

theorem Ready.log (h : s.Ready) (event : LogEvent) : (s.log strftime event true).Ready := by
  rw [log_eq h]
  exact ⟨h.filestream_eq, h.reopen_error_eq⟩

/-- An event whose reopening finds the file empty is appended to what has been written. -/
theorem contents_log (h : s.Ready) {event : LogEvent}
    (hl : s.last_open_time + 3 < event.time → s.contents = []) :
    (s.log strftime event true).contents = s.contents ++ s.formatter.format strftime event := by
  rw [log_eq h]
  dsimp only
  split_ifs with hlate
  · rw [hl hlate]
  · rfl

theorem formatter_log (h : s.Ready) (event : LogEvent) :
    (s.log strftime event true).formatter = s.formatter := by
  rw [log_eq h]

end Step

/-! ## Runs -/

section Runs

variable {strftime : Strftime} {s t : FileLogAppender} {as : List AppenderAct}

/-- The file never holds more than has been put out. -/
theorem length_contents_le (h : s.Ready) (hopens : ∀ a ∈ as, a.Opens)
    (ht : exec (step strftime) s as = some t) :
    t.contents.length ≤ s.contents.length + (outputs strftime s.formatter as).length := by
  induction as generalizing s with
  | nil =>
    obtain rfl := Option.some.inj ht
    exact Nat.le_add_right _ _
  | cons a as ih =>
    obtain ⟨u, hu, ht⟩ := exec_cons_eq_some.mp ht
    have hrest : ∀ b ∈ as, b.Opens := fun b hb => hopens b (List.mem_cons_of_mem _ hb)
    cases a with
    | log event opens =>
      obtain rfl : opens = true := hopens _ List.mem_cons_self
      obtain rfl := Option.some.inj hu
      have hle := ih (h.log event) hrest ht
      rw [formatter_log h, log_eq h] at hle
      rw [outputs, List.length_append]
      dsimp only at hle
      rw [List.length_append] at hle
      split_ifs at hle
      · rw [List.length_nil] at hle
        omega
      · omega
    | setFormatter formatter =>
      obtain rfl := Option.some.inj hu
      exact ih (h.setFormatter formatter) hrest ht

/-- From a state with the file open, the output of a run is appended exactly when nothing is lost on
the way. -/
theorem contents_eq_iff_of_ready (h : s.Ready) (hopens : ∀ a ∈ as, a.Opens)
    (ht : exec (step strftime) s as = some t) :
    t.contents = s.contents ++ outputs strftime s.formatter as ↔
      Guarded (step strftime) Lossless s as := by
  induction as generalizing s with
  | nil =>
    obtain rfl := Option.some.inj ht
    simp [outputs, Guarded]
  | cons a as ih =>
    obtain ⟨u, hu, ht⟩ := exec_cons_eq_some.mp ht
    have hrest : ∀ b ∈ as, b.Opens := fun b hb => hopens b (List.mem_cons_of_mem _ hb)
    have hguard : Guarded (step strftime) Lossless s (a :: as) ↔
        Lossless s a ∧ Guarded (step strftime) Lossless u as := by
      simp only [Guarded, hu, Option.some.injEq, forall_eq']
    rw [hguard]
    cases a with
    | log event opens =>
      obtain rfl : opens = true := hopens _ List.mem_cons_self
      obtain rfl := Option.some.inj hu
      rw [← ih (h.log event) hrest ht, formatter_log h, outputs, ← List.append_assoc]
      by_cases hl : s.last_open_time + 3 < event.time → s.contents = []
      · have hlossless : Lossless s (.log event true) := by
          rintro _ _ ⟨⟩
          exact hl
        rw [contents_log h hl, and_iff_right hlossless]
      · have hlossy : ¬ Lossless s (.log event true) := fun hlossless =>
          hl (hlossless event true rfl)
        apply iff_of_false _ fun hand => hlossy hand.1
        intro heq
        have hle := length_contents_le (h.log event) hrest ht
        obtain ⟨hlate, hne⟩ := Classical.not_imp.mp hl
        have hpos := List.length_pos_iff.mpr hne
        rw [heq, formatter_log h, log_eq h] at hle
        simp only [if_pos hlate, List.length_append, List.length_nil] at hle
        omega
    | setFormatter formatter =>
      obtain rfl := Option.some.inj hu
      have hlossless : Lossless s (.setFormatter formatter) := by
        rintro _ _ ⟨⟩
      rw [and_iff_right hlossless]
      exact ih (h.setFormatter formatter) hrest ht

/-- **The log is complete** exactly when no reopening finds something in the file. -/
theorem contents_eq_iff (formatter : LogFormatter) (old : Text) (hopens : ∀ a ∈ as, a.Opens)
    (hs : exec (step strftime) (construct formatter old true) as = some s) :
    s.contents = outputs strftime formatter as ↔
      Guarded (step strftime) Lossless (construct formatter old true) as :=
  contents_eq_iff_of_ready (ready_construct formatter old) hopens hs

/-- An event at the given time, with an empty message. -/
def eventAt (time : BitVec 64) : LogEvent :=
  ⟨.INFO, [], [], [], [], 1, [], 0, time, 1, 0⟩

theorem contents_eq_iff_once :
    ∃ s, exec (step fun _ _ => []) (construct ⟨false, [], [.logLevel, .newLine]⟩ ['x'] true)
        [.log (eventAt 10) true, .log (eventAt 12) true] = some s ∧
      (s.contents = outputs (fun _ _ => []) ⟨false, [], [.logLevel, .newLine]⟩
          [.log (eventAt 10) true, .log (eventAt 12) true] ↔
        Guarded (step fun _ _ => []) Lossless
          (construct ⟨false, [], [.logLevel, .newLine]⟩ ['x'] true)
          [.log (eventAt 10) true, .log (eventAt 12) true]) :=
  ⟨_, rfl, contents_eq_iff _ _ (by simp [AppenderAct.Opens]) rfl⟩

/-- The event at time 20 reopens the file, and the line of the event at time 10 is gone. -/
theorem not_contents_eq_of_later :
    ¬ ∀ (strftime : Strftime) (formatter : LogFormatter) (old : Text) (as : List AppenderAct)
      (s : FileLogAppender), (∀ a ∈ as, a.Opens) →
        ((as.filterMap AppenderAct.event?).Pairwise fun e e' => e.time ≤ e'.time) →
        exec (step strftime) (construct formatter old true) as = some s →
        s.contents = outputs strftime formatter as := by
  intro h
  have heq := h (fun _ _ => []) ⟨false, [], [.newLine]⟩ []
    [.log (eventAt 10) true, .log (eventAt 20) true] _ (by simp [AppenderAct.Opens])
    (by simp [AppenderAct.event?, eventAt]) rfl
  have hlength := congrArg List.length heq
  cases hlength

end Runs

end FileLogAppender

end Dag
