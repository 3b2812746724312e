import Dag.Logger.Formatter
import Mathlib.Tactic.Common

/-!
# Logging: how a formatter reads its pattern

`LogFormatter::init` goes through the pattern with an index. Outside of a directive it collects a
regular string in `tmp`, until a `%` begins a directive of one character. Behind the directive `%d`
it looks for a date format in braces, and collects it in `data_format`, of which there is one for
the whole pattern. The items are made afterwards, from the list `patterns`.

A `std::string` may be read at `size()`, where the null character is. A read behind that is out of
range, and the end of what can be said.

The same pattern can be read character by character, without an index: a `PatternReader` has a mode,
and what it has collected. `init` does what this reader says.

## Main definitions

* `Scanner`, `Scanner.pass`, `Scanner.loop`: the variables of `init`, and its loop
* `makeItems`, `LogFormatter.init`: the items, and `init`
* `PatternReader.step`, `readPattern`: a pattern read character by character

## Main results

* `Scanner.loop_eq`: the loop does what the reader says
* `LogFormatter.init_eq`: so does `init`
-/

namespace Dag

/-! ## The source -/

/-- An entry of `patterns`, of type 0 or of type 1. -/
inductive Pattern
  | string (content : Text)
  | template (c : Char)
  deriving DecidableEq, Repr

/-- How a run of `init` may fail to return: by a read at an index behind the end of the pattern, or
because the passes that it was given are over. -/
inductive Halt
  | outOfRange (i : ℕ)
  | outOfFuel
  deriving DecidableEq, Repr

/-- `pattern_[i]`. -/
def charAt (pattern : Text) (i : ℕ) : Except Halt Char :=
  if h : i < pattern.length then .ok pattern[i]
  else if i = pattern.length then .ok '\x00'
  else .error (.outOfRange i)

/-- The variables of `init`. -/
structure Scanner where
  patterns : List Pattern
  tmp : Text
  data_format : Text
  error : Bool
  parsing_string : Bool
  i : ℕ
  deriving DecidableEq, Repr

/-- How a pass of the loop ends: in `continue` or in `break`. -/
inductive Flow
  | next (s : Scanner)
  | leave (s : Scanner)
  deriving DecidableEq, Repr

/-- `if (!tmp.empty()) patterns.emplace_back(0, tmp)`. -/
def flush (patterns : List Pattern) (tmp : Text) : List Pattern :=
  if tmp.isEmpty then patterns else patterns ++ [.string tmp]

@[simp] theorem flush_nil (patterns : List Pattern) : flush patterns [] = patterns := rfl

namespace Scanner

/-- The variables at the beginning of `init`. -/
def construct : Scanner := ⟨[], [], [], false, true, 0⟩

/-- The inner loop, up to a `}` or to the end. -/
def collect (pattern : Text) : ℕ → Scanner → Except Halt Scanner
  | 0, _ => .error .outOfFuel
  | fuel + 1, s =>
    if s.i < pattern.length then do
      let c ← charAt pattern s.i
      if c ≠ '}' then
        collect pattern fuel { s with data_format := s.data_format ++ [c], i := s.i + 1 }
      else .ok s
    else .ok s

/-- What is done behind `%d`. -/
def date (pattern : Text) (fuel : ℕ) (s : Scanner) : Except Halt Flow := do
  if s.i < pattern.length then
    if (← charAt pattern s.i) ≠ '{' then return .next s
  let s ← collect pattern fuel { s with i := s.i + 1 }
  if (← charAt pattern s.i) ≠ '}' then return .leave { s with error := true }
  return .next { s with i := s.i + 1 }

/-- A pass of the loop. -/
def pass (pattern : Text) (fuel : ℕ) (s : Scanner) : Except Halt Flow := do
  let c ← charAt pattern s.i
  if c = '%' then
    if s.parsing_string then
      return .next { s with
        patterns := flush s.patterns s.tmp, tmp := [], parsing_string := false, i := s.i + 1 }
    -- an escape: it is looked up as a directive, like any other character
    return .next { s with
      patterns := s.patterns ++ [.template c], parsing_string := true, i := s.i + 1 }
  if s.parsing_string then
    return .next { s with tmp := s.tmp ++ [c], i := s.i + 1 }
  let s := { s with
    patterns := s.patterns ++ [.template c], parsing_string := true, i := s.i + 1 }
  if c ≠ 'd' then return .next s
  date pattern fuel s

/-- The loop. -/
def loop (pattern : Text) : ℕ → Scanner → Except Halt Scanner
  | 0, _ => .error .outOfFuel
  | fuel + 1, s =>
    if s.i < pattern.length then do
      match ← pass pattern fuel s with
      | .next s => loop pattern fuel s
      | .leave s => .ok s
    else .ok s

end Scanner

/-- The format of a date for which none is given. -/
def defaultDateFormat : Text := "%Y-%m-%d %H:%M:%S".toList

/-- The format that a `DateFormatItem` keeps. -/
def dateFormat (str : Text) : Text := if str.isEmpty then defaultDateFormat else str

/-- `DateFormatItem(str)`. -/
def FormatItem.dateFormatItem (str : Text) : FormatItem := .date (dateFormat str)

/-- `s_format_items.find(c)`. -/
def s_format_items (c : Char) : Option FormatItem :=
  match c with
  | 'm' => some .message
  | 'p' => some .logLevel
  | 'c' => some .loggerName
  | 'r' => some .elapse
  | 'f' => some .file
  | 'a' => some .funcName
  | 'l' => some .line
  | 't' => some .tid
  | 'b' => some .fid
  | 'n' => some .threadName
  | 'N' => some .newLine
  | 'T' => some .tab
  | _ => none

/-- The item of an entry of `patterns`, if there is one. -/
def Pattern.item (data_format : Text) : Pattern → Option FormatItem
  | .string content => some (.string content)
  | .template c => if c = 'd' then some (.dateFormatItem data_format) else s_format_items c

/-- The loop over `patterns`: the items up to the first entry that has none, and whether there is
such an entry. -/
def makeItems (data_format : Text) : List Pattern → List FormatItem × Bool
  | [] => ([], false)
  | v :: patterns =>
    match v.item data_format with
    | none => ([], true)
    | some item => ((makeItems data_format patterns).map (item :: ·) id)

/-- The formatter that is made of `patterns`. -/
def LogFormatter.ofPatterns (pattern : Text) (patterns : List Pattern) (data_format : Text) :
    LogFormatter :=
  let r := makeItems data_format patterns
  ⟨r.2, pattern, r.1⟩

/-- What `init` does behind the loop. -/
def Scanner.finish (pattern : Text) (s : Scanner) : LogFormatter :=
  if s.error then ⟨true, pattern, []⟩
  else .ofPatterns pattern (flush s.patterns s.tmp) s.data_format

namespace LogFormatter

/-- `init()`, with less than `fuel` passes of each loop. -/
def init (fuel : ℕ) (pattern : Text) : Except Halt LogFormatter :=
  (Scanner.loop pattern fuel .construct).map (Scanner.finish pattern)

/-- `LogFormatter(pattern)`. -/
def construct (pattern : Text) : Except Halt LogFormatter := init (pattern.length + 1) pattern

end LogFormatter

/-! ## A pattern read character by character -/

/-- Where a reader is: in a regular string, behind a `%`, behind `%d`, and in a date format. -/
inductive ReaderMode
  | string
  | template
  | dated
  | format
  deriving DecidableEq, Repr

/-- A reader of a pattern: its mode, and what it has collected. -/
@[ext]
structure PatternReader where
  mode : ReaderMode
  patterns : List Pattern
  tmp : Text
  data_format : Text
  deriving DecidableEq, Repr

namespace PatternReader

def start : PatternReader := ⟨.string, [], [], []⟩

/-- A character of a regular string, or the `%` behind it. -/
def regular (r : PatternReader) (c : Char) : PatternReader :=
  if c = '%' then { r with mode := .template, patterns := flush r.patterns r.tmp, tmp := [] }
  else { r with mode := .string, tmp := r.tmp ++ [c] }

/-- The next character. -/
def step (r : PatternReader) (c : Char) : PatternReader :=
  match r.mode with
  | .string => r.regular c
  | .template =>
    { r with mode := if c = 'd' then .dated else .string, patterns := r.patterns ++ [.template c] }
  | .dated => if c = '{' then { r with mode := .format } else r.regular c
  | .format =>
    if c = '}' then { r with mode := .string } else { r with data_format := r.data_format ++ [c] }

/-- What is made of a pattern when the reader has come to its end. -/
def finish (pattern : Text) (r : PatternReader) : Except Halt LogFormatter :=
  match r.mode with
  | .string | .template => .ok (.ofPatterns pattern (flush r.patterns r.tmp) r.data_format)
  | .dated => .error (.outOfRange (pattern.length + 1))
  | .format => .ok ⟨true, pattern, []⟩

end PatternReader

/-- The pattern has been read. -/
def readPattern (pattern : Text) : PatternReader := pattern.foldl PatternReader.step .start

/-- What a scanner has read so far, between two passes of its loop. -/
def Scanner.reader (s : Scanner) : PatternReader :=
  ⟨if s.parsing_string then .string else .template, s.patterns, s.tmp, s.data_format⟩

/-! ## The loops -/

section Index

variable {pattern rest : Text} {c : Char} {i : ℕ}

theorem lt_of_drop_eq_cons (h : pattern.drop i = c :: rest) : i < pattern.length := by
  by_contra hle
  rw [List.drop_eq_nil_of_le (by omega)] at h
  cases h

theorem drop_succ_of_drop_eq_cons (h : pattern.drop i = c :: rest) :
    pattern.drop (i + 1) = rest := by
  rw [← List.drop_drop, h, List.drop_one, List.tail_cons]

theorem charAt_of_drop_eq_cons (h : pattern.drop i = c :: rest) : charAt pattern i = .ok c := by
  have hi := lt_of_drop_eq_cons h
  rw [List.drop_eq_getElem_cons hi] at h
  rw [charAt, dif_pos hi, (List.cons.inj h).1]

end Index

/-- The reader of a date format takes in all that comes before a `}`. -/
theorem foldl_format {f : Text} (hf : '}' ∉ f) {r : PatternReader} (hr : r.mode = .format) :
    f.foldl PatternReader.step r = { r with data_format := r.data_format ++ f } := by
  induction f generalizing r with
  | nil => simp
  | cons c f ih =>
    rw [List.mem_cons, not_or] at hf
    obtain ⟨hc, hf⟩ := hf
    have hstep : r.step c = { r with data_format := r.data_format ++ [c] } := by
      simp [PatternReader.step, hr, Ne.symm hc]
    rw [List.foldl_cons, hstep, ih hf (by exact hr)]
    simp

namespace Scanner

variable {pattern rest : Text} {s : Scanner} {fuel : ℕ}

/-- The inner loop takes in all that comes before a `}`, too. -/
theorem collect_eq {f : Text} (hf : '}' ∉ f) (hrest : rest = [] ∨ ∃ cs, rest = '}' :: cs)
    (hs : pattern.drop s.i = f ++ rest) (hfuel : f.length < fuel) :
    collect pattern fuel s =
      .ok { s with data_format := s.data_format ++ f, i := s.i + f.length } := by
  induction f generalizing s fuel with
  | nil =>
    obtain ⟨fuel, rfl⟩ := Nat.exists_eq_add_of_lt hfuel
    simp only [List.nil_append, List.length_nil, Nat.zero_add] at hs ⊢
    rcases hrest with rfl | ⟨cs, rfl⟩
    · have hi : ¬ s.i < pattern.length := by simpa using hs
      simp [collect, hi]
    · simp [collect, lt_of_drop_eq_cons hs, charAt_of_drop_eq_cons hs, bind, Except.bind]
  | cons c f ih =>
    obtain ⟨fuel, rfl⟩ := Nat.exists_eq_add_of_lt hfuel
    rw [List.mem_cons, not_or] at hf
    obtain ⟨hc, hf⟩ := hf
    have hlt := lt_of_drop_eq_cons hs
    have hchar := charAt_of_drop_eq_cons hs
    have hnext := drop_succ_of_drop_eq_cons hs
    have hc' : c ≠ '}' := Ne.symm hc
    rw [show (c :: f).length + fuel + 1 = (f.length + 1 + fuel) + 1 by simp]
    simp only [collect, hlt, hchar, bind, Except.bind, hc', if_true, ne_eq, not_false_eq_true]
    rw [ih hf (by exact hnext) (by omega)]
    simp [Nat.add_assoc, Nat.add_comm 1]

/-- What is done behind `%d`, when nothing is there. -/
theorem date_eq_of_nil (hs : pattern.length = s.i) (hfuel : 0 < fuel) :
    date pattern fuel s = .error (.outOfRange (pattern.length + 1)) := by
  obtain ⟨fuel, rfl⟩ := Nat.exists_eq_add_of_lt hfuel
  have hbehind : ¬ s.i + 1 < s.i := by omega
  simp [date, collect, charAt, hs, hbehind, bind, Except.bind]

/-- What is done behind `%d`, when it is not an opening brace that is there. -/
theorem date_eq_of_ne {c : Char} (hs : pattern.drop s.i = c :: rest) (hc : c ≠ '{') :
    date pattern fuel s = .ok (.next s) := by
  simp [date, lt_of_drop_eq_cons hs, charAt_of_drop_eq_cons hs, hc, bind, Except.bind, pure,
    Except.pure]

/-- What is done behind `%d`, when a format is there. -/
theorem date_eq_of_format {f : Text} (hf : '}' ∉ f)
    (hs : pattern.drop s.i = '{' :: (f ++ '}' :: rest)) (hfuel : f.length < fuel) :
    date pattern fuel s = .ok (.next
      { s with data_format := s.data_format ++ f, i := s.i + f.length + 2 }) := by
  have hnext := drop_succ_of_drop_eq_cons hs
  have hclose : pattern.drop (s.i + 1 + f.length) = '}' :: rest := by
    rw [← List.drop_drop, hnext, List.drop_left]
  simp only [date, lt_of_drop_eq_cons hs, charAt_of_drop_eq_cons hs, bind, Except.bind]
  rw [collect_eq hf (.inr ⟨rest, rfl⟩) (by exact hnext) hfuel]
  simp only [charAt_of_drop_eq_cons hclose]
  simp [pure, Except.pure]
  omega

/-- What is done behind `%d`, when a format is there that is not closed. -/
theorem date_eq_of_open {f : Text} (hf : '}' ∉ f) (hs : pattern.drop s.i = '{' :: f)
    (hfuel : f.length < fuel) :
    date pattern fuel s = .ok (.leave
      { s with data_format := s.data_format ++ f, error := true, i := s.i + f.length + 1 }) := by
  have hnext : pattern.drop (s.i + 1) = f ++ [] := by
    rw [drop_succ_of_drop_eq_cons hs, List.append_nil]
  have hlength : pattern.length = s.i + 1 + f.length := by
    have h := congrArg List.length hnext
    have hlt := lt_of_drop_eq_cons hs
    rw [List.length_drop, List.append_nil] at h
    omega
  simp only [date, lt_of_drop_eq_cons hs, charAt_of_drop_eq_cons hs, bind, Except.bind]
  rw [collect_eq hf (.inl rfl) (by exact hnext) hfuel]
  simp [charAt, hlength, pure, Except.pure]
  omega

/-! ### The outer loop -/

/-- A scanner behind the next character, when the reader has gone on to `r`. -/
def behind (s : Scanner) (r : PatternReader) : Scanner :=
  ⟨r.patterns, r.tmp, r.data_format, s.error, decide (r.mode ≠ .template), s.i + 1⟩

/-- A pass at a character: it ends in the state that the reader says, except at the `d` of a date,
behind which it goes on. -/
theorem pass_eq {c : Char} (hs : pattern.drop s.i = c :: rest) :
    pass pattern fuel s =
      if (s.reader.step c).mode = .dated then date pattern fuel (s.behind (s.reader.step c))
      else .ok (.next (s.behind (s.reader.step c))) := by
  have hchar := charAt_of_drop_eq_cons hs
  -- by the two modes that a scanner is in between passes
  cases hmode : s.parsing_string with
  | true =>
    by_cases hc : c = '%' <;>
      simp [pass, hchar, hmode, hc, reader, behind, PatternReader.step, PatternReader.regular, bind,
        Except.bind, pure, Except.pure]
  | false =>
    by_cases hc : c = '%' <;> by_cases hd : c = 'd' <;>
      simp_all [pass, reader, behind, PatternReader.step, bind, Except.bind, pure, Except.pure]

theorem step_reader_mode_ne (s : Scanner) (c : Char) : (s.reader.step c).mode ≠ .format := by
  unfold reader PatternReader.step PatternReader.regular
  split_ifs <;> simp

theorem reader_behind {r : PatternReader} (hdated : r.mode ≠ .dated)
    (hformat : r.mode ≠ .format) : (s.behind r).reader = r := by
  cases hr : r.mode <;> ext <;> simp_all [reader, behind]

/-- Behind `%d` a scanner is where a reader of a regular string is. -/
theorem reader_behind_of_dated {r : PatternReader} (hr : r.mode = .dated) :
    (s.behind r).reader = { r with mode := .string } := by
  simp [reader, behind, hr]

/-- Behind a `%d` the loop goes on as the reader does, if it does so from all states between two
passes. -/
theorem loop_eq_of_dated {r : PatternReader}
    (ih : ∀ {t : Scanner} {cs : Text},
      pattern.drop t.i = cs → t.error = false → cs.length < fuel →
      (loop pattern fuel t).map (finish pattern) =
        (cs.foldl PatternReader.step t.reader).finish pattern)
    (hr : r.mode = .dated) (hs : pattern.drop (s.i + 1) = rest) (herror : s.error = false)
    (hfuel : rest.length < fuel) (hpos : s.i + 1 ≤ pattern.length) :
    Except.map (finish pattern) (do
      match ← date pattern fuel (s.behind r) with
      | .next t => loop pattern fuel t
      | .leave t => .ok t) = (rest.foldl PatternReader.step r).finish pattern := by
  cases rest with
  | nil =>
    have hlength : pattern.length = s.i + 1 := by
      have hle : pattern.length ≤ s.i + 1 := by simpa using hs
      omega
    rw [date_eq_of_nil (s := s.behind r) hlength (by omega)]
    simp [bind, Except.bind, Except.map, PatternReader.finish, hr]
  | cons c cs =>
    rw [List.length_cons] at hfuel
    by_cases hc : c = '{'
    · subst hc
      have hbrace : r.step '{' = { r with mode := .format } := by simp [PatternReader.step, hr]
      rw [List.foldl_cons, hbrace]
      by_cases hclosed : '}' ∈ cs
      · obtain ⟨f, cs, rfl, hf⟩ := List.eq_append_cons_of_mem hclosed
        simp only [List.length_append, List.length_cons] at hfuel
        rw [date_eq_of_format hf hs (by omega), List.foldl_append, foldl_format hf rfl,
          List.foldl_cons]
        have hbehind : pattern.drop (s.i + 1 + f.length + 2) = cs := by
          have hdrop := congrArg (List.drop (f.length + 2)) hs
          rw [List.drop_drop] at hdrop
          rw [Nat.add_assoc (s.i + 1), hdrop]
          simp
        have hreader : Scanner.reader { s.behind r with
            data_format := (s.behind r).data_format ++ f, i := s.i + 1 + f.length + 2 } =
              { r with mode := .format, data_format := r.data_format ++ f }.step '}' := by
          simp [reader, behind, hr, PatternReader.step]
        rw [← hreader]
        exact ih hbehind herror (by omega)
      · rw [date_eq_of_open hclosed hs (by omega), foldl_format hclosed rfl]
        simp [bind, Except.bind, Except.map, finish, PatternReader.finish]
    · have hstep : r.step c = { r with mode := .string }.step c := by
        simp [PatternReader.step, PatternReader.regular, hr, hc]
      rw [date_eq_of_ne hs hc, List.foldl_cons, hstep, ← List.foldl_cons,
        ← reader_behind_of_dated (s := s) hr]
      exact ih hs herror (by simpa using hfuel)

/-- **The loop does what the reader says**, when it is given more passes than there are characters
left. -/
theorem loop_eq (hs : pattern.drop s.i = rest) (herror : s.error = false)
    (hfuel : rest.length < fuel) :
    (loop pattern fuel s).map (finish pattern) =
      (rest.foldl PatternReader.step s.reader).finish pattern := by
  induction fuel generalizing s rest with
  | zero => omega
  | succ fuel ih =>
    cases rest with
    | nil =>
      have hi : ¬ s.i < pattern.length := by simpa using hs
      cases hmode : s.parsing_string <;>
        simp [loop, hi, Except.map, finish, herror, reader, hmode, PatternReader.finish]
    | cons c rest =>
      rw [List.length_cons] at hfuel
      simp only [loop, lt_of_drop_eq_cons hs, if_true, pass_eq hs, List.foldl_cons]
      have hnext := drop_succ_of_drop_eq_cons hs
      by_cases hdated : (s.reader.step c).mode = .dated
      · rw [if_pos hdated]
        exact loop_eq_of_dated ih hdated hnext herror (by omega) (lt_of_drop_eq_cons hs)
      · rw [if_neg hdated]
        have hreader := reader_behind (s := s) hdated (step_reader_mode_ne s c)
        rw [← congrArg (rest.foldl PatternReader.step) hreader]
        exact ih hnext herror (by omega)

end Scanner

namespace LogFormatter

variable {fuel : ℕ} {pattern : Text}

/-- **`init` does what the reader says**, when it is given more passes than there are characters. -/
theorem init_eq (hfuel : pattern.length < fuel) :
    init fuel pattern = (readPattern pattern).finish pattern :=
  Scanner.loop_eq (s := .construct) rfl rfl hfuel

theorem construct_eq (pattern : Text) : construct pattern = (readPattern pattern).finish pattern :=
  init_eq (Nat.lt_succ_self _)

end LogFormatter

end Dag
