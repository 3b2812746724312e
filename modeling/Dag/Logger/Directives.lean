import Dag.Logger.Pattern
import Mathlib.Data.List.Basic

/-!
# Logging: literals and directives

A pattern is taken apart into segments: runs of regular characters, directives of one character, and
date directives with their formats. What a formatter makes of it can be said segment by segment:
which entries of `patterns` they become, whether there is an error, and what is put out for an
event.

## Main definitions

* `Segment`, `Segment.text`: the segments of a pattern
* `IsSplit`: a pattern as maximal runs and directives
* `rendering`: what each directive stands for
* `doubled`: a text with each `%` twice

## Main results

* `construct_text`: the formatter of a pattern that is given by its segments
* `construct_of_split`: a pattern without dates and escapes is in error exactly when it has a
  directive that is not known, and is put out segment by segment otherwise
* `existsUnique_split`: a pattern that does not end in a lone `%` can be split in one way
* `construct_dates_iff`: each date has its own format exactly when there is one date, or no format
  but the default one
* `format_doubled_iff`: a text comes out of its escaped form exactly when it has no `%`
* `init_inside_iff`: `init` reads behind the end exactly of the patterns that end in `%d`
-/

namespace Dag

/-! ## Segments -/

/-- A segment of a pattern: a run of regular characters, `%c`, or `%d{f}`. -/
inductive Segment
  | literal (run : Text)
  | directive (c : Char)
  | date (f : Text)
  deriving DecidableEq, Repr

namespace Segment

/-- The segment as it is written in a pattern. -/
def text : Segment → Text
  | literal run => run
  | directive c => ['%', c]
  | date f => '%' :: 'd' :: '{' :: (f ++ ['}'])

/-- The entry of `patterns` that the segment stands for. -/
def entry : Segment → Pattern
  | literal run => .string run
  | directive c => .template c
  | date _ => .template 'd'

/-- The format of a date. -/
def format? : Segment → Option Text
  | date f => some f
  | _ => none

/-- A date with another format. -/
def withFormat (f : Text) : Segment → Segment
  | date _ => date f
  | seg => seg

/-- A run has no `%`, a directive is not `%d`, and a format has no `}`. -/
def Readable : Segment → Prop
  | literal run => '%' ∉ run
  | directive c => c ≠ 'd'
  | date f => '}' ∉ f

end Segment

/-- The pattern that segments make. -/
def textOf (segs : List Segment) : Text := segs.flatMap Segment.text

/-- The formats of the dates, in order. -/
def formatsOf (segs : List Segment) : List Text := segs.filterMap Segment.format?

namespace PatternReader

/-- A whole segment is read. -/
def take (r : PatternReader) : Segment → PatternReader
  | .literal run => { r with tmp := r.tmp ++ run }
  | .directive c => { r with patterns := flush r.patterns r.tmp ++ [.template c], tmp := [] }
  | .date f =>
    { r with
      patterns := flush r.patterns r.tmp ++ [.template 'd']
      tmp := []
      data_format := r.data_format ++ f }

/-- The entries that have been read, with the last run. -/
def entries (r : PatternReader) : List Pattern := flush r.patterns r.tmp

variable {r : PatternReader}

@[simp] theorem take_mode (seg : Segment) : (r.take seg).mode = r.mode := by
  cases seg <;> rfl

theorem foldl_literal {run : Text} (hrun : '%' ∉ run) (hr : r.mode = .string) :
    run.foldl step r = { r with tmp := r.tmp ++ run } := by
  induction run generalizing r with
  | nil => simp
  | cons c run ih =>
    rw [List.mem_cons, not_or] at hrun
    obtain ⟨hc, hrun⟩ := hrun
    have hstep : r.step c = { r with tmp := r.tmp ++ [c] } := by
      simp [step, regular, hr, Ne.symm hc]
    rw [List.foldl_cons, hstep, ih hrun (by exact hr)]
    simp

/-- A reader of a regular string takes in a segment. -/
theorem foldl_text {seg : Segment} (hseg : seg.Readable) (hr : r.mode = .string) :
    seg.text.foldl step r = r.take seg := by
  cases seg with
  | literal run => exact foldl_literal hseg hr
  | directive c =>
    have hc : c ≠ 'd' := hseg
    simp [Segment.text, step, regular, take, hr, hc]
  | date f =>
    simp only [Segment.text, List.foldl_cons, List.foldl_append, List.foldl_nil]
    rw [foldl_format hseg (by simp [step, regular, hr])]
    simp [step, regular, take, hr]

theorem foldl_textOf {segs : List Segment} (hsegs : ∀ seg ∈ segs, seg.Readable)
    (hr : r.mode = .string) : (textOf segs).foldl step r = segs.foldl take r := by
  induction segs generalizing r with
  | nil => rfl
  | cons seg segs ih =>
    rw [List.forall_mem_cons] at hsegs
    rw [textOf, List.flatMap_cons, List.foldl_append, foldl_text hsegs.1 hr]
    exact ih hsegs.2 (by simpa using hr)

/-! ### What is collected -/

theorem foldl_take_mode (segs : List Segment) : (segs.foldl take r).mode = r.mode := by
  induction segs generalizing r with
  | nil => rfl
  | cons seg segs ih => rw [List.foldl_cons, ih, take_mode]

/-- The formats of all dates are collected in one string. -/
theorem foldl_take_data_format (segs : List Segment) :
    (segs.foldl take r).data_format = r.data_format ++ (formatsOf segs).flatten := by
  induction segs generalizing r with
  | nil => simp [formatsOf]
  | cons seg segs ih =>
    rw [List.foldl_cons, ih]
    cases seg <;> simp [take, formatsOf, List.filterMap_cons, Segment.format?]

section Entries

variable {β : Type*} {g : Pattern → List β}
  (hg : ∀ s t, g (.string (s ++ t)) = g (.string s) ++ g (.string t))
include hg

theorem map_flush (patterns : List Pattern) (tmp : Text) :
    (flush patterns tmp).flatMap g = patterns.flatMap g ++ g (.string tmp) := by
  have hnil : g (.string []) = [] := by
    have h := congrArg List.length (hg [] [])
    rw [List.length_append] at h
    exact List.eq_nil_of_length_eq_zero (by simpa using h)
  cases tmp <;> simp [flush, hnil]

/-- What can be said of the entries run by run can be said of them segment by segment. -/
theorem map_entries (segs : List Segment) :
    (segs.foldl take r).entries.flatMap g =
      r.entries.flatMap g ++ segs.flatMap (g ∘ Segment.entry) := by
  induction segs generalizing r with
  | nil => simp
  | cons seg segs ih =>
    rw [List.foldl_cons, ih, List.flatMap_cons, ← List.append_assoc]
    congr 1
    cases seg <;> simp [entries, take, map_flush hg, hg, Segment.entry]

end Entries

end PatternReader

/-! ## The items -/

section Items

variable {data_format : Text} {patterns : List Pattern}

/-- There is an error exactly when an entry has no item. -/
theorem makeItems_snd : (makeItems data_format patterns).2 = true ↔
    ∃ v ∈ patterns, v.item data_format = none := by
  induction patterns with
  | nil => simp [makeItems]
  | cons v patterns ih =>
    cases hv : v.item data_format with
    | none => simp [makeItems, hv]
    | some item => simp [makeItems, hv, ih]

/-- The items, when there is no error. -/
theorem makeItems_fst (h : (makeItems data_format patterns).2 = false) :
    (makeItems data_format patterns).1 = patterns.flatMap fun v => (v.item data_format).toList := by
  induction patterns with
  | nil => rfl
  | cons v patterns ih =>
    cases hv : v.item data_format with
    | none => simp [makeItems, hv] at h
    | some item =>
      have hrest : (makeItems data_format patterns).2 = false := by simpa [makeItems, hv] using h
      simp [makeItems, hv, ih hrest]

end Items

/-- The entries that segments become. -/
def entriesOf (segs : List Segment) : List Pattern := (segs.foldl PatternReader.take .start).entries

/-- **The formatter of a pattern that is given by its segments.** -/
theorem construct_text {segs : List Segment} (hsegs : ∀ seg ∈ segs, seg.Readable) :
    LogFormatter.construct (textOf segs) =
      .ok (.ofPatterns (textOf segs) (entriesOf segs) (formatsOf segs).flatten) := by
  rw [LogFormatter.construct_eq, readPattern, PatternReader.foldl_textOf hsegs rfl,
    PatternReader.finish, PatternReader.foldl_take_mode, PatternReader.foldl_take_data_format]
  rfl

/-- What can be said of the entries run by run can be said of them segment by segment. -/
theorem map_entriesOf {β : Type*} {g : Pattern → List β}
    (hg : ∀ s t, g (.string (s ++ t)) = g (.string s) ++ g (.string t)) (segs : List Segment) :
    (entriesOf segs).flatMap g = segs.flatMap (g ∘ Segment.entry) := by
  rw [entriesOf, PatternReader.map_entries hg]
  rfl

/-! ## What directives stand for -/

/-- The characters of the directives other than `%d`. -/
def directiveChars : List Char := ['m', 'p', 'c', 'r', 'f', 'a', 'l', 't', 'b', 'n', 'N', 'T']

/-- What a directive of one character stands for. -/
def rendering (event : LogEvent) : Char → Text
  | 'm' => event.message
  | 'p' => event.level.ToString
  | 'c' => event.logger_name
  | 'r' => decimal event.elapse
  | 'f' => event.file
  | 'a' => event.func_name
  | 'l' => decimal event.line
  | 't' => decimal event.tid
  | 'b' => decimal event.fid
  | 'n' => event.thread_name
  | 'T' => ['\t']
  | 'N' => ['\n']
  | _ => []

/-- What a segment stands for; a date without a format has the default one. -/
def Segment.render (strftime : Strftime) (event : LogEvent) : Segment → Text
  | literal run => run
  | directive c => rendering event c
  | date f => (FormatItem.dateFormatItem f).format strftime event

theorem s_format_items_eq_none_iff {c : Char} : s_format_items c = none ↔ c ∉ directiveChars := by
  unfold s_format_items
  split
  all_goals simp [directiveChars]
  grind

theorem format_of_s_format_items {c : Char} {item : FormatItem} (strftime : Strftime)
    (event : LogEvent) (h : s_format_items c = some item) :
    item.format strftime event = rendering event c := by
  unfold s_format_items at h
  split at h <;> cases h <;> rfl

theorem template_mem_entriesOf {c : Char} {segs : List Segment} :
    .template c ∈ entriesOf segs ↔ ∃ seg ∈ segs, seg.entry = .template c := by
  let g : Pattern → List Char := fun v => if v = .template c then [c] else []
  have hmem : ∀ v : Pattern, c ∈ g v ↔ v = .template c := by
    intro v
    by_cases hv : v = .template c <;> simp [g, hv]
  have hmap := map_entriesOf (g := g) (by simp [g]) segs
  calc .template c ∈ entriesOf segs ↔ c ∈ (entriesOf segs).flatMap g := by
        simp [List.mem_flatMap, hmem]
    _ ↔ ∃ seg ∈ segs, seg.entry = .template c := by
        rw [hmap]
        simp [List.mem_flatMap, hmem]

section Formatter

variable {segs : List Segment} {data_format : Text}

/-- There is an error exactly when a directive is not known. -/
theorem makeItems_entriesOf_snd (hsegs : ∀ seg ∈ segs, seg.Readable) :
    (makeItems data_format (entriesOf segs)).2 = true ↔
      ∃ c, .directive c ∈ segs ∧ c ∉ directiveChars := by
  rw [makeItems_snd]
  constructor
  · rintro ⟨v, hv, hitem⟩
    cases v with
    | string content => simp [Pattern.item] at hitem
    | template c =>
      obtain ⟨seg, hseg, hentry⟩ := template_mem_entriesOf.mp hv
      cases seg with
      | literal run => cases hentry
      | directive c' =>
        obtain rfl : c' = c := by simpa [Segment.entry] using hentry
        have hc : c' ≠ 'd' := hsegs _ hseg
        rw [Pattern.item, if_neg hc] at hitem
        exact ⟨c', hseg, s_format_items_eq_none_iff.mp hitem⟩
      | date f =>
        obtain rfl : 'd' = c := by simpa [Segment.entry] using hentry
        simp [Pattern.item] at hitem
  · rintro ⟨c, hseg, hc⟩
    have hd : c ≠ 'd' := hsegs _ hseg
    refine ⟨.template c, template_mem_entriesOf.mpr ⟨_, hseg, rfl⟩, ?_⟩
    rw [Pattern.item, if_neg hd]
    exact s_format_items_eq_none_iff.mpr hc

/-- Without an error each segment is put out, where all dates have the format that was collected. -/
theorem format_ofPatterns {pattern : Text} (hsegs : ∀ seg ∈ segs, seg.Readable)
    (hok : (LogFormatter.ofPatterns pattern (entriesOf segs) data_format).error = false)
    (strftime : Strftime) (event : LogEvent) :
    (LogFormatter.ofPatterns pattern (entriesOf segs) data_format).format strftime event =
      segs.flatMap fun seg => (seg.withFormat data_format).render strftime event := by
  let g : Pattern → Text := fun v =>
    (v.item data_format).toList.flatMap (FormatItem.format strftime event)
  have hg : ∀ s t, g (.string (s ++ t)) = g (.string s) ++ g (.string t) := by
    intro s t
    simp [g, Pattern.item, FormatItem.format]
  have hitems : (LogFormatter.ofPatterns pattern (entriesOf segs) data_format).format strftime event
      = (entriesOf segs).flatMap g := by
    rw [LogFormatter.format, LogFormatter.ofPatterns, makeItems_fst hok, List.flatMap_assoc]
  have hknown : ∀ c, .directive c ∈ segs → c ∈ directiveChars := by
    intro c hc
    by_contra hunknown
    have herror : (makeItems data_format (entriesOf segs)).2 = true :=
      (makeItems_entriesOf_snd hsegs).mpr ⟨c, hc, hunknown⟩
    exact Bool.false_ne_true (hok.symm.trans herror)
  rw [hitems, map_entriesOf hg]
  refine List.flatMap_congr fun seg hseg => ?_
  cases seg with
  | literal run =>
    simp [g, Segment.entry, Pattern.item, FormatItem.format, Segment.withFormat, Segment.render]
  | directive c =>
    have hd : c ≠ 'd' := hsegs _ hseg
    obtain ⟨item, hitem⟩ := Option.ne_none_iff_exists'.mp
      (mt s_format_items_eq_none_iff.mp (not_not_intro (hknown c hseg)))
    simp [g, Segment.entry, Pattern.item, hd, hitem, Segment.withFormat, Segment.render,
      format_of_s_format_items strftime event hitem]
  | date f => simp [g, Segment.entry, Pattern.item, Segment.withFormat, Segment.render]

end Formatter

/-! ## Splits -/

/-- The segment is a run of regular characters. -/
def Segment.isLiteral : Segment → Bool
  | literal _ => true
  | _ => false

/-- The pattern is split into maximal runs of regular characters, and directives of one character
each. -/
inductive IsSplit : Text → List Segment → Prop
  | nil : IsSplit [] []
  | directive {cs : Text} {segs : List Segment} (c : Char) (h : IsSplit cs segs) :
    IsSplit ('%' :: c :: cs) (.directive c :: segs)
  | literal {cs run : Text} {segs : List Segment} (hne : run ≠ []) (hrun : '%' ∉ run)
    (hmaximal : ∀ seg ∈ segs.head?, seg.isLiteral = false) (h : IsSplit cs segs) :
    IsSplit (run ++ cs) (.literal run :: segs)

/-- A regular character in front of segments. -/
def consRegular (c : Char) : List Segment → List Segment
  | .literal run :: segs => .literal (c :: run) :: segs
  | segs => .literal [c] :: segs

/-- Take a pattern apart, unless it ends in a lone `%`. -/
def split : Text → Option (List Segment)
  | [] => some []
  | ['%'] => none
  | '%' :: c :: cs => (split cs).map (.directive c :: ·)
  | c :: cs => (split cs).map (consRegular c)

theorem split_cons {c : Char} {cs : Text} (hc : c ≠ '%') :
    split (c :: cs) = (split cs).map (consRegular c) := by
  rw [split]
  · intro h
    exact absurd h hc
  · intro _ _ h
    exact absurd h hc

theorem isSplit_consRegular {c : Char} {cs : Text} {segs : List Segment} (hc : c ≠ '%')
    (h : IsSplit cs segs) : IsSplit (c :: cs) (consRegular c segs) := by
  have hrun : '%' ∉ [c] := by simpa using Ne.symm hc
  cases h with
  | nil => exact .literal (List.cons_ne_nil c []) hrun (by simp) .nil
  | directive c' h =>
    exact .literal (List.cons_ne_nil c []) hrun (by simp [Segment.isLiteral]) (.directive c' h)
  | literal hne hrun' hmaximal h =>
    exact .literal (List.cons_ne_nil c _) (by simp [Ne.symm hc, hrun']) hmaximal h

theorem split_literal {run : Text} {segs : List Segment} {cs : Text} (hne : run ≠ [])
    (hrun : '%' ∉ run) (hcs : split cs = some segs)
    (hhead : ∀ seg ∈ segs.head?, seg.isLiteral = false) :
    split (run ++ cs) = some (.literal run :: segs) := by
  induction run with
  | nil => contradiction
  | cons c run ih =>
    rw [List.mem_cons, not_or] at hrun
    rw [List.cons_append, split_cons (Ne.symm hrun.1)]
    cases run with
    | nil =>
      rw [List.nil_append, hcs]
      cases segs with
      | nil => rfl
      | cons seg segs =>
        have hseg : seg.isLiteral = false := hhead seg rfl
        cases seg with
        | literal run => cases hseg
        | directive c' => rfl
        | date f => rfl
    | cons c' run =>
      rw [ih (List.cons_ne_nil _ _) hrun.2]
      rfl

/-- **A pattern is split in at most one way**, and the split is found. -/
theorem isSplit_iff {pattern : Text} {segs : List Segment} :
    IsSplit pattern segs ↔ split pattern = some segs := by
  constructor
  · intro h
    induction h with
    | nil => rfl
    | directive c _ ih => rw [split, ih, Option.map_some]
    | literal hne hrun hmaximal _ ih => exact split_literal hne hrun ih hmaximal
  · intro h
    fun_induction split pattern generalizing segs with
    | case1 =>
      obtain rfl := Option.some.inj h
      exact .nil
    | case2 => cases h
    | case3 c cs ih =>
      obtain ⟨segs, hsegs, rfl⟩ := Option.map_eq_some_iff.mp h
      exact .directive c (ih hsegs)
    | case4 c cs hlone hdirective ih =>
      obtain ⟨segs, hsegs, rfl⟩ := Option.map_eq_some_iff.mp h
      refine isSplit_consRegular ?_ (ih hsegs)
      rintro rfl
      cases cs with
      | nil => exact hlone rfl rfl
      | cons c' cs => exact hdirective c' cs rfl rfl

/-- The pattern ends in a `%` that begins a directive. -/
def EndsInPercent (pattern : Text) : Prop := ∃ cs segs, IsSplit cs segs ∧ pattern = cs ++ ['%']

theorem endsInPercent_of_split {pattern : Text} (h : split pattern = none) :
    EndsInPercent pattern := by
  fun_induction split pattern with
  | case1 => cases h
  | case2 => exact ⟨[], [], .nil, rfl⟩
  | case3 c cs ih =>
    obtain ⟨cs, segs, hsegs, rfl⟩ := ih (Option.map_eq_none_iff.mp h)
    exact ⟨_, _, .directive c hsegs, rfl⟩
  | case4 c cs hlone hdirective ih =>
    obtain ⟨cs', segs, hsegs, rfl⟩ := ih (Option.map_eq_none_iff.mp h)
    refine ⟨c :: cs', _, isSplit_consRegular ?_ hsegs, rfl⟩
    rintro rfl
    cases cs' with
    | nil => exact hdirective _ _ rfl rfl
    | cons c' cs => exact hdirective c' _ rfl rfl

/-- **A pattern that does not end in a lone `%` is split in exactly one way.** -/
theorem existsUnique_split {pattern : Text} (h : ¬ EndsInPercent pattern) :
    ∃! segs, IsSplit pattern segs := by
  obtain ⟨segs, hsegs⟩ := Option.ne_none_iff_exists'.mp (mt endsInPercent_of_split h)
  refine ⟨segs, isSplit_iff.mpr hsegs, ?_⟩
  intro segs' hsegs'
  exact Option.some.inj ((isSplit_iff.mp hsegs').symm.trans hsegs)

/-! ## Patterns without dates and escapes -/

namespace IsSplit

variable {pattern : Text} {segs : List Segment}

theorem textOf (h : IsSplit pattern segs) : textOf segs = pattern := by
  induction h with
  | nil => rfl
  | directive c _ ih => simpa [Dag.textOf, Segment.text] using ih
  | literal _ _ _ _ ih => simpa [Dag.textOf, Segment.text] using ih

/-- A split has no dates. -/
theorem not_mem_date (h : IsSplit pattern segs) (f : Text) : .date f ∉ segs := by
  induction h with
  | nil => simp
  | directive c _ ih => simpa using ih
  | literal _ _ _ _ ih => simpa using ih

theorem readable (h : IsSplit pattern segs) (hd : ∀ c, .directive c ∈ segs → c ≠ 'd') :
    ∀ seg ∈ segs, seg.Readable := by
  induction h with
  | nil => simp
  | directive c _ ih =>
    rw [List.forall_mem_cons]
    exact ⟨hd c List.mem_cons_self, ih fun c hc => hd c (List.mem_cons_of_mem _ hc)⟩
  | literal _ hrun _ _ ih =>
    rw [List.forall_mem_cons]
    exact ⟨hrun, ih fun c hc => hd c (List.mem_cons_of_mem _ hc)⟩

theorem withFormat (h : IsSplit pattern segs) (f : Text) :
    ∀ seg ∈ segs, seg.withFormat f = seg := by
  intro seg hseg
  cases seg with
  | literal run => rfl
  | directive c => rfl
  | date f => exact absurd hseg (h.not_mem_date f)

end IsSplit

/-- **A pattern without dates and escapes** is in error exactly when one of its directives is not
known. Otherwise it puts out its runs as they are, and for each directive what that stands for. -/
theorem construct_of_split {pattern : Text} {segs : List Segment} (hsplit : IsSplit pattern segs)
    (hplain : ∀ c, .directive c ∈ segs → c ≠ 'd' ∧ c ≠ '%') :
    ∃ formatter, LogFormatter.construct pattern = .ok formatter ∧
      (formatter.error = true ↔ ∃ c, .directive c ∈ segs ∧ c ∉ directiveChars) ∧
      (formatter.error = false → ∀ strftime event,
        formatter.format strftime event = segs.flatMap (Segment.render strftime event)) := by
  have hreadable := hsplit.readable fun c hc => (hplain c hc).1
  have hconstruct := construct_text hreadable
  rw [hsplit.textOf] at hconstruct
  refine ⟨_, hconstruct, makeItems_entriesOf_snd hreadable, ?_⟩
  intro hok strftime event
  rw [format_ofPatterns hreadable hok]
  refine List.flatMap_congr fun seg hseg => ?_
  rw [hsplit.withFormat _ seg hseg]

theorem construct_of_split_message : ∃ formatter,
    LogFormatter.construct "[%p] %m%N".toList = .ok formatter ∧
      (formatter.error = false → ∀ strftime event, formatter.format strftime event =
        ['['] ++ (event.level.ToString ++ ([']', ' '] ++ (event.message ++ ['\n'])))) := by
  have hsplit : IsSplit "[%p] %m%N".toList
      [.literal ['['], .directive 'p', .literal [']', ' '], .directive 'm', .directive 'N'] :=
    isSplit_iff.mpr rfl
  obtain ⟨formatter, hconstruct, -, hformat⟩ := construct_of_split hsplit (by simp)
  exact ⟨formatter, hconstruct, hformat⟩

/-! ## Dates -/

/-- The format of an item for dates. -/
def FormatItem.date? : FormatItem → Option Text
  | .date pattern => some pattern
  | _ => none

/-- There is one date, or there is no format but at most one, which is that of dates without a
format. -/
def OneFormat (formats : List Text) : Prop :=
  formats.length ≤ 1 ∨ formats.filter (· ≠ []) = [] ∨
    formats.filter (· ≠ []) = [defaultDateFormat]

/-- A run has no `%`, a directive is known, and a format has no `}`. -/
def Segment.Known : Segment → Prop
  | literal run => '%' ∉ run
  | directive c => c ∈ directiveChars
  | date f => '}' ∉ f

theorem Segment.Known.readable {seg : Segment} (h : seg.Known) : seg.Readable := by
  cases seg with
  | literal run => exact h
  | directive c =>
    rintro rfl
    revert h
    simp [Segment.Known, directiveChars]
  | date f => exact h

section Formats

variable {formats : List Text}

/-- A text that is made of copies of itself is made of one. -/
theorem eq_singleton_of_flatten {f : Text} {fs : List Text} (hf : f ≠ [])
    (hall : ∀ g ∈ fs, g = f) (hflatten : fs.flatten = f) : fs = [f] := by
  obtain ⟨n, rfl⟩ : ∃ n, fs = List.replicate n f := ⟨_, List.eq_replicate_of_mem hall⟩
  have hlength := congrArg List.length hflatten
  rw [List.length_flatten, List.map_replicate, List.sum_replicate_nat] at hlength
  have hpos := List.length_pos_of_ne_nil hf
  have hn : n = 1 := Nat.eq_of_mul_eq_mul_right hpos (by omega)
  rw [hn, List.replicate_one]

theorem dateFormat_of_ne_nil {f : Text} (hf : f ≠ []) : dateFormat f = f := by
  simp [dateFormat, hf]

theorem dateFormat_defaultDateFormat : dateFormat defaultDateFormat = defaultDateFormat := by
  simp [dateFormat]

theorem OneFormat.dateFormat_eq (h : OneFormat formats) {f : Text} (hf : f ∈ formats) :
    dateFormat formats.flatten = dateFormat f := by
  have hflatten : (formats.filter (· ≠ [])).flatten = formats.flatten := List.flatten_filter_ne_nil
  rcases h with hshort | hnone | hdefault
  · obtain ⟨g, rfl⟩ : ∃ g, formats = [g] := by
      refine List.length_eq_one_iff.mp ?_
      have hpos := List.length_pos_of_mem hf
      omega
    obtain rfl : f = g := by simpa using hf
    simp
  · have hnil : f = [] := by simpa using List.filter_eq_nil_iff.mp hnone f hf
    rw [← hflatten, hnone, hnil, List.flatten_nil]
  · rw [← hflatten, hdefault, List.flatten_singleton, dateFormat_defaultDateFormat]
    by_cases hnil : f = []
    · rw [hnil]
      rfl
    · have hmem : f ∈ formats.filter (· ≠ []) := List.mem_filter.mpr ⟨hf, by simpa using hnil⟩
      rw [hdefault, List.mem_singleton] at hmem
      rw [hmem, dateFormat_defaultDateFormat]

/-- If all dates have the format that was collected, then a format that is given is the only one. -/
theorem filter_eq_singleton (h : ∀ f ∈ formats, dateFormat formats.flatten = dateFormat f)
    {f : Text} (hf : f ∈ formats) (hne : f ≠ []) :
    formats.filter (· ≠ []) = [f] ∧ formats.flatten = f := by
  have hne' : formats.flatten ≠ [] := fun hnil => hne (List.flatten_eq_nil_iff.mp hnil f hf)
  have hcollected : ∀ g ∈ formats.filter (· ≠ []), g = formats.flatten := by
    intro g hg
    obtain ⟨hmem, hg⟩ := List.mem_filter.mp hg
    have hgf := h g hmem
    rw [dateFormat_of_ne_nil hne', dateFormat_of_ne_nil (by simpa using hg)] at hgf
    exact hgf.symm
  have hflatten : formats.flatten = f :=
    (hcollected f (List.mem_filter.mpr ⟨hf, by simpa using hne⟩)).symm
  rw [hflatten] at hcollected
  exact ⟨eq_singleton_of_flatten hne hcollected (List.flatten_filter_ne_nil.trans hflatten),
    hflatten⟩

/-- All the dates come out with the format that was collected exactly when there is one. -/
theorem oneFormat_iff :
    OneFormat formats ↔ ∀ f ∈ formats, dateFormat formats.flatten = dateFormat f := by
  constructor
  · exact fun h f hf => h.dateFormat_eq hf
  · intro h
    by_cases hnone : formats.filter (· ≠ []) = []
    · exact .inr (.inl hnone)
    obtain ⟨f, hf⟩ := List.exists_mem_of_ne_nil _ hnone
    obtain ⟨hf, hne⟩ := List.mem_filter.mp hf
    have hne : f ≠ [] := by simpa using hne
    obtain ⟨hone, hflatten⟩ := filter_eq_singleton h hf hne
    by_cases hempty : [] ∈ formats
    · have hdefault := h [] hempty
      rw [hflatten, dateFormat_of_ne_nil hne] at hdefault
      rw [hdefault] at hone
      exact .inr (.inr hone)
    · have hall : formats.filter (· ≠ []) = formats := by
        refine List.filter_eq_self.mpr fun g hg => ?_
        have hg' : g ≠ [] := fun hnil => hempty (hnil ▸ hg)
        simpa using hg'
      rw [hall] at hone
      exact .inl (by simp [hone])

end Formats

theorem date?_of_s_format_items {c : Char} {item : FormatItem} (h : s_format_items c = some item) :
    item.date? = none := by
  unfold s_format_items at h
  split at h <;> cases h <;> rfl

/-- What the items for dates are. -/
theorem dates_ofPatterns {segs : List Segment} (hsegs : ∀ seg ∈ segs, seg.Known)
    (pattern data_format : Text) :
    (LogFormatter.ofPatterns pattern (entriesOf segs) data_format).error = false ∧
      (LogFormatter.ofPatterns pattern (entriesOf segs) data_format).items.filterMap
        FormatItem.date? = (formatsOf segs).map fun _ => dateFormat data_format := by
  have hreadable : ∀ seg ∈ segs, seg.Readable := fun seg hseg => (hsegs seg hseg).readable
  have hok : (makeItems data_format (entriesOf segs)).2 = false := by
    rw [Bool.eq_false_iff]
    intro herror
    obtain ⟨c, hc, hunknown⟩ := (makeItems_entriesOf_snd hreadable).mp herror
    exact hunknown (hsegs _ hc)
  refine ⟨hok, ?_⟩
  let g : Pattern → List Text := fun v => (v.item data_format).toList.filterMap FormatItem.date?
  have hg : ∀ s t, g (.string (s ++ t)) = g (.string s) ++ g (.string t) := by
    intro s t
    simp [g, Pattern.item, List.filterMap_cons, FormatItem.date?]
  rw [LogFormatter.ofPatterns, makeItems_fst hok, List.filterMap_flatMap, map_entriesOf hg,
    formatsOf, List.map_filterMap, List.filterMap_eq_flatMap_toList]
  refine List.flatMap_congr fun seg hseg => ?_
  cases seg with
  | literal run =>
    simp [g, Segment.entry, Pattern.item, List.filterMap_cons, FormatItem.date?, Segment.format?]
  | directive c =>
    have hd : c ≠ 'd' := hreadable _ hseg
    cases hitem : s_format_items c with
    | none => simp [g, Segment.entry, Pattern.item, hd, hitem, Segment.format?]
    | some item =>
      simp [g, Segment.entry, Pattern.item, hd, hitem, date?_of_s_format_items hitem,
        Segment.format?]
  | date f =>
    simp [g, Segment.entry, Pattern.item, FormatItem.dateFormatItem, FormatItem.date?,
      Segment.format?]

/-- **Every date has its own format** exactly when there is one date, or no format is given but that
of dates without a format. -/
theorem construct_dates_iff {segs : List Segment} (hsegs : ∀ seg ∈ segs, seg.Known) :
    (∃ formatter, LogFormatter.construct (textOf segs) = .ok formatter ∧
      formatter.error = false ∧
      formatter.items.filterMap FormatItem.date? = (formatsOf segs).map dateFormat) ↔
      OneFormat (formatsOf segs) := by
  have hconstruct := construct_text fun seg hseg => (hsegs seg hseg).readable
  obtain ⟨hok, hdates⟩ := dates_ofPatterns hsegs (textOf segs) (formatsOf segs).flatten
  rw [oneFormat_iff, ← List.map_inj_left, ← hdates]
  constructor
  · rintro ⟨formatter, hformatter, -, h⟩
    obtain rfl := Except.ok.inj (hconstruct.symm.trans hformatter)
    exact h
  · intro h
    exact ⟨_, hconstruct, hok, h⟩

theorem construct_dates_one : ∃ formatter,
    LogFormatter.construct "%m %d{%H:%M}".toList = .ok formatter ∧ formatter.error = false ∧
      formatter.items.filterMap FormatItem.date? = ["%H:%M".toList] := by
  have hknown : ∀ seg ∈ [Segment.directive 'm', .literal [' '], .date "%H:%M".toList],
      seg.Known := by
    simp [Segment.Known, directiveChars]
  exact (construct_dates_iff hknown).mpr (.inl (Nat.le_refl 1))

/-- Two dates: both come out with both formats, one behind the other. -/
theorem two_dates : ¬ ∀ segs : List Segment, (∀ seg ∈ segs, seg.Known) →
    ∃ formatter, LogFormatter.construct (textOf segs) = .ok formatter ∧ formatter.error = false ∧
      formatter.items.filterMap FormatItem.date? = (formatsOf segs).map dateFormat := by
  intro h
  obtain ⟨formatter, hconstruct, -, hdates⟩ :=
    h [.date "%H".toList, .date "%M".toList] (by simp [Segment.Known])
  have hformatter : LogFormatter.construct "%d{%H}%d{%M}".toList = .ok ⟨false,
      "%d{%H}%d{%M}".toList, [.date "%H%M".toList, .date "%H%M".toList]⟩ := rfl
  obtain rfl := Except.ok.inj (hformatter.symm.trans hconstruct)
  simp [FormatItem.date?, formatsOf, Segment.format?, dateFormat] at hdates

/-! ## Escapes -/

/-- A text with each `%` twice. -/
def doubled (s : Text) : Text := s.flatMap fun c => if c = '%' then ['%', '%'] else [c]

/-- The segments of a doubled text. -/
def doubledSegments (s : Text) : List Segment :=
  s.map fun c => if c = '%' then .directive '%' else .literal [c]

theorem textOf_doubledSegments (s : Text) : textOf (doubledSegments s) = doubled s := by
  induction s with
  | nil => rfl
  | cons c s ih =>
    rw [doubledSegments, List.map_cons, textOf, List.flatMap_cons, doubled, List.flatMap_cons]
    congr 1
    split_ifs <;> rfl

theorem readable_doubledSegments (s : Text) : ∀ seg ∈ doubledSegments s, seg.Readable := by
  intro seg hseg
  obtain ⟨c, -, rfl⟩ := List.mem_map.mp hseg
  split_ifs with hc
  · simp [Segment.Readable]
  · simpa [Segment.Readable] using Ne.symm hc

theorem directive_mem_doubledSegments {c : Char} {s : Text} :
    .directive c ∈ doubledSegments s ↔ c = '%' ∧ '%' ∈ s := by
  simp only [doubledSegments, List.mem_map]
  constructor
  · rintro ⟨c', hc', h⟩
    split_ifs at h with hpercent
    obtain rfl : '%' = c := by simpa using h
    exact ⟨rfl, hpercent ▸ hc'⟩
  · rintro ⟨rfl, h⟩
    exact ⟨'%', h, rfl⟩

/-- A doubled text is in error exactly when it has a `%`: an escape is looked up as a directive. -/
theorem error_doubled_iff (s : Text) : ∃ formatter,
    LogFormatter.construct (doubled s) = .ok formatter ∧ (formatter.error = true ↔ '%' ∈ s) ∧
      (formatter.error = false → ∀ strftime event, formatter.format strftime event = s) := by
  have hreadable := readable_doubledSegments s
  have hconstruct := construct_text hreadable
  rw [textOf_doubledSegments] at hconstruct
  have herror : ∀ data_format, (makeItems data_format (entriesOf (doubledSegments s))).2 = true ↔
      '%' ∈ s := by
    intro data_format
    rw [makeItems_entriesOf_snd hreadable]
    simp [directive_mem_doubledSegments, directiveChars]
  refine ⟨_, hconstruct, herror _, ?_⟩
  intro hok strftime event
  have hs : '%' ∉ s := by
    intro h
    exact Bool.false_ne_true (hok.symm.trans ((herror _).mpr h))
  rw [format_ofPatterns hreadable hok, doubledSegments, List.flatMap_map]
  calc _ = s.flatMap fun c => [c] := by
        refine List.flatMap_congr fun c hc => ?_
        have hne : c ≠ '%' := fun h => hs (h ▸ hc)
        rw [if_neg hne]
        rfl
    _ = s := by simp

/-- **A doubled text comes out as it was** exactly when there is no `%` to be doubled. -/
theorem format_doubled_iff (s : Text) :
    (∃ formatter, LogFormatter.construct (doubled s) = .ok formatter ∧ formatter.error = false ∧
      ∀ strftime event, formatter.format strftime event = s) ↔ '%' ∉ s := by
  obtain ⟨formatter, hconstruct, herror, hformat⟩ := error_doubled_iff s
  rw [← herror, Bool.not_eq_true]
  constructor
  · rintro ⟨formatter', hconstruct', hok, -⟩
    obtain rfl := Except.ok.inj (hconstruct.symm.trans hconstruct')
    exact hok
  · intro hok
    exact ⟨formatter, hconstruct, hok, hformat hok⟩

/-- One escape. -/
theorem escape_in_error : ¬ ∀ s : Text, ∃ formatter,
    LogFormatter.construct (doubled s) = .ok formatter ∧ formatter.error = false ∧
      ∀ strftime event, formatter.format strftime event = s := by
  intro h
  obtain ⟨formatter, hconstruct, hok, -⟩ := h ['%']
  have hformatter : LogFormatter.construct (doubled ['%']) = .ok ⟨true, ['%', '%'], []⟩ := rfl
  obtain rfl := Except.ok.inj (hformatter.symm.trans hconstruct)
  cases hok

/-! ## Reads behind the end -/

/-- The pattern ends in a directive `%d`, behind which nothing is. -/
def EndsInDate (pattern : Text) : Prop :=
  ∃ cs, pattern = cs ++ ['%', 'd'] ∧
    ((readPattern cs).mode = .string ∨ (readPattern cs).mode = .dated)

theorem PatternReader.step_mode_eq_dated_iff {r : PatternReader} {c : Char} :
    (r.step c).mode = .dated ↔ r.mode = .template ∧ c = 'd' := by
  unfold PatternReader.step PatternReader.regular
  cases hr : r.mode <;> dsimp only <;> split_ifs <;> simp_all

theorem PatternReader.step_mode_eq_template_iff {r : PatternReader} {c : Char} :
    (r.step c).mode = .template ↔ c = '%' ∧ (r.mode = .string ∨ r.mode = .dated) := by
  unfold PatternReader.step PatternReader.regular
  cases hr : r.mode <;> dsimp only <;> split_ifs <;> simp_all

theorem readPattern_concat (cs : Text) (c : Char) :
    readPattern (cs ++ [c]) = (readPattern cs).step c := by
  rw [readPattern, List.foldl_append]
  rfl

theorem mode_eq_dated_iff {pattern : Text} :
    (readPattern pattern).mode = .dated ↔ EndsInDate pattern := by
  constructor
  · intro h
    rcases List.eq_nil_or_concat pattern with rfl | ⟨cs, c, rfl⟩
    · cases h
    rw [List.concat_eq_append, readPattern_concat, PatternReader.step_mode_eq_dated_iff] at h
    obtain ⟨h, rfl⟩ := h
    rcases List.eq_nil_or_concat cs with rfl | ⟨cs, c, rfl⟩
    · cases h
    rw [List.concat_eq_append, readPattern_concat, PatternReader.step_mode_eq_template_iff] at h
    obtain ⟨rfl, h⟩ := h
    exact ⟨cs, by simp, h⟩
  · rintro ⟨cs, rfl, h⟩
    rw [show cs ++ ['%', 'd'] = cs ++ ['%'] ++ ['d'] by simp, readPattern_concat,
      PatternReader.step_mode_eq_dated_iff, readPattern_concat,
      PatternReader.step_mode_eq_template_iff]
    exact ⟨⟨rfl, h⟩, rfl⟩

/-- What becomes of `init`, by whether the pattern ends in a directive `%d`. -/
theorem init_of_not_endsInDate {fuel : ℕ} {pattern : Text} (h : ¬ EndsInDate pattern)
    (hfuel : pattern.length < fuel) :
    ∃ formatter, LogFormatter.init fuel pattern = .ok formatter := by
  rw [LogFormatter.init_eq hfuel, PatternReader.finish]
  cases hmode : (readPattern pattern).mode with
  | dated => exact absurd (mode_eq_dated_iff.mp hmode) h
  | _ => exact ⟨_, rfl⟩

theorem init_of_endsInDate {fuel : ℕ} {pattern : Text} (h : EndsInDate pattern)
    (hfuel : pattern.length < fuel) :
    LogFormatter.init fuel pattern = .error (.outOfRange (pattern.length + 1)) := by
  rw [LogFormatter.init_eq hfuel, PatternReader.finish, mode_eq_dated_iff.mpr h]

/-- **`init` comes to an end and reads no character behind that of the pattern** exactly when the
pattern does not end in a directive `%d`. -/
theorem init_inside_iff (pattern : Text) :
    ((∀ fuel i, pattern.length < fuel → LogFormatter.init fuel pattern ≠ .error (.outOfRange i)) ∧
      ∀ fuel, pattern.length < fuel → LogFormatter.init fuel pattern ≠ .error .outOfFuel) ↔
      ¬ EndsInDate pattern := by
  constructor
  · rintro ⟨hinside, -⟩ h
    exact hinside _ _ (Nat.lt_succ_self _) (init_of_endsInDate h (Nat.lt_succ_self _))
  · intro h
    refine ⟨fun fuel i hfuel => ?_, fun fuel hfuel => ?_⟩ <;>
    · obtain ⟨formatter, hinit⟩ := init_of_not_endsInDate h hfuel
      rw [hinit]
      exact nofun

/-- The pattern `%d`: the loop reads the character 3 of 2. -/
theorem read_behind_date : ¬ ∀ pattern : Text,
    (∀ fuel i, pattern.length < fuel → LogFormatter.init fuel pattern ≠ .error (.outOfRange i)) ∧
      ∀ fuel, pattern.length < fuel → LogFormatter.init fuel pattern ≠ .error .outOfFuel := by
  intro h
  exact (h ['%', 'd']).1 3 3 (by decide) rfl

end Dag
