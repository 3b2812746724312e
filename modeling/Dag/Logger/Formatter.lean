import Mathlib.Data.Nat.Notation

/-!
# Logging: events and their format

A `LogFormatter` is a list of items, each of which puts one part of a `LogEvent` into the output. A
string is the list of its characters.

## Main definitions

* `LogEvent`, `LogLevel`: what is logged
* `FormatItem.format`, `LogFormatter.format`: how it is put into text
-/

namespace Dag

/-- A `std::string`. -/
abbrev Text := List Char

/-- `LogLevel::Level`. -/
inductive LogLevel
  | DEBUG
  | INFO
  | ERROR
  | FATAL
  | UNKNOWN
  deriving DecidableEq, Repr

/-- `LogLevel::ToString(level)`. -/
def LogLevel.ToString : LogLevel → Text
  | .DEBUG => "DEBUG".toList
  | .INFO => "INFO".toList
  | .ERROR => "ERROR".toList
  | .FATAL => "FATAL".toList
  | .UNKNOWN => "UNKNOWN".toList

/-- `LogEvent`; `message` is what has been put into its message stream. -/
structure LogEvent where
  level : LogLevel
  logger_name : Text
  message : Text
  file : Text
  func_name : Text
  line : BitVec 32
  thread_name : Text
  elapse : BitVec 32
  time : BitVec 64
  tid : BitVec 32
  fid : BitVec 32
  deriving DecidableEq, Repr

/-- `LogFormatter::FormatItem`, with its subclasses for constructors. -/
inductive FormatItem
  | message
  | logLevel
  | loggerName
  | date (pattern : Text)
  | elapse
  | file
  | funcName
  | line
  | tid
  | fid
  | threadName
  | tab
  | newLine
  | string (content : Text)
  deriving DecidableEq, Repr

/-- A `LogFormatter`: whether its pattern was in error, the pattern, and the items made from it. -/
structure LogFormatter where
  error : Bool
  pattern : Text
  items : List FormatItem
  deriving DecidableEq, Repr

/-- `os << v` of an unsigned number. -/
def decimal {w : ℕ} (v : BitVec w) : Text := Nat.toDigits 10 v.toNat

/-- The text that `localtime_r` and `strftime` make of a pattern and a time. -/
abbrev Strftime := Text → BitVec 64 → Text

section Format

variable (strftime : Strftime)

/-- `item->format(os, event)`: what it puts into `os`. -/
def FormatItem.format (event : LogEvent) : FormatItem → Text
  | .message => event.message
  | .logLevel => event.level.ToString
  | .loggerName => event.logger_name
  | .date pattern => strftime pattern event.time
  | .elapse => decimal event.elapse
  | .file => event.file
  | .funcName => event.func_name
  | .line => decimal event.line
  | .tid => decimal event.tid
  | .fid => decimal event.fid
  | .threadName => event.thread_name
  | .tab => ['\t']
  | .newLine => ['\n']
  | .string content => content

/-- `formatter->format(os, event)`: what it puts into `os`, item after item. -/
def LogFormatter.format (formatter : LogFormatter) (event : LogEvent) : Text :=
  formatter.items.flatMap (FormatItem.format strftime event)

end Format

end Dag
