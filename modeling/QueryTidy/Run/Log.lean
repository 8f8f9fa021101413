import QueryTidy.Text.Basic

/-!
# Log records

The program reports what it does in log records. A record has a level, the area of the program that
it comes from, and a text. The place in the program's source that it comes from is not kept.
-/

namespace QueryTidy

/-- The levels of log records that occur. The two warnings about a tool that is fed are left out;
see `Handover.perform`. -/
inductive LogLevel where
  | error | info | debug
  deriving DecidableEq, Repr

namespace LogLevel

/-- The name of a level. -/
def name : LogLevel → Text
  | .error => "ERROR".toList
  | .info => "INFO".toList
  | .debug => "DEBUG".toList

/-- How much a level says: an error is the least talkative. -/
def rank : LogLevel → Nat
  | .error => 1
  | .info => 3
  | .debug => 4

end LogLevel

/-- The areas of the program that log records come from. -/
inductive LogArea where
  /-- Detection of the tools. -/
  | detection
  /-- Settings of a run. -/
  | settings
  /-- The treatment of files. -/
  | formatting
  /-- Showing the changes of a file. -/
  | showing
  /-- The start of a tool. -/
  | handover
  /-- The program as a whole. -/
  | program
  deriving DecidableEq, Repr

namespace LogArea

/-- The name by which an area is addressed in a filter. -/
def target : LogArea → Text
  | .detection => "promfmt::areas::toolbox".toList
  | .settings => "promfmt::areas::session".toList
  | .formatting => "promfmt::commands::format".toList
  | .showing => "promfmt::commands::diff".toList
  | .handover => "promfmt::artifacts::diff::side_channel::pipe".toList
  | .program => "promfmt".toList

end LogArea

/-- A log record. -/
structure LogRecord where
  level : LogLevel
  area : LogArea
  text : Text
  deriving DecidableEq, Repr

end QueryTidy
