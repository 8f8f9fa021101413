import QueryTidy.Run.Log
import QueryTidy.Text.Blank

/-!
# Log filters

Which log records are shown is said by rules: each has a target and the most talkative level that is
shown of it. The rule with the longest target that a record's own target begins with decides on the
record (`LogFilter.shows`). A filter is written as rules with commas between them
(`LogFilter.parse`). What stands behind a slash is a pattern that the text of a record has to match
somewhere; it is taken literally here, so filters with a pattern in which some character has a
meaning of its own are not described.
-/

namespace QueryTidy

/-- A rule of a log filter. A rule without a target is for all records; it is not the same as one
with an empty target. -/
structure LogRule where
  target : Option Text
  limit : Nat
  deriving DecidableEq, Repr

namespace LogRule

/-- The names of limits, and how much each lets through. -/
def limits : List (String × Nat) :=
  [("off", 0), ("error", 1), ("warn", 2), ("info", 3), ("debug", 4), ("trace", 5)]

/-- The limit that lets everything through. -/
def unlimited : Nat := 5

/-- The limit with the given name, in capital or small letters. -/
def limit? (word : Text) : Option Nat :=
  (limits.find? fun row => row.1.toList = Text.lower word).map (·.2)

/-- The length of the target. -/
def reach (r : LogRule) : Nat :=
  (r.target.getD []).length

/-- The rule is for records of the given target. -/
def covers (r : LogRule) (target : Text) : Bool :=
  Text.startsWith (r.target.getD []) target

/-- Read a rule: `level`, `target=level`, `target` or `target=`, the last two being without limit.
What cannot be read is reported. -/
def parse (written : Text) : Except Text LogRule :=
  match Text.splitAt (· == '=') written with
  | [word] =>
      match limit? word with
      | some limit => .ok ⟨none, limit⟩
      | none => .ok ⟨some word, unlimited⟩
  | [target, word] =>
      let word := Text.trim word
      if word = [] then .ok ⟨some target, unlimited⟩
      else
        match limit? word with
        | some limit => .ok ⟨some target, limit⟩
        | none => .error word
  | _ => .error written

end LogRule

/-- A log filter: rules, and a text that every shown record contains. -/
structure LogFilter where
  rules : List LogRule
  wanted : Text
  deriving DecidableEq, Repr

namespace LogFilter

/-- Add a rule; it takes the place of one with the same target. -/
def insert (rule : LogRule) : List LogRule → List LogRule
  | [] => [rule]
  | r :: rest => if r.target = rule.target then rule :: rest else r :: insert rule rest

/-- The rules that can be read, in order, and the reports on the others. -/
def readRules : List Text → List LogRule → List LogRule × List Text
  | [], rules => (rules, [])
  | written :: rest, rules =>
      match LogRule.parse written with
      | .ok rule => readRules rest (insert rule rules)
      | .error report =>
          let (rules, reports) := readRules rest rules
          (rules, report :: reports)

/-- The warning about a part of a filter that cannot be read. -/
def warning (report remark : Text) : Text :=
  "warning: invalid logging spec '".toList ++ report ++ ['\''] ++ remark
    ++ ", ignoring it\n".toList

/-- The filter that shows errors only. -/
def errorsOnly : LogFilter :=
  ⟨[⟨none, 1⟩], []⟩

/-- Read a filter: rules with commas between them, and after a slash the text that is wanted. A
filter without any rule shows errors only. The second part of the answer is the warnings. -/
def parse (written : Text) : LogFilter × List Text :=
  match Text.splitAt (· == '/') written with
  | rules :: rest =>
      if 1 < rest.length then (errorsOnly, [warning written " (too many '/'s)".toList])
      else
        let parts := ((Text.splitAt (· == ',') rules).map Text.trim).filter fun p => p ≠ []
        let (rules, reports) := readRules parts []
        (⟨if rules = [] then errorsOnly.rules else rules, rest.flatten⟩,
          reports.map fun report => warning report [])
  | [] => (errorsOnly, [])

/-- The rule with the longest target, the last one of several. -/
def longest : List LogRule → Option LogRule
  | [] => none
  | r :: rest =>
      match longest rest with
      | some best => if r.reach ≤ best.reach then some best else some r
      | none => some r

/-- The text has a part that reads as given. -/
def occurs (wanted : Text) : Text → Bool
  | [] => wanted.isEmpty
  | c :: rest => Text.startsWith wanted (c :: rest) || occurs wanted rest

/-- The record is shown. -/
def shows (f : LogFilter) (r : LogRecord) : Bool :=
  match longest (f.rules.filter fun rule => rule.covers r.area.target) with
  | some rule => decide (r.level.rank ≤ rule.limit) && occurs f.wanted r.text
  | none => false

/-- The filter of a run for which none is given. -/
def standard (verbose : Bool) : Text :=
  if verbose then "promfmt=debug".toList else "promfmt=info".toList

end LogFilter

end QueryTidy
