import QueryTidy.Preview.Availability

/-!
# The choice of a tool

Changes are shown by a program that compares two versions of a file (`Comparer`). It is named or
left to be found (`ComparerChoice`); which one is used is settled once (`ComparerChoice.settle`).
-/

namespace QueryTidy

/-- A tool that compares two versions of a file: the plain one, which shows lines, or the version
control system, which shows words. -/
inductive Comparer where
  | diff | git
  deriving DecidableEq, Repr

namespace Comparer

/-- The name of the tool in messages. -/
def name : Comparer → Text
  | .diff => "diff".toList
  | .git => "gitdiff".toList

/-- The program of the tool. -/
def program : Comparer → Bytes
  | .diff => ToolBehavior.diffName
  | .git => ToolBehavior.gitName

end Comparer

/-- A choice on the command line. -/
inductive ComparerChoice where
  | auto | diff | git
  deriving DecidableEq, Repr

namespace ComparerChoice

/-- All choices, in the order in which they are listed. -/
def all : List ComparerChoice :=
  [.auto, .diff, .git]

/-- The choice when none is made. -/
def default : ComparerChoice := .auto

/-- The word of a choice. -/
def name : ComparerChoice → Text
  | .auto => "auto".toList
  | .diff => "diff".toList
  | .git => "gitdiff".toList

/-- What a choice means, in the help of the program. -/
def help : ComparerChoice → Text
  | .auto => "Use gitdiff when git is installed, fall back to diff".toList
  | .diff => "\x60diff --unified=10\x60".toList
  | .git => "\x60git diff --word-diff\x60".toList

/-- The choice with the given word; `anyCase` lets ASCII letters of either case count as equal. -/
def ofName? (anyCase : Bool) (word : Text) : Option ComparerChoice :=
  all.find? fun c => if anyCase then c.name = Text.lower word else c.name = word

/-- The wording of a word that is no choice. -/
def invalidMessage (word : Text) : Text :=
  "invalid variant: ".toList ++ word

/-- The tool to use. A named tool is used even if it is missing, so that the fault shows when it is
started; only the automatic choice looks at what is available, and may find nothing. -/
def settle (available : Availability) : ComparerChoice → Option Comparer
  | .auto =>
      if available.git then some .git else if available.diff then some .diff else none
  | .diff => some .diff
  | .git => some .git

/-- The choice as it is shown in log records. -/
def toText : ComparerChoice → Text
  | .auto => "Auto".toList
  | .diff => "Diff".toList
  | .git => "GitDiff".toList

/-- The tool as it is shown in log records. -/
def settledText : Option Comparer → Text
  | none => "None".toList
  | some .diff => "Some(Diff)".toList
  | some .git => "Some(GitDiff)".toList

end ComparerChoice

/-- The tool and the form of its output, settled before the first file is treated. -/
structure PreviewSettings where
  comparer : Option Comparer
  color : Bool
  deriving DecidableEq, Repr

namespace PreviewSettings

/-- Settle the tool. -/
def settle (choice : ComparerChoice) (available : Availability) (color : Bool) :
    Action PreviewSettings := do
  let comparer := choice.settle available
  Action.log .debug .settings
    ("Resolved differ ".toList ++ choice.toText ++ " to ".toList
      ++ ComparerChoice.settledText comparer)
  pure ⟨comparer, color⟩

end PreviewSettings

end QueryTidy
