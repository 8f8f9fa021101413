import QueryTidy.Files.IoError
import QueryTidy.Files.Path

/-!
# Faults of a run

What can go wrong with one file (`Fault`) and with showing its changes (`PreviewFault`), the
wording of each, and the chain of faults behind it.
-/

namespace QueryTidy

/-- Why the changes of a file could not be shown. -/
inductive PreviewFault where
  /-- There is no pipe for the new content. -/
  | noPipe (e : IoError)
  /-- The tool could not be started. -/
  | notStarted (e : IoError)
  /-- The tool reported trouble. -/
  | exit (code : Int)
  /-- A signal ended the tool. -/
  | killed
  deriving DecidableEq, Repr

namespace PreviewFault

/-- The wording of the fault. -/
def message : PreviewFault → Text
  | .noPipe e => "failed to create pipe: ".toList ++ e.message
  | .notStarted e => e.message
  | .exit code => "diff tool exited with status ".toList ++ Text.ofInt code
  | .killed => "diff tool was terminated by a signal".toList

/-- The wordings of the faults behind this one. -/
def causes : PreviewFault → List Text
  | .noPipe e => [e.message]
  | .notStarted e => [e.message]
  | .exit _ => []
  | .killed => []

end PreviewFault

/-- What can go wrong with a file. -/
inductive Fault where
  | read (path : Path) (e : IoError)
  | parse (path : Path) (message : Text)
  | openForWriting (path : Path) (e : IoError)
  | write (path : Path) (e : IoError)
  | preview (path : Path) (reason : PreviewFault)
  /-- There is no tool to show changes with. -/
  | noComparer
  deriving DecidableEq, Repr

namespace Fault

/-- The wording of the fault. -/
def message : Fault → Text
  | .read path e => "failed to open ".toList ++ path.toText ++ ": ".toList ++ e.message
  | .parse path text => "failed to parse ".toList ++ path.toText ++ ": ".toList ++ text
  | .openForWriting path e =>
      "failed to open ".toList ++ path.toText ++ " for writing: ".toList ++ e.message
  | .write path e => "failed to write ".toList ++ path.toText ++ ": ".toList ++ e.message
  | .preview path reason => "failed to diff ".toList ++ path.toText ++ ": ".toList ++ reason.message
  | .noComparer => "no diff tool found: install git or diff, or pass --differ explicitly".toList

/-- The wordings of the faults behind this one, the nearest first. -/
def causes : Fault → List Text
  | .read _ e => [e.message]
  | .parse _ _ => []
  | .openForWriting _ e => [e.message]
  | .write _ e => [e.message]
  | .preview _ reason => reason.message :: reason.causes
  | .noComparer => []

/-- A fatal fault ends a run; the others concern one file only. -/
def endsRun : Fault → Bool
  | .noComparer => true
  | _ => false

end Fault

end QueryTidy
