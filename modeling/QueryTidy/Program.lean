import QueryTidy.CommandLine.Arguments
import QueryTidy.Run.LogFilter
import QueryTidy.Run.Batch
import QueryTidy.Text.Plain

/-!
# The program

A run of the program as a whole (`Program.run`): it takes arguments, a log filter and files, and
ends with an exit status, what was written to the two output streams, and the files as they are
then. The error stream is no terminal, so that messages are shown without colors.
-/

namespace QueryTidy

/-- What a run starts from. -/
structure Start where
  arguments : List Bytes
  /-- The log filter of the environment, if there is one. -/
  filter : Option Bytes
  tree : Tree
  host : Host
  /-- The standard output is a terminal. -/
  terminal : Bool

/-- How a run ends. -/
inductive Ending where
  | exit (status : Nat)
  | crash
  deriving DecidableEq, Repr

/-- What a run leaves. -/
structure Outcome where
  ending : Ending
  output : Bytes
  errors : Text
  tree : Tree
  deriving DecidableEq, Repr

namespace Program

/-- The log filter of a run and the warnings about it. A filter of the environment that is not text
counts as missing. -/
def filterOf (verbose : Bool) (given : Option Bytes) : LogFilter × List Text :=
  match given.bind fun bytes => (Utf8.decode bytes).toOption with
  | some written => LogFilter.parse written
  | none => LogFilter.parse (LogFilter.standard verbose)

/-- The line of a log record. With the option for more messages it names the file and the line of
the program that the record comes from; `SRC` stands for any of them. -/
def logLine (verbose : Bool) (r : LogRecord) : Text :=
  let place := if verbose then "SRC: ".toList else []
  Text.plain ("promfmt: ".toList ++ place ++ r.text ++ ['\n'])

/-- The lines of the log records that the filter shows, after the warnings about the filter. -/
def logText (verbose : Bool) (given : Option Bytes) (logs : List LogRecord) : Text :=
  let (filter, warnings) := filterOf verbose given
  warnings.flatten ++ (logs.filter filter.shows).flatMap (logLine verbose)

/-- Find the tools, settle which one shows changes, and format the files. Changes are shown in color
on a terminal. The exit status is 0 if all files were treated without a fault. -/
def work (host : Host) (terminal : Bool) (o : Options) : Action Nat := do
  let available ← Availability.probe host.tools
  let settings ← PreviewSettings.settle o.choice available terminal
  let batch : Batch := ⟨Formatter.query, RunMode.ofPreview o.dryRun, settings, host⟩
  match ← batch.process o.paths with
  | .ok report => pure (if report.isClean then 0 else 1)
  | .error fault => do
      Action.log .error .program fault.message
      pure 1

/-- The ending of an action that yields an exit status. -/
def ending : Completion Nat → Ending
  | .finished status => .exit status
  | .crashed => .crash

/-- Run the program. -/
def run (start : Start) (storage : Storage := .roomy) : Outcome :=
  match Arguments.read start.arguments with
  | .help detailed =>
      ⟨.exit 0, Utf8.encode (if detailed then Usage.details else Usage.summary), [], start.tree⟩
  | .version => ⟨.exit 0, Utf8.encode Usage.version, [], start.tree⟩
  | .refused e => ⟨.exit 2, [], e.message, start.tree⟩
  | .run options =>
      let effect := (work start.host start.terminal options).run start.tree storage
      ⟨ending effect.result, effect.output, logText options.verbose start.filter effect.logs,
        effect.tree⟩

end Program

end QueryTidy
