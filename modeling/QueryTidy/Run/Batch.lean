import QueryTidy.Preview.Handover
import QueryTidy.Run.Content

/-!
# Batches of files

A batch treats files one after the other: a file that is not in canonical form is rewritten in place
or its changes are shown. A fault concerns its file only, unless it ends the run.
-/

namespace QueryTidy

/-- What is done about a file that has to change. -/
inductive RunMode where
  | inPlace | preview
  deriving DecidableEq, Repr

namespace RunMode

/-- The mode of a run that only shows changes, or that makes them. -/
def ofPreview (previewOnly : Bool) : RunMode :=
  if previewOnly then .preview else .inPlace

end RunMode

/-- What was done about a file that was treated without a fault. -/
inductive Treatment where
  | unchanged | rewritten | previewed
  deriving DecidableEq, Repr

/-- What came of one file. -/
abbrev FileResult := Except Fault Treatment

/-- What came of the files of a run, in the order in which they were given. -/
structure Report where
  results : List (Path × FileResult)

namespace Report

/-- The fault of a result, if it is one. -/
def fault? : FileResult → Option Fault
  | .error f => some f
  | .ok _ => none

/-- The faults, in order. -/
def faults (r : Report) : List Fault :=
  r.results.filterMap fun item => fault? item.2

/-- The result of the first file whose path has the same components. -/
def resultOf? (r : Report) (path : Path) : Option FileResult :=
  (r.results.find? fun item => Path.same item.1 path).map (·.2)

/-- There are no faults. -/
def isClean (r : Report) : Bool :=
  r.faults.isEmpty

end Report

/-- What a run works with. -/
structure Batch where
  formatter : Formatter
  mode : RunMode
  settings : PreviewSettings
  host : Host

namespace Batch

/-- The content of the file at a path. -/
def load (path : Path) : Action (Except Fault Bytes) := do
  let tree ← Action.getTree
  match tree.read path with
  | .ok data => pure (.ok data)
  | .error e => pure (.error (.read path e))

/-- Replace the content of an existing file. This is not done at one stroke: a fault of writing may
leave the beginning of the new content in the file. -/
def store (path : Path) (content : Content) : Action (Except Fault Unit) := do
  let tree ← Action.getTree
  match tree.write path content.bytes (← Action.getStorage) with
  | .ok tree => do
      Action.setTree tree
      pure (.ok ())
  | .error (.opening e) => pure (.error (.openForWriting path e))
  | .error (.writing e left) => do
      Action.setTree left
      pure (.error (.write path e))

/-- Show the difference between the file at a path and a new content. -/
def preview (b : Batch) (path : Path) (content : Content) : Action (Except Fault Unit) :=
  match b.settings.comparer with
  | none => pure (.error .noComparer)
  | some comparer => do
      Action.log .debug .showing
        ("Showing ".toList ++ path.toText ++ " with ".toList ++ comparer.name)
      let command := comparer.comparison b.settings.color path Handover.contentPath
      match ← Handover.perform b.host command content.bytes with
      | .ok () => pure (.ok ())
      | .error reason => pure (.error (.preview path reason))

/-- Give a file its new content, or show what would change. -/
def treat (b : Batch) (path : Path) (content : Content) : Action FileResult :=
  match b.mode with
  | .preview => do
      Action.log .info .formatting ("Diffing ".toList ++ path.toText)
      match ← b.preview path content with
      | .ok () => pure (.ok .previewed)
      | .error f => pure (.error f)
  | .inPlace => do
      Action.log .info .formatting ("Applying formatting to ".toList ++ path.toText)
      match ← store path content with
      | .ok () => pure (.ok .rewritten)
      | .error f => pure (.error f)

/-- Treat the file at a path. -/
def processFile (b : Batch) (path : Path) : Action FileResult := do
  match ← load path with
  | .error f => pure (.error f)
  | .ok old =>
      match ← newContent b.formatter path old with
      | .error f => pure (.error f)
      | .ok content =>
          if content.changes old then b.treat path content
          else do
            Action.log .debug .formatting (path.toText ++ " is already formatted".toList)
            pure (.ok .unchanged)

/-- Treat the files at the paths, in order. A fault is logged, and the next file is treated; only a
fault that ends the run keeps the rest from being treated. -/
def processAll (b : Batch) : List Path → Action (Except Fault (List (Path × FileResult)))
  | [] => pure (.ok [])
  | path :: rest => do
      match ← b.processFile path with
      | .error f =>
          if f.endsRun then pure (.error f)
          else do
            Action.log .error .formatting f.message
            match ← b.processAll rest with
            | .ok results => pure (.ok ((path, .error f) :: results))
            | .error last => pure (.error last)
      | .ok treatment =>
          match ← b.processAll rest with
          | .ok results => pure (.ok ((path, .ok treatment) :: results))
          | .error last => pure (.error last)

/-- Treat the files at the paths: a report, or the fault that ended the run. -/
def process (b : Batch) (paths : List Path) : Action (Except Fault Report) := do
  match ← b.processAll paths with
  | .ok results => pure (.ok ⟨results⟩)
  | .error f => pure (.error f)

end Batch

end QueryTidy
