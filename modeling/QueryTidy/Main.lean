import QueryTidy.Program

/-!
# The command line program

Reads the files that the arguments name, runs the program on them, writes back the files that it
changed, and prints what it says. Other programs are never started from here: no tool is found, so a
dry run names the files that would change and shows no differences.
-/

namespace QueryTidy.Main

/-- The name of a path for the system. -/
def nameOf (p : Path) : String :=
  String.ofList p.toText

/-- The paths that a run treats. -/
def pathsOf (arguments : List Bytes) : List Path :=
  match Arguments.read arguments with
  | .run options => options.paths
  | _ => []

/-- Add what the system has at a path to the tree. -/
def load (t : Tree) (p : Path) : IO Tree := do
  try
    let content ← IO.FS.readBinFile (nameOf p)
    return t.put p (.file content.toList)
  catch
    | .inappropriateType .. => return t.put p .directory
    | _ => return t

/-- Write back the file at a path if its content changed. -/
def store (before after : Tree) (p : Path) : IO Unit := do
  match before.read p, after.read p with
  | .ok old, .ok new =>
      if old ≠ new then IO.FS.writeBinFile (nameOf p) ⟨new.toArray⟩
  | _, _ => return

/-- Run the program on the files of the system. -/
def execute (args : List String) : IO UInt32 := do
  let arguments := args.map fun a => a.toUTF8.toList
  let filter ← IO.getEnv "RUST_LOG"
  let paths := pathsOf arguments
  let tree ← paths.foldlM load ⟨[]⟩
  let output ← IO.getStdout
  let outcome := Program.run
    ⟨arguments, filter.map fun f => f.toUTF8.toList, tree, ⟨⟨none, none⟩, none⟩, ← output.isTty⟩
  paths.forM (store tree outcome.tree)
  output.write ⟨outcome.output.toArray⟩
  IO.eprint (String.ofList outcome.errors)
  match outcome.ending with
  | .exit status => return status.toUInt32
  | .crash => return 101

end QueryTidy.Main

/-- The entry of the program. -/
def main (args : List String) : IO UInt32 :=
  QueryTidy.Main.execute args
