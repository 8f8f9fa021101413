import QueryTidy.Files.Tree
import QueryTidy.Text.Quoted

/-!
# External tools

The programs that show changes are not part of this library. What is known of them is kept here:
whether they are found on the search path, how they answer when asked for their version, and that
they change no files. What a tool prints and how it exits otherwise is for the tool to say: it may
depend on the command, on the files, and on the new version of a file, which the tool reads from the
side channel under the path `/dev/fd/3`.
-/

namespace QueryTidy

/-- How a program ends: with a status from 0 to 255, or by a signal. -/
inductive ExitStatus where
  | code (status : Nat)
  | signal
  deriving DecidableEq, Repr

namespace ExitStatus

/-- The status of a number, of which only the lowest byte counts. -/
def ofInt (n : Int) : ExitStatus :=
  .code (n % 256).toNat

/-- The status as a number, if the program was not ended by a signal. -/
def code? : ExitStatus → Option Int
  | .code status => some status
  | .signal => none

end ExitStatus

/-- A program with its arguments. -/
structure Command where
  program : Bytes
  args : List Bytes
  deriving DecidableEq, Repr

/-- How a tool behaves. -/
structure ToolBehavior where
  /-- What is printed as the version. -/
  version : Bytes
  /-- How the program exits after printing its version. -/
  versionExit : ExitStatus
  /-- What the tool prints for any other command, on the files as they are and with what it can read
  from the side channel, and how it exits. -/
  answer : Command → Tree → Bytes → Bytes × ExitStatus

/-- What is found under the name of a tool. -/
inductive Tool where
  | executable (behavior : ToolBehavior)
  | plainFile
  | directory

/-- The tools of the search path. -/
structure Toolset where
  diff : Option Tool
  git : Option Tool

namespace Command

/-- A word of a command as the system takes it; one with a NUL byte cannot be passed on. -/
def shownWord (word : Bytes) : Text :=
  Text.quoteBytes (if 0 ∈ word then Utf8.encode "<string-with-nul>".toList else word)

/-- The command as it is shown in messages. -/
def toText (c : Command) : Text :=
  Text.join [' '] ((c.program :: c.args).map shownWord)

/-- Some word has a NUL byte. -/
def hasNul (c : Command) : Bool :=
  (c.program :: c.args).any fun word => word.contains 0

end Command

namespace ToolBehavior

/-- The name of the version control system. -/
def gitName : Bytes := Utf8.encode "git".toList

/-- The name of the plain comparison tool. -/
def diffName : Bytes := Utf8.encode "diff".toList

/-- The arguments of a question for the version. -/
def versionArgs : List Bytes := [Utf8.encode "--version".toList]

/-- A line of output. -/
def line (bytes : Bytes) : Bytes :=
  bytes ++ [0x0A]

/-- What a run of the tool prints, on the files as they are, when the side channel holds the given
content, and how it exits. -/
def run (b : ToolBehavior) (c : Command) (t : Tree) (content : Bytes) : Bytes × ExitStatus :=
  if c.program = gitName ∧ c.args = versionArgs then (b.version, b.versionExit)
  else b.answer c t content

/-- What a tool prints that shows its name, its arguments and the content of the side channel. -/
def transcript (c : Command) (content : Bytes) : Bytes :=
  line (Utf8.encode ['['] ++ c.program ++ Utf8.encode [']']) ++ c.args.flatMap line
    ++ line (Utf8.encode "[formatted]".toList) ++ content ++ line (Utf8.encode "[end]".toList)

/-- A tool that shows its name, its arguments and the content of the side channel, and always exits
in the same way. -/
def echoing (version : Bytes) (versionExit exit : ExitStatus) : ToolBehavior :=
  ⟨version, versionExit, fun c _ content => (transcript c content, exit)⟩

/-- A tool that neither prints nor reads anything, and always exits in the same way. -/
def silent (version : Bytes) (versionExit exit : ExitStatus) : ToolBehavior :=
  ⟨version, versionExit, fun _ _ _ => ([], exit)⟩

end ToolBehavior

namespace Toolset

/-- What is found under a name. -/
def find? (tools : Toolset) (name : Bytes) : Option Tool :=
  if name = ToolBehavior.diffName then tools.diff
  else if name = ToolBehavior.gitName then tools.git
  else none

/-- A search for the name finds an executable program. -/
def has (tools : Toolset) (name : Bytes) : Bool :=
  match tools.find? name with
  | some (.executable _) => true
  | _ => false

/-- The program that a command starts. -/
def launch (tools : Toolset) (c : Command) : Except IoError ToolBehavior :=
  if c.hasNul then .error .nulInCommand
  else
    match tools.find? c.program with
    | some (.executable behavior) => .ok behavior
    | some .plainFile => .error .permissionDenied
    | some .directory => .error .permissionDenied
    | none => .error .notFound

end Toolset

end QueryTidy
