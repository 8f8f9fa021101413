import QueryTidy.Preview.Comparison

/-!
# Handing content over to a tool

A tool compares a file on disk with a version that is on no disk: the new content travels through a
pipe, the side channel, which the tool finds under a path of its own.
-/

namespace QueryTidy

/-- What the program finds on the host besides the files: the tools, and a fault of creating pipes,
if there is one. -/
structure Host where
  tools : Toolset
  pipeFault : Option IoError

namespace Handover

/-- The path under which a tool finds the content. -/
def contentPath : Path := Utf8.encode "/dev/fd/3".toList

/-- Run a command while the content can be read from the side channel. The pipe is created before
the tool is started; what the tool prints goes to the standard output. Two warnings that may be
logged are left out: that some of the content could not be written because the tool had stopped
reading, which depends on who is faster, and that writing it was broken off. -/
def perform (host : Host) (command : Command) (content : Bytes) :
    Action (Except PreviewFault Unit) :=
  match host.pipeFault with
  | some e => pure (.error (.noPipe e))
  | none => do
      Action.log .debug .handover ("Running ".toList ++ command.toText)
      match host.tools.launch command with
      | .error e => pure (.error (.notStarted e))
      | .ok behavior => do
          let (printed, status) := behavior.run command (← Action.getTree) content
          Action.emit printed
          pure (PreviewFault.ofExit status.code?)

end Handover

end QueryTidy
