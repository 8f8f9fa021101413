import QueryTidy.Preview.Handover

/-!
# The exchange with a tool

While a tool runs, three parties share the pipe that brings it the new content: a writer, which puts
the content into the pipe and then closes it; the tool, which reads at the other end; and the
program, which starts the tool, closes its own copy of the read end, waits for the tool and then for
the writer. `Exchange.Step` says what each of them can do at a moment, and an `Exchange.Run` is any
schedule of such steps. `Handover.perform` is what an exchange comes to.
-/

namespace QueryTidy

/-- What an exchange starts from: the content, the number of bytes that the pipe can hold, and the
fault that keeps the tool from being started, if there is one. -/
structure Exchange where
  content : Bytes
  capacity : Nat
  capacity_pos : 0 < capacity
  launchFault : Option IoError

namespace Exchange

/-- Who can take a step. -/
inductive Party where
  | writer | tool | program
  deriving DecidableEq, Repr

/-- The writer: it holds the write end of the pipe as long as it has not ended. -/
inductive Writer where
  | writing (left : Bytes)
  | ended
  deriving DecidableEq, Repr

namespace Writer

/-- The bytes that are still to be written. -/
def left : Writer → Bytes
  | .writing left => left
  | .ended => []

/-- The steps that the writer takes at most. -/
def remaining : Writer → Nat
  | .writing left => left.length + 1
  | .ended => 0

end Writer

/-- The tool: it holds the read end of the pipe while it runs. -/
inductive Child where
  | absent
  | running
  | exited (status : ExitStatus)
  | notStarted (e : IoError)
  deriving DecidableEq, Repr

namespace Child

/-- The tool has exited, or it could not be started. -/
def isOver : Child → Bool
  | .absent | .running => false
  | .exited _ | .notStarted _ => true

end Child

/-- What the program is about to do. -/
inductive Stage where
  /-- Start the tool. -/
  | starting
  /-- Close its own copy of the read end. -/
  | releasing
  /-- Wait for the tool. -/
  | waiting
  /-- Wait for the writer, with what came of the tool. -/
  | joining (ending : Except IoError ExitStatus)
  /-- Nothing: the exchange has its result. -/
  | returned (result : Except PreviewFault Unit)
  deriving Repr

namespace Stage

/-- The program has a copy of the read end. -/
def holdsReadEnd : Stage → Bool
  | .starting | .releasing => true
  | _ => false

/-- The exchange has its result. -/
def isReturned : Stage → Bool
  | .returned _ => true
  | _ => false

/-- The steps that the program takes until it returns. -/
def remaining : Stage → Nat
  | .starting => 4
  | .releasing => 3
  | .waiting => 2
  | .joining _ => 1
  | .returned _ => 0

end Stage

/-- A moment of an exchange. -/
structure State where
  writer : Writer
  /-- What is in the pipe. -/
  pipe : Bytes
  child : Child
  /-- What the tool has read. -/
  received : Bytes
  /-- The tool was told that nothing comes any more. -/
  sawEnd : Bool
  stage : Stage
  deriving Repr

namespace State

/-- Someone can read from the pipe. -/
def isReadable (s : State) : Bool :=
  s.stage.holdsReadEnd || s.child = .running

/-- The steps that the program and the writer take at most. -/
def remaining (s : State) : Nat :=
  s.writer.remaining + s.stage.remaining

end State

/-- What the end of a tool means for the exchange. -/
def conclusion : Except IoError ExitStatus → Except PreviewFault Unit
  | .ok status => PreviewFault.ofExit status.code?
  | .error e => .error (.notStarted e)

/-- The pipe is there, and the writer has begun. -/
def start (x : Exchange) : State where
  writer := .writing x.content
  pipe := []
  child := .absent
  received := []
  sawEnd := false
  stage := .starting

/-- What a party can do at a moment. -/
inductive Step (x : Exchange) : Party → State → State → Prop where
  /-- Some bytes are written. There has to be room for them and someone who can read them. -/
  | write {s : State} {left : Bytes} (n : Nat) : s.writer = .writing left → s.isReadable →
      0 < n → n ≤ left.length → s.pipe.length + n ≤ x.capacity →
      Step x .writer s { s with writer := .writing (left.drop n), pipe := s.pipe ++ left.take n }
  /-- All is written. -/
  | finish {s : State} : s.writer = .writing [] → Step x .writer s { s with writer := .ended }
  /-- Nobody can read what is left, so that writing fails. -/
  | giveUp {s : State} {left : Bytes} : s.writer = .writing left → left ≠ [] → ¬s.isReadable →
      Step x .writer s { s with writer := .ended }
  /-- The tool is started. -/
  | launch {s : State} : s.stage = .starting → x.launchFault = none →
      Step x .program s { s with child := .running, stage := .releasing }
  /-- The tool cannot be started. -/
  | launchFails {s : State} {e : IoError} : s.stage = .starting → x.launchFault = some e →
      Step x .program s { s with child := .notStarted e, stage := .releasing }
  /-- The program closes its read end. -/
  | release {s : State} : s.stage = .releasing → Step x .program s { s with stage := .waiting }
  /-- The tool that was waited for has exited. -/
  | reap {s : State} {status : ExitStatus} : s.stage = .waiting → s.child = .exited status →
      Step x .program s { s with stage := .joining (.ok status) }
  /-- There is no tool to wait for. -/
  | skip {s : State} {e : IoError} : s.stage = .waiting → s.child = .notStarted e →
      Step x .program s { s with stage := .joining (.error e) }
  /-- The writer that was waited for has ended. -/
  | join {s : State} {ending : Except IoError ExitStatus} : s.stage = .joining ending →
      s.writer = .ended → Step x .program s { s with stage := .returned (conclusion ending) }
  /-- The tool reads some of the bytes in the pipe. -/
  | read {s : State} (n : Nat) : s.child = .running → n ≤ s.pipe.length →
      Step x .tool s { s with pipe := s.pipe.drop n, received := s.received ++ s.pipe.take n }
  /-- The tool is told that nothing comes any more: the pipe is empty and its write end closed. -/
  | readEnd {s : State} : s.child = .running → s.pipe = [] → s.writer = .ended →
      Step x .tool s { s with sawEnd := true }
  /-- The tool exits, whatever it has read. -/
  | exit {s : State} (status : ExitStatus) : s.child = .running →
      Step x .tool s { s with child := .exited status }

/-- A schedule of steps from one moment to another. -/
inductive Run (x : Exchange) : List Party → State → State → Prop where
  | nil (s : State) : Run x [] s s
  | cons {party : Party} {schedule : List Party} {s u v : State} :
      Step x party s u → Run x schedule u v → Run x (party :: schedule) s v

/-- The fault that keeps the tool of a command from being started, if there is one. -/
def launchFaultOf (tools : Toolset) (command : Command) : Option IoError :=
  match tools.launch command with
  | .error e => some e
  | .ok _ => none

end Exchange

end QueryTidy
