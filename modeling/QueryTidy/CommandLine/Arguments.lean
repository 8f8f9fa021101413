import QueryTidy.CommandLine.Error

/-!
# Reading the command line

The arguments are taken from left to right (`Arguments.Reader.run`). Options and paths may mix, and
an argument `--` says that only paths follow. A choice of a tool that follows its option as an
argument of its own, and paths, are examined when the next option is taken or when the arguments
end: until then they are pending. What an argument means is settled by `Argument.ofBytes`.
-/

namespace QueryTidy

/-- What is asked for. -/
inductive Request where
  | run (options : Options)
  /-- Show the help, in its long form if `detailed`. -/
  | help (detailed : Bool)
  | version
  | refused (e : ArgumentError)
  deriving DecidableEq, Repr

/-- The form of an argument. -/
inductive Argument where
  /-- The argument `--`. -/
  | separator
  /-- An option by its long name, with what follows the first equals sign. -/
  | long (word : Bytes) (value : Option Bytes)
  /-- Options by their one-letter names. -/
  | letters (letters : Bytes)
  /-- Anything else, also a single minus sign. -/
  | plain (word : Bytes)
  deriving DecidableEq, Repr

namespace Argument

/-- The byte of a minus sign. -/
def minus : UInt8 := 0x2D

/-- The byte of an equals sign. -/
def equals : UInt8 := 0x3D

/-- The form of an argument. -/
def ofBytes (bytes : Bytes) : Argument :=
  match Text.dropStart? [minus, minus] bytes with
  | some [] => .separator
  | some rest =>
      let word := rest.takeWhile (· ≠ equals)
      .long word (if word = rest then none else some (rest.drop (word.length + 1)))
  | none =>
      match Text.dropStart? [minus] bytes with
      | some [] => .plain bytes
      | some rest => .letters rest
      | none => .plain bytes

end Argument

namespace Arguments

/-- Arguments that were taken and not yet examined. -/
inductive Pending where
  | nothing
  /-- The option for a choice, with the word of the choice once it was taken. -/
  | choice (word : Option Bytes)
  | paths (paths : List Path)
  deriving DecidableEq, Repr

/-- What was taken so far. -/
structure Reader where
  /-- The options in the order in which they were given. -/
  given : List OptionName
  choice : ComparerChoice
  paths : List Path
  pending : Pending
  deriving DecidableEq, Repr

namespace Reader

/-- Before the first argument. -/
def start : Reader :=
  ⟨[], ComparerChoice.default, [], .nothing⟩

/-- Take the choice of a tool. A second choice takes back the first, and a word that is no choice
counts as given all the same; usage lines show both. -/
def takeChoice (r : Reader) (word : Bytes) : Reader × Option ArgumentError :=
  if OptionName.differ ∈ r.given then
    (⟨r.given.erase .differ, r.choice, r.paths, .nothing⟩, some (.repeated .differ))
  else
    let given := r.given ++ [.differ]
    if word = [] then (⟨given, r.choice, r.paths, .nothing⟩, some .missingChoice)
    else
      match (Utf8.decode word).toOption.bind (ComparerChoice.ofName? false) with
      | some choice => (⟨given, choice, r.paths, .nothing⟩, none)
      | none =>
          (⟨given, r.choice, r.paths, .nothing⟩, some (.invalidChoice (Utf8.decodeLossy word)))

/-- Examine what is pending. -/
def settle (r : Reader) : Reader × Option ArgumentError :=
  match r.pending with
  | .nothing => (r, none)
  | .choice none => (⟨r.given, r.choice, r.paths, .nothing⟩, some .missingChoice)
  | .choice (some word) => r.takeChoice word
  | .paths paths =>
      (⟨r.given, r.choice, r.paths ++ paths, .nothing⟩,
        if [] ∈ paths then some .emptyPath else none)

/-- Examine what is pending and go on if there is nothing wrong with it. -/
def settled (r : Reader) : Except ArgumentError Reader :=
  match r.settle with
  | (r, none) => .ok r
  | (_, some e) => .error e

/-- Take an option that takes no value. -/
def takeFlag (r : Reader) (name : OptionName) : Except Request Reader :=
  match r.settled with
  | .error e => .error (.refused e)
  | .ok r =>
      if name ∈ r.given then .error (.refused (.repeated name))
      else .ok ⟨r.given ++ [name], r.choice, r.paths, r.pending⟩

/-- An option that ends the reading once what is pending was examined. -/
def finishWith (r : Reader) (request : Request) : Except Request Reader :=
  match r.settled with
  | .error e => .error (.refused e)
  | .ok _ => .error request

/-- Take an option that has no value attached. `detailed` says how much help it asks for, if
it asks for help. -/
def takeOption (r : Reader) (detailed : Bool) : OptionName → Except Request Reader
  | .dryRun => r.takeFlag .dryRun
  | .verbose => r.takeFlag .verbose
  | .help => r.finishWith (.help detailed)
  | .version => r.finishWith .version
  | .differ =>
      match r.settled with
      | .error e => .error (.refused e)
      | .ok r => .ok ⟨r.given, r.choice, r.paths, .choice none⟩

/-- Take an option by its long name. What is pending is examined before an unknown name is
reported, but its faults are not. -/
def takeLong (r : Reader) (word : Bytes) (value : Option Bytes) : Except Request Reader :=
  match OptionName.ofWord? word, value with
  | none, _ => .error (.refused (.unknownWord (Utf8.decodeLossy word) r.settle.1.given))
  | some name, none => r.takeOption true name
  | some .differ, some value =>
      match r.settled with
      | .error e => .error (.refused e)
      | .ok r =>
          match r.takeChoice value with
          | (r, none) => .ok r
          | (_, some e) => .error (.refused e)
  | some name, some value =>
      .error (.refused (.unexpectedValue name (Utf8.decodeLossy value) r.given))

/-- The text of a stretch of bytes. -/
def chunkText : Utf8.Chunk → Text
  | .char c => [c]
  | .stray _ => [Utf8.replacement]

/-- Take options by their one-letter names. Bytes that belong to no character are reported with
everything after them. -/
def takeLetters (r : Reader) : List Utf8.Chunk → Except Request Reader
  | [] => .ok r
  | .char c :: rest =>
      match OptionName.ofLetter? c with
      | none => .error (.refused (.unknownLetter [c]))
      | some name =>
          match r.takeOption false name with
          | .error request => .error request
          | .ok r => r.takeLetters rest
  | .stray bytes :: rest =>
      .error (.refused (.unknownLetter ((Utf8.Chunk.stray bytes :: rest).flatMap chunkText)))

/-- Take a path. -/
def takePath (r : Reader) (path : Path) : Except Request Reader :=
  match r.pending with
  | .paths paths => .ok ⟨r.given, r.choice, r.paths, .paths (paths ++ [path])⟩
  | _ =>
      match r.settled with
      | .error e => .error (.refused e)
      | .ok r => .ok ⟨r.given, r.choice, r.paths, .paths [path]⟩

/-- Take an argument that is no option: the word of a choice, if its option comes directly before
it, or a path. -/
def takePlain (r : Reader) (word : Bytes) : Except Request Reader :=
  match r.pending with
  | .choice none => .ok ⟨r.given, r.choice, r.paths, .choice (some word)⟩
  | _ => r.takePath word

/-- The end of the arguments: there has to be a path. -/
def finish (r : Reader) : Request :=
  match r.settled with
  | .error e => .refused e
  | .ok r =>
      if r.paths = [] then .refused (.missingPaths r.given)
      else
        .run ⟨decide (OptionName.dryRun ∈ r.given), r.choice,
          decide (OptionName.verbose ∈ r.given), r.paths⟩

/-- Take an argument before the separator. -/
def take (r : Reader) : Argument → Except Request Reader
  | .separator => .ok r
  | .long word value => r.takeLong word value
  | .letters letters => r.takeLetters (Utf8.chunks letters)
  | .plain word => r.takePlain word

/-- Take the arguments after the separator. -/
def runPaths (r : Reader) : List Bytes → Request
  | [] => r.finish
  | argument :: rest =>
      match r.takePath argument with
      | .error request => request
      | .ok r => r.runPaths rest

/-- Take the arguments. -/
def run (r : Reader) : List Bytes → Request
  | [] => r.finish
  | argument :: rest =>
      match Argument.ofBytes argument with
      | .separator => r.runPaths rest
      | form =>
          match r.take form with
          | .error request => request
          | .ok r => r.run rest

end Reader

/-- What a list of arguments asks for. -/
def read (arguments : List Bytes) : Request :=
  Reader.start.run arguments

end Arguments

end QueryTidy
