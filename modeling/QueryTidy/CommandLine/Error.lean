import QueryTidy.CommandLine.Usage
import QueryTidy.Text.Plain
import QueryTidy.Text.Similarity

/-!
# Errors of the command line

Why a command line is refused (`ArgumentError`) and the wording of each reason. What the user wrote
is repeated without control sequences.
-/

namespace QueryTidy

/-- Why a command line is refused. `given` lists the options that count as given, in order. -/
inductive ArgumentError where
  /-- No path is given. -/
  | missingPaths (given : List OptionName)
  /-- There is no option with this long name. -/
  | unknownWord (word : Text) (given : List OptionName)
  /-- There is no option with this one-letter name, which may be part of an argument. -/
  | unknownLetter (letter : Text)
  /-- An option that takes no value has one. -/
  | unexpectedValue (name : OptionName) (value : Text) (given : List OptionName)
  /-- An option is given twice. -/
  | repeated (name : OptionName)
  /-- The choice of a tool lacks its word. -/
  | missingChoice
  /-- The word is no choice of a tool. -/
  | invalidChoice (word : Text)
  /-- A path is empty. -/
  | emptyPath
  deriving DecidableEq, Repr

namespace ArgumentError

/-- A hint, on a line of its own after an empty line. -/
def tip (text : Text) : Text :=
  "\n\n  tip: ".toList ++ text

/-- The hint that an argument may have been meant as a path. -/
def pathTip (argument : Text) : Text :=
  tip ("to pass '".toList ++ argument ++ "' as a value, use '-- ".toList ++ argument ++ ['\''])

/-- The list of the choices of a tool. -/
def choices : Text :=
  "\n  [possible values: ".toList
    ++ Text.join ", ".toList (ComparerChoice.all.map ComparerChoice.name) ++ [']']

/-- The options of a usage line after one more was recognised. -/
def withOption (name : OptionName) (given : List OptionName) : List OptionName :=
  if name ∈ given then given else given ++ [name]

/-- The wording of an unknown argument. -/
def unexpected (argument : Text) : Text :=
  "unexpected argument '".toList ++ argument ++ "' found".toList

/-- The option that a word was probably meant to be. -/
def intended? (word : Text) : Option OptionName := do
  let similar ← Text.mostSimilar? word (OptionName.all.map OptionName.word)
  OptionName.all.find? fun name => name.word = similar

/-- The wording of the error, without what all error messages have in common. -/
def body : ArgumentError → Text
  | .missingPaths given =>
      "the following required arguments were not provided:\n  ".toList ++ Usage.paths
        ++ Usage.line (Text.join [' '] (given.map OptionName.shown ++ [Usage.paths]))
  | .unknownWord word given =>
      let argument := "--".toList ++ Text.plain word
      match intended? word with
      | some name =>
          unexpected argument
            ++ tip ("a similar argument exists: '--".toList ++ name.word ++ ['\''])
            ++ Usage.line (Usage.synopsis (withOption name given))
      | none => unexpected argument ++ pathTip argument ++ Usage.line (Usage.synopsis given)
  | .unknownLetter letter =>
      let argument := '-' :: Text.plain letter
      unexpected argument ++ pathTip argument ++ Usage.line (Usage.synopsis [])
  | .unexpectedValue name value given =>
      "unexpected value '".toList ++ Text.plain value ++ "' for '--".toList ++ name.word
        ++ "' found; no more were expected".toList
        ++ Usage.line (Usage.synopsis (withOption name given))
  | .repeated name =>
      "the argument '".toList ++ name.shown ++ "' cannot be used multiple times".toList
        ++ Usage.line (Usage.synopsis [])
  | .missingChoice =>
      "a value is required for '".toList ++ OptionName.differ.shown
        ++ "' but none was supplied".toList ++ choices
  | .invalidChoice word =>
      "invalid value '".toList ++ Text.plain word ++ "' for '".toList ++ OptionName.differ.shown
        ++ ['\''] ++ choices
        ++ match Text.mostSimilar? word (ComparerChoice.all.map ComparerChoice.name) with
          | some similar => tip ("a similar value exists: '".toList ++ similar ++ ['\''])
          | none => []
  | .emptyPath =>
      "a value is required for '".toList ++ Usage.paths ++ "' but none was supplied".toList

/-- The error message. -/
def message (e : ArgumentError) : Text :=
  "error: ".toList ++ e.body ++ Usage.closing

end ArgumentError

end QueryTidy
