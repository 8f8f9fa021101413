import QueryTidy.Preview.Comparer
import QueryTidy.Files.Path

/-!
# Options

The options of the command line (`OptionName`) and the settings that a run takes from them
(`Options`).
-/

namespace QueryTidy

/-- The options. -/
inductive OptionName where
  | dryRun | differ | verbose | help | version
  deriving DecidableEq, Repr

namespace OptionName

/-- All options, in the order of the help. -/
def all : List OptionName :=
  [.dryRun, .differ, .verbose, .help, .version]

/-- The long name of an option. -/
def word : OptionName → Text
  | .dryRun => "dry-run".toList
  | .differ => "differ".toList
  | .verbose => "verbose".toList
  | .help => "help".toList
  | .version => "version".toList

/-- The one-letter name of an option, if it has one. -/
def letter? : OptionName → Option Char
  | .dryRun => none
  | .differ => none
  | .verbose => some 'v'
  | .help => some 'h'
  | .version => some 'V'

/-- The option as it is shown in messages, with the value that it takes. -/
def shown : OptionName → Text
  | .differ => "--differ <DIFFER>".toList
  | name => "--".toList ++ name.word

/-- The option with the given long name. -/
def ofWord? (word : Bytes) : Option OptionName :=
  all.find? fun name => Utf8.encode name.word = word

/-- The option with the given one-letter name. -/
def ofLetter? (c : Char) : Option OptionName :=
  all.find? fun name => name.letter? = some c

end OptionName

/-- The settings and the files of a run. -/
structure Options where
  dryRun : Bool
  choice : ComparerChoice
  verbose : Bool
  paths : List Path
  deriving DecidableEq, Repr

end QueryTidy
