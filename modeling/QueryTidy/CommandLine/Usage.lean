import QueryTidy.CommandLine.Options

/-!
# Help

What the program says about its command line: the version, the two forms of the help, and the usage
lines of error messages.
-/

namespace QueryTidy.Usage

/-- The lines one after another, each with a line end. -/
def lines (ls : List String) : Text :=
  ls.flatMap fun l => l.toList ++ ['\n']

/-- The answer to a question for the version. -/
def version : Text :=
  lines ["promfmt 0.1.0"]

/-- What the help says about the choice of a tool. -/
def aboutDiffer : String :=
  "Diff command to use in dry run mode. Auto will attempt to use gitdiff but fall back to diff"

/-- The short help. -/
def summary : Text :=
  lines
    ["promfmt 0.1.0 - Format PromQL files in place",
     "",
     "USAGE:",
     "    promfmt [OPTIONS] <PATHS>...",
     "",
     "OPTIONS:",
     "    Arguments:",
     "  <PATHS>...  Files to format",
     "",
     "Options:",
     "      --dry-run          Print diffs instead of applying changes",
     "      --differ <DIFFER>  " ++ aboutDiffer
       ++ " [default: auto] [possible values: auto, diff, gitdiff]",
     "  -v, --verbose          Log debug messages with their source location",
     "  -h, --help             Print help (see more with '--help')",
     "  -V, --version          Print version"]

/-- The line of a choice in the long help: the colon is followed by blanks up to a common column. -/
def choiceLine (c : ComparerChoice) : Text :=
  "          - ".toList ++ c.name ++ [':'] ++ List.replicate (8 - c.name.length) ' ' ++ c.help
    ++ ['\n']

/-- The long help. -/
def details : Text :=
  lines
    ["promfmt 0.1.0 - Formats PromQL files in place. With --dry-run the files are left untouched "
       ++ "and the formatting changes are shown through an external diff tool instead.",
     "",
     "USAGE:",
     "    promfmt [OPTIONS] <PATHS>...",
     "",
     "OPTIONS:",
     "    Arguments:",
     "  <PATHS>...",
     "          Files to format",
     "",
     "Options:",
     "      --dry-run",
     "          Print diffs instead of applying changes",
     "",
     "      --differ <DIFFER>",
     "          " ++ aboutDiffer,
     "",
     "          Possible values:"]
  ++ ComparerChoice.all.flatMap choiceLine
  ++ lines
    ["          ",
     "          [default: auto]",
     "",
     "  -v, --verbose",
     "          Log debug messages with their source location",
     "",
     "  -h, --help",
     "          Print help (see a summary with '-h')",
     "",
     "  -V, --version",
     "          Print version"]

/-- The part of a usage line that stands for the paths. -/
def paths : Text := "<PATHS>...".toList

/-- The options that a usage line shows: those given, or all of them. -/
def synopsis (given : List OptionName) : Text :=
  Text.join [' ']
    ((if given = [] then ["[OPTIONS]".toList] else given.map OptionName.shown) ++ [paths])

/-- The usage line at the end of an error message. -/
def line (shown : Text) : Text :=
  "\n\nUsage: promfmt ".toList ++ shown

/-- The last line of an error message. -/
def closing : Text :=
  "\n\nFor more information, try '--help'.\n".toList

end QueryTidy.Usage
