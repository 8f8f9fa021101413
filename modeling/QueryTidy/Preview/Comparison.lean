import QueryTidy.Preview.Comparer
import QueryTidy.Run.Fault

/-!
# Commands that show changes

The command that compares a file with its new version, and what the exit of the tool means.
-/

namespace QueryTidy

namespace Comparer

/-- The options that a tool is always given. -/
def fixedOptions : Comparer → List Bytes
  | .diff => [Utf8.encode "--unified=10".toList]
  | .git => [Utf8.encode "diff".toList, Utf8.encode "--word-diff".toList]

/-- The option that asks for color. -/
def colorOption : Bytes := Utf8.encode "--color".toList

/-- The command that compares a file with its new version, which is found under the second path.
Only the plain tool is told about color; the other decides on it itself. -/
def comparison (c : Comparer) (color : Bool) (path formatted : Path) : Command :=
  ⟨c.program,
    c.fixedOptions ++ [path, formatted]
      ++ if c = .diff ∧ color then [colorOption] else []⟩

end Comparer

namespace PreviewFault

/-- What the exit of a tool means: 0 says that there are no differences and 1 that there are some;
everything else is a fault. -/
def ofExit : Option Int → Except PreviewFault Unit
  | some code => if code = 0 ∨ code = 1 then .ok () else .error (.exit code)
  | none => .error .killed

end PreviewFault

end QueryTidy
