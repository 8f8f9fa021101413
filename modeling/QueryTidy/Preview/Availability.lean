import QueryTidy.Preview.Tool
import QueryTidy.Run.Action
import QueryTidy.Text.Blank

/-!
# Which tools can be used

The plain comparison tool can be used when it is found. The version control system has to be new
enough as well, since older releases do not read the side channel.
-/

namespace QueryTidy

-- The power of natural numbers is that of the core library, also where monoids are known.
attribute [local instance (1100)] instPowNat

/-- The first two numbers of a version. -/
structure GitVersion where
  major : Nat
  minor : Nat
  deriving DecidableEq, Repr

namespace GitVersion

/-- The words before the number of a version. -/
def announcement : Text := "git version ".toList

/-- A number of 32 bits: digits after an optional plus sign. -/
def number? (t : Text) : Option Nat :=
  let digits := match t with
    | '+' :: rest => rest
    | t => t
  if digits ≠ [] ∧ digits.all Text.isDigit ∧ Text.toNat digits < 2 ^ (32 : Nat) then
    some (Text.toNat digits)
  else none

/-- Read the version out of what the program prints, as in `git version 2.39.5 (Apple Git-145)`. -/
def parse? (printed : Text) : Option GitVersion := do
  let rest ← Text.dropStart? announcement (Text.trim printed)
  let word ← (Text.words rest).head?
  match Text.splitAt (· == '.') word with
  | major :: minor :: _ => do pure ⟨← number? major, ← number? minor⟩
  | _ => none

/-- The first release that reads the side channel. -/
def firstUsable : GitVersion := ⟨2, 42⟩

/-- The version is not older than another one. -/
def atLeast (v least : GitVersion) : Bool :=
  least.major < v.major || (v.major = least.major && least.minor ≤ v.minor)

end GitVersion

/-- Which tools can be used. -/
structure Availability where
  diff : Bool
  git : Bool
  deriving DecidableEq, Repr

namespace Availability

/-- The word for a truth value. -/
def boolText (b : Bool) : Text :=
  if b then "true".toList else "false".toList

/-- The availability as it is shown in messages. -/
def toText (a : Availability) : Text :=
  "ToolAvailability \x7b diff: ".toList ++ boolText a.diff ++ ", git: ".toList ++ boolText a.git
    ++ " \x7d".toList

/-- The version as it is shown in messages. -/
def versionText : Option GitVersion → Text
  | none => "None".toList
  | some v =>
      "Some((".toList ++ Text.ofNat v.major ++ ", ".toList ++ Text.ofNat v.minor ++ "))".toList

/-- The version that the version control system reports, if it can be started and succeeds. -/
def gitVersion? (tools : Toolset) : Option GitVersion :=
  let question : Command := ⟨ToolBehavior.gitName, ToolBehavior.versionArgs⟩
  match tools.launch question with
  | .error _ => none
  | .ok behavior =>
      if behavior.versionExit = .code 0 then GitVersion.parse? (Utf8.decodeLossy behavior.version)
      else none

/-- The version control system is found and new enough. Its version is logged when it is found. -/
def probeGit (tools : Toolset) : Action Bool := do
  if tools.has ToolBehavior.gitName then
    let version := gitVersion? tools
    Action.log .debug .detection ("Detected git version ".toList ++ versionText version)
    pure (version.any (·.atLeast GitVersion.firstUsable))
  else pure false

/-- Look for the tools. -/
def probe (tools : Toolset) : Action Availability := do
  let git ← probeGit tools
  let found : Availability := ⟨tools.has ToolBehavior.diffName, git⟩
  Action.log .debug .detection ("Detected diff tools: ".toList ++ found.toText)
  pure found

end Availability

end QueryTidy
