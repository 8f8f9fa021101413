import QueryTidy.Text.Utf8

/-!
# Paths

A path is a sequence of bytes. `Path.names` are the names to be followed, and `Path.parts` is what
decides whether two paths are written alike (`Path.same`).
-/

namespace QueryTidy

/-- A path, as it is written. -/
abbrev Path := Bytes

namespace Path

/-- The byte between the names of a path. -/
def slash : UInt8 := 0x2F

/-- The name of the directory itself. -/
def dot : Bytes := [0x2E]

/-- The name of the directory above. -/
def dotDot : Bytes := [0x2E, 0x2E]

/-- The path starts from the root of the system. -/
def isAbsolute (p : Path) : Bool :=
  p.head? = some slash

/-- The names between the slashes, in order. -/
def names (p : Path) : List Bytes :=
  (Text.splitAt (· == slash) p).filter fun n => !n.isEmpty

/-- The names to be followed. A slash at the end asks for a directory, as does a final dot. -/
def steps (p : Path) : List Bytes :=
  if p.getLast? = some slash then names p ++ [dot] else names p

/-- A component of a path. -/
inductive Part where
  | root
  /-- The dot at the beginning of a relative path. -/
  | here
  | parent
  | name (n : Bytes)
  deriving DecidableEq, Repr

/-- The component of a name other than the dot. -/
def partOfName (n : Bytes) : Part :=
  if n = dotDot then .parent else .name n

/-- The components of a path. Repeated slashes, dots inside and slashes at the end leave no
component. -/
def parts (p : Path) : List Part :=
  let named := ((names p).filter fun n => n ≠ dot).map partOfName
  if isAbsolute p then .root :: named
  else if (names p).head? = some dot then .here :: named
  else named

/-- The paths have the same components. -/
def same (p q : Path) : Bool :=
  parts p = parts q

/-- The path as it is shown in messages. -/
def toText (p : Path) : Text :=
  Utf8.decodeLossy p

end Path

end QueryTidy
