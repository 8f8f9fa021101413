import QueryTidy.Query.Format
import QueryTidy.Run.Action
import QueryTidy.Run.Fault
import QueryTidy.Text.Blank

/-!
# New content of files

A formatter turns the text of a file into its canonical form, without a final line end, or describes
why it cannot. The program's own formatter is `Formatter.query`. What a formatter makes of the bytes
of a file is their new content (`newContent`).
-/

namespace QueryTidy

/-- The formatter of a run. It may act on the files, although formatters do not usually. -/
abbrev Formatter := Text → Action (Except Text Text)

namespace Formatter

/-- The formatter of a function on texts. -/
def ofFunction (f : Text → Except Text Text) : Formatter :=
  fun t => pure (f t)

/-- The formatter of queries. -/
def query : Formatter := fun t =>
  match Query.format t with
  | .formatted shown => pure (.ok shown)
  | .rejected message => pure (.error message)
  | .crash => Action.crash

/-- A formatter that only looks at parentheses and blanks: it refuses texts in which the numbers of
opening and closing parentheses differ and puts one space between words. -/
def singleSpaced : Formatter :=
  ofFunction fun t =>
    if t.count '(' = t.count ')' then .ok (Text.join [' '] (Text.words t))
    else .error "unclosed parenthesis".toList

/-- A formatter that removes a file whenever it is used. -/
def removing (path : Path) (base : Formatter) : Formatter := fun t => do
  let tree ← Action.getTree
  Action.setTree (tree.remove path)
  base t

end Formatter

/-- The new content of a file: the output of a formatter and one line end. -/
structure Content where
  body : Bytes
  deriving DecidableEq, Repr

namespace Content

/-- The bytes of the content. -/
def bytes (c : Content) : Bytes :=
  c.body ++ [0x0A]

/-- The content of a formatted text. -/
def ofText (t : Text) : Content :=
  ⟨Utf8.encode t⟩

/-- A file with the old bytes has to change; nothing is overlooked in the comparison. -/
def changes (c : Content) (old : Bytes) : Bool :=
  old ≠ c.bytes

end Content

/-- The new content of a file with the given bytes, which have to be the encoding of a text. -/
def newContent (formatter : Formatter) (path : Path) (data : Bytes) :
    Action (Except Fault Content) :=
  match Utf8.decode data with
  | .error e => pure (.error (.parse path ("source is not valid UTF-8: ".toList ++ e.message)))
  | .ok text => do
      match ← formatter text with
      | .ok formatted => pure (.ok (Content.ofText formatted))
      | .error message => pure (.error (.parse path message))

end QueryTidy
