import QueryTidy.Query.Parser
import QueryTidy.Query.Printer

/-!
# The canonical form of a query text
-/

namespace QueryTidy

/-- What comes of putting a text into canonical form. -/
inductive FormatResult where
  | formatted (t : Text)
  | rejected (message : Text)
  /-- The program stops. -/
  | crash
  deriving DecidableEq, Repr

namespace Query

/-- Put the text of a query into canonical form: read it and write it again. -/
def format (t : Text) : FormatResult :=
  match Expr.parse t with
  | .query e => .formatted e.pretty
  | .rejected e => .rejected e.message
  | .crash => .crash

end Query

end QueryTidy
