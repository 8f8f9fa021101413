import QueryTidy.Query.Expr
import QueryTidy.Text.Blank

/-!
# Writing queries

A query has a text on one line (`Expr.oneLine`) and a layout (`Expr.layout`), which is the text on
one line as long as that has at most a hundred bytes, and otherwise has the parts of the outermost
node on lines of their own. `Expr.pretty` is the layout without indentation.
-/

namespace QueryTidy

/-- Texts separated by a comma and a space. -/
def commaList (ts : List Text) : Text :=
  Text.join ", ".toList ts

/-- Labels in parentheses. -/
def labelList (labels : List Text) : Text :=
  '(' :: commaList labels ++ [')']

namespace Matcher

/-- The text of a condition; the value is always put in double quotes. -/
def toText (m : Matcher) : Text :=
  m.name ++ m.op.word ++ '"' :: m.value ++ ['"']

end Matcher

namespace Selection

/-- Drop a beginning of a text as often as it occurs there, at most as many times as the first
argument says. -/
def dropRepeated (start : Text) : Nat → Text → Text
  | 0, t => t
  | fuel + 1, t =>
      match Text.dropStart? start t with
      | some rest => dropRepeated start fuel rest
      | none => t

/-- The text between the braces. Conditions that must all hold are sorted. Alternatives keep their
order; each is put after ` or`, and what stands at the beginning of the whole is dropped. -/
def toText : Selection → Text
  | .all ms => Text.join [','] (Text.sort (ms.map Matcher.toText))
  | .any groups =>
      let written :=
        groups.flatMap fun group => " or ".toList ++ commaList (group.map Matcher.toText)
      Text.trim (dropRepeated " or".toList (written.length + 1) written)

/-- There are no conditions. -/
def isEmpty (s : Selection) : Bool :=
  s.matchers.isEmpty

end Selection

namespace Instant

/-- The text of an evaluation time, in seconds with three places. Times before 1970 are written as
zero. -/
def toText : Instant → Text
  | .start => "@ start()".toList
  | .finish => "@ end()".toList
  | .time negative millis =>
      let shown := if negative then 0 else millis
      "@ ".toList ++
        match (Binary64.ofNat shown).magnitude? with
        | some (num, den) => (Binary64.ofRatio false num (den * 1000)).fixed 3
        | none => []

end Instant

namespace Offset

/-- The text of an offset. -/
def toText (o : Offset) : Text :=
  "offset ".toList ++ (if o.negative then ['-'] else []) ++ o.span.toText

end Offset

namespace Timing

/-- The text of the timing, each part with a space before it. -/
def toText (t : Timing) : Text :=
  (match t.instant with
    | some i => ' ' :: i.toText
    | none => []) ++
  (match t.offset with
    | some o => ' ' :: o.toText
    | none => [])

end Timing

namespace Selector

/-- The text of a selector without its timing. -/
def head (s : Selector) : Text :=
  s.name.getD [] ++
    if s.selection.isEmpty then [] else '\x7b' :: s.selection.toText ++ ['\x7d']

end Selector

namespace Modifier

/-- The text of the matching; an empty list of ignored labels is left out. -/
def matchingText : Option Matching → Text
  | none => []
  | some (.on labels) => "on ".toList ++ labelList labels ++ [' ']
  | some (.ignoring labels) =>
      if labels.isEmpty then [] else "ignoring ".toList ++ labelList labels ++ [' ']

/-- The text of the side with many series. -/
def groupText : Option (GroupSide × List Text) → Text
  | none => []
  | some (side, labels) => side.word ++ ' ' :: labelList labels ++ [' ']

/-- The text of a modifier after its operator. -/
def toText (m : Modifier) : Text :=
  let written :=
    (if m.bool then "bool ".toList else []) ++ matchingText m.matching ++ groupText m.group
  if written.isEmpty then [] else ' ' :: Text.trimEnd written

end Modifier

namespace Grouping

/-- The text of the labels of an aggregation, with spaces around it; an empty list of labels to keep
is left out. -/
def toText : Option Grouping → Text
  | none => []
  | some (.keeping labels) =>
      if labels.isEmpty then [] else " by ".toList ++ labelList labels ++ [' ']
  | some (.dropping labels) => " without ".toList ++ labelList labels ++ [' ']

end Grouping

namespace Binary64

/-- The text of a number in a query. -/
def literal : Binary64 → Text
  | .nan => "NaN".toList
  | .infinite negative => if negative then "-Inf".toList else "Inf".toList
  | v => v.display

end Binary64

namespace Expr

/-- What follows the inner query of a subquery. -/
def subqueryText (range : Duration) (step : Option Duration) (timing : Timing) : Text :=
  '[' :: range.toText ++ ':' :: ((step.map Duration.toText).getD [] ++ ']' :: timing.toText)

mutual
/-- The text of a query on one line. -/
def oneLine : Expr → Text
  | .number value => value.literal
  | .string raw => '"' :: raw ++ ['"']
  | .vector s => s.head ++ s.timing.toText
  | .matrix s range => s.head ++ '[' :: range.toText ++ ']' :: s.timing.toText
  | .subquery inner range step timing => oneLine inner ++ subqueryText range step timing
  | .paren inner => '(' :: oneLine inner ++ [')']
  | .negative inner => '-' :: oneLine inner
  | .binary op modifier left right =>
      oneLine left ++ ' ' :: op.word ++ modifier.toText ++ ' ' :: oneLine right
  | .call function args => function.name ++ '(' :: commaList (oneLines args) ++ [')']
  | .aggregate op grouping param inner =>
      op.word ++ Grouping.toText grouping ++ '(' ::
        (match param with
          | some p => oneLine p ++ ", ".toList
          | none => []) ++ oneLine inner ++ [')']

/-- The texts of queries on one line each. -/
def oneLines : List Expr → List Text
  | [] => []
  | e :: es => oneLine e :: oneLines es
end

/-- The greatest number of bytes that a query may have on one line. -/
def lineWidth : Nat := 100

/-- The query is too long for one line. -/
def isLong (e : Expr) : Bool :=
  lineWidth < Text.byteLength (oneLine e)

/-- The indentation of a level. -/
def indent (level : Nat) : Text :=
  List.replicate (2 * level) ' '

/-- Parts on lines of their own between parentheses, with the given text before the first
parenthesis. -/
def block (level : Nat) (head : Text) (parts : List Text) : Text :=
  indent level ++ head ++ "(\n".toList ++ Text.join ",\n".toList parts
    ++ '\n' :: indent level ++ [')']

mutual
/-- The layout of a query at a level of indentation. -/
def layout (level : Nat) : Expr → Text
  | .negative inner => indent level ++ '-' :: Text.trimStart (layout level inner)
  | .subquery inner range step timing => layout level inner ++ subqueryText range step timing
  | .paren inner =>
      if isLong (.paren inner) then block level [] [layout (level + 1) inner]
      else indent level ++ oneLine (.paren inner)
  | .binary op modifier left right =>
      if isLong (.binary op modifier left right) then
        layout (level + 1) left ++ '\n' :: indent level ++ op.word ++ modifier.toText
          ++ '\n' :: layout (level + 1) right
      else indent level ++ oneLine (.binary op modifier left right)
  | .call function args =>
      if isLong (.call function args) then block level function.name (layouts (level + 1) args)
      else indent level ++ oneLine (.call function args)
  | .aggregate op grouping param inner =>
      if isLong (.aggregate op grouping param inner) then
        block level (op.word ++ Grouping.toText grouping)
          ((match param with
            | some p => [layout (level + 1) p]
            | none => []) ++ [layout (level + 1) inner])
      else indent level ++ oneLine (.aggregate op grouping param inner)
  | e => indent level ++ oneLine e

/-- The layouts of queries. -/
def layouts (level : Nat) : List Expr → List Text
  | [] => []
  | e :: es => layout level e :: layouts level es
end

/-- The canonical text of a query. -/
def pretty (e : Expr) : Text :=
  layout 0 e

end Expr

end QueryTidy
