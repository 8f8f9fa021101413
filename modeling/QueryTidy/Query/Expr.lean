import QueryTidy.Query.Duration
import QueryTidy.Query.Token

/-!
# Queries

The syntax trees of the query language.
-/

namespace QueryTidy

/-- The types of queries. -/
inductive ValueType where
  | vector | scalar | matrix | string
  deriving DecidableEq, Repr

namespace ValueType

/-- The word for a type. -/
def word : ValueType → Text
  | .vector => "vector".toList
  | .scalar => "scalar".toList
  | .matrix => "matrix".toList
  | .string => "string".toList

end ValueType

/-- The comparisons of label matchers. -/
inductive MatchOp where
  | equal | notEqual | matches | notMatches
  deriving DecidableEq, Repr

namespace MatchOp

/-- The sign of a comparison. -/
def word : MatchOp → Text
  | .equal => "=".toList
  | .notEqual => "!=".toList
  | .matches => "=~".toList
  | .notMatches => "!~".toList

/-- The comparison is with a regular expression. -/
def isPattern : MatchOp → Bool
  | .equal => false
  | .notEqual => false
  | .matches => true
  | .notMatches => true

end MatchOp

/-- A condition on one label. The value is the raw text between the quotes. -/
structure Matcher where
  name : Text
  op : MatchOp
  value : Text
  deriving DecidableEq, Repr

/-- The conditions of a selector: all of a list, or all of one of several lists. -/
inductive Selection where
  | all (matchers : List Matcher)
  | any (groups : List (List Matcher))
  deriving DecidableEq, Repr

namespace Selection

/-- All conditions, in the order in which they are written. -/
def matchers : Selection → List Matcher
  | .all ms => ms
  | .any groups => groups.flatten

end Selection

/-- A shift of the evaluation time; a negative one looks ahead. -/
structure Offset where
  negative : Bool
  span : Duration
  deriving DecidableEq, Repr

/-- A fixed evaluation time: the start or the end of the query, or a number of milliseconds after or
before the beginning of 1970. -/
inductive Instant where
  | start
  | finish
  | time (negative : Bool) (millis : Nat)
  deriving DecidableEq, Repr

/-- When a selector is evaluated. -/
structure Timing where
  offset : Option Offset := none
  instant : Option Instant := none
  deriving DecidableEq, Repr

/-- A selector of series by name and labels. -/
structure Selector where
  name : Option Text
  selection : Selection
  timing : Timing
  deriving DecidableEq, Repr

/-- The binary operators. -/
inductive BinaryOp where
  | or | and | unless
  | equal | notEqual | less | lessEqual | greater | greaterEqual
  | plus | minus | times | divide | modulo | atan2 | power
  deriving DecidableEq, Repr

namespace BinaryOp

/-- The word or sign of an operator. -/
def word : BinaryOp → Text
  | .or => "or".toList
  | .and => "and".toList
  | .unless => "unless".toList
  | .equal => "==".toList
  | .notEqual => "!=".toList
  | .less => "<".toList
  | .lessEqual => "<=".toList
  | .greater => ">".toList
  | .greaterEqual => ">=".toList
  | .plus => "+".toList
  | .minus => "-".toList
  | .times => "*".toList
  | .divide => "/".toList
  | .modulo => "%".toList
  | .atan2 => "atan2".toList
  | .power => "^".toList

/-- The operator of a token. -/
def ofToken? : Token → Option BinaryOp
  | .reserved .or _ => some .or
  | .reserved .and _ => some .and
  | .reserved .unless _ => some .unless
  | .reserved .atan2 _ => some .atan2
  | .sign .equal => some .equal
  | .sign .notEqual => some .notEqual
  | .sign .less => some .less
  | .sign .lessEqual => some .lessEqual
  | .sign .greater => some .greater
  | .sign .greaterEqual => some .greaterEqual
  | .sign .plus => some .plus
  | .sign .minus => some .minus
  | .sign .times => some .times
  | .sign .divide => some .divide
  | .sign .modulo => some .modulo
  | .sign .power => some .power
  | _ => none

/-- How tightly an operator binds. -/
def level : BinaryOp → Nat
  | .or => 1
  | .and => 2
  | .unless => 2
  | .equal => 3
  | .notEqual => 3
  | .less => 3
  | .lessEqual => 3
  | .greater => 3
  | .greaterEqual => 3
  | .plus => 4
  | .minus => 4
  | .times => 5
  | .divide => 5
  | .modulo => 5
  | .atan2 => 5
  | .power => 6

/-- The least level that the right side of an operator may have. All operators group to the left,
except the power, which groups to the right. -/
def rightLevel : BinaryOp → Nat
  | .power => 6
  | op => op.level + 1

/-- A comparison of values. -/
def isComparison (op : BinaryOp) : Bool :=
  op.level == 3

/-- An operator on sets of series. -/
def isSet : BinaryOp → Bool
  | .or => true
  | .and => true
  | .unless => true
  | _ => false

end BinaryOp

/-- The labels by which the series of two sides are matched: the given ones, or all others. -/
inductive Matching where
  | on (labels : List Text)
  | ignoring (labels : List Text)
  deriving DecidableEq, Repr

namespace Matching

/-- The labels that are named. -/
def labels : Matching → List Text
  | .on ls => ls
  | .ignoring ls => ls

end Matching

/-- The side of a binary operation that may have many series for one of the other side. -/
inductive GroupSide where
  | left | right
  deriving DecidableEq, Repr

namespace GroupSide

/-- The word that names the side. -/
def word : GroupSide → Text
  | .left => "group_left".toList
  | .right => "group_right".toList

end GroupSide

/-- What follows the operator of a binary operation. -/
structure Modifier where
  bool : Bool := false
  matching : Option Matching := none
  group : Option (GroupSide × List Text) := none
  deriving DecidableEq, Repr

/-- The labels that an aggregation keeps or drops. -/
inductive Grouping where
  | keeping (labels : List Text)
  | dropping (labels : List Text)
  deriving DecidableEq, Repr

/-- A function of the language: its name, the types of its parameters and of its result. The last
parameter of a variadic function may be left out or repeated. -/
structure Signature where
  name : Text
  params : List ValueType
  variadic : Bool
  result : ValueType
  deriving DecidableEq, Repr

/-- A query. -/
inductive Expr where
  | number (value : Binary64)
  | string (raw : Text)
  | vector (selector : Selector)
  | matrix (selector : Selector) (range : Duration)
  | subquery (inner : Expr) (range : Duration) (step : Option Duration) (timing : Timing)
  | paren (inner : Expr)
  | negative (inner : Expr)
  | binary (op : BinaryOp) (modifier : Modifier) (left right : Expr)
  | call (function : Signature) (args : List Expr)
  | aggregate (op : AggregateOp) (grouping : Option Grouping) (param : Option Expr) (inner : Expr)
  deriving Repr

namespace Expr

/-- The type of a query. A binary operation is scalar only if both sides are. -/
def type : Expr → ValueType
  | .number _ => .scalar
  | .string _ => .string
  | .vector _ => .vector
  | .matrix _ _ => .matrix
  | .subquery _ _ _ _ => .matrix
  | .paren inner => type inner
  | .negative inner => type inner
  | .binary _ _ left right =>
      if type left = .scalar ∧ type right = .scalar then .scalar else .vector
  | .call function _ => function.result
  | .aggregate _ _ _ _ => .vector

end Expr

end QueryTidy
