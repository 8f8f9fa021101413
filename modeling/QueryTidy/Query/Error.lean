import QueryTidy.Number.Literal
import QueryTidy.Query.Expr
import QueryTidy.Query.LexError

/-!
# Faults of meaning

The reasons for which a query that is built according to the grammar is refused all the same.
-/

namespace QueryTidy

/-- Why a query without a fault of grammar is refused. -/
inductive QueryError where
  | literal (error : LiteralError)
  | duration (error : DurationError)
  | noExpression
  | offsetAtEnd
  | timestampAtEnd
  | missingUnit
  | unexpectedGroup (side : GroupSide)
  | invalidLabel (label : Text)
  | unknownFunction (name : Text)
  | trailingComma
  | leadingComma
  | doubleOperator (op : MatchOp)
  | unquotedValue (word : Text)
  | missingOperator (label : Text)
  | illegalPattern (value : Text)
  | negatedOperand (type : ValueType)
  | timestampOutOfBounds (seconds : Binary64)
  | misplacedInstant
  | repeatedInstant
  | misplacedOffset
  | repeatedOffset
  | offsetBeforeRange
  | instantBeforeRange
  | rangeOperand
  | noAggregateArgs (op : AggregateOp)
  | aggregateArgCount (expected actual : Nat)
  | aggregateType (expected actual : ValueType)
  | boolOnNonComparison
  | scalarComparison
  | labelMatchedAndGrouped (label : Text)
  | scalarInSetOperation (op : BinaryOp)
  | groupInSetOperation (op : BinaryOp)
  | binaryOperandType
  | matchingScalars
  | argCount (expected : Nat) (function : Text) (actual : Nat)
  | tooFewArgs (least : Nat) (function : Text) (actual : Nat)
  | tooManyArgs (most : Nat) (function : Text) (actual : Nat)
  | argType (expected : ValueType) (function : Text) (actual : ValueType)
  | unaryOperand (type : ValueType)
  | subqueryOperand (type : ValueType)
  | nameTwice (name value : Text)
  | emptySelector
  deriving DecidableEq, Repr

namespace QueryError

/-- The wording of a wrong number of arguments. -/
def countMessage (bound : Text) (n : Nat) (function : Text) (actual : Nat) : Text :=
  "expected ".toList ++ bound ++ Text.ofNat n ++ " argument(s) in call to '".toList ++ function
    ++ "', got ".toList ++ Text.ofNat actual

/-- The wording of an operand that unary signs do not take. -/
def unaryMessage : Text :=
  "unary expression only allowed on expressions of type scalar or vector, got".toList

/-- What offsets and evaluation times may follow. -/
def selectorMessage : Text :=
  " modifier must be preceded by an vector selector or matrix selector or a subquery".toList

/-- The wording of the error. -/
def message : QueryError → Text
  | .literal error => error.message
  | .duration error => error.message
  | .noExpression => "no expression found in input".toList
  | .offsetAtEnd => "unexpected end of input in offset, expected duration".toList
  | .timestampAtEnd => "unexpected end of input in @, expected timestamp".toList
  | .missingUnit => "missing unit character in duration".toList
  | .unexpectedGroup side => "unexpected <".toList ++ side.word ++ ['>']
  | .invalidLabel label => label ++ " is not valid label in grouping opts".toList
  | .unknownFunction name => "unknown function with name '".toList ++ name ++ ['\'']
  | .trailingComma => "trailing commas not allowed in function call args".toList
  | .leadingComma => "unexpected ',' in label matching, expected identifier or right_brace".toList
  | .doubleOperator op =>
      "unexpected '".toList ++ op.word ++ "' in label matching, expected string".toList
  | .unquotedValue word =>
      "unexpected identifier '".toList ++ word ++ "' in label matching, expected string".toList
  | .missingOperator label =>
      "invalid label matcher, expected label matching operator after '".toList ++ label ++ ['\'']
  | .illegalPattern value => "illegal regex for ".toList ++ value
  | .negatedOperand type => unaryMessage ++ ": ".toList ++ type.word
  | .timestampOutOfBounds seconds =>
      "timestamp out of bounds for @ modifier: ".toList ++ seconds.display
  | .misplacedInstant => '@' :: selectorMessage
  | .repeatedInstant => "@ <timestamp> may not be set multiple times".toList
  | .misplacedOffset => "offset".toList ++ selectorMessage
  | .repeatedOffset => "offset may not be set multiple times".toList
  | .offsetBeforeRange => "no offset modifiers allowed before range".toList
  | .instantBeforeRange => "no @ modifiers allowed before range".toList
  | .rangeOperand => "ranges only allowed for vector selectors".toList
  | .noAggregateArgs op =>
      "no arguments for aggregate expression '".toList ++ op.word ++ "' provided".toList
  | .aggregateArgCount expected actual =>
      "wrong number of arguments for aggregate expression provided, expected ".toList
        ++ Text.ofNat expected ++ ", got ".toList ++ Text.ofNat actual
  | .aggregateType expected actual =>
      "expected type ".toList ++ expected.word ++ " in aggregation expression, got ".toList
        ++ actual.word
  | .boolOnNonComparison => "bool modifier can only be used on comparison operators".toList
  | .scalarComparison => "comparisons between scalars must use BOOL modifier".toList
  | .labelMatchedAndGrouped label =>
      "label '".toList ++ label ++ "' must not occur in ON and GROUP clause at once".toList
  | .scalarInSetOperation op =>
      "set operator '".toList ++ op.word ++ "' not allowed in binary scalar expression".toList
  | .groupInSetOperation op =>
      "no grouping allowed for '".toList ++ op.word ++ "' operation".toList
  | .binaryOperandType =>
      "binary expression must contain only scalar and instant vector types".toList
  | .matchingScalars => "vector matching only allowed between vectors".toList
  | .argCount expected function actual => countMessage [] expected function actual
  | .tooFewArgs least function actual => countMessage "at least ".toList least function actual
  | .tooManyArgs most function actual => countMessage "at most ".toList most function actual
  | .argType expected function actual =>
      "expected type ".toList ++ expected.word ++ " in call to function '".toList ++ function
        ++ "', got ".toList ++ actual.word
  | .unaryOperand type => unaryMessage ++ ' ' :: type.word
  | .subqueryOperand type =>
      "subquery is only allowed on vector, got ".toList ++ type.word ++ " instead".toList
  | .nameTwice name value =>
      "metric name must not be set twice: '".toList ++ name ++ "' or '".toList ++ value ++ ['\'']
  | .emptySelector => "vector selector must contain at least one non-empty matcher".toList

end QueryError

end QueryTidy
