import QueryTidy.Pattern.Anchored
import QueryTidy.Query.Error
import QueryTidy.Query.Function

/-!
# The rules that a query must obey

Each kind of query has rules on the types of its parts and on its modifiers. `Expr.check` tests the
rules of the outermost node only, the parts having been tested before; of two broken rules the first
is reported.
-/

namespace QueryTidy

/-- The rule holds, or else the error. -/
def require (rule : Bool) (error : QueryError) : Except QueryError Unit :=
  if rule then .ok () else .error error

namespace Matcher

/-- The condition holds of a series without the label, whose value counts as empty. -/
def matchesEmpty (m : Matcher) : Bool :=
  match m.op with
  | .equal => m.value.isEmpty
  | .notEqual => !m.value.isEmpty
  | .matches => (Pattern.ofValue? m.value).any Pattern.matchesEmpty
  | .notMatches => !(Pattern.ofValue? m.value).any Pattern.matchesEmpty

end Matcher

namespace Selector

/-- The label that holds the name of a series. -/
def nameLabel : Text := "__name__".toList

/-- A selector with a name has no condition on the name label; one without a name has a condition
that some series without labels fails. -/
def check (s : Selector) : Except QueryError Unit :=
  match s.name with
  | some name =>
      match s.selection.matchers.find? fun m => m.name = nameLabel with
      | some m => .error (.nameTwice name m.value)
      | none => .ok ()
  | none => require (!s.selection.matchers.all Matcher.matchesEmpty) .emptySelector

end Selector

namespace AggregateOp

/-- The type of the parameter, for the operators that have one. -/
def paramType? : AggregateOp → Option ValueType
  | .topk => some .scalar
  | .bottomk => some .scalar
  | .quantile => some .scalar
  | .countValues => some .string
  | _ => none

end AggregateOp

namespace Modifier

/-- The label that is both matched on and listed after `group_left` or `group_right`. -/
def sharedLabel? (m : Modifier) : Option Text :=
  match m.matching, m.group with
  | some (.on labels), some (_, included) => labels.find? included.contains
  | _, _ => none

/-- Labels are named for the matching. -/
def namesLabels (m : Modifier) : Bool :=
  m.matching.any fun matching => !matching.labels.isEmpty

end Modifier

namespace Expr

/-- Queries that have one value, or one value for each series, at a time. -/
def isInstant (type : ValueType) : Bool :=
  type == .scalar || type == .vector

/-- The rules of a binary operation with operands of the given types. -/
def checkBinary (op : BinaryOp) (modifier : Modifier) (left right : ValueType) :
    Except QueryError Unit := do
  require (!modifier.bool || op.isComparison) .boolOnNonComparison
  require (!(op.isComparison && left == .scalar && right == .scalar) || modifier.bool)
    .scalarComparison
  match modifier.sharedLabel? with
  | some label => .error (.labelMatchedAndGrouped label)
  | none => pure ()
  if op.isSet then
    require (left != .scalar && right != .scalar) (.scalarInSetOperation op)
    require (!(left == .vector && right == .vector && modifier.group.isSome))
      (.groupInSetOperation op)
  require (isInstant left && isInstant right) .binaryOperandType
  require ((left == .vector && right == .vector) || !modifier.namesLabels) .matchingScalars

/-- The number of arguments of a call is one that the function allows. -/
def checkArgCount (f : Signature) (actual : Nat) : Except QueryError Unit :=
  let expected := f.params.length
  if f.variadic then do
    require (expected ≤ actual + 1) (.tooFewArgs (expected - 1) f.name actual)
    require (actual ≤ expected || f.isUnbounded) (.tooManyArgs expected f.name actual)
  else require (actual = expected) (.argCount expected f.name actual)

/-- Every argument has the type of its parameter; arguments beyond the parameters have the type of
the last one. -/
def checkArgTypes (f : Signature) : List ValueType → List Expr → Except QueryError Unit
  | _, [] => .ok ()
  | [], _ => .ok ()
  | param :: params, arg :: args =>
      if arg.type ≠ param then .error (.argType param f.name arg.type)
      else checkArgTypes f (if params = [] then [param] else params) args

/-- A literal outside the domain of an exponential or logarithmic function is accepted as its only
argument, whatever its type. -/
def isExtremeArg (f : Signature) : List Expr → Bool
  | .number value :: _ =>
      let notFinite := value.magnitude?.isNone
      if f.name = "exp".toList then notFinite
      else if f.name = "ln".toList ∨ f.name = "log2".toList ∨ f.name = "log10".toList then
        notFinite || value.isNonPositive
      else false
  | _ => false

/-- The rules of a call. -/
def checkCall (f : Signature) (args : List Expr) : Except QueryError Unit := do
  checkArgCount f args.length
  if isExtremeArg f args then pure () else checkArgTypes f f.params args

/-- The rules of an aggregation. -/
def checkAggregate (op : AggregateOp) (param : Option Expr) (inner : Expr) :
    Except QueryError Unit := do
  require (inner.type == .vector) (.aggregateType .vector inner.type)
  match op.paramType?, param with
  | some expected, some p => require (p.type == expected) (.aggregateType expected p.type)
  | _, _ => pure ()

/-- The rules of the outermost node of a query. -/
def check : Expr → Except QueryError Unit
  | .binary op modifier left right => checkBinary op modifier left.type right.type
  | .aggregate op _ param inner => checkAggregate op param inner
  | .call f args => checkCall f args
  | .negative inner => require (isInstant inner.type) (.unaryOperand inner.type)
  | .subquery inner _ _ _ => require (inner.type == .vector) (.subqueryOperand inner.type)
  | .vector selector => selector.check
  | _ => .ok ()

end Expr

end QueryTidy
