import QueryTidy.Query.Check

/-!
# Building queries

One function for each form of the language that puts a query together from its parts and tests the
rules of the new node. Each answers with the query or the first fault of meaning.
-/

namespace QueryTidy

-- The power of natural numbers is that of the core library, also where monoids are known.
attribute [local instance (1100)] instPowNat

namespace Selection

/-- A further condition, in the newest list of conditions. -/
def addMatcher (m : Matcher) : Selection → Selection
  | .all ms => .all (ms ++ [m])
  | .any groups => .any (groups.dropLast ++ [groups.getLastD [] ++ [m]])

/-- A condition that begins an alternative. -/
def addAlternative (m : Matcher) : Selection → Selection
  | .all ms => .any [ms, [m]]
  | .any groups => .any (groups ++ [[m]])

end Selection

namespace Matcher

/-- A condition; a value that is compared as a regular expression must be one. -/
def build (name : Text) (op : MatchOp) (value : Text) : Except QueryError Matcher := do
  require (!op.isPattern || (Pattern.ofValue? value).isSome) (.illegalPattern value)
  pure ⟨name, op, value⟩

end Matcher

namespace Instant

/-- The greatest number of milliseconds that a time can have. -/
def greatestMillis : Nat := 2 ^ (64 : Nat) - 1

/-- The time of a number of seconds, rounded to the millisecond with a half going away from zero.
The number must be finite and less than the greatest one in magnitude. -/
def ofSeconds (seconds : Binary64) : Except QueryError Instant :=
  match seconds with
  | .nan => .error (.timestampOutOfBounds seconds)
  | seconds =>
      if seconds.isHuge then .error (.timestampOutOfBounds seconds)
      else
        let millis :=
          match (seconds.mulNat 1000).magnitude? with
          | some (num, den) => min (divHalfUp num den) greatestMillis
          | none => greatestMillis
        .ok (.time seconds.isNegative millis)

end Instant

namespace Timing

/-- Set the offset, once. -/
def setOffset (offset : Offset) (timing : Timing) : Except QueryError Timing :=
  if timing.offset.isSome then .error .repeatedOffset
  else .ok { timing with offset := some offset }

/-- Set the evaluation time, once. -/
def setInstant (instant : Instant) (timing : Timing) : Except QueryError Timing :=
  if timing.instant.isSome then .error .repeatedInstant
  else .ok { timing with instant := some instant }

end Timing

namespace Expr

/-- The query itself if it obeys the rules of its outermost node. -/
def checked (e : Expr) : Except QueryError Expr := do
  check e
  pure e

/-- Change when a selector or a subquery is evaluated; other queries give the error. -/
def retime (change : Timing → Except QueryError Timing) (misplaced : QueryError) :
    Expr → Except QueryError Expr
  | .vector s => do checked (.vector { s with timing := (← change s.timing) })
  | .matrix s range => do checked (.matrix { s with timing := (← change s.timing) } range)
  | .subquery inner range step timing => do
      checked (.subquery inner range step (← change timing))
  | _ => .error misplaced

/-- Shift the evaluation time. -/
def withOffset (offset : Offset) : Expr → Except QueryError Expr :=
  retime (Timing.setOffset offset) .misplacedOffset

/-- Fix the evaluation time. -/
def withInstant (instant : Instant) : Expr → Except QueryError Expr :=
  retime (Timing.setInstant instant) .misplacedInstant

/-- A range of a selector, which has no timing yet. -/
def withRange (range : Duration) : Expr → Except QueryError Expr
  | .vector s => do
      require s.timing.offset.isNone .offsetBeforeRange
      require s.timing.instant.isNone .instantBeforeRange
      pure (.matrix s range)
  | _ => .error .rangeOperand

/-- The values of a query over a range of times. -/
def withSubquery (range : Duration) (step : Option Duration) (e : Expr) : Except QueryError Expr :=
  checked (.subquery e range step {})

/-- The opposite of a query. The opposite of a literal is a literal; strings and ranges have
none. -/
def negate : Expr → Except QueryError Expr
  | .string _ => .error (.negatedOperand .string)
  | .matrix _ _ => .error (.negatedOperand .matrix)
  | .number value => .ok (.number value.neg)
  | e => checked (.negative e)

/-- A binary operation. -/
def applyBinary (op : BinaryOp) (modifier : Modifier) (left right : Expr) :
    Except QueryError Expr :=
  checked (.binary op modifier left right)

/-- A call of the function with the given name, the arguments being looked at after the name. -/
def applyFunction (name : Text) (args : Except QueryError (List Expr)) : Except QueryError Expr :=
  match Signature.ofName? name with
  | none => .error (.unknownFunction name)
  | some f => do checked (.call f (← args))

/-- An aggregation. The last argument is what is aggregated; an operator with a parameter takes it
as its first. -/
def applyAggregate (op : AggregateOp) (grouping : Option Grouping) (args : List Expr) :
    Except QueryError Expr :=
  let expected := if op.paramType?.isSome then 2 else 1
  match args with
  | [] => .error (.noAggregateArgs op)
  | arg :: rest =>
      if args.length ≠ expected then .error (.aggregateArgCount expected args.length)
      else
        match rest with
        | [] => checked (.aggregate op grouping none arg)
        | inner :: _ => checked (.aggregate op grouping (some arg) inner)

end Expr

end QueryTidy
