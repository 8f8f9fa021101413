import QueryTidy.Query.Build
import QueryTidy.Query.Lexer

/-!
# Reading queries

`Expr.parse` reads a query from its text. Reading has three kinds of failure, which differ in when
they are noticed. A fault of spelling hides everything else. A fault of grammar (`ParseStop`) ends
the reading at once. A fault of meaning is a value like any other: reading goes on, and the fault
shows only if the whole text obeys the grammar. A range that is too long for any duration stops the
program itself as soon as it is read.

Binary operators are read by precedence: `Query.expression fuel level` reads operators of at least
the level. The fuel bounds the depth of the recursion; four units for each token are enough.
-/

namespace QueryTidy

/-- Why reading stops at once. -/
inductive ParseStop where
  /-- The tokens do not follow the grammar. -/
  | grammar
  /-- A number of seconds is no duration. -/
  | overflow
  deriving DecidableEq, Repr

/-- What is read from a beginning of the tokens, and the rest. -/
abbrev Parsed (α : Type) := Except ParseStop (α × List Token)

/-- A part of a query, or the first fault of meaning in it. -/
abbrev Meaning (α : Type) := Except QueryError α

namespace Query

open QueryTidy.Expr (checked withOffset withInstant withRange withSubquery negate applyBinary
  applyFunction applyAggregate)

/-! ## Labels and modifiers -/

/-- The text of a token that may stand for a label: any word but `without`. -/
def labelText? : Token → Option Text
  | .identifier t => some t
  | .metricName t => some t
  | .reserved .dropping _ => none
  | .reserved _ t => some t
  | _ => none

/-- A label is a name without a colon. -/
def label (text : Text) : Meaning Text :=
  if ':' ∈ text then .error (.invalidLabel text) else .ok text

/-- A further label in a list. -/
def addLabel (found : Meaning (List Text)) (text : Text) : Meaning (List Text) := do
  pure ((← found) ++ [← label text])

/-- Read the rest of a list of labels, of which at least one follows, up to its closing
parenthesis. A comma may stand before it. -/
def labelsFrom (found : Meaning (List Text)) : List Token → Parsed (Meaning (List Text))
  | token :: .sign .rightParen :: rest =>
      match labelText? token with
      | some text => .ok (addLabel found text, rest)
      | none => .error .grammar
  | token :: .sign .comma :: .sign .rightParen :: rest =>
      match labelText? token with
      | some text => .ok (addLabel found text, rest)
      | none => .error .grammar
  | token :: .sign .comma :: rest =>
      match labelText? token with
      | some text => labelsFrom (addLabel found text) rest
      | none => .error .grammar
  | _ => .error .grammar

/-- Read a list of labels in parentheses. -/
def labels : List Token → Parsed (Meaning (List Text))
  | .sign .leftParen :: .sign .rightParen :: rest => .ok (.ok [], rest)
  | .sign .leftParen :: rest => labelsFrom (.ok []) rest
  | _ => .error .grammar

/-- Read the labels that an aggregation keeps or drops, if they follow. -/
def grouping? : List Token → Option (Parsed (Meaning Grouping))
  | .reserved .grouping _ :: rest =>
      some ((labels rest).map fun (ls, rest) => (ls.map .keeping, rest))
  | .reserved .dropping _ :: rest =>
      some ((labels rest).map fun (ls, rest) => (ls.map .dropping, rest))
  | _ => none

/-- The side named by a token. -/
def groupSide? : Token → Option GroupSide
  | .reserved .groupLeft _ => some .left
  | .reserved .groupRight _ => some .right
  | _ => none

/-- Read the side with many series after the labels of a matching, if it is named. A parenthesis
after it always begins its labels. -/
def matchedGroup (bool : Bool) (matching : Meaning Matching) :
    List Token → Parsed (Meaning Modifier)
  | [] => .ok (matching.map fun m => ⟨bool, some m, none⟩, [])
  | token :: rest =>
      match groupSide? token with
      | none => .ok (matching.map fun m => ⟨bool, some m, none⟩, token :: rest)
      | some side =>
          match rest with
          | .sign .leftParen :: _ =>
              (labels rest).map fun (ls, rest) =>
                (do pure ⟨bool, some (← matching), some (side, ← ls)⟩, rest)
          | _ => .ok (matching.map fun m => ⟨bool, some m, some (side, [])⟩, rest)

/-- Read the labels of a matching, if they follow. -/
def matching (bool : Bool) : List Token → Parsed (Meaning Modifier)
  | .reserved .on _ :: rest =>
      match labels rest with
      | .ok (ls, rest) => matchedGroup bool (ls.map .on) rest
      | .error stop => .error stop
  | .reserved .ignoring _ :: rest =>
      match labels rest with
      | .ok (ls, rest) => matchedGroup bool (ls.map .ignoring) rest
      | .error stop => .error stop
  | rest => .ok (.ok ⟨bool, none, none⟩, rest)

/-- Read the modifier after an operator. A side with many series is a fault of meaning without a
matching before it. -/
def modifier : List Token → Parsed (Meaning Modifier)
  | .reserved .bool _ :: rest => matching true rest
  | .reserved .groupLeft _ :: rest =>
      (labels rest).map fun (_, rest) => (.error (.unexpectedGroup .left), rest)
  | .reserved .groupRight _ :: rest =>
      (labels rest).map fun (_, rest) => (.error (.unexpectedGroup .right), rest)
  | rest => matching false rest

/-! ## Label matchers -/

/-- The comparison of a token. -/
def matchOp? : Token → Option MatchOp
  | .sign .assign => some .equal
  | .sign .notEqual => some .notEqual
  | .sign .matches => some .matches
  | .sign .notMatches => some .notMatches
  | _ => none

/-- Read the value of a matcher after its comparison. -/
def matcherValue (name : Text) (op : MatchOp) : List Token → Parsed (Meaning Matcher)
  | .string raw :: rest => .ok (Matcher.build name op raw, rest)
  | .identifier word :: rest => .ok (.error (.unquotedValue word), rest)
  | token :: rest =>
      match matchOp? token with
      | none => .error .grammar
      | some second =>
          match rest with
          | .string _ :: rest => .ok (.error (.doubleOperator second), rest)
          | .identifier _ :: rest => .ok (.error (.doubleOperator second), rest)
          | rest => .ok (.error (.doubleOperator second), rest)
  | [] => .error .grammar

/-- Read one matcher. -/
def matcher : List Token → Parsed (Meaning Matcher)
  | .identifier name :: token :: rest =>
      match matchOp? token with
      | some op => matcherValue name op rest
      | none => .ok (.error (.missingOperator name), token :: rest)
  | _ => .error .grammar

/-- Read the rest of the matchers up to the closing brace, after at least one of them. -/
def matchersFrom : Nat → Meaning Selection → List Token → Parsed (Meaning Selection)
  | 0, _, _ => .error .grammar
  | fuel + 1, found, tokens =>
      match tokens with
      | .sign .rightBrace :: rest => .ok (found, rest)
      | .sign .comma :: .sign .rightBrace :: rest => .ok (found, rest)
      | .sign .comma :: rest =>
          match matcher rest with
          | .ok (m, rest) => matchersFrom fuel (do pure ((← found).addMatcher (← m))) rest
          | .error stop => .error stop
      | .alternative :: rest =>
          match matcher rest with
          | .ok (m, rest) => matchersFrom fuel (do pure ((← found).addAlternative (← m))) rest
          | .error stop => .error stop
      | _ => .error .grammar

/-- Read matchers after the opening brace. -/
def matchers : List Token → Parsed (Meaning Selection)
  | .sign .rightBrace :: rest => .ok (.ok (.all []), rest)
  | .sign .comma :: .sign .rightBrace :: rest => .ok (.error .leadingComma, rest)
  | tokens =>
      match matcher tokens with
      | .ok (m, rest) => matchersFrom (rest.length + 1) (m.map fun m => .all [m]) rest
      | .error stop => .error stop

/-- Read a selector after its name, if it has one. -/
def selector (name : Option Text) : List Token → Parsed (Meaning Expr)
  | .sign .leftBrace :: rest =>
      (matchers rest).map fun (selection, rest) =>
        (do checked (.vector ⟨name, ← selection, {}⟩), rest)
  | rest => .ok (checked (.vector ⟨name, .all [], {}⟩), rest)

/-! ## Durations and times -/

/-- The tokens go on in a way in which they may go on after a duration. -/
def endsDuration : List Token → Bool
  | [] => true
  | token :: _ =>
      (BinaryOp.ofToken? token).isSome ||
        match token with
        | .sign .rightParen => true
        | .sign .comma => true
        | .sign .at => true
        | .sign .leftBracket => true
        | .sign .rightBracket => true
        | .sign .colon => true
        | .reserved .offset _ => true
        | _ => false

/-- Read a duration, in units or as a number of seconds. A number that is no duration stops the
program once it is clear that the duration ends there. -/
def duration : List Token → Parsed (Meaning Duration)
  | .duration text :: rest => .ok ((Duration.ofText text).mapError .duration, rest)
  | .number text :: rest =>
      match Literal.value text with
      | .error e => .ok (.error (.literal e), rest)
      | .ok value =>
          match Duration.ofSeconds? value with
          | some d => .ok (.ok d, rest)
          | none => if endsDuration rest then .error .overflow else .error .grammar
  | _ => .error .grammar

/-- Drop a plus or a minus sign; the answer tells whether there was a minus sign. -/
def plusOrMinus : List Token → Bool × List Token
  | .sign .plus :: rest => (false, rest)
  | .sign .minus :: rest => (true, rest)
  | rest => (false, rest)

/-- The value of a number token, a duration counting in seconds. -/
def numberOf? : Token → Option (Meaning Binary64)
  | .number text => some ((Literal.value text).mapError .literal)
  | .duration text => some (((Duration.ofText text).mapError .duration).map Duration.seconds)
  | _ => none

/-- Read an evaluation time after `@`. -/
def instant : List Token → Parsed (Meaning Instant)
  | .reserved .start _ :: .sign .leftParen :: .sign .rightParen :: rest => .ok (.ok .start, rest)
  | .reserved .finish _ :: .sign .leftParen :: .sign .rightParen :: rest => .ok (.ok .finish, rest)
  | tokens =>
      match plusOrMinus tokens with
      | (minus, token :: rest) =>
          match numberOf? token with
          | none => .error .grammar
          | some value =>
              .ok (do let v ← value; Instant.ofSeconds (if minus then v.neg else v), rest)
      | (_, []) => .error .grammar

/-- Read a range or a subquery after its opening bracket. -/
def bracketed (e : Meaning Expr) : List Token → Parsed (Meaning Expr)
  | .sign .rightBracket :: rest => .ok (.error .missingUnit, rest)
  | tokens =>
      match duration tokens with
      | .error stop => .error stop
      | .ok (range, .sign .rightBracket :: rest) =>
          .ok (do let e ← e; withRange (← range) e, rest)
      | .ok (range, .sign .colon :: .sign .rightBracket :: rest) =>
          .ok (do let e ← e; withSubquery (← range) none e, rest)
      | .ok (range, .sign .colon :: rest) =>
          match duration rest with
          | .ok (step, .sign .rightBracket :: rest) =>
              .ok (do let e ← e; let range ← range; withSubquery range (some (← step)) e, rest)
          | .ok _ => .error .grammar
          | .error stop => .error stop
      | .ok _ => .error .grammar

/-- Read what may follow an operand: offsets, evaluation times, ranges and subqueries, any number of
them. The end of the text right after `offset` or `@` is a fault of meaning. -/
def postfixes : Nat → Meaning Expr → List Token → Parsed (Meaning Expr)
  | 0, e, tokens => .ok (e, tokens)
  | fuel + 1, e, tokens =>
      match tokens with
      | [.reserved .offset _] => .ok (.error .offsetAtEnd, [])
      | .reserved .offset _ :: rest =>
          let (minus, rest) := plusOrMinus rest
          match duration rest with
          | .ok (d, rest) =>
              postfixes fuel (do let e ← e; withOffset ⟨minus, ← d⟩ e) rest
          | .error stop => .error stop
      | [.sign .at] => .ok (.error .timestampAtEnd, [])
      | .sign .at :: rest =>
          match instant rest with
          | .ok (i, rest) => postfixes fuel (do let e ← e; withInstant (← i) e) rest
          | .error stop => .error stop
      | .sign .leftBracket :: rest =>
          match bracketed e rest with
          | .ok (e, rest) => postfixes fuel e rest
          | .error stop => .error stop
      | tokens => .ok (e, tokens)

/-! ## Expressions -/

/-- The word is the operator of an aggregation: arguments or labels follow it. -/
def beginsAggregate : List Token → Bool
  | .sign .leftParen :: _ => true
  | .reserved .grouping _ :: _ => true
  | .reserved .dropping _ :: _ => true
  | _ => false

/-- An operand that is one literal. -/
def literal? : Token → Option (Meaning Expr)
  | .string raw => some (.ok (.string raw))
  | token => (numberOf? token).map fun value => value.map .number

/-- The name of a metric that a token may stand for. -/
def metricName? : Token → Option Text
  | .identifier t => some t
  | .metricName t => some t
  | .reserved word t => if word.isMetricName then some t else none
  | _ => none

/-- The aggregation of the parts, the labels being looked at before the arguments. -/
def aggregation (op : AggregateOp) (grouping : Option (Meaning Grouping))
    (args : Meaning (List Expr)) : Meaning Expr :=
  match grouping with
  | some g => do
      let g ← g
      applyAggregate op (some g) (← args)
  | none => do applyAggregate op none (← args)

mutual
/-- Read an expression whose outermost operators have at least the given level. -/
def expression : Nat → Nat → List Token → Parsed (Meaning Expr)
  | 0, _, _ => .error .grammar
  | fuel + 1, level, tokens =>
      match signed fuel tokens with
      | .ok (left, rest) => operators fuel level left rest
      | .error stop => .error stop

/-- Read an operand with its signs. A sign binds more loosely than the power and than all that may
follow an operand. -/
def signed : Nat → List Token → Parsed (Meaning Expr)
  | 0, _ => .error .grammar
  | fuel + 1, .sign .plus :: rest => expression fuel BinaryOp.power.level rest
  | fuel + 1, .sign .minus :: rest =>
      match expression fuel BinaryOp.power.level rest with
      | .ok (e, rest) => .ok (do negate (← e), rest)
      | .error stop => .error stop
  | fuel + 1, tokens =>
      match operand fuel tokens with
      | .ok (e, rest) => postfixes (rest.length + 1) e rest
      | .error stop => .error stop

/-- Read an operand. -/
def operand : Nat → List Token → Parsed (Meaning Expr)
  | 0, _ => .error .grammar
  | _ + 1, [] => .error .grammar
  | fuel + 1, .sign .leftParen :: rest =>
      match expression fuel BinaryOp.or.level rest with
      | .ok (e, .sign .rightParen :: rest) => .ok (e.map .paren, rest)
      | .ok _ => .error .grammar
      | .error stop => .error stop
  | _ + 1, .sign .leftBrace :: rest => selector none (.sign .leftBrace :: rest)
  | fuel + 1, .identifier name :: .sign .leftParen :: rest =>
      match arguments fuel rest with
      | .ok (args, rest) => .ok (applyFunction name args, rest)
      | .error stop => .error stop
  | fuel + 1, token :: rest =>
      match literal? token, metricName? token, token with
      | some e, _, _ => .ok (e, rest)
      | none, some name, .reserved (.aggregate op) _ =>
          if beginsAggregate rest then aggregate fuel op rest else selector (some name) rest
      | none, some name, _ => selector (some name) rest
      | none, none, _ => .error .grammar

/-- Read an aggregation after its operator, with the labels before or after the arguments. -/
def aggregate : Nat → AggregateOp → List Token → Parsed (Meaning Expr)
  | 0, _, _ => .error .grammar
  | fuel + 1, op, .sign .leftParen :: rest =>
      match arguments fuel rest with
      | .error stop => .error stop
      | .ok (args, rest) =>
          match grouping? rest with
          | none => .ok (aggregation op none args, rest)
          | some (.error stop) => .error stop
          | some (.ok (g, rest)) => .ok (aggregation op (some g) args, rest)
  | fuel + 1, op, tokens =>
      match grouping? tokens with
      | some (.ok (g, .sign .leftParen :: rest)) =>
          match arguments fuel rest with
          | .ok (args, rest) => .ok (aggregation op (some g) args, rest)
          | .error stop => .error stop
      | _ => .error .grammar

/-- Read arguments after the opening parenthesis. -/
def arguments : Nat → List Token → Parsed (Meaning (List Expr))
  | 0, _ => .error .grammar
  | _ + 1, .sign .rightParen :: rest => .ok (.ok [], rest)
  | fuel + 1, tokens =>
      match expression fuel BinaryOp.or.level tokens with
      | .ok (e, rest) => moreArguments fuel (e.map fun e => [e]) rest
      | .error stop => .error stop

/-- Read the arguments after the first one up to the closing parenthesis. A comma without an
argument after it is a fault of meaning that hides the faults before it. -/
def moreArguments : Nat → Meaning (List Expr) → List Token → Parsed (Meaning (List Expr))
  | 0, _, _ => .error .grammar
  | _ + 1, found, .sign .rightParen :: rest => .ok (found, rest)
  | fuel + 1, _, .sign .comma :: .sign .rightParen :: rest =>
      moreArguments fuel (.error .trailingComma) (.sign .rightParen :: rest)
  | fuel + 1, _, .sign .comma :: .sign .comma :: rest =>
      moreArguments fuel (.error .trailingComma) (.sign .comma :: rest)
  | fuel + 1, found, .sign .comma :: rest =>
      match expression fuel BinaryOp.or.level rest with
      | .ok (e, rest) => moreArguments fuel (do pure ((← found) ++ [← e])) rest
      | .error stop => .error stop
  | _ + 1, _, _ => .error .grammar

/-- Read binary operators of at least the given level, and their right sides, after a left side. -/
def operators : Nat → Nat → Meaning Expr → List Token → Parsed (Meaning Expr)
  | 0, _, left, tokens => .ok (left, tokens)
  | _ + 1, _, left, [] => .ok (left, [])
  | fuel + 1, level, left, token :: rest =>
      match BinaryOp.ofToken? token with
      | none => .ok (left, token :: rest)
      | some op =>
          if op.level < level then .ok (left, token :: rest)
          else
            match modifier rest with
            | .error stop => .error stop
            | .ok (m, rest) =>
                match expression fuel op.rightLevel rest with
                | .error stop => .error stop
                | .ok (right, rest) =>
                    operators fuel level
                      (do let left ← left; let m ← m; applyBinary op m left (← right)) rest
end

/-- Read all tokens as one query. -/
def ofTokens (tokens : List Token) : Except ParseStop (Meaning Expr) :=
  match tokens with
  | [] => .ok (.error .noExpression)
  | tokens =>
      match expression (4 * tokens.length + 8) BinaryOp.or.level tokens with
      | .ok (e, []) => .ok e
      | .ok (_, _ :: _) => .error .grammar
      | .error stop => .error stop

end Query

/-- Why a text is not a query. -/
inductive SyntaxError where
  | spelling (error : LexError)
  | grammar
  | meaning (error : QueryError)
  deriving DecidableEq, Repr

namespace SyntaxError

/-- The wording of the error. -/
def message : SyntaxError → Text
  | .spelling error => error.message
  | .grammar => "invalid promql query".toList
  | .meaning error => error.message

end SyntaxError

/-- What comes of reading a text as a query. -/
inductive ParseResult where
  | query (e : Expr)
  | rejected (error : SyntaxError)
  /-- A duration is too long for the program, which stops. -/
  | crash
  deriving Repr

namespace Expr

/-- Read a text as a query. -/
def parse (t : Text) : ParseResult :=
  match Token.scan t with
  | .error e => .rejected (.spelling e)
  | .ok tokens =>
      match Query.ofTokens tokens with
      | .error .grammar => .rejected .grammar
      | .error .overflow => .crash
      | .ok (.error e) => .rejected (.meaning e)
      | .ok (.ok e) => .query e

end Expr

end QueryTidy
