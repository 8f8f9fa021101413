import QueryTidy.Query.LexError
import QueryTidy.Query.Token

/-!
# Cutting a query into tokens

`Token.scan` cuts a text into tokens or names the first fault. The lexer has three modes: plain,
between braces and between brackets. Blank space and comments separate tokens and leave nothing
behind; a comment runs from `#` through the end of its line and is known outside brackets only.
-/

namespace QueryTidy

/-- The part of a query that the lexer is in. `brackets fresh colon` says whether the bracket was
opened just before and whether it has had its colon. -/
inductive LexMode where
  | plain
  | braces
  | brackets (fresh colon : Bool)
  deriving DecidableEq, Repr

/-- The state between two tokens: the number of open parentheses and the mode. -/
structure LexState where
  depth : Nat
  mode : LexMode
  deriving DecidableEq, Repr

/-- What one step of the lexer yields. -/
inductive LexStep where
  /-- The input has ended where it may end. -/
  | stop
  | emit (token : Token) (state : LexState) (rest : Text)
  | fail (error : LexError)
  deriving DecidableEq, Repr

namespace Token

/-- Blank space between tokens. -/
def isSpace (c : Char) : Bool :=
  c == ' ' || c == '\t' || c == '\n' || c == '\x0c' || c == '\r'

/-- A character that ends a comment. -/
def isLineEnd (c : Char) : Bool :=
  c == '\n' || c == '\r'

/-- Drop blank space and comments. -/
def dropBlank (inComment : Bool) : Text → Text
  | [] => []
  | c :: rest =>
      if inComment then dropBlank (!isLineEnd c) rest
      else if isSpace c then dropBlank false rest
      else if c = '#' then dropBlank true rest
      else c :: rest

/-! ## Numbers and durations -/

/-- Cut off one character that satisfies the test, if there is one. -/
def takeOne (p : Char → Bool) : Text → Text × Text
  | c :: rest => if p c then ([c], rest) else ([], c :: rest)
  | [] => ([], [])

/-- Cut off the longest beginning that may be a number: hexadecimal digits after `0x`, decimal
digits otherwise, with an optional point among them, and an optional exponent. -/
def cutNumber (t : Text) : Text × Text :=
  let (zero, t) := takeOne (· == '0') t
  let (x, t) := if zero = [] then ([], t) else takeOne (fun c => c == 'x' || c == 'X') t
  let digit := if x = [] then Text.isDigit else Text.isHexDigit
  let (whole, t) := (t.takeWhile digit, t.dropWhile digit)
  let (point, t) := takeOne (· == '.') t
  let (places, t) := if point = [] then ([], t) else (t.takeWhile digit, t.dropWhile digit)
  let (e, t) := takeOne (fun c => c == 'e' || c == 'E') t
  let (plusMinus, t) := if e = [] then ([], t) else takeOne (fun c => c == '+' || c == '-') t
  let (exponent, t) :=
    if e = [] then ([], t) else (t.takeWhile Text.isDigit, t.dropWhile Text.isDigit)
  (zero ++ x ++ whole ++ point ++ places ++ e ++ plusMinus ++ exponent, t)

/-- A letter that begins the unit of a further part of a duration. -/
def isUnit (c : Char) : Bool :=
  c == 's' || c == 'm' || c == 'h' || c == 'd' || c == 'w'

/-- A letter that begins the unit of the first part of a duration. -/
def isFirstUnit (c : Char) : Bool :=
  isUnit c || c == 'y'

/-- Cut off the further parts of a duration, each with digits, a unit and perhaps an `s`. The answer
tells whether every part has its unit. -/
def cutParts : Nat → Text → Bool × Text × Text
  | 0, t => (true, [], t)
  | fuel + 1, t =>
      let digits := t.takeWhile Text.isDigit
      let rest := t.dropWhile Text.isDigit
      if digits = [] then (true, [], t)
      else
        let (unit, rest) := takeOne isUnit rest
        if unit = [] then (false, digits, rest)
        else
          let (s, rest) := takeOne (· == 's') rest
          let (complete, more, rest) := cutParts fuel rest
          (complete, digits ++ unit ++ s ++ more, rest)

/-- Read a number or a duration. A number is not followed by a letter or a point; a duration goes on
with units and is not followed by a letter or a digit. The text of an error includes the offending
character. -/
def scanNumber (t : Text) : Except LexError (Token × Text) :=
  let (digits, rest) := cutNumber t
  let bad (text rest : Text) : Except LexError (Token × Text) :=
    .error (.badNumber (text ++ rest.take 1))
  if rest.head?.all fun c => !(Text.isNameStart c || c == '.') then .ok (.number digits, rest)
  else
    let (unit, rest) := takeOne isFirstUnit rest
    if unit = [] then bad digits rest
    else
      let (s, rest) := takeOne (· == 's') rest
      let (complete, more, rest) := cutParts (rest.length + 1) rest
      let text := digits ++ unit ++ s ++ more
      if complete && rest.head?.all fun c => !Text.isNameRest c then .ok (.duration text, rest)
      else bad text rest

/-! ## Strings -/

/-- A character that may follow a backslash, besides the quote. -/
def isEscape (c : Char) : Bool :=
  c ∈ "abfnrtv\\01234567xuU".toList

/-- Read a string literal after its opening quote. The characters found so far are in reverse
order; escapes stay as they are written. -/
def scanString (quote : Char) (found : Text) : Text → Except LexError (Text × Text)
  | [] => .error (.unterminatedString quote)
  | ['\\'] => .error .unfinishedEscape
  | '\\' :: c :: rest =>
      if c = quote ∨ isEscape c then scanString quote (c :: '\\' :: found) rest
      else .error (.unknownEscape c)
  | c :: rest => if c = quote then .ok (found.reverse, rest) else scanString quote (c :: found) rest

/-- A character that begins a string literal. -/
def isQuote (c : Char) : Bool :=
  c == '"' || c == '\'' || c == '\x60'

/-! ## Steps -/

/-- A step that yields the token of a successful reading. -/
def emitRead (state : LexState) : Except LexError (Token × Text) → LexStep
  | .ok (token, rest) => .emit token state rest
  | .error e => .fail e

/-- A step that yields a string literal. -/
def emitString (state : LexState) (quote : Char) (t : Text) : LexStep :=
  match scanString quote [] t with
  | .ok (raw, rest) => .emit (.string raw) state rest
  | .error e => .fail e

/-- A step that yields a sign. -/
def emitSign (state : LexState) (s : Sign) (rest : Text) : LexStep :=
  .emit (.sign s) state rest

/-- A character of a word outside braces. -/
def isWordRest (c : Char) : Bool :=
  Text.isNameRest c || c == ':'

/-- One step in the plain mode, at a text that does not begin with blank space or a comment. -/
def plainStep (depth : Nat) : Text → LexStep
  | [] => if depth = 0 then .stop else .fail .unclosedParen
  | c :: rest =>
      let stay : LexState := ⟨depth, .plain⟩
      if Text.isDigit c then emitRead stay (scanNumber (c :: rest))
      else if Text.isNameStart c ∨ c = ':' then
        .emit (ofWord ((c :: rest).takeWhile isWordRest)) stay ((c :: rest).dropWhile isWordRest)
      else if isQuote c then emitString stay c rest
      else
        match c, rest with
        | '@', _ => emitSign stay .at rest
        | ',', _ => emitSign stay .comma rest
        | '*', _ => emitSign stay .times rest
        | '/', _ => emitSign stay .divide rest
        | '%', _ => emitSign stay .modulo rest
        | '+', _ => emitSign stay .plus rest
        | '-', _ => emitSign stay .minus rest
        | '^', _ => emitSign stay .power rest
        | '=', '=' :: rest => emitSign stay .equal rest
        | '=', '~' :: _ => .fail (.afterEquals '~')
        | '=', _ => emitSign stay .assign rest
        | '!', '=' :: rest => emitSign stay .notEqual rest
        | '!', c :: _ => .fail (.afterExclamation c)
        | '!', [] => .fail .exclamationAtEnd
        | '<', '=' :: rest => emitSign stay .lessEqual rest
        | '<', _ => emitSign stay .less rest
        | '>', '=' :: rest => emitSign stay .greaterEqual rest
        | '>', _ => emitSign stay .greater rest
        | '.', d :: _ =>
            if Text.isDigit d then emitRead stay (scanNumber (c :: rest)) else .fail (.afterPoint d)
        | '(', _ => emitSign ⟨depth + 1, .plain⟩ .leftParen rest
        | ')', _ =>
            if depth = 0 then .fail .unexpectedParen
            else emitSign ⟨depth - 1, .plain⟩ .rightParen rest
        | '\x7b', _ => emitSign ⟨depth, .braces⟩ .leftBrace rest
        | '\x7d', _ => .fail .unexpectedBrace
        | '[', _ => emitSign ⟨depth, .brackets true false⟩ .leftBracket rest
        | ']', _ => .fail .unexpectedBracket
        | c, _ => .fail (.unexpectedChar c)

/-- One step between braces, at a text that does not begin with blank space or a comment. All words
are identifiers here, except that `or` before a space separates alternatives. -/
def braceStep (depth : Nat) : Text → LexStep
  | [] => .fail .endInBraces
  | c :: rest =>
      let stay : LexState := ⟨depth, .braces⟩
      if Text.isNameStart c then
        let word := (c :: rest).takeWhile Text.isNameRest
        let rest := (c :: rest).dropWhile Text.isNameRest
        if Text.lower word = "or".toList ∧ rest.head? = some ' ' then .emit .alternative stay rest
        else .emit (.identifier word) stay rest
      else if isQuote c then emitString stay c rest
      else
        match c, rest with
        | ',', _ => emitSign stay .comma rest
        | '=', '~' :: rest => emitSign stay .matches rest
        | '=', _ => emitSign stay .assign rest
        | '!', '~' :: rest => emitSign stay .notMatches rest
        | '!', '=' :: rest => emitSign stay .notEqual rest
        | '!', c :: _ => .fail (.afterExclamationInBraces c)
        | '!', [] => .fail .exclamationAtEnd
        | '\x7b', _ => .fail .braceInBraces
        | '\x7d', _ => emitSign ⟨depth, .plain⟩ .rightBrace rest
        | c, _ => .fail (.charInBraces c)

/-- One step between brackets, at a text that does not begin with blank space. -/
def bracketStep (depth : Nat) (fresh colon : Bool) : Text → LexStep
  | [] => .fail .endInBrackets
  | c :: rest =>
      if Text.isDigit c then emitRead ⟨depth, .brackets false colon⟩ (scanNumber (c :: rest))
      else if c = ':' then
        if fresh then .fail .colonFirst
        else if colon then .fail .secondColon
        else emitSign ⟨depth, .brackets false true⟩ .colon rest
      else if c = ']' then emitSign ⟨depth, .plain⟩ .rightBracket rest
      else if c = '[' then .fail .bracketInBrackets
      else .fail (.charInBrackets c)

/-- One step of the lexer. -/
def step (state : LexState) (t : Text) : LexStep :=
  match state.mode with
  | .plain => plainStep state.depth (dropBlank false t)
  | .braces => braceStep state.depth (dropBlank false t)
  | .brackets fresh colon =>
      bracketStep state.depth (fresh && t.head? = some ':') colon (t.dropWhile isSpace)

/-- The tokens of a text from a state on. Every token takes at least one character, so the length
of the text bounds the number of steps. -/
def scanFrom : Nat → LexState → Text → Except LexError (List Token)
  | 0, _, _ => .ok []
  | fuel + 1, state, t =>
      match step state t with
      | .stop => .ok []
      | .fail e => .error e
      | .emit token state rest =>
          match scanFrom fuel state rest with
          | .ok tokens => .ok (token :: tokens)
          | .error e => .error e

/-- The tokens of a query. -/
def scan (t : Text) : Except LexError (List Token) :=
  scanFrom (t.length + 1) ⟨0, .plain⟩ t

end Token

end QueryTidy
