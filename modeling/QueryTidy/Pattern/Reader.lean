import QueryTidy.Pattern.Limits
import QueryTidy.Text.Blank
import QueryTidy.Text.Letters

/-!
# Reading regular expressions

`Pattern.read?` turns a text into a syntax tree, or answers `none` when the text is no regular
expression. Groups and brackets are kept on explicit stacks, so that every step of the reader
consumes at least one character; the length of the text bounds the number of steps.
-/

namespace QueryTidy.Pattern

-- The power of natural numbers is that of the core library, also where monoids are known.
attribute [local instance (1100)] instPowNat

/-- Drop blanks and comments; `inComment` says that a comment has begun and not yet ended. -/
def dropIgnored (inComment : Bool) : Text → Text
  | [] => []
  | c :: rest =>
      if inComment then dropIgnored (c != '\n') rest
      else if Text.isBlank c then dropIgnored false rest
      else if c = '#' then dropIgnored true rest
      else c :: rest

/-- Drop what is not part of the pattern: blanks and comments in the extended notation, nothing
otherwise. -/
def skip (extended : Bool) (t : Text) : Text :=
  if extended then dropIgnored false t else t

/-! ## Escapes -/

/-- The character with the given code point. -/
def scalar? (n : Nat) : Option Char :=
  if n.isValidChar then some (Char.ofNat n) else none

/-- Read exactly the given number of hexadecimal digits; the digits found so far are in reverse
order. -/
def hexRun? (extended : Bool) : Nat → Text → Text → Option (Text × Text)
  | 0, found, t => some (found.reverse, t)
  | _ + 1, _, [] => none
  | count + 1, found, c :: rest =>
      if Text.isHexDigit c then hexRun? extended count (c :: found) (skip extended rest) else none

/-- Read hexadecimal digits up to a closing brace. -/
def hexBraced? (extended : Bool) : Nat → Text → Text → Option (Text × Text)
  | 0, _, _ => none
  | _ + 1, _, [] => none
  | fuel + 1, found, c :: rest =>
      if c = '\x7d' then
        if found = [] then none else some (found.reverse, skip extended rest)
      else if Text.isHexDigit c then hexBraced? extended fuel (c :: found) (skip extended rest)
      else none

/-- Read a code point after `\x`, `\u` or `\U`, which take two, four or eight digits, or any number
of them in braces. -/
def codePoint? (extended : Bool) (digits : Nat) (t : Text) : Option (PatternChar × Text) :=
  match skip extended t with
  | '\x7b' :: rest => do
      let rest := skip extended rest
      let (found, rest) ← hexBraced? extended (rest.length + 1) [] rest
      let c ← scalar? (Text.toNatBase 16 found)
      pure (⟨c, false⟩, rest)
  | t => do
      let (found, rest) ← hexRun? extended digits [] t
      let c ← scalar? (Text.toNatBase 16 found)
      pure (⟨c, digits = 2⟩, rest)

/-- The special forms of a word boundary, by the word in braces. -/
def boundaryOfName? (name : Text) : Option Assertion :=
  if name = "start".toList then some .wordStart
  else if name = "end".toList then some .wordEnd
  else if name = "start-half".toList then some .wordStartHalf
  else if name = "end-half".toList then some .wordEndHalf
  else none

/-- A character of the name of a word boundary. -/
def isBoundaryChar (c : Char) : Bool :=
  Text.isLetter c || c == '-'

/-- Read the name of a word boundary up to its closing brace. -/
def boundaryName? (extended : Bool) : Nat → Text → Text → Option (Text × Text)
  | 0, _, _ => none
  | _ + 1, _, [] => none
  | fuel + 1, found, c :: rest =>
      if isBoundaryChar c then boundaryName? extended fuel (c :: found) (skip extended rest)
      else if c = '\x7d' then some (found.reverse, rest)
      else none

/-- Read what follows `\b`. A brace begins the name of a special boundary if a letter or a minus
sign follows it, and a count of repetitions otherwise. -/
def boundary? (extended : Bool) (t : Text) : Option (Assertion × Text) :=
  match t with
  | '\x7b' :: rest =>
      match skip extended rest with
      | [] => none
      | c :: more =>
          if isBoundaryChar c then do
            let (name, rest) ← boundaryName? extended (more.length + 2) [] (c :: more)
            let test ← boundaryOfName? name
            pure (test, rest)
          else some (.wordBoundary, t)
  | t => some (.wordBoundary, t)

/-- One item of a pattern that is not an operator. -/
inductive Item where
  | char (c : PatternChar)
  | assertion (test : Assertion)
  deriving DecidableEq, Repr

/-- The character that a letter after a backslash denotes. -/
def controlOfLetter? : Char → Option Char
  | 'a' => some '\x07'
  | 'f' => some '\x0c'
  | 't' => some '\t'
  | 'n' => some '\n'
  | 'r' => some '\r'
  | 'v' => some '\x0b'
  | _ => none

/-- An ASCII character that a backslash leaves as it is: no letter, no digit, no angle bracket. -/
def isEscapable (c : Char) : Bool :=
  c.toNat < 0x80 && !Text.isLetter c && !Text.isDigit c && c != '<' && c != '>'

/-- Read an escape after its backslash. -/
def escape? (extended : Bool) : Text → Option (Item × Text)
  | [] => none
  | 'x' :: rest => (codePoint? extended 2 rest).map fun (c, rest) => (.char c, rest)
  | 'u' :: rest => (codePoint? extended 4 rest).map fun (c, rest) => (.char c, rest)
  | 'U' :: rest => (codePoint? extended 8 rest).map fun (c, rest) => (.char c, rest)
  | 'b' :: rest => (boundary? extended rest).map fun (test, rest) => (.assertion test, rest)
  | c :: rest =>
      if isEscapable c then some (.char ⟨c, false⟩, rest)
      else (controlOfLetter? c).map fun control => (.char ⟨control, false⟩, rest)

/-! ## Brackets -/

/-- An unfinished part of a bracket expression. -/
inductive SetFrame where
  /-- A bracket was opened after the given items, the last one first. -/
  | opened (negated : Bool) (before : List CharSet)
  /-- A set operation waits for its right side. -/
  | operator (left : CharSet)
  deriving Repr

/-- The set of the items, the last one first. -/
def unionOf : List CharSet → CharSet
  | [] => .empty
  | [item] => item
  | items => .union items.reverse

/-- Complete a set operation that waits for its right side. -/
def closeOperator (stack : List SetFrame) (right : CharSet) : List SetFrame × CharSet :=
  match stack with
  | .operator left :: stack => (stack, .combined left right)
  | stack => (stack, right)

/-- The names of the ASCII classes. -/
def asciiClassNames : List Text :=
  ["alnum", "alpha", "ascii", "blank", "cntrl", "digit", "graph", "lower", "print", "punct",
    "space", "upper", "word", "xdigit"].map String.toList

/-- Read an ASCII class such as `[:alpha:]` after its first bracket. -/
def asciiClass? : Text → Option (CharSet × Text)
  | ':' :: rest =>
      let (negated, rest) := match rest with
        | '^' :: rest => (true, rest)
        | rest => (false, rest)
      let name := rest.takeWhile (· != ':')
      match rest.dropWhile (· != ':') with
      | ':' :: ']' :: rest => if name ∈ asciiClassNames then some (.named negated, rest) else none
      | _ => none
  | _ => none

/-- Minus signs at the beginning of a bracket expression stand for themselves. -/
def leadingMinus (extended : Bool) : Nat → List CharSet → Text → List CharSet × Text
  | 0, items, t => (items, t)
  | fuel + 1, items, t =>
      match t with
      | '-' :: rest =>
          leadingMinus extended fuel (.single ⟨'-', false⟩ :: items) (skip extended rest)
      | _ => (items, t)

/-- Read the beginning of a bracket expression after its bracket: a caret negates it, and minus
signs, or else a closing bracket, stand for themselves. -/
def openSet? (extended : Bool) (t : Text) : Option (Bool × List CharSet × Text) :=
  let t := skip extended t
  let (negated, t) := match t with
    | '^' :: rest => (true, skip extended rest)
    | t => (false, t)
  let (items, t) := leadingMinus extended (t.length + 1) [] t
  let (items, t) := match items, t with
    | [], ']' :: rest => ([.single ⟨']', false⟩], skip extended rest)
    | items, t => (items, t)
  if t = [] then none else some (negated, items, t)

/-- One character of a bracket expression. -/
def setItem? (extended : Bool) : Text → Option (Item × Text)
  | [] => none
  | '\\' :: rest => escape? extended rest
  | c :: rest => some (.char ⟨c, false⟩, rest)

/-- The character after the current one. In the extended notation blanks are passed over, and the
mark of the first comment with them. -/
def peekFrom (inComment : Bool) : Text → Option Char
  | [] => none
  | c :: rest =>
      if Text.isBlank c then peekFrom inComment rest
      else if !inComment && c = '#' then peekFrom true rest
      else some c

/-- The character after the current one, what is ignored being passed over. -/
def peekAfter (extended : Bool) (rest : Text) : Option Char :=
  if extended then peekFrom false rest else rest.head?

/-- Read a character or a range of a bracket expression. A minus sign makes a range unless a closing
bracket or another minus sign follows it. Assertions are no members of a set. -/
def setRange? (extended : Bool) (t : Text) : Option (CharSet × Text) := do
  let (low, rest) ← setItem? extended t
  let rest := skip extended rest
  match low, rest with
  | _, [] => none
  | .char low, '-' :: more =>
      if peekAfter extended more = some ']' ∨ peekAfter extended more = some '-' then
        some (.single low, rest)
      else
        match setItem? extended (skip extended more) with
        | some (.char high, rest) =>
            if low.char ≤ high.char then some (.range low high, rest) else none
        | _ => none
  | .char low, rest => some (.single low, rest)
  | .assertion _, _ => none

/-- The rest after a set operator: intersection, difference or symmetric difference. -/
def dropOperator? : Text → Option Text
  | '&' :: '&' :: rest => some rest
  | '-' :: '-' :: rest => some rest
  | '~' :: '~' :: rest => some rest
  | _ => none

/-- The stack after a set operator, which takes everything before it in its bracket as its left
side. -/
def openOperator (stack : List SetFrame) (items : List CharSet) : List SetFrame :=
  let (stack, left) := closeOperator stack (unionOf items)
  .operator left :: stack

/-- Read the inside of a bracket expression, the innermost set having the given items, the last one
first. The answer is the negation and the members of the outermost set. -/
def setLoop? (extended : Bool) :
    Nat → List SetFrame → List CharSet → Text → Option (Bool × CharSet × Text)
  | 0, _, _, _ => none
  | fuel + 1, stack, items, t =>
      match skip extended t with
      | [] => none
      | '[' :: rest =>
          match asciiClass? rest with
          | some (named, rest) => setLoop? extended fuel stack (named :: items) rest
          | none =>
              match openSet? extended rest with
              | some (negated, first, rest) =>
                  setLoop? extended fuel (.opened negated items :: stack) first rest
              | none => none
      | ']' :: rest =>
          match closeOperator stack (unionOf items) with
          | ([.opened negated _], set) => some (negated, set, rest)
          | (.opened negated before :: stack, set) =>
              setLoop? extended fuel stack (.bracketed negated set :: before) rest
          | _ => none
      | t =>
          match dropOperator? t, setRange? extended t with
          | some rest, _ => setLoop? extended fuel (openOperator stack items) [] rest
          | none, some (item, rest) => setLoop? extended fuel stack (item :: items) rest
          | none, none => none

/-- Read a bracket expression after its bracket. -/
def brackets? (extended : Bool) (t : Text) : Option (Pattern × Text) := do
  let (negated, items, rest) ← openSet? extended t
  let (negated, set, rest) ←
    setLoop? extended (rest.length + 1) [.opened negated []] items rest
  pure (.brackets negated set, rest)

/-! ## Repetitions -/

/-- Digits, with what is ignored dropped after each. -/
def countDigits (extended : Bool) : Nat → Text → Text → Text × Text
  | 0, found, t => (found.reverse, t)
  | fuel + 1, found, t =>
      match t with
      | c :: rest =>
          if Text.isDigit c then countDigits extended fuel (c :: found) (skip extended rest)
          else (found.reverse, t)
      | [] => (found.reverse, [])

/-- Blanks, with what is ignored dropped after each. -/
def countBlanks (extended : Bool) : Nat → Text → Text
  | 0, t => t
  | fuel + 1, t =>
      match t with
      | c :: rest => if Text.isBlank c then countBlanks extended fuel (skip extended rest) else t
      | [] => []

/-- A number of 32 bits between blanks, if there is one. -/
def count (extended : Bool) (t : Text) : Option Nat × Text :=
  let (digits, rest) := countDigits extended (t.length + 1) [] (Text.trimStart t)
  let rest := countBlanks extended (rest.length + 1) rest
  (if digits ≠ [] ∧ Text.toNat digits < 2 ^ (32 : Nat) then some (Text.toNat digits) else none,
    rest)

/-- Read the bounds of a repetition after its opening brace. -/
def bounds? (extended : Bool) (t : Text) : Option ((Nat × Option Nat) × Text) :=
  let (least, t) := count extended (skip extended t)
  match t with
  | ',' :: rest =>
      match skip extended rest with
      | '\x7d' :: rest => least.map fun n => ((n, none), rest)
      | t =>
          match least, count extended t with
          | some n, (some m, '\x7d' :: rest) => if n ≤ m then some ((n, some m), rest) else none
          | _, _ => none
  | '\x7d' :: rest => least.map fun n => ((n, some n), rest)
  | _ => none

/-- A question mark after a repetition asks for the shortest match. -/
def dropLazy : Text → Text
  | '?' :: rest => rest
  | t => t

/-! ## Groups -/

/-- The flag of a letter. -/
def flagOfLetter? : Char → Option PatternFlag
  | 'i' => some .caseInsensitive
  | 'm' => some .multiLine
  | 's' => some .dotAll
  | 'U' => some .swapGreed
  | 'u' => some .unicode
  | 'R' => some .carriageReturn
  | 'x' => some .extended
  | _ => none

/-- Read flags up to a colon or a closing parenthesis, which stays. No flag occurs twice, and at
most one minus sign stands before a flag. -/
def flagChange? (change : FlagChange) (negated dangling : Bool) :
    Text → Option (FlagChange × Text)
  | [] => none
  | c :: rest =>
      if c = ':' ∨ c = ')' then if dangling then none else some (change, c :: rest)
      else if c = '-' then if negated then none else flagChange? change true true rest
      else
        match flagOfLetter? c with
        | none => none
        | some flag =>
            if flag ∈ change.on ∨ flag ∈ change.off then none
            else if negated then flagChange? ⟨change.on, flag :: change.off⟩ true false rest
            else flagChange? ⟨flag :: change.on, change.off⟩ false false rest

/-- The name of a group: a letter or an underscore, then also numbers, points and brackets. -/
def isGroupName : Text → Bool
  | [] => false
  | c :: rest =>
      (c == '_' || Text.isAlphabetic c) &&
        rest.all fun c => c == '_' || c == '.' || c == '[' || c == ']' || Text.isAlphabetic c
          || Text.isNumeric c

/-- How a group begins. -/
inductive GroupStart where
  | capture
  | named (name : Text)
  | plain (change : FlagChange)
  /-- No group but a change of flags up to the end of the enclosing group. -/
  | setting (change : FlagChange)
  deriving DecidableEq, Repr

/-- Read the name of a group up to its closing angle bracket. -/
def groupName? (t : Text) : Option (GroupStart × Text) :=
  let name := t.takeWhile (· != '>')
  match t.dropWhile (· != '>') with
  | '>' :: rest => if isGroupName name then some (.named name, rest) else none
  | _ => none

/-- Read the beginning of a group after its parenthesis. Look-around is not supported, and a change
of flags names at least one. -/
def groupStart? (extended : Bool) (t : Text) : Option (GroupStart × Text) :=
  match skip extended t with
  | '?' :: '=' :: _ => none
  | '?' :: '!' :: _ => none
  | '?' :: '<' :: '=' :: _ => none
  | '?' :: '<' :: '!' :: _ => none
  | '?' :: 'P' :: '<' :: rest => groupName? rest
  | '?' :: '<' :: rest => groupName? rest
  | '?' :: rest =>
      match flagChange? ⟨[], []⟩ false false rest with
      | some (change, ':' :: rest) => some (.plain change, rest)
      | some (change, ')' :: rest) =>
          if change = ⟨[], []⟩ then none else some (.setting change, rest)
      | _ => none
  | t => some (.capture, t)

/-- An open group: its flags, the notation outside it, and the finished branches and the parts of
the unfinished branch outside it, the last ones first. -/
structure GroupFrame where
  change : Option FlagChange
  extended : Bool
  branches : List Pattern
  parts : List Pattern
  deriving Repr

/-- The sequence of the parts, the last one first. -/
def concatOf : List Pattern → Pattern
  | [] => .empty
  | [part] => part
  | parts => .concat parts.reverse

/-- The choice between the finished branches and the last one. -/
def choiceOf (branches parts : List Pattern) : Pattern :=
  match branches with
  | [] => concatOf parts
  | branches => .choice (concatOf parts :: branches).reverse

/-- Read the operator of a repetition; its bounds and the rest. -/
def repetition? (extended : Bool) : Text → Option ((Nat × Option Nat) × Text)
  | '?' :: rest => some ((0, some 1), dropLazy rest)
  | '*' :: rest => some ((0, none), dropLazy rest)
  | '+' :: rest => some ((1, none), dropLazy rest)
  | '\x7b' :: rest =>
      (bounds? extended rest).map fun (bounds, rest) => (bounds, dropLazy (skip extended rest))
  | _ => none

/-- The character begins the operator of a repetition. -/
def isRepetition (c : Char) : Bool :=
  c == '?' || c == '*' || c == '+' || c == '\x7b'

/-- Repeat the last part. A repetition needs something to repeat, which a change of flags is
not. -/
def repeatLast? (bounds : Nat × Option Nat) : List Pattern → Option (List Pattern)
  | [] => none
  | .empty :: _ => none
  | .flags _ :: _ => none
  | part :: parts => some (.repeated bounds.1 bounds.2 part :: parts)

/-- Read one item that is not an operator. -/
def primitive? (extended : Bool) : Text → Option (Pattern × Text)
  | [] => none
  | '\\' :: rest =>
      (escape? extended rest).map fun
        | (.char c, rest) => (.char c, rest)
        | (.assertion test, rest) => (.assertion test, rest)
  | '.' :: rest => some (.dot, rest)
  | '^' :: rest => some (.assertion .lineStart, rest)
  | '$' :: rest => some (.assertion .lineEnd, rest)
  | c :: rest => some (.char ⟨c, false⟩, rest)

/-- Read a pattern inside the open groups `frames`, with the names of the groups so far. -/
def loop? : Nat → List GroupFrame → List Text → Bool → List Pattern → List Pattern → Text →
    Option Pattern
  | 0, _, _, _, _, _, _ => none
  | fuel + 1, frames, names, extended, branches, parts, t =>
      match skip extended t with
      | [] => if frames.isEmpty then some (choiceOf branches parts) else none
      | '(' :: rest =>
          match groupStart? extended rest with
          | none => none
          | some (.setting change, rest) =>
              loop? fuel frames names (change.apply .extended extended) branches
                (.flags change :: parts) rest
          | some (.capture, rest) =>
              loop? fuel (⟨none, extended, branches, parts⟩ :: frames) names extended [] [] rest
          | some (.plain change, rest) =>
              loop? fuel (⟨some change, extended, branches, parts⟩ :: frames) names
                (change.apply .extended extended) [] [] rest
          | some (.named name, rest) =>
              if name ∈ names then none
              else
                loop? fuel (⟨none, extended, branches, parts⟩ :: frames) (name :: names) extended
                  [] [] rest
      | ')' :: rest =>
          match frames with
          | [] => none
          | frame :: frames =>
              loop? fuel frames names frame.extended frame.branches
                (.group frame.change (choiceOf branches parts) :: frame.parts) rest
      | '|' :: rest => loop? fuel frames names extended (concatOf parts :: branches) [] rest
      | '[' :: rest =>
          match brackets? extended rest with
          | some (part, rest) => loop? fuel frames names extended branches (part :: parts) rest
          | none => none
      | c :: rest =>
          if isRepetition c then
            match repetition? extended (c :: rest) with
            | none => none
            | some (bounds, rest) =>
                match repeatLast? bounds parts with
                | none => none
                | some parts => loop? fuel frames names extended branches parts rest
          else
            match primitive? extended (c :: rest) with
            | none => none
            | some (part, rest) => loop? fuel frames names extended branches (part :: parts) rest

/-- Read a regular expression. -/
def read? (t : Text) : Option Pattern :=
  loop? (t.length + 1) [] [] false [] [] t

end QueryTidy.Pattern
