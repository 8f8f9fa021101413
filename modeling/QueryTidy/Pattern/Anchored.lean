import QueryTidy.Pattern.Reader

/-!
# Patterns of label matchers

A matcher's value `v` is read as the regular expression `^v$`. Braces that cannot be a count of
repetitions are first taken as they are; when that is no regular expression they are taken
literally (`escapeBraces`).
-/

namespace QueryTidy.Pattern

/-- Read a regular expression that satisfies the limits. -/
def compile? (t : Text) : Option Pattern :=
  (read? t).filter wellFormed

/-- Examine the characters after an opening brace up to the end of a count of repetitions: digits
and at most one comma, which does not come first, and a closing brace. The answer is whether it is
one, the characters examined, and the rest. -/
def examineCount (found : Text) (comma : Bool) : Text → Bool × Text × Text
  | [] => (false, found.reverse, [])
  | c :: rest =>
      if Text.isDigit c then examineCount (c :: found) comma rest
      else if c = ',' ∧ !comma ∧ found ≠ [] then examineCount (c :: found) true rest
      else if c = '\x7d' then (found ≠ [], (c :: found).reverse, rest)
      else (false, (c :: found).reverse, rest)

/-- Put a backslash before every opening brace that begins no count of repetitions. A backslash
keeps the character after it, and the characters examined after a brace are kept. -/
def escapeBracesFrom : Nat → Text → Text
  | 0, t => t
  | _ + 1, [] => []
  | _ + 1, ['\\'] => ['\\']
  | fuel + 1, '\\' :: c :: rest => '\\' :: c :: escapeBracesFrom fuel rest
  | fuel + 1, c :: rest =>
      if c = '\x7b' then
        let (isCount, examined, rest) := examineCount [] false rest
        (if isCount then ['\x7b'] else ['\\', '\x7b']) ++ examined ++ escapeBracesFrom fuel rest
      else c :: escapeBracesFrom fuel rest

/-- The pattern with the braces that are no counts of repetitions taken literally. -/
def escapeBraces (t : Text) : Text :=
  escapeBracesFrom (t.length + 1) t

/-- The regular expression `^v$` of a value `v`, if need be with braces taken literally. -/
def ofValue? (value : Text) : Option Pattern :=
  let anchored := '^' :: value ++ ['$']
  match compile? anchored with
  | some p => some p
  | none => compile? (escapeBraces anchored)

end QueryTidy.Pattern
