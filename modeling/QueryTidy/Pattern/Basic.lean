import QueryTidy.Text.Basic

/-!
# Regular expressions

Syntax trees of the regular expressions that label matchers hold, and what the trees say about the
empty text (`Pattern.matchesEmpty`).
-/

namespace QueryTidy

/-- A flag inside `(?…)`. -/
inductive PatternFlag where
  | caseInsensitive | multiLine | dotAll | swapGreed | unicode | carriageReturn | extended
  deriving DecidableEq, Repr

/-- The flags that a `(?…)` turns on, and those after the minus sign that it turns off. -/
structure FlagChange where
  on : List PatternFlag
  off : List PatternFlag
  deriving DecidableEq, Repr

namespace FlagChange

/-- The new state of a flag whose state was `before`. -/
def apply (change : FlagChange) (flag : PatternFlag) (before : Bool) : Bool :=
  if flag ∈ change.on then true else if flag ∈ change.off then false else before

end FlagChange

/-- A test of a position. -/
inductive Assertion where
  | lineStart | lineEnd | wordBoundary | wordStart | wordEnd | wordStartHalf | wordEndHalf
  deriving DecidableEq, Repr

namespace Assertion

/-- The test holds at the only position of the empty text: there is no word character on either
side of it. -/
def holdsOnEmpty : Assertion → Bool
  | .lineStart => true
  | .lineEnd => true
  | .wordBoundary => false
  | .wordStart => false
  | .wordEnd => false
  | .wordStartHalf => true
  | .wordEndHalf => true

end Assertion

/-- A character as written. A `byte` was written `\x` with two digits: it denotes a byte where
Unicode is switched off. -/
structure PatternChar where
  char : Char
  byte : Bool
  deriving DecidableEq, Repr

/-- A set of characters inside brackets. -/
inductive CharSet where
  | empty
  | single (c : PatternChar)
  | range (low high : PatternChar)
  | named (negated : Bool)
  | bracketed (negated : Bool) (inner : CharSet)
  | union (items : List CharSet)
  | combined (left right : CharSet)
  deriving Repr

/-- A regular expression. -/
inductive Pattern where
  | empty
  | flags (change : FlagChange)
  | char (c : PatternChar)
  | dot
  | assertion (test : Assertion)
  | brackets (negated : Bool) (inner : CharSet)
  | repeated (least : Nat) (most : Option Nat) (inner : Pattern)
  | group (change : Option FlagChange) (inner : Pattern)
  | concat (parts : List Pattern)
  | choice (branches : List Pattern)
  deriving Repr

namespace Pattern

mutual
/-- The pattern matches the empty text. -/
def matchesEmpty : Pattern → Bool
  | .empty => true
  | .flags _ => true
  | .char _ => false
  | .dot => false
  | .assertion test => test.holdsOnEmpty
  | .brackets _ _ => false
  | .repeated least _ inner => least = 0 || matchesEmpty inner
  | .group _ inner => matchesEmpty inner
  | .concat parts => allMatchEmpty parts
  | .choice branches => someMatchesEmpty branches

/-- Every pattern of the list matches the empty text. -/
def allMatchEmpty : List Pattern → Bool
  | [] => true
  | p :: ps => matchesEmpty p && allMatchEmpty ps

/-- Some pattern of the list matches the empty text. -/
def someMatchesEmpty : List Pattern → Bool
  | [] => false
  | p :: ps => matchesEmpty p || someMatchesEmpty ps
end

end Pattern

end QueryTidy
