import QueryTidy.Number.Decimal

/-!
# Number literals of queries

A literal is read without regard to case. With an `x` it is a hexadecimal integer, with a leading
zero and octal digits only an octal one, and otherwise decimal notation. Integers must fit 63 bits.
-/

namespace QueryTidy

-- The power of natural numbers is that of the core library, also where monoids are known.
attribute [local instance (1100)] instPowNat

/-- Why a number literal has no value. -/
inductive LiteralError where
  /-- Hexadecimal or octal notation with a foreign character, no digit, or a value that is too
  large. -/
  | notInteger (text : Text)
  /-- Decimal notation that is not complete. -/
  | notDecimal (text : Text)
  deriving DecidableEq, Repr

namespace LiteralError

/-- The wording of the error. -/
def message : LiteralError → Text
  | .notInteger text => "ParseFloatError. ".toList ++ text ++ " can't be parsed into i64".toList
  | .notDecimal text => "ParseFloatError. ".toList ++ text ++ " can't be parsed into f64".toList

end LiteralError

/-- The notation in which a number literal, already in small letters, is written. -/
inductive NumberStyle where
  | hexadecimal (digits : Text)
  | octal (digits : Text)
  | decimal
  deriving DecidableEq, Repr

namespace Literal

/-- The notation of a literal in small letters. -/
def styleOf (text : Text) : NumberStyle :=
  if 'x' ∈ text then .hexadecimal (text.drop 2)
  else
    match text with
    | '0' :: c :: rest =>
        if '.' ∈ c :: rest ∨ '8' ∈ c :: rest ∨ '9' ∈ c :: rest then .decimal
        else .octal (c :: rest)
    | _ => .decimal

/-- A nonempty string of digits as an integer below `2 ^ 63`. -/
def integer? (base : Nat) (digits : Text) : Option Nat :=
  let valid (c : Char) : Bool := if base = 16 then Text.isHexDigit c else '0' ≤ c && c ≤ '7'
  if digits ≠ [] ∧ digits.all valid ∧ Text.toNatBase base digits < 2 ^ (63 : Nat) then
    some (Text.toNatBase base digits)
  else none

/-- The value of a number literal. -/
def value (written : Text) : Except LiteralError Binary64 :=
  let text := Text.lower written
  match styleOf text with
  | .hexadecimal digits =>
      match integer? 16 digits with
      | some n => .ok (.ofNat n)
      | none => .error (.notInteger text)
  | .octal digits =>
      match integer? 8 digits with
      | some n => .ok (.ofNat n)
      | none => .error (.notInteger text)
  | .decimal =>
      match Binary64.ofDecimal? text with
      | some v => .ok v
      | none => .error (.notDecimal text)

end Literal

end QueryTidy
