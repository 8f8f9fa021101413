import QueryTidy.Text.Basic

/-!
# Double-precision numbers

Values of the binary64 format as exact data: a sign, a mantissa below `2 ^ 53` and a binary
exponent. Arithmetic is exact on the rationals that the values denote, followed by one rounding to
nearest with ties to even (`ofRatio`); nothing here depends on machine floating point.
-/

namespace QueryTidy

-- The power of natural numbers is that of the core library, also where monoids are known.
attribute [local instance (1100)] instPowNat

/-- The quotient of two natural numbers rounded to the nearest natural number, a half going to the
even neighbour. -/
def divHalfEven (num den : Nat) : Nat :=
  let quotient := num / den
  let twice := 2 * (num % den)
  if twice < den then quotient
  else if den < twice then quotient + 1
  else if quotient % 2 = 0 then quotient else quotient + 1

/-- The quotient of two natural numbers rounded to the nearest natural number, a half going up. -/
def divHalfUp (num den : Nat) : Nat :=
  (2 * num + den) / (2 * den)

/-- A binary64 value. `finite negative m e` denotes `m * 2 ^ e` with the sign; it is kept canonical:
`e` is at least `-1074`, and a mantissa below `2 ^ 52` occurs with that exponent only. -/
inductive Binary64 where
  | nan
  | infinite (negative : Bool)
  | finite (negative : Bool) (mantissa : Nat) (exponent : Int)
  deriving DecidableEq, Repr

namespace Binary64

/-- The least binary exponent, that of the subnormal numbers. -/
def leastExponent : Int := -1074

/-- The greatest binary exponent of a finite value. -/
def greatestExponent : Int := 971

/-- Zero with the given sign. -/
def zero (negative : Bool) : Binary64 :=
  .finite negative 0 leastExponent

/-- The magnitude `num / den` rounded to the nearest binary64 value, a tie going to the even
mantissa, with the given sign. The exponent is chosen so that the quotient has 53 bits, unless the
value is subnormal. -/
def ofRatio (negative : Bool) (num den : Nat) : Binary64 :=
  if num = 0 then zero negative
  else
    let logs : Int := (Nat.log2 num : Int) - (Nat.log2 den : Int)
    let below : Bool :=
      if 0 ≤ logs then num < den * 2 ^ logs.toNat else num * 2 ^ (-logs).toNat < den
    let exponent := max leastExponent (if below then logs - 53 else logs - 52)
    let mantissa :=
      if 0 ≤ exponent then divHalfEven num (den * 2 ^ exponent.toNat)
      else divHalfEven (num * 2 ^ (-exponent).toNat) den
    let carried := decide (mantissa = 2 ^ (53 : Nat))
    let mantissa := if carried then 2 ^ (52 : Nat) else mantissa
    let exponent := if carried then exponent + 1 else exponent
    if greatestExponent < exponent then .infinite negative
    else .finite negative mantissa exponent

/-- The nearest value to a natural number. -/
def ofNat (n : Nat) : Binary64 :=
  ofRatio false n 1

/-- The magnitude of a finite mantissa and exponent as a fraction of natural numbers. -/
def fraction (mantissa : Nat) (exponent : Int) : Nat × Nat :=
  if 0 ≤ exponent then (mantissa * 2 ^ exponent.toNat, 1) else (mantissa, 2 ^ (-exponent).toNat)

/-- The value with the opposite sign; not-a-number stays as it is. -/
def neg : Binary64 → Binary64
  | .nan => .nan
  | .infinite negative => .infinite !negative
  | .finite negative m e => .finite (!negative) m e

/-- The sign bit. -/
def isNegative : Binary64 → Bool
  | .nan => false
  | .infinite negative => negative
  | .finite negative _ _ => negative

/-- The product with a natural number, rounded once. -/
def mulNat (factor : Nat) : Binary64 → Binary64
  | .nan => .nan
  | .infinite negative => if factor = 0 then .nan else .infinite negative
  | .finite negative m e =>
      let (num, den) := fraction m e
      ofRatio negative (num * factor) den

/-- The value is zero or less than zero. -/
def isNonPositive : Binary64 → Bool
  | .nan => false
  | .infinite negative => negative
  | .finite negative m _ => negative || m = 0

/-- The magnitude is at least that of the greatest finite value. -/
def isHuge : Binary64 → Bool
  | .nan => false
  | .infinite _ => true
  | .finite _ m e => m = 2 ^ (53 : Nat) - 1 && e = greatestExponent

/-- The sum of two magnitudes given as fractions, rounded once. -/
def addMagnitudes (a b : Nat × Nat) : Binary64 :=
  ofRatio false (a.1 * b.2 + b.1 * a.2) (a.2 * b.2)

/-- The magnitude of a finite value as a fraction; `none` for the others. -/
def magnitude? : Binary64 → Option (Nat × Nat)
  | .finite _ m e => some (fraction m e)
  | _ => none

end Binary64

end QueryTidy
