import QueryTidy.Number.Binary64

/-!
# Decimal text of double-precision numbers

Writing a binary64 value with the fewest decimal digits that read back to it (`shortest`), always in
positional notation (`Binary64.display`), writing a number of thousandths with three places, and
reading decimal notation (`ofDecimal?`), rounded once to the nearest value.
-/

namespace QueryTidy

-- The power of natural numbers is that of the core library, also where monoids are known.
attribute [local instance (1100)] instPowNat

/-- A decimal number `digits * 10 ^ scale`. -/
structure Decimal where
  digits : Nat
  scale : Int
  deriving DecidableEq, Repr

namespace Decimal

/-- Drop final zeros of the digits, at most as many as the first argument says, and count them in
the scale. -/
def stripZeros : Nat → Decimal → Decimal
  | 0, d => d
  | fuel + 1, d =>
      if d.digits ≠ 0 ∧ d.digits % 10 = 0 then stripZeros fuel ⟨d.digits / 10, d.scale + 1⟩ else d

/-- The decimal number in positional notation, without an exponent: a whole number has no point,
and a number below one begins with `0.`. -/
def positional (d : Decimal) : Text :=
  let text := Text.ofNat d.digits
  if 0 ≤ d.scale then
    text ++ List.replicate (if d.digits = 0 then 0 else d.scale.toNat) '0'
  else
    let places := (-d.scale).toNat
    if places < text.length then
      text.take (text.length - places) ++ '.' :: text.drop (text.length - places)
    else
      '0' :: '.' :: (List.replicate (places - text.length) '0' ++ text)

/-- A power of ten as a fraction of natural numbers. -/
def power (scale : Int) : Nat × Nat :=
  if 0 ≤ scale then (10 ^ scale.toNat, 1) else (1, 10 ^ (-scale).toNat)

/-- The exponent of ten of the first digit of the positive fraction `num / den`: the greatest `k`
with `10 ^ k` not above the fraction. -/
def leadingExponent (num den : Nat) : Int :=
  if den ≤ num then ((Text.ofNat (num / den)).length : Int) - 1
  else -((Text.ofNat ((den + num - 1) / num - 1)).length : Int)

/-- The reals that round to the binary64 value `m * 2 ^ e`, in units of `2 ^ (e - 2)`: the lower
end, the upper end, and whether the ends belong to it. -/
def roundingInterval (m : Nat) (e : Int) : Nat × Nat × Bool :=
  let lower := if m = 2 ^ (52 : Nat) ∧ Binary64.leastExponent < e then 4 * m - 1 else 4 * m - 2
  (lower, 4 * m + 2, m % 2 = 0)

/-- The nearest multiple of `10 ^ scale` that rounds to `m * 2 ^ e`, or `none` when no multiple
does. Only the two neighbours of the value can be nearest; of two at the same distance the greater
is taken. -/
def onGrid? (m : Nat) (e scale : Int) : Option Nat :=
  let (unitNum, unitDen) := Binary64.fraction 1 (e - 2)
  let (gridNum, gridDen) := power scale
  let (lower, upper, closed) := roundingInterval m e
  -- both sides of a comparison of `k * 10 ^ scale` with `u * 2 ^ (e - 2)`, without fractions
  let left (k : Nat) := k * gridNum * unitDen
  let right (u : Nat) := u * unitNum * gridDen
  let inside (k : Nat) : Bool :=
    if closed then right lower ≤ left k && left k ≤ right upper
    else right lower < left k && left k < right upper
  let value := 4 * m
  let k := right value / left 1
  let nearer := if 2 * right value < left (2 * k + 1) then k else k + 1
  let farther := if nearer = k then k + 1 else k
  if inside nearer then some nearer else if inside farther then some farther else none

/-- The first grid with a hit, from the grid of one digit to that of seventeen, which always has
one. -/
def firstOnGrid (m : Nat) (e leading : Int) : Nat → Nat → Decimal
  | 0, _ => ⟨m, e⟩
  | fuel + 1, count =>
      match onGrid? m e (leading - count) with
      | some k => ⟨k, leading - count⟩
      | none => firstOnGrid m e leading fuel (count + 1)

/-- The decimal number with the fewest digits among those that round to `m * 2 ^ e`, and of those
the nearest to it. -/
def shortest (m : Nat) (e : Int) : Decimal :=
  let (num, den) := Binary64.fraction m e
  stripZeros 400 (firstOnGrid m e (leadingExponent num den) 17 0)

end Decimal

namespace Binary64

/-- The value in positional decimal notation with the fewest digits that read back to it; `inf`,
`-inf` and `NaN` for the others. -/
def display : Binary64 → Text
  | .nan => "NaN".toList
  | .infinite negative => if negative then "-inf".toList else "inf".toList
  | .finite negative m e =>
      let magnitude :=
        if m = 0 then ['0'] else (Decimal.shortest m e).positional
      if negative then '-' :: magnitude else magnitude

/-- The decimal number `digits * 10 ^ scale` rounded to the nearest value. Numbers far outside the
range of the format are decided by their size, so that no huge power is computed. -/
def ofDecimal (digits : Nat) (scale : Int) : Binary64 :=
  if digits = 0 then zero false
  else
    let size := ((Text.ofNat digits).length : Int) + scale
    if 310 < size then .infinite false
    else if size < -330 then zero false
    else
      let (num, den) := Decimal.power scale
      ofRatio false (digits * num) den

/-- Read the part of a decimal numeral after its whole part and fraction: nothing, or `e` with an
optional sign and at least one digit. -/
def readExponent? : Text → Option Int
  | [] => some 0
  | 'e' :: '+' :: digits => unsigned digits
  | 'e' :: '-' :: digits => (unsigned digits).map (- ·)
  | 'e' :: digits => unsigned digits
  | _ => none
where
  /-- A nonempty run of digits. -/
  unsigned (digits : Text) : Option Int :=
    if digits ≠ [] ∧ digits.all Text.isDigit then some (Text.toNat digits : Int) else none

/-- Read decimal notation in small letters: digits with an optional point, at least one digit in
all, and an optional exponent; or `inf` or `nan`. -/
def ofDecimal? (text : Text) : Option Binary64 :=
  if text = "inf".toList then some (.infinite false)
  else if text = "nan".toList then some .nan
  else
    let whole := text.takeWhile Text.isDigit
    let rest := text.dropWhile Text.isDigit
    let (places, rest) :=
      match rest with
      | '.' :: tail => (tail.takeWhile Text.isDigit, tail.dropWhile Text.isDigit)
      | _ => ([], rest)
    if whole ++ places = [] then none
    else
      (readExponent? rest).map fun exponent =>
        ofDecimal (Text.toNat (whole ++ places)) (exponent - places.length)

/-- The magnitude of a finite value rounded to the given number of decimal places, a half going to
the even neighbour; other values have no such text. -/
def fixed (places : Nat) : Binary64 → Text
  | .finite _ m e =>
      let (num, den) := fraction m e
      let units := divHalfEven (num * 10 ^ places) den
      let low := Text.ofNat (units % 10 ^ places)
      Text.ofNat (units / 10 ^ places) ++ '.' :: (List.replicate (places - low.length) '0' ++ low)
  | _ => []

end Binary64

end QueryTidy
