import QueryTidy.Text.Basic

/-!
# Sets of characters as ranges

A property of characters is kept as a list of code point ranges, both ends included.
-/

namespace QueryTidy

/-- Ranges of code points, both ends included, in ascending order. -/
abbrev CodeRanges := List (Nat × Nat)

namespace CodeRanges

/-- The character lies in one of the ranges. -/
def contains (ranges : CodeRanges) (c : Char) : Bool :=
  ranges.any fun (low, high) => low ≤ c.toNat && c.toNat ≤ high

end CodeRanges

end QueryTidy
