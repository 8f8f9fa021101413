import QueryTidy.Text.Basic

/-!
# Similar words

How much two words resemble each other, as a fraction, and the word of a list that a misspelt one
was probably meant to be (`mostSimilar?`). Two equal characters at nearby places match, each at most
once. The similarity is the mean of three fractions: the matching part of either word, and the part
of the matches that stand in the same order.
-/

namespace QueryTidy.Text

/-- Mark the first unmarked place that holds the character, if one lies between the bounds. `j` is
the index of the first of the places. -/
def markMatch? (c : Char) (low high j : Nat) : List (Char × Bool) → Option (List (Char × Bool))
  | [] => none
  | (d, taken) :: rest =>
      if low ≤ j ∧ j < high ∧ c = d ∧ !taken then some ((d, true) :: rest)
      else (markMatch? c low high (j + 1) rest).map ((d, taken) :: ·)

/-- Match the characters of a word, the first of which has index `i`, against the places of another
one that are at most `range` away. The answer holds the characters that found a match, and the
places. -/
def matchWord (range i : Nat) (places : List (Char × Bool)) : Text → Text × List (Char × Bool)
  | [] => ([], places)
  | c :: rest =>
      match markMatch? c (i - range) (i + range + 1) 0 places with
      | some places =>
          let (found, places) := matchWord range (i + 1) places rest
          (c :: found, places)
      | none => matchWord range (i + 1) places rest

/-- A fraction of natural numbers. -/
structure Fraction where
  num : Nat
  den : Nat
  deriving DecidableEq, Repr

/-- The fraction is not less than another one. -/
def Fraction.atLeast (p q : Fraction) : Bool :=
  q.num * p.den ≤ p.num * q.den

/-- The similarity of two words: 0 when nothing matches, 1 when they are equal. -/
def similarity (s t : Text) : Fraction :=
  let range := max s.length t.length / 2 - 1
  let (found, places) := matchWord range 0 (t.map (·, false)) s
  let marked := (places.filter (·.2)).map (·.1)
  let m := found.length
  let moved := ((found.zip marked).filter fun (c, d) => c ≠ d).length / 2
  if m = 0 then ⟨0, 1⟩
  else
    ⟨m * m * t.length + m * m * s.length + (m - moved) * s.length * t.length,
      3 * m * s.length * t.length⟩

/-- The similarity from which on a word may have been meant. -/
def similarEnough : Fraction := ⟨7, 10⟩

/-- The word of the list that is most similar to the given one, if it is similar enough; the last
one of several equally similar words. -/
def mostSimilar? (word : Text) : List Text → Option Text
  | [] => none
  | candidate :: rest =>
      match mostSimilar? word rest with
      | some best =>
          if (similarity word best).atLeast (similarity word candidate) then some best
          else some candidate
      | none =>
          if (similarity word candidate).atLeast similarEnough then some candidate else none

end QueryTidy.Text
