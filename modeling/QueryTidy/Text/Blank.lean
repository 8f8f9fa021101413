import QueryTidy.Text.Ranges

/-!
# Blank characters

The characters with the Unicode property `White_Space`, trimming by it, and the words between
blanks.
-/

namespace QueryTidy.Text

/-- The code points with the property `White_Space`. -/
def blankRanges : CodeRanges :=
  [(0x9, 0xD), (0x20, 0x20), (0x85, 0x85), (0xA0, 0xA0), (0x1680, 0x1680), (0x2000, 0x200A),
   (0x2028, 0x2029), (0x202F, 0x202F), (0x205F, 0x205F), (0x3000, 0x3000)]

/-- A character with the property `White_Space`. -/
def isBlank (c : Char) : Bool :=
  blankRanges.contains c

/-- The text without blanks at its beginning. -/
def trimStart (t : Text) : Text :=
  t.dropWhile isBlank

/-- The text without blanks at its end. -/
def trimEnd (t : Text) : Text :=
  dropEndWhile isBlank t

/-- The text without blanks at either end. -/
def trim (t : Text) : Text :=
  trimEnd (trimStart t)

/-- The maximal runs of characters that are not blank, in order. -/
def words (t : Text) : List Text :=
  (splitAt isBlank t).filter fun w => !w.isEmpty

end QueryTidy.Text
