/-!
# Text

A text is a list of Unicode scalar values. This module holds the vocabulary that every reader and
writer of the library shares: the ASCII classes of characters, decimal numerals, joining, splitting
and cutting from both ends.
-/

namespace QueryTidy

/-- A text, as the sequence of its Unicode scalar values. -/
abbrev Text := List Char

/-- A sequence of bytes: the content of a file, a path, an argument of a command. -/
abbrev Bytes := List UInt8

namespace Text

/-- An ASCII decimal digit. -/
def isDigit (c : Char) : Bool :=
  '0' ≤ c && c ≤ '9'

/-- An ASCII hexadecimal digit of either case. -/
def isHexDigit (c : Char) : Bool :=
  isDigit c || ('a' ≤ c && c ≤ 'f') || ('A' ≤ c && c ≤ 'F')

/-- An ASCII letter of either case. -/
def isLetter (c : Char) : Bool :=
  ('a' ≤ c && c ≤ 'z') || ('A' ≤ c && c ≤ 'Z')

/-- A character that may begin a name: an ASCII letter or an underscore. -/
def isNameStart (c : Char) : Bool :=
  isLetter c || c == '_'

/-- A character that may continue a name: an ASCII letter, a digit or an underscore. -/
def isNameRest (c : Char) : Bool :=
  isNameStart c || isDigit c

/-- The character with an ASCII capital turned into its small letter; every other character is
kept. -/
def lowerChar (c : Char) : Char :=
  if 'A' ≤ c && c ≤ 'Z' then Char.ofNat (c.toNat + 32) else c

/-- The text with ASCII capitals turned into small letters. -/
def lower (t : Text) : Text :=
  t.map lowerChar

/-- The value of a digit in a base of at most sixteen; characters that are no digit count as 0. -/
def digitValue (c : Char) : Nat :=
  if isDigit c then c.toNat - '0'.toNat
  else if 'a' ≤ c && c ≤ 'f' then c.toNat - 'a'.toNat + 10
  else if 'A' ≤ c && c ≤ 'F' then c.toNat - 'A'.toNat + 10
  else 0

/-- The natural number that a string of digits denotes in the given base, the first digit being
the most significant. -/
def toNatBase (base : Nat) (digits : Text) : Nat :=
  digits.foldl (fun n c => n * base + digitValue c) 0

/-- The natural number that a string of decimal digits denotes. -/
def toNat (digits : Text) : Nat :=
  toNatBase 10 digits

/-- The decimal numeral of a natural number. -/
def ofNat (n : Nat) : Text :=
  Nat.toDigits 10 n

/-- The decimal numeral of an integer, with a minus sign when it is negative. -/
def ofInt (i : Int) : Text :=
  if i < 0 then '-' :: ofNat i.natAbs else ofNat i.natAbs

/-- The hexadecimal numeral of a natural number, with small letters. -/
def hex (n : Nat) : Text :=
  Nat.toDigits 16 n

/-- The texts one after another with a separator between neighbours. -/
def join (separator : Text) : List Text → Text
  | [] => []
  | [t] => t
  | t :: ts => t ++ separator ++ join separator ts

/-- Cut a list at every element that satisfies the test. The pieces exclude the separators, so
there is always one piece more than there are separators. -/
def splitAt {α : Type} (separates : α → Bool) : List α → List (List α)
  | [] => [[]]
  | a :: rest =>
      if separates a then [] :: splitAt separates rest
      else
        match splitAt separates rest with
        | [] => [[a]]
        | piece :: pieces => (a :: piece) :: pieces

/-- The rest of a list after a given beginning, or `none` when it does not begin so. -/
def dropStart? {α : Type} [DecidableEq α] : List α → List α → Option (List α)
  | [], rest => some rest
  | _ :: _, [] => none
  | a :: start, b :: rest => if a = b then dropStart? start rest else none

/-- The list begins with the given elements. -/
def startsWith {α : Type} [DecidableEq α] (start whole : List α) : Bool :=
  (dropStart? start whole).isSome

/-- Drop the elements that satisfy the test from the end of a list. -/
def dropEndWhile {α : Type} (p : α → Bool) (t : List α) : List α :=
  (t.reverse.dropWhile p).reverse

/-- The number of bytes of a character in UTF-8. -/
def charBytes (c : Char) : Nat :=
  if c.toNat < 0x80 then 1 else if c.toNat < 0x800 then 2 else if c.toNat < 0x10000 then 3 else 4

/-- The number of bytes of a text in UTF-8. -/
def byteLength (t : Text) : Nat :=
  t.foldl (fun n c => n + charBytes c) 0

/-- The order of texts by code points, which is also the order of their UTF-8 bytes: `true` when
the first does not come after the second. -/
def notAfter : Text → Text → Bool
  | [], _ => true
  | _ :: _, [] => false
  | a :: s, b :: t => a.toNat < b.toNat || (a == b && notAfter s t)

/-- Insert a text into a list before the first element that does not come before it. -/
def insertSorted (t : Text) : List Text → List Text
  | [] => [t]
  | u :: us => if notAfter t u then t :: u :: us else u :: insertSorted t us

/-- The texts in ascending order. -/
def sort : List Text → List Text
  | [] => []
  | t :: ts => insertSorted t (sort ts)

/-- Joining in front of a further text puts one separator between them. -/
@[simp] theorem join_cons_cons (separator t u : Text) (us : List Text) :
    join separator (t :: u :: us) = t ++ separator ++ join separator (u :: us) :=
  rfl

/-- Cutting yields at least one piece. -/
theorem splitAt_ne_nil {α : Type} (separates : α → Bool) (l : List α) :
    splitAt separates l ≠ [] := by
  cases l with
  | nil => simp [splitAt]
  | cons a rest =>
      unfold splitAt
      split
      · simp
      · split <;> simp

/-- Dropping a beginning is the inverse of putting it in front. -/
theorem dropStart?_eq_some_iff {α : Type} [DecidableEq α] (start whole rest : List α) :
    dropStart? start whole = some rest ↔ whole = start ++ rest := by
  induction start generalizing whole with
  | nil => simp [dropStart?, eq_comm]
  | cons a start ih =>
      cases whole with
      | nil => simp [dropStart?]
      | cons b whole =>
          by_cases hab : a = b
          · simp [dropStart?, hab, ih]
          · simp [dropStart?, hab, Ne.symm hab]

end Text

end QueryTidy
