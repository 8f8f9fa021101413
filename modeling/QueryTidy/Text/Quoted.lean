import QueryTidy.Text.Printable
import QueryTidy.Text.Utf8

/-!
# Quoted characters and byte strings

The form in which a single character is quoted in a message (`quoteChar`), and the form in which the
program and the arguments of a command are quoted when the command is shown (`quoteBytes`).
-/

namespace QueryTidy.Text

/-- A character by its code point, as in `\u{1b}`. -/
def codePoint (c : Char) : Text :=
  "\\u\x7b".toList ++ hex c.toNat ++ ['\x7d']

/-- A character inside quotes, `quote` being the one that needs a backslash. -/
def escapeChar (quote c : Char) : Text :=
  if c = '\x00' then ['\\', '0']
  else if c = '\t' then ['\\', 't']
  else if c = '\r' then ['\\', 'r']
  else if c = '\n' then ['\\', 'n']
  else if c = '\\' ∨ c = quote then ['\\', c]
  else if isCombining c ∨ isHidden c then codePoint c
  else [c]

/-- A character in single quotes. -/
def quoteChar (c : Char) : Text :=
  '\'' :: escapeChar '\'' c ++ ['\'']

/-- A byte that belongs to no character, as in `\xFF`. -/
def escapeByte (b : UInt8) : Text :=
  let digits := (hex b.toNat).map fun c =>
    if 'a' ≤ c ∧ c ≤ 'f' then Char.ofNat (c.toNat - 32) else c
  ['\\', 'x'] ++ List.replicate (2 - digits.length) '0' ++ digits

/-- A byte string in double quotes. A NUL is the only control that occurs with a short name of its
own besides tab, return and line feed. -/
def quoteBytes (bytes : Bytes) : Text :=
  let body := (Utf8.chunks bytes).flatMap fun
    | .char c => escapeChar '"' c
    | .stray part => part.flatMap escapeByte
  '"' :: body ++ ['"']

end QueryTidy.Text
