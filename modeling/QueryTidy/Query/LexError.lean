import QueryTidy.Text.Quoted

/-!
# Faults of spelling

The reasons for which a text cannot be cut into tokens.
-/

namespace QueryTidy

/-- Why a text cannot be cut into tokens. -/
inductive LexError where
  | unclosedParen
  | unexpectedParen
  | unexpectedBrace
  | unexpectedBracket
  | unexpectedChar (c : Char)
  | afterEquals (c : Char)
  | afterExclamation (c : Char)
  | exclamationAtEnd
  | afterPoint (c : Char)
  | unknownEscape (c : Char)
  | unfinishedEscape
  | unterminatedString (quote : Char)
  | badNumber (text : Text)
  | afterExclamationInBraces (c : Char)
  | braceInBraces
  | charInBraces (c : Char)
  | endInBraces
  | secondColon
  | colonFirst
  | bracketInBrackets
  | charInBrackets (c : Char)
  | endInBrackets
  deriving DecidableEq, Repr

namespace LexError

/-- The wording of the error. -/
def message : LexError → Text
  | .unclosedParen => "unclosed left parenthesis".toList
  | .unexpectedParen => "unexpected right parenthesis ')'".toList
  | .unexpectedBrace => "unexpected right brace '\x7d'".toList
  | .unexpectedBracket => "unexpected right bracket ']'".toList
  | .unexpectedChar c => "unexpected character: ".toList ++ Text.quoteChar c
  | .afterEquals c => "unexpected character after '=': ".toList ++ Text.quoteChar c
  | .afterExclamation c => "unexpected character after '!': ".toList ++ Text.quoteChar c
  | .exclamationAtEnd => "'!' can not be at the end".toList
  | .afterPoint c => "unexpected character after '.': ".toList ++ Text.quoteChar c
  | .unknownEscape c => "unknown escape sequence ".toList ++ Text.quoteChar c
  | .unfinishedEscape => "escape sequence not terminated".toList
  | .unterminatedString quote => "unterminated quoted string ".toList ++ [quote]
  | .badNumber text => "bad number or duration syntax: ".toList ++ text
  | .afterExclamationInBraces c =>
      "unexpected character after '!' inside braces: ".toList ++ Text.quoteChar c
  | .braceInBraces => "unexpected left brace '\x7b' inside braces".toList
  | .charInBraces c => "unexpected character inside braces: ".toList ++ Text.quoteChar c
  | .endInBraces => "unexpected end of input inside braces".toList
  | .secondColon => "unexpected second colon(:) in brackets".toList
  | .colonFirst => "expect duration before first colon(:) in brackets".toList
  | .bracketInBrackets => "unexpected left brace '[' inside brackets".toList
  | .charInBrackets c => "unexpected character inside brackets: ".toList ++ Text.quoteChar c
  | .endInBrackets => "unexpected end of input inside brackets".toList

end LexError

end QueryTidy
