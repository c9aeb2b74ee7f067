import JsPrune.Binary64.Basic
import JsPrune.Source.Position
import JsPrune.Token.Keyword
import JsPrune.Token.Punctuator

/-!
# Tokens

A token has a kind, the span of text it was read from, and a mark that says whether a line break
separates it from the token before it. Text that fits no token becomes a token too, one of kind
`fault`, so that reading never fails and the rest of the text is still split.
-/

namespace JsPrune

open JsPrune.Source

/-- Why a stretch of text is no token. -/
inductive Fault where
  | unterminatedComment
  | unterminatedString
  /-- The text ends after a backslash. -/
  | truncatedEscape
  /-- A hexadecimal escape has too few digits. -/
  | malformedEscape
  /-- The digits of a hexadecimal escape name no character. -/
  | invalidCodePoint (digits : List Char)
  /-- `0x` without a digit after it. -/
  | emptyHexLiteral
  /-- A hexadecimal literal beyond 64 bits. -/
  | hexLiteralTooLarge
  /-- A name starts right after a number. -/
  | nameAfterNumber
  | malformedNumber
  | unexpectedCharacter (c : Char)
deriving DecidableEq

/-- The wording of a fault. -/
def Fault.message : Fault → String
  | unterminatedComment => "unterminated block comment"
  | unterminatedString => "unterminated string literal"
  | truncatedEscape => "unexpected end of input in string escape"
  | malformedEscape => "invalid hexadecimal escape sequence"
  | invalidCodePoint digits => "invalid escape code point: " ++ String.ofList digits
  | emptyHexLiteral => "invalid hexadecimal literal: cannot parse integer from empty string"
  | hexLiteralTooLarge => "invalid hexadecimal literal: number too large to fit in target type"
  | nameAfterNumber => "identifier starts immediately after numeric literal"
  | malformedNumber => "invalid number: invalid float literal"
  | unexpectedCharacter c => "unexpected character: " ++ String.singleton c

namespace Token

/-- What a token is. -/
inductive Kind where
  | identifier (name : String)
  | keyword (word : Keyword)
  | number (value : Binary64)
  /-- A string literal, with its escapes resolved. -/
  | string (value : String)
  | punctuator (symbol : Punctuator)
  /-- A comment with its delimiters. -/
  | comment (text : String)
  /-- The end of the text. -/
  | eof
  /-- Text that is no token. -/
  | fault (reason : Fault)
deriving DecidableEq

namespace Kind

/-- Whether the grammar never sees tokens of this kind. -/
def isTrivia : Kind → Bool
  | comment _ => true
  | _ => false

theorem ne_eof_of_isTrivia {kind : Kind} (h : kind.isTrivia = true) : kind ≠ .eof := by
  rintro rfl
  cases h

/-- What a message calls a token of this kind. -/
def name : Kind → String
  | identifier name => "identifier '" ++ name ++ "'"
  | keyword word => "'" ++ word.text ++ "'"
  | number _ => "number"
  | string _ => "string"
  | punctuator symbol => "'" ++ symbol.text ++ "'"
  | comment _ => "comment"
  | eof => "end of input"
  | fault _ => "error"

end Kind

end Token

/-- A token and where it stands. -/
structure Token where
  /-- What it is. -/
  kind : Token.Kind
  /-- Where it stands. -/
  span : Span
  /-- Whether a line break, in white space or in a comment, separates it from the token before. -/
  newlineBefore : Bool
deriving DecidableEq

end JsPrune
