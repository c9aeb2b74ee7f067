import JsPrune.Binary64.Decimal
import JsPrune.Text.Blank
import JsPrune.Token.Basic

/-!
# From text to tokens

A scanner looks at a text whose first character is already known and answers what kind of token
starts there and how many *further* characters belong to it. Since the first character always
belongs to the token, no token is empty and the text is used up after finitely many.

`Lexer.next` skips white space, scans one token and moves the position over the characters taken.
`Lexer.tokens` repeats that up to the end of the text; `Lexer.nextSignificant` repeats it as long as
it finds comments.

Notes on the form, next to a lexer that goes from character to character:
- The scanners answer with a length and move nothing. The position is moved once, in `Lexer.next`,
  over the characters that were taken, so text and position can not get out of step.
- A fault is a token like any other and takes what was looked at. What broke it off stays outside:
  after an unclosed string the line feed is still to be read.
- Lines are counted by `Position.advance`, which knows the line feed only. White space is searched
  for all four line breaks, but a comment for those that move the line; a carriage return inside a
  comment marks nothing.
- Offset, line and column are numbers without an upper end. The offset counts bytes of UTF-8, line
  and column count characters.
- A decimal literal is read by its digits and rounded once, in `Binary64.readUnsigned?`; a
  hexadecimal literal has to fit into 64 bits before it is rounded.
-/

namespace JsPrune

open JsPrune.Source JsPrune.Text

/-- A kind of token and the number of its characters after the first. -/
abbrev Scanned := Token.Kind × Nat

namespace Scan

/-- A `//` comment: everything up to the line feed. `rest` starts with the second slash. -/
def lineComment (rest : List Char) : Scanned :=
  let body := rest.takeWhile (· != '\n')
  (.comment (String.ofList ('/' :: body)), body.length)

/-- How many characters lie before the end of a block comment, the end itself included. -/
def commentLength? : List Char → Option Nat
  | [] => none
  | '*' :: '/' :: _ => some 2
  | _ :: rest => (commentLength? rest).map (· + 1)

/-- A block comment; `rest` starts with the star of its opening. -/
def blockComment (rest : List Char) : Scanned :=
  match commentLength? (rest.drop 1) with
  | some length => (.comment (String.ofList ('/' :: rest.take (length + 1))), length + 1)
  | none => (.fault .unterminatedComment, rest.length)

/-- What stands after a backslash: the character meant, or nothing for a continued line, and how
many characters spell it; or a fault and how many characters were looked at. -/
inductive Escape where
  | char (c : Char) (length : Nat)
  | nothing (length : Nat)
  | broken (reason : Fault) (length : Nat)

/-- An escape of exactly `count` hexadecimal digits, after its letter. -/
def hexEscape (count : Nat) (text : List Char) : Escape :=
  -- The digits before the break belong to the faulty token, what broke them off does not.
  let digits := (text.take count).takeWhile isHexDigit
  if digits.length < count then .broken .malformedEscape (digits.length + 1)
  else if (ofHexDigits digits).isValidChar then .char (Char.ofNat (ofHexDigits digits)) (count + 1)
  else .broken (.invalidCodePoint digits) (count + 1)

/-- The escape at the start of `text`, which follows a backslash. -/
def escape : List Char → Escape
  | [] => .broken .truncatedEscape 0
  | c :: rest =>
    if c = 'n' then .char '\n' 1
    else if c = 'r' then .char '\r' 1
    else if c = 't' then .char '\t' 1
    else if c = 'b' then .char '\x08' 1
    else if c = 'f' then .char '\x0c' 1
    else if c = 'v' then .char '\x0b' 1
    else if c = '0' then .char '\x00' 1
    -- A backslash before a line feed continues the line.
    else if c = '\n' then .nothing 1
    else if c = 'x' then hexEscape 2 rest
    else if c = 'u' then hexEscape 4 rest
    else .char c 1

/-- The rest of a string literal after `taken` characters, whose value so far is `value` reversed.
The walk ends with the text, since every step takes at least one character of it. -/
def stringBody (quote : Char) (value : List Char) (taken : Nat) (text : List Char) : Scanned :=
  match text with
  | [] => (.fault .unterminatedString, taken)
  | c :: rest =>
    if c = quote then (.string (String.ofList value.reverse), taken + 1)
    else if c = '\\' then
      match escape rest with
      | .char meant length =>
        stringBody quote (meant :: value) (taken + 1 + length) (rest.drop length)
      | .nothing length => stringBody quote value (taken + 1 + length) (rest.drop length)
      | .broken reason length => (.fault reason, taken + 1 + length)
    -- The line feed stays outside, so that the next token starts a new line.
    else if c = '\n' then (.fault .unterminatedString, taken)
    else stringBody quote (c :: value) (taken + 1) rest
termination_by text.length
decreasing_by all_goals simp_wf; try omega

/-- A hexadecimal literal; `rest` starts with its `x`. -/
def hexNumber (rest : List Char) : Scanned :=
  let digits := (rest.drop 1).takeWhile isHexDigit
  let value := ofHexDigits digits
  let kind : Token.Kind :=
    if digits.isEmpty then .fault .emptyHexLiteral
    else if value < UInt64.size then .number (Binary64.ofRatio value 1)
    else .fault .hexLiteralTooLarge
  (kind, 1 + digits.length)

/-- The number of digits at the start of a text. -/
def digitCount (text : List Char) : Nat := (text.takeWhile isDigit).length

/-- The length of a point and the digits after it, zero if there is no point. -/
def fractionLength : List Char → Nat
  | '.' :: rest => 1 + digitCount rest
  | _ => 0

/-- The length of a sign, zero if there is none. -/
def signLength : List Char → Nat
  | '+' :: _ => 1
  | '-' :: _ => 1
  | _ => 0

/-- The length of an exponent, zero unless a digit follows its letter and optional sign. -/
def exponentLength : List Char → Nat
  | mark :: rest =>
    if mark != 'e' && mark != 'E' then 0
    else
      let digits := digitCount (rest.drop (signLength rest))
      if digits = 0 then 0 else 1 + signLength rest + digits
  | [] => 0

/-- The length of a decimal literal. -/
def decimalLength (text : List Char) : Nat :=
  let whole := digitCount text
  let fraction := fractionLength (text.drop whole)
  whole + fraction + exponentLength (text.drop (whole + fraction))

/-- A decimal literal, which no name may follow directly. -/
def decimalNumber (text : List Char) : Scanned :=
  let length := decimalLength text
  let kind : Token.Kind :=
    -- `3in` is no number followed by a word.
    if (text.drop length).head?.any isNameStart then .fault .nameAfterNumber
    else match Binary64.readUnsigned? (text.take length) with
      | some value => .number value
      | none => .fault .malformedNumber
  (kind, length - 1)

/-- A number literal; `first` is a digit, or a point with a digit after it. -/
def number (first : Char) (rest : List Char) : Scanned :=
  if first == '0' && rest.head?.any (fun c => c == 'x' || c == 'X') then hexNumber rest
  else decimalNumber (first :: rest)

/-- A name or a reserved word. -/
def word (first : Char) (rest : List Char) : Scanned :=
  let more := rest.takeWhile isNameChar
  let text := String.ofList (first :: more)
  match Keyword.ofWord? text with
  | some keyword => (.keyword keyword, more.length)
  | none => (.identifier text, more.length)

/-- The longest punctuator, or a character that starts no token. -/
def punctuator (first : Char) (rest : List Char) : Scanned :=
  match Punctuator.longest? (first :: rest) with
  | some symbol => (.punctuator symbol, symbol.text.length - 1)
  | none => (.fault (.unexpectedCharacter first), 0)

/-- The token that starts with `first`. -/
def token (first : Char) (rest : List Char) : Scanned :=
  -- Comments come before the punctuators that a slash could start.
  if first == '/' && rest.head? == some '/' then lineComment rest
  else if first == '/' && rest.head? == some '*' then blockComment rest
  else if first == '"' || first == '\x27' then stringBody first [] 0 rest
  else if isDigit first then number first rest
  else if first == '.' && rest.head?.any isDigit then number first rest
  else if isNameStart first then word first rest
  else punctuator first rest

end Scan

/-- What is left to read, and how far the reading has come. -/
structure Lexer where
  /-- Text not yet read. -/
  rest : List Char
  /-- Place of its first character. -/
  position : Position
  /-- Whether a line break was crossed since the last token that is not a comment. -/
  sawNewline : Bool

namespace Lexer

/-- The state before the first character of `source`. -/
def ofSource (source : List Char) : Lexer := ⟨source, .start, false⟩

/-- Reads one token. A line break before or inside a comment counts for the token after it. At the
end of the text the token is `eof`, again and again. -/
def next (lexer : Lexer) : Token × Lexer :=
  let blank := lexer.rest.takeWhile isBlank
  let here := lexer.position.advance blank
  let newline := lexer.sawNewline || blank.any isLineBreak
  match lexer.rest.dropWhile isBlank with
  | [] => (⟨.eof, .between here here, newline⟩, ⟨[], here, false⟩)
  | first :: rest =>
    let (kind, length) := Scan.token first rest
    let stop := here.advance (first :: rest.take length)
    -- A comment hands on the line break before it and the one inside it.
    let crossed := kind.isTrivia && (newline || here.line < stop.line)
    (⟨kind, .between here stop, newline⟩, ⟨rest.drop length, stop, crossed⟩)

/-- Unless the text is at its end, a token takes some of it. -/
theorem length_rest_next_lt {lexer : Lexer} (h : lexer.next.1.kind ≠ .eof) :
    lexer.next.2.rest.length < lexer.rest.length := by
  have skipped := (lexer.rest.dropWhile_sublist isBlank).length_le
  unfold next at h ⊢
  split at h
  · exact absurd rfl h
  · next first rest read =>
    simp only [read, List.length_cons] at skipped ⊢
    simp only [List.length_drop]
    omega

/-- All tokens from here on, comments included, up to the one `eof`. -/
def tokens (lexer : Lexer) : List Token :=
  if _ : lexer.next.1.kind = .eof then [lexer.next.1]
  else lexer.next.1 :: tokens lexer.next.2
termination_by lexer.rest.length
decreasing_by exact length_rest_next_lt (by assumption)

/-- Reads on to a token that is not a comment. -/
def nextSignificant (lexer : Lexer) : Token × Lexer :=
  if _ : lexer.next.1.kind.isTrivia = true then nextSignificant lexer.next.2 else lexer.next
termination_by lexer.rest.length
decreasing_by exact length_rest_next_lt (Token.Kind.ne_eof_of_isTrivia (by assumption))

/-- The first `count` tokens, reading on after the end of the text. -/
def take (lexer : Lexer) : Nat → List Token
  | 0 => []
  | count + 1 => lexer.next.1 :: lexer.next.2.take count

end Lexer

/-- All tokens of a text, comments included. -/
def tokenize (source : String) : List Token := (Lexer.ofSource source.toList).tokens

end JsPrune
