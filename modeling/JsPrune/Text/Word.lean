import JsPrune.Text.Letter
import JsPrune.Text.Numeral

/-!
# Words

Two classes of word characters meet in this library. An *identifier* character is what the lexer
takes into a name. A *word* character is what the printer must not let touch another one, and what
an object key may be written with unquoted; it also counts the numerals beyond ASCII.
-/

namespace JsPrune.Text

/-- Whether `c` is one of the ten ASCII digits. -/
def isDigit (c : Char) : Bool := '0' ≤ c && c ≤ '9'

/-- Whether `c` is an ASCII hexadecimal digit, of either case. -/
def isHexDigit (c : Char) : Bool :=
  isDigit c || ('a' ≤ c && c ≤ 'f') || ('A' ≤ c && c ≤ 'F')

/-- Whether a name can start with `c`. -/
def isNameStart (c : Char) : Bool := isLetter c || c == '_' || c == '$'

/-- Whether a name can go on with `c`. -/
def isNameChar (c : Char) : Bool := isNameStart c || isDigit c

/-- Whether `c` would fuse with a neighbouring word character. -/
def isWordChar (c : Char) : Bool := isLetter c || isNumeral c || c == '_' || c == '$'

/-- The value of a hexadecimal digit. Characters outside the class count as zero. -/
def hexValue (c : Char) : Nat :=
  if isDigit c then c.toNat - '0'.toNat
  else if 'a' ≤ c && c ≤ 'f' then c.toNat - 'a'.toNat + 10
  else if 'A' ≤ c && c ≤ 'F' then c.toNat - 'A'.toNat + 10
  else 0

/-- The number that a string of hexadecimal digits denotes. -/
def ofHexDigits (digits : List Char) : Nat :=
  digits.foldl (fun value c => value * 16 + hexValue c) 0

/-- The number that a string of decimal digits denotes. -/
def ofDigits (digits : List Char) : Nat :=
  digits.foldl (fun value c => value * 10 + hexValue c) 0

/-- The lower-case hexadecimal digit for a value below 16. -/
def hexDigit (value : Nat) : Char :=
  if value < 10 then Char.ofNat ('0'.toNat + value) else Char.ofNat ('a'.toNat + (value - 10))

/-- The last `width` hexadecimal digits of `value`, padded with zeros on the left. -/
def hexText : Nat → Nat → List Char
  | 0, _ => []
  | width + 1, value => hexText width (value / 16) ++ [hexDigit (value % 16)]

end JsPrune.Text
