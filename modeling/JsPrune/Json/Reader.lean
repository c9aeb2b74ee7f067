import JsPrune.Binary64.Decimal
import JsPrune.Json.Value

/-!
# Reading JSON

A reader takes a text and answers a value and the text behind it. White space may stand around every
value and mark. Nesting and repetition are bounded by the length of the text, since each bracket and
each item takes at least one character.

Numerals are read in two steps, as fast readers do: the digits that fit into 64 bits are taken as a
whole number, which is rounded, and the result is multiplied or divided by a rounded power of ten.
The value can differ in the last place from the nearest one.
-/

namespace JsPrune.Json

open JsPrune.Text

/-- A reader of values of type `α`. -/
abbrev Reader (α : Type) := List Char → Option (α × List Char)

/-- White space between the parts of a JSON text. -/
def isSpace (c : Char) : Bool := c == ' ' || c == '\t' || c == '\n' || c == '\r'

/-- The text without leading white space. -/
def skipSpace (text : List Char) : List Char := text.dropWhile isSpace

/-! ## Numerals -/

/-- Digits taken into a significand so far, and the power of ten it is to be multiplied by. -/
structure Significand where
  /-- A number below `2 ^ 64`. -/
  digits : Nat
  /-- The power of ten. -/
  exponent : Int

namespace Significand

/-- Whether another digit still fits into 64 bits. -/
def hasRoom (number : Significand) (digit : Nat) : Bool := number.digits * 10 + digit < UInt64.size

/-- Takes the digits of the whole part. After the first that does not fit, each counts as a zero. -/
def takeWhole (number : Significand) : List Char → Significand
  | [] => number
  | c :: rest =>
    if number.hasRoom (hexValue c) then
      takeWhole { number with digits := number.digits * 10 + hexValue c } rest
    else { number with exponent := number.exponent + Int.ofNat (rest.length + 1) }

/-- Takes the digits of the fraction, up to the first that does not fit. -/
def takeFraction (number : Significand) : List Char → Significand
  | [] => number
  | c :: rest =>
    if number.hasRoom (hexValue c) then
      takeFraction ⟨number.digits * 10 + hexValue c, number.exponent - 1⟩ rest
    else number

/-- Multiplies a magnitude by a power of ten, in steps of at most `10 ^ 308`. No value if the result
is too large. Two steps down leave nothing of any significand, so a few `steps` suffice. -/
def scale : Nat → Binary64 → Int → Option Binary64
  | 0, value, _ => some value
  | steps + 1, value, exponent =>
    if exponent.natAbs ≤ 308 then
      let power := Binary64.ofDecimal 1 exponent.natAbs
      if 0 ≤ exponent then
        -- The digits were rounded once already; this rounds again.
        let product := value.mulAbs power
        if product.isInfinite then none else some product
      else some (value.divAbs power)
    else if value.isZero then some value
    else if 0 ≤ exponent then none
    else scale steps (value.divAbs (Binary64.ofDecimal 1 308)) (exponent + 308)

/-- The number that a significand stands for. -/
def toBinary64? (number : Significand) : Option Binary64 :=
  scale 8 (Binary64.ofRatio number.digits 1) number.exponent

end Significand

/-- The whole part of a numeral: a lone zero, or digits that do not start with one. -/
def wholePart : Reader (List Char)
  | '0' :: rest => if rest.head?.any isDigit then none else some (['0'], rest)
  | text =>
    let digits := text.takeWhile isDigit
    if digits.isEmpty then none else some (digits, text.dropWhile isDigit)

/-- The fraction of a numeral, which has at least one digit if there is a point. -/
def fractionPart : Reader (List Char)
  | '.' :: rest =>
    let digits := rest.takeWhile isDigit
    if digits.isEmpty then none else some (digits, rest.dropWhile isDigit)
  | text => some ([], text)

/-- The exponent of a numeral, which has at least one digit if there is a mark. -/
def exponentPart : Reader Int
  | [] => some (0, [])
  | mark :: rest =>
    if mark != 'e' && mark != 'E' then some (0, mark :: rest)
    else
      let (sign, text) := match rest with
        | '+' :: more => ((1 : Int), more)
        | '-' :: more => ((-1 : Int), more)
        | more => ((1 : Int), more)
      let digits := text.takeWhile isDigit
      if digits.isEmpty then none
      else some (sign * Int.ofNat (ofDigits digits), text.dropWhile isDigit)

/-- A numeral without a sign. -/
def magnitude : Reader (Option Binary64) := fun text => do
  let (whole, text) ← wholePart text
  let (fraction, text) ← fractionPart text
  let (exponent, text) ← exponentPart text
  let number := ((Significand.mk 0 0).takeWhole whole).takeFraction fraction
  return ({ number with exponent := number.exponent + exponent }.toBinary64?, text)

/-- A numeral. -/
def numeral : Reader (Option Binary64)
  | '-' :: text => (magnitude text).map fun (value, rest) => (value.map Binary64.negative, rest)
  | text => magnitude text

/-- Digits alone, of a number that fits in 64 bits. -/
def natural : Reader Nat := fun text => do
  let (digits, rest) ← wholePart text
  let goesOn := rest.head?.any fun c => c == '.' || c == 'e' || c == 'E'
  if goesOn || UInt64.size ≤ ofDigits digits then none else return (ofDigits digits, rest)

/-- A numeral as a value. -/
def number : Reader Value := fun text =>
  match natural text with
  | some (value, rest) => some (.natural value, rest)
  | none => (numeral text).map fun (value, rest) => (.number value, rest)

/-! ## Strings -/

/-- The code unit that four hexadecimal digits spell. -/
def codeUnit : Reader Nat := fun text =>
  let digits := text.take 4
  if digits.length = 4 && digits.all isHexDigit then some (ofHexDigits digits, text.drop 4)
  else none

/-- A character after `\u`, where a pair of surrogates stands for one character. -/
def escapedUnit : Reader (Option Char) := fun text => do
  let (unit, rest) ← codeUnit text
  if 0xD800 ≤ unit && unit < 0xDC00 then
    match rest with
    | '\\' :: 'u' :: more =>
      match codeUnit more with
      | some (low, after) =>
        if 0xDC00 ≤ low && low < 0xE000 then
          return (some (Char.ofNat (0x10000 + (unit - 0xD800) * 0x400 + (low - 0xDC00))), after)
        else return (none, rest)
      | none => none
    | _ => return (none, rest)
  else if 0xDC00 ≤ unit && unit < 0xE000 then return (none, rest)
  else return (some (Char.ofNat unit), rest)

/-- A character after a backslash; `none` inside stands for half of a pair. -/
def escaped : Reader (Option Char)
  | '"' :: rest => some (some '"', rest)
  | '\\' :: rest => some (some '\\', rest)
  | '/' :: rest => some (some '/', rest)
  | 'b' :: rest => some (some '\x08', rest)
  | 'f' :: rest => some (some '\x0c', rest)
  | 'n' :: rest => some (some '\n', rest)
  | 'r' :: rest => some (some '\r', rest)
  | 't' :: rest => some (some '\t', rest)
  | 'u' :: rest => escapedUnit rest
  | _ => none

/-- The rest of a string after its opening quote. `value` is what it denotes so far, reversed, or
`none` once half of a pair was met. -/
def stringRest (value : Option (List Char)) : Nat → Reader (Option String)
  | 0, _ => none
  | _ + 1, [] => none
  | count + 1, c :: rest =>
    if c = '"' then some (value.map fun chars => String.ofList chars.reverse, rest)
    else if c.toNat < 0x20 then none
    else if c = '\\' then do
      let (meant, after) ← escaped rest
      stringRest (value.bind fun chars => meant.map (· :: chars)) count after
    else stringRest (value.map (c :: ·)) count rest

/-- A string after its opening quote. -/
def stringBody : Reader (Option String) := fun text => stringRest (some []) (text.length + 1) text

/-! ## Values -/

/-- The rest of a comma-separated list, from its first item on, and the mark that closes it. -/
def itemsRest {α : Type} (item : Reader α) (close : Char) : Nat → Reader (List α)
  | 0, _ => none
  | count + 1, text => do
    let (first, text) ← item text
    match skipSpace text with
    | ',' :: rest =>
      let (others, rest) ← itemsRest item close count rest
      return (first :: others, rest)
    | mark :: rest => if mark = close then return ([first], rest) else none
    | [] => none

/-- A comma-separated list after the bracket that opens it. -/
def items {α : Type} (item : Reader α) (close : Char) : Reader (List α) := fun text =>
  match skipSpace text with
  | [] => none
  | mark :: rest =>
    if mark = close then some ([], rest) else itemsRest item close (text.length + 1) text

/-- An entry of an object. -/
def entry (value : Reader Value) : Reader (Option String × Value) := fun text => do
  match skipSpace text with
  | '"' :: rest =>
    let (key, rest) ← stringBody rest
    match skipSpace rest with
    | ':' :: rest =>
      let (held, rest) ← value rest
      return ((key, held), rest)
    | _ => none
  | _ => none

/-- A word of the format. -/
def word (spelling : List Char) (meaning : Value) : Reader Value := fun text =>
  if spelling.isPrefixOf text then some (meaning, text.drop spelling.length) else none

/-- A value nested at most `nesting` brackets deep. -/
def value : Nat → Reader Value
  | 0, _ => none
  | nesting + 1, text =>
    match skipSpace text with
    | '\x7b' :: rest =>
      (items (entry (value nesting)) '\x7d' rest).map fun (entries, rest) => (.object entries, rest)
    | '[' :: rest =>
      (items (value nesting) ']' rest).map fun (values, rest) => (.array values, rest)
    | '"' :: rest => (stringBody rest).map fun (content, rest) => (.string content, rest)
    | 't' :: rest => word "true".toList (.bool true) ('t' :: rest)
    | 'f' :: rest => word "false".toList (.bool false) ('f' :: rest)
    | 'n' :: rest => word "null".toList .null ('n' :: rest)
    | other => number other

/-- The value that a whole text spells. -/
def read? (text : String) : Option Value := do
  let chars := text.toList
  let (found, rest) ← value (chars.length + 1) chars
  if (skipSpace rest).isEmpty then return found else none

end JsPrune.Json
