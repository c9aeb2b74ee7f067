import JsPrune.Binary64.Decimal
import JsPrune.Json.Value

/-!
# Writing JSON

Values on one line, or indented with one item per line. Numbers have the fewest digits that read
back. From `10 ^ (-5)` to below `10 ^ 16` they are written positionally and with a fraction, beyond
that with an exponent that has a sign; of two equally near spellings the one with the even digit.
What denotes no finite number is `null`.
-/

namespace JsPrune.Json

open JsPrune.Text

/-- The spelling of a number. -/
def numberText (x : Binary64) : String :=
  if x.isNaN || x.isInfinite then "null"
  else
    let digits := x.shortest .even
    let sign := if x.isNegative then ['-'] else []
    let body :=
      if -5 < digits.point && digits.point ≤ 16 then digits.positional ['.', '0']
      else digits.scientific ['+']
    String.ofList (sign ++ body)

/-- One character of a string. -/
def escapeChar (c : Char) : List Char :=
  if c = '"' then ['\\', '"']
  else if c = '\\' then ['\\', '\\']
  else if c = '\x08' then ['\\', 'b']
  else if c = '\x0c' then ['\\', 'f']
  else if c = '\n' then ['\\', 'n']
  else if c = '\r' then ['\\', 'r']
  else if c = '\t' then ['\\', 't']
  else if c.toNat < 0x20 then '\\' :: 'u' :: hexText 4 c.toNat
  else [c]

/-- A string between quotes. -/
def stringText (text : String) : String :=
  String.ofList ('"' :: (text.toList.flatMap escapeChar ++ ['"']))

/-- How items are set apart. -/
inductive Spacing where
  /-- Everything on one line, without spaces. -/
  | tight
  /-- One item per line, two spaces per level. -/
  | indented
deriving DecidableEq

namespace Spacing

/-- What goes before an item at a level. -/
def lineBreak (spacing : Spacing) (level : Nat) : String :=
  match spacing with
  | tight => ""
  | indented => "\n" ++ String.ofList (List.replicate (2 * level) ' ')

/-- What goes between a key and its value. -/
def colon : Spacing → String
  | tight => ":"
  | indented => ": "

end Spacing

/-- Items between brackets, which stay together around nothing. -/
def bracketed (spacing : Spacing) (level : Nat) (openMark closeMark : String)
    (items : List String) : String :=
  if items.isEmpty then openMark ++ closeMark
  else
    openMark ++ spacing.lineBreak (level + 1)
      ++ ("," ++ spacing.lineBreak (level + 1)).intercalate items
      ++ spacing.lineBreak level ++ closeMark

mutual
/-- The text of a value at an indentation level. -/
def write (spacing : Spacing) (level : Nat) : Value → String
  | .null => "null"
  | .bool true => "true"
  | .bool false => "false"
  | .natural value => String.ofList (Binary64.natText value)
  | .number (some x) => numberText x
  | .number none => "null"
  | .string (some text) => stringText text
  | .string none => "null"
  | .array items => bracketed spacing level "[" "]" (writeItems spacing (level + 1) items)
  | .object entries =>
    bracketed spacing level "\x7b" "\x7d" (writeEntries spacing (level + 1) entries)
termination_by structural value => value

/-- The texts of the items of an array. -/
def writeItems (spacing : Spacing) (level : Nat) : List Value → List String
  | [] => []
  | item :: rest => write spacing level item :: writeItems spacing level rest
termination_by structural items => items

/-- The texts of the entries of an object. -/
def writeEntries (spacing : Spacing) (level : Nat) : List (Option String × Value) → List String
  | [] => []
  | entry :: rest => writeEntry spacing level entry :: writeEntries spacing level rest
termination_by structural entries => entries

/-- The text of one entry. -/
def writeEntry (spacing : Spacing) (level : Nat) : Option String × Value → String
  | (key, value) => stringText (key.getD "") ++ spacing.colon ++ write spacing level value
termination_by structural entry => entry
end

end JsPrune.Json
