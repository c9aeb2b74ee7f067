import JsPrune.Text.Ranges

/-!
# White space

The characters that separate tokens are those with the Unicode property White_Space. Four of them
also end a line: the line feed, the carriage return and the two Unicode separators.
-/

namespace JsPrune.Text

/-- Code points with the property White_Space. -/
def blankRanges : List (Nat × Nat) := [
  (0x9, 0xD), (0x20, 0x20), (0x85, 0x85), (0xA0, 0xA0), (0x1680, 0x1680), (0x2000, 0x200A),
  (0x2028, 0x2029), (0x202F, 0x202F), (0x205F, 0x205F), (0x3000, 0x3000)]

/-- Whether `c` only separates tokens. -/
def isBlank (c : Char) : Bool := Ranges.contains blankRanges c.toNat

/-- Whether `c` ends a line. -/
def isLineBreak (c : Char) : Bool :=
  c == '\n' || c == '\r' || c == '\u2028' || c == '\u2029'

/-- `text` without the white space at its end. -/
def trimEnd (text : String) : String :=
  String.ofList (text.toList.reverse.dropWhile isBlank).reverse

end JsPrune.Text
