import JsPrune.Text.Word

/-!
# Laying out printed pieces

The printer produces pieces: texts, places for a space, and line breaks with their indentation
level. A `Layout` decides what becomes of them. Compact output drops the spaces and breaks;
indented output keeps them. In both, a single space goes between two texts that would otherwise
read as one token: two words, two plus signs, two minus signs.
-/

namespace JsPrune

open JsPrune.Text

/-- How a tree is printed. -/
structure Layout where
  /-- Keep spaces and line breaks, and end every statement with a semicolon. -/
  beautify : Bool
  /-- Spaces per level of indentation. -/
  indentWidth : Nat
  /-- End every statement with a semicolon, the last of a block included. -/
  semicolons : Bool
deriving DecidableEq

namespace Layout

/-- The smallest output. -/
def compact : Layout := ⟨false, 4, false⟩

/-- One statement per line. -/
def beautified : Layout := ⟨true, 4, true⟩

/-- Whether statements end with a semicolon wherever they stand. -/
def terminates (layout : Layout) : Bool := layout.beautify || layout.semicolons

end Layout

/-- A piece of printed output. -/
inductive Piece where
  /-- Text of the program. -/
  | text (content : String)
  /-- A space, if spaces are kept. -/
  | space
  /-- A line break and indentation, if they are kept. -/
  | newline (level : Nat)
deriving DecidableEq

namespace Piece

/-- Whether `first` right after `last` would be read together with it. -/
def fuses (last first : Char) : Bool :=
  (isWordChar last && isWordChar first) || (last == '+' && first == '+')
    || (last == '-' && first == '-')

/-- What has to stand between the output so far, reversed, and a text. -/
def gap (written : List Char) (content : List Char) : List Char :=
  match written, content with
  | last :: _, first :: _ => if fuses last first then [' '] else []
  | _, _ => []

/-- The output so far, reversed, with one more piece. -/
def write (layout : Layout) (written : List Char) : Piece → List Char
  | text content => content.toList.reverse ++ (gap written content.toList ++ written)
  | space => if layout.beautify then ' ' :: written else written
  | newline level =>
    if layout.beautify then List.replicate (level * layout.indentWidth) ' ' ++ '\n' :: written
    else written

end Piece

/-- The text that a list of pieces becomes. -/
def Layout.render (layout : Layout) (pieces : List Piece) : String :=
  String.ofList (pieces.foldl (Piece.write layout) []).reverse

end JsPrune
