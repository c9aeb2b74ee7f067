/-!
# Places in a text

A `Position` counts bytes of the UTF-8 form from zero, and lines and columns from one; a column is
one character wide, and only the line feed starts a new line. `Position.advance` is the single rule
by which all three move.

A `Span` is a stretch of bytes that remembers the line and column of its start. A span is asked for
its text against any source; where its ends are not between two characters of that source the text
is empty.
-/

namespace JsPrune.Source

/-- A place between two characters of a text. -/
structure Position where
  /-- Bytes before this place. -/
  offset : Nat
  /-- Line, counted from one. -/
  line : Nat
  /-- Column, counted from one, in characters. -/
  column : Nat
deriving DecidableEq

namespace Position

/-- The beginning of a text. -/
def start : Position := ⟨0, 1, 1⟩

/-- The place after one more character. -/
def next (here : Position) (c : Char) : Position :=
  if c = '\n' then ⟨here.offset + c.utf8Size, here.line + 1, 1⟩
  else ⟨here.offset + c.utf8Size, here.line, here.column + 1⟩

/-- The place after the characters of `text`. -/
def advance (here : Position) (text : List Char) : Position := text.foldl next here

end Position

/-- The characters of `text` from byte `offset` on, if a character starts there. -/
def dropBytes : List Char → Nat → Option (List Char)
  | text, 0 => some text
  | [], _ + 1 => none
  | c :: rest, offset => if c.utf8Size ≤ offset then dropBytes rest (offset - c.utf8Size) else none

/-- The first `count` bytes of `text`, if they end between two characters. -/
def takeBytes : List Char → Nat → Option (List Char)
  | _, 0 => some []
  | [], _ + 1 => none
  | c :: rest, count =>
    if c.utf8Size ≤ count then (takeBytes rest (count - c.utf8Size)).map (c :: ·) else none

/-- The lines of a text without their ends. A line ends at a line feed, and a carriage return
before it goes with it; a text that ends in a line feed has no further, empty line. -/
def lines : List Char → List (List Char)
  | [] => []
  | '\n' :: rest => [] :: lines rest
  | '\r' :: '\n' :: rest => [] :: lines rest
  | c :: rest => match lines rest with
    | [] => [[c]]
    | line :: others => (c :: line) :: others

/-- The line around byte `offset`, from the line feed before it to the one after it. -/
def lineAround (text : List Char) (offset : Nat) : List Char :=
  let before := (takeBytes text offset).getD text
  let after := (dropBytes text offset).getD []
  (before.reverse.takeWhile (· != '\n')).reverse ++ after.takeWhile (· != '\n')

/-- A stretch of a text. -/
structure Span where
  /-- Byte at which it starts. -/
  start : Nat
  /-- Byte at which it ends, exclusive. -/
  stop : Nat
  /-- Line of the start, counted from one. -/
  line : Nat
  /-- Column of the start, counted from one. -/
  column : Nat
deriving DecidableEq

namespace Span

/-- The stretch between two places. -/
def between (first last : Position) : Span := ⟨first.offset, last.offset, first.line, first.column⟩

/-- Length in bytes. -/
def size (span : Span) : Nat := span.stop - span.start

/-- Whether nothing is covered. -/
def isEmpty (span : Span) : Bool := span.start == span.stop

/-- The characters covered in `source`, none if the ends do not fall between its characters. -/
def text (span : Span) (source : List Char) : List Char :=
  ((dropBytes source span.start).bind fun rest => takeBytes rest span.size).getD []

/-- The line of `source` that has this span's line number. -/
def sourceLine (span : Span) (source : List Char) : List Char :=
  ((lines source)[span.line - 1]?).getD []

end Span

end JsPrune.Source
