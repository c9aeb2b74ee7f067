/-!
# Sets of code points as sorted ranges

A character class of the Unicode standard is a table of inclusive ranges, sorted by their first
code point. `Ranges.contains` walks the table and stops at the first range that starts too late, so
the low code points, which are nearly all of a program's text, are settled within a step or two.
-/

namespace JsPrune.Text

/-- Inclusive ranges of code points, sorted by their first element. -/
abbrev Ranges := List (Nat × Nat)

/-- Whether `code` lies in one of the ranges of a sorted table. -/
def Ranges.contains : Ranges → Nat → Bool
  | [], _ => false
  | (first, last) :: rest, code =>
    if code < first then false
    else if code ≤ last then true
    else contains rest code

end JsPrune.Text
