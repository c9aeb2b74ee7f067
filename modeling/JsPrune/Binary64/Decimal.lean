import JsPrune.Binary64.Basic
import JsPrune.Text.Word

/-!
# Decimal forms of floating point numbers

Reading: `ofDecimal` gives the number nearest to `digits · 10 ^ exponent`, and `readDecimal?` reads
the usual spelling with an optional fraction and exponent.

Writing: `shortest` finds the fewest digits that read back as the same number and, among those, the
ones nearest to it. For one digit, two digits and so on it looks at the two decimals of that many
digits around the number; the first count with a decimal that reads back wins. Where both read back
and lie equally near, a `Tie` decides. `positional` and `scientific` lay the digits out.
-/

namespace JsPrune.Binary64

open JsPrune.Text

/-- The number nearest to `digits · 10 ^ exponent`. Beyond `10 ^ 400` and below `10 ^ (-400)` the
answer is known without the power. -/
def ofDecimal (digits : Nat) (exponent : Int) : Binary64 :=
  if digits = 0 then zero
  else match exponent with
    | .ofNat power => if 400 < power then infinity else ofRatio (digits * tenTo power) 1
    | .negSucc power =>
      if 400 + digits.log2 < power then zero else ofRatio digits (tenTo (power + 1))

/-- The exponent part of a decimal: nothing, or `e` with an optional sign and at least one digit. -/
def readExponent? : List Char → Option Int
  | [] => some 0
  | mark :: rest =>
    if mark != 'e' && mark != 'E' then none
    else
      let (sign, digits) := match rest with
        | '+' :: digits => ((1 : Int), digits)
        | '-' :: digits => ((-1 : Int), digits)
        | digits => ((1 : Int), digits)
      if digits.isEmpty || !digits.all isDigit then none
      else some (sign * Int.ofNat (ofDigits digits))

/-- Reads digits with an optional point among or around them and an optional exponent. -/
def readUnsigned? (text : List Char) : Option Binary64 :=
  let whole := text.takeWhile isDigit
  let afterWhole := text.dropWhile isDigit
  let (fraction, rest) := match afterWhole with
    | '.' :: more => (more.takeWhile isDigit, more.dropWhile isDigit)
    | more => ([], more)
  if whole.isEmpty && fraction.isEmpty then none
  else (readExponent? rest).map fun exponent =>
    ofDecimal (ofDigits (whole ++ fraction)) (exponent - Int.ofNat fraction.length)

/-- Reads a decimal with an optional sign. -/
def readDecimal? : List Char → Option Binary64
  | '-' :: text => (readUnsigned? text).map negative
  | '+' :: text => readUnsigned? text
  | text => readUnsigned? text

/-- Which of two equally near decimals is written. -/
inductive Tie where
  /-- The larger one. -/
  | up
  /-- The one whose last digit is even. -/
  | even
deriving DecidableEq

/-- Digits behind a decimal point that is then moved `point` places to the right. -/
structure Digits where
  /-- The digits, without a zero at either end. -/
  text : List Char
  /-- How many places of the number stand before its point; not positive for small numbers. -/
  point : Int
deriving DecidableEq

/-- `num / den` in units of `10 ^ exponent`, as a ratio. -/
def inUnits (num den : Nat) : Int → Nat × Nat
  | .ofNat power => (num, den * tenTo power)
  | .negSucc power => (num * tenTo (power + 1), den)

/-- The largest exponent for which `10 ^ exponent` does not exceed `num / den`. -/
def leadingExponent (num den : Nat) : Int :=
  -- The digit counts fix the exponent up to one.
  let guess := Int.ofNat (Nat.toDigits 10 num).length - Int.ofNat (Nat.toDigits 10 den).length
  let (a, b) := inUnits num den guess
  if b ≤ a then guess else guess - 1

/-- The multiple of `10 ^ exponent` that reads back as `x`, if one of the two around it does. -/
def multipleAt? (tie : Tie) (x : Binary64) (exponent : Int) : Option Nat :=
  let (num, den) := inUnits x.ratio.1 x.ratio.2 exponent
  let low := num / den
  let rest := num % den
  match ofDecimal low exponent == x, ofDecimal (low + 1) exponent == x with
  | false, false => none
  | true, false => some low
  | false, true => some (low + 1)
  | true, true =>
    -- Both neighbours read back: the nearer one wins, and `tie` settles a draw.
    if 2 * rest < den then some low
    else if den < 2 * rest then some (low + 1)
    else match tie with
      | .up => some (low + 1)
      | .even => some (if low % 2 = 0 then low else low + 1)

/-- The first multiple that reads back, trying `count` ever finer units from `10 ^ exponent` on. -/
def firstMultiple (tie : Tie) (x : Binary64) : Nat → Int → Nat × Int
  | 0, exponent => (0, exponent)
  | count + 1, exponent =>
    match multipleAt? tie x exponent with
    | some multiple => (multiple, exponent)
    | none => firstMultiple tie x count (exponent - 1)

/-- The fewest digits that read back as the magnitude of a finite number, nearest first. Seventeen
digits always suffice. Zero has a single zero digit. -/
def shortest (tie : Tie) (x : Binary64) : Digits :=
  if x.isZero then ⟨['0'], 1⟩
  else
    let magnitude := x.abs
    let (num, den) := magnitude.ratio
    let (multiple, exponent) := firstMultiple tie magnitude 17 (leadingExponent num den)
    let digits := Nat.toDigits 10 multiple
    -- A carry can end the digits in zeros, which say nothing.
    ⟨(digits.reverse.dropWhile (· == '0')).reverse, Int.ofNat digits.length + exponent⟩

/-- The digits of `value` in base ten, without leading zeros. -/
def natText (value : Nat) : List Char := Nat.toDigits 10 value

/-- Whole part and fraction without an exponent; the fraction is empty for a whole number. -/
def Digits.places (digits : Digits) : List Char × List Char :=
  match digits.point with
  | .ofNat count =>
    if count = 0 then (['0'], digits.text)
    else if digits.text.length ≤ count then
      (digits.text ++ List.replicate (count - digits.text.length) '0', [])
    else (digits.text.take count, digits.text.drop count)
  | .negSucc count => (['0'], List.replicate (count + 1) '0' ++ digits.text)

/-- Positional notation; `pad` stands for the fraction of a whole number. -/
def Digits.positional (digits : Digits) (pad : List Char) : List Char :=
  let (whole, fraction) := digits.places
  whole ++ (if fraction.isEmpty then pad else '.' :: fraction)

/-- Scientific notation with one digit before the point; `mark` goes before an exponent that is not
negative. -/
def Digits.scientific (digits : Digits) (mark : List Char) : List Char :=
  let mantissa := match digits.text with
    | first :: second :: rest => first :: '.' :: second :: rest
    | short => short
  let power := match digits.point - 1 with
    | .ofNat exponent => mark ++ natText exponent
    | .negSucc exponent => '-' :: natText (exponent + 1)
  mantissa ++ 'e' :: power

end JsPrune.Binary64
