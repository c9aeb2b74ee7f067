/-!
# Binary floating point numbers of 64 bits

A number literal denotes a `Binary64`, held as its bits: one for the sign, eleven for the exponent,
fifty-two for the fraction. Everything about it is computed exactly on natural numbers. A finite
number is the ratio of two naturals (`ratio`), and `ofRatio` rounds a ratio to the nearest number,
an exact half going to the even neighbour. Arithmetic is the exact result, rounded once.

Two notions of equality are kept apart: `=` on the bits, and `sameValue`, by which the two zeros
agree and a NaN differs from itself.
-/

namespace JsPrune

/-- Two to a power. -/
abbrev twoTo (exponent : Nat) : Nat := Nat.pow 2 exponent

/-- Ten to a power. -/
abbrev tenTo (exponent : Nat) : Nat := Nat.pow 10 exponent

/-- A floating point number, as its 64 bits. -/
structure Binary64 where
  /-- Sign, exponent and fraction. -/
  bits : UInt64
deriving DecidableEq

namespace Binary64

/-- The number whose magnitude has these bits. -/
def ofNat (bits : Nat) : Binary64 := ⟨UInt64.ofNat bits⟩

/-- Positive zero. -/
def zero : Binary64 := ofNat 0

/-- Bits of positive infinity. -/
def infinityBits : Nat := 2047 * twoTo 52

/-- Positive infinity. -/
def infinity : Binary64 := ofNat infinityBits

/-- Whether the sign bit is set. -/
def isNegative (x : Binary64) : Bool := twoTo 63 ≤ x.bits.toNat

/-- The bits without the sign. -/
def magnitude (x : Binary64) : Nat := x.bits.toNat % twoTo 63

/-- Whether this is no number. -/
def isNaN (x : Binary64) : Bool := infinityBits < x.magnitude

/-- Whether this is one of the infinities. -/
def isInfinite (x : Binary64) : Bool := x.magnitude == infinityBits

/-- Whether this is one of the zeros. -/
def isZero (x : Binary64) : Bool := x.magnitude == 0

/-- The same magnitude without a sign. -/
def abs (x : Binary64) : Binary64 := ofNat x.magnitude

/-- The same magnitude with the sign bit set. -/
def negative (x : Binary64) : Binary64 := ofNat (twoTo 63 + x.magnitude)

/-- Numeric equality: the zeros agree, and a NaN agrees with nothing. -/
def sameValue (x y : Binary64) : Bool :=
  !x.isNaN && !y.isNaN && (x.bits == y.bits || (x.isZero && y.isZero))

/-- Whether the number is at least zero; the negative zero is. -/
def isAtLeastZero (x : Binary64) : Bool := !x.isNaN && (x.isZero || !x.isNegative)

/-- Numerator and denominator of the magnitude of a finite number. With exponent field `e` and
fraction `f` that is `f · 2 ^ (-1074)` for `e = 0` and `(2 ^ 52 + f) · 2 ^ (e - 1075)` otherwise. -/
def ratio (x : Binary64) : Nat × Nat :=
  let field := x.magnitude / twoTo 52
  let fraction := x.magnitude % twoTo 52
  if field = 0 then (fraction, twoTo 1074)
  else if 1075 ≤ field then ((twoTo 52 + fraction) * twoTo (field - 1075), 1)
  else (twoTo 52 + fraction, twoTo (1075 - field))

/-- The quotient rounded to the nearest natural number, a half to the even one. -/
def roundDiv (num den : Nat) : Nat :=
  let floor := num / den
  let rest := num % den
  if den < 2 * rest || (2 * rest == den && floor % 2 == 1) then floor + 1 else floor

/-- The number nearest to `num / den`, a half to the neighbour with even fraction. Ratios too large
for a finite number give infinity.

The ratio is measured in units of `2 ^ (shift - 1074)`, where `shift` is the least for which fewer
than `2 ^ 53` units remain. Adding the rounded count to `shift · 2 ^ 52` packs exponent and fraction
at once, and a count that rounds up to `2 ^ 53` carries into the exponent by itself. -/
def ofRatio (num den : Nat) : Binary64 :=
  let units := num * twoTo 1074
  let shift := Nat.log2 (units / den) - 52
  ofNat (min infinityBits (shift * twoTo 52 + roundDiv units (den * twoTo shift)))

/-- The product of two finite magnitudes. -/
def mulAbs (x y : Binary64) : Binary64 :=
  let (a, b) := x.ratio
  let (c, d) := y.ratio
  ofRatio (a * c) (b * d)

/-- The quotient of two finite magnitudes, the second not zero. -/
def divAbs (x y : Binary64) : Binary64 :=
  let (a, b) := x.ratio
  let (c, d) := y.ratio
  ofRatio (a * d) (b * c)

end Binary64

end JsPrune
