import JsPrune.Binary64.Decimal

/-!
# Rounding to the nearest number

A finite number counts units of `2 ^ (shift - 1074)`: its magnitude packs a `shift` and a `count`
below `2 ^ 53`, and the count is not below `2 ^ 52` unless the shift is zero. Whatever lies within half
a unit of such a number is rounded to it (`Nearest.ofRatio_eq`). Just below a power of two the numbers
stand twice as close, so that on its lower side only a quarter of the unit is nearest to it.

Rounding depends on the quotient alone (`ofRatio_congr`), and the shortcuts that `ofDecimal` takes for
large and for small powers make no difference (`ofDecimal_eq`).
-/

namespace JsPrune.Binary64

theorem twoTo_pos (n : Nat) : 0 < twoTo n := Nat.two_pow_pos n

theorem twoTo_add (m n : Nat) : twoTo (m + n) = twoTo m * twoTo n := Nat.pow_add 2 m n

theorem tenTo_pos (n : Nat) : 0 < tenTo n := Nat.pow_pos (by omega)

theorem tenTo_add (m n : Nat) : tenTo (m + n) = tenTo m * tenTo n := Nat.pow_add 10 m n

theorem tenTo_le {m n : Nat} (h : m ≤ n) : tenTo m ≤ tenTo n := Nat.pow_le_pow_right (by omega) h

theorem twoTo_le_tenTo (n : Nat) : twoTo n ≤ tenTo n := Nat.pow_le_pow_left (by omega) n

theorem le_log2_of_twoTo_le {n value : Nat} (h : twoTo n ≤ value) : n ≤ value.log2 :=
  (Nat.le_log2 (Nat.ne_of_gt (Nat.lt_of_lt_of_le (twoTo_pos n) h))).mpr h

/-! ## Rounding a quotient to a whole number -/

/-- The rounded quotient is off by half a unit at most. -/
theorem roundDiv_error (num : Nat) {den : Nat} (hden : 0 < den) :
    2 * num ≤ 2 * (roundDiv num den * den) + den ∧ 2 * (roundDiv num den * den) ≤ 2 * num + den := by
  have parts := Nat.div_add_mod num den
  have rest := Nat.mod_lt num hden
  rw [Nat.mul_comm] at parts
  unfold roundDiv
  dsimp only
  split
  · next hup =>
    rw [Bool.or_eq_true, decide_eq_true_iff, Bool.and_eq_true, beq_iff_eq] at hup
    rw [Nat.add_mul, Nat.one_mul]
    omega
  · next hdown =>
    rw [Bool.or_eq_true, decide_eq_true_iff, not_or] at hdown
    omega

/-- A quotient within half a unit of a whole number is rounded to it. -/
theorem roundDiv_eq {num den count : Nat} (below : 2 * (count * den) < 2 * num + den)
    (above : 2 * num < 2 * (count * den) + den) : roundDiv num den = count := by
  obtain ⟨high, low⟩ := roundDiv_error num (show 0 < den by omega)
  have le : roundDiv num den < count + 1 := by
    apply Nat.lt_of_mul_lt_mul_right (a := den)
    rw [Nat.add_mul, Nat.one_mul]
    omega
  have ge : count < roundDiv num den + 1 := by
    apply Nat.lt_of_mul_lt_mul_right (a := den)
    rw [Nat.add_mul, Nat.one_mul]
    omega
  omega

theorem roundDiv_mul_right (num den : Nat) {k : Nat} (hk : 0 < k) :
    roundDiv (num * k) (den * k) = roundDiv num den := by
  have more : den * k < 2 * (num % den * k) ↔ den < 2 * (num % den) := by
    rw [← Nat.mul_assoc, Nat.mul_lt_mul_right hk]
  have half : (2 * (num % den * k) == den * k) = (2 * (num % den) == den) := by
    rw [← Nat.mul_assoc, Bool.beq_eq_decide_eq, Bool.beq_eq_decide_eq]
    exact decide_eq_decide.mpr (Nat.mul_right_cancel_iff hk)
  rw [roundDiv, Nat.mul_div_mul_right _ _ hk, Nat.mul_mod_mul_right]
  simp only [more, half, roundDiv]

/-! ## Rounding a ratio -/

theorem toNat_bits_ofNat {bits : Nat} (h : bits ≤ infinityBits) : (ofNat bits).bits.toNat = bits := by
  have small : infinityBits < 2 ^ 64 := by decide
  exact UInt64.toNat_ofNat_of_lt' (Nat.lt_of_le_of_lt h small)

/-- What rounding gives has no sign and is a number or infinity. -/
theorem toNat_bits_ofRatio_le (num den : Nat) : (ofRatio num den).bits.toNat ≤ infinityBits := by
  rw [ofRatio, toNat_bits_ofNat (Nat.min_le_left ..)]
  exact Nat.min_le_left ..

theorem ofRatio_mul_right (num den : Nat) {k : Nat} (hk : 0 < k) :
    ofRatio (num * k) (den * k) = ofRatio num den := by
  have units : num * k * twoTo 1074 = num * twoTo 1074 * k := Nat.mul_right_comm ..
  have unit (n : Nat) : den * k * twoTo n = den * twoTo n * k := Nat.mul_right_comm ..
  rw [ofRatio, ofRatio, units, unit, Nat.mul_div_mul_right _ _ hk, roundDiv_mul_right _ _ hk]

/-- Equal quotients are rounded to the same number. -/
theorem ofRatio_congr {num den num' den' : Nat} (hden : 0 < den) (hden' : 0 < den')
    (h : num * den' = num' * den) : ofRatio num den = ofRatio num' den' := by
  rw [← ofRatio_mul_right num den hden', h, Nat.mul_comm den, ofRatio_mul_right num' den' hden]

/-- The shift that `ofRatio` settles on: the least that leaves fewer than `2 ^ 53` units. -/
theorem shift_eq {units den shift : Nat} (high : units < twoTo 53 * (den * twoTo shift))
    (low : shift = 0 ∨ twoTo 52 * (den * twoTo shift) ≤ units) :
    Nat.log2 (units / den) - 52 = shift := by
  have hden : 0 < den := by
    rw [Nat.pos_iff_ne_zero]
    rintro rfl
    rw [Nat.zero_mul, Nat.mul_zero] at high
    cases high
  have split (n : Nat) : twoTo n * (den * twoTo shift) = twoTo (n + shift) * den := by
    rw [twoTo_add, Nat.mul_comm den, Nat.mul_assoc]
  rw [split, ← Nat.div_lt_iff_lt_mul hden] at high
  rw [split, ← Nat.le_div_iff_mul_le hden] at low
  have upper : Nat.log2 (units / den) < 53 + shift := by
    by_cases none : units / den = 0
    · rw [none, Nat.log2_zero]
      omega
    · exact (Nat.log2_lt none).mpr high
  rcases low with rfl | low
  · omega
  · have lower := le_log2_of_twoTo_le low
    omega

/-- Where the units and the shift are known, so is the number. -/
theorem ofRatio_of_shift {num den shift count : Nat}
    (high : num * twoTo 1074 < twoTo 53 * (den * twoTo shift))
    (low : shift = 0 ∨ twoTo 52 * (den * twoTo shift) ≤ num * twoTo 1074)
    (below : 2 * (count * (den * twoTo shift)) < 2 * (num * twoTo 1074) + den * twoTo shift)
    (above : 2 * (num * twoTo 1074) < 2 * (count * (den * twoTo shift)) + den * twoTo shift) :
    ofRatio num den = ofNat (min infinityBits (shift * twoTo 52 + count)) := by
  rw [ofRatio, shift_eq high low, roundDiv_eq below above]

/-! ## What is nearest to a number -/

/-- The unit in which a number counts is two to this power, over `2 ^ 1074`. -/
def shift (x : Binary64) : Nat := x.magnitude / twoTo 52 - 1

/-- How many units a number counts. -/
def count (x : Binary64) : Nat := x.magnitude - x.shift * twoTo 52

theorem magnitude_eq (x : Binary64) : x.shift * twoTo 52 + x.count = x.magnitude := by
  have parts := Nat.div_mul_le_self x.magnitude (twoTo 52)
  have fewer : x.shift * twoTo 52 ≤ x.magnitude / twoTo 52 * twoTo 52 :=
    Nat.mul_le_mul_right _ (Nat.sub_le ..)
  rw [count]
  omega

theorem count_lt (x : Binary64) : x.count < twoTo 53 := by
  have parts := Nat.div_add_mod' x.magnitude (twoTo 52)
  have rest := Nat.mod_lt x.magnitude (twoTo_pos 52)
  have double : twoTo 53 = 2 * twoTo 52 := rfl
  rw [count, shift]
  cases field : x.magnitude / twoTo 52 with
  | zero =>
    rw [field] at parts
    omega
  | succ n =>
    rw [field, Nat.add_mul] at parts
    rw [Nat.add_sub_cancel]
    omega

theorem le_count {x : Binary64} (h : 0 < x.shift) : twoTo 52 ≤ x.count := by
  have parts := Nat.div_add_mod' x.magnitude (twoTo 52)
  rw [shift] at h
  obtain ⟨n, field⟩ : ∃ n, x.magnitude / twoTo 52 = n + 1 :=
    ⟨x.magnitude / twoTo 52 - 1, by omega⟩
  rw [field, Nat.add_mul] at parts
  rw [count, shift, field, Nat.add_sub_cancel]
  omega

/-- The ratio is nearer to the magnitude of `x` than to any other. Below a power of two that is
measured in the unit of the numbers there. -/
structure Nearest (x : Binary64) (num den : Nat) : Prop where
  /-- Not half a unit below `x`. -/
  below : 2 * (x.count * (den * twoTo x.shift)) < 2 * (num * twoTo 1074) + den * twoTo x.shift
  /-- Not half a unit above `x`. -/
  above : 2 * (num * twoTo 1074) < 2 * (x.count * (den * twoTo x.shift)) + den * twoTo x.shift
  /-- Not a quarter of a unit below a power of two. -/
  carry : x.count = twoTo 52 → 0 < x.shift →
    4 * (x.count * (den * twoTo x.shift)) < 4 * (num * twoTo 1074) + den * twoTo x.shift

/-- From just below a power of two the shift is one less, and the count is rounded up to `2 ^ 53`. -/
theorem Nearest.ofRatio_eq_carry {x : Binary64} {num den : Nat} (h : x.Nearest num den)
    (hshift : 0 < x.shift) (short : num * twoTo 1074 < twoTo 52 * (den * twoTo x.shift)) :
    ofRatio num den = ofNat (min infinityBits x.magnitude) := by
  obtain ⟨below, _, carry⟩ := h
  have least : x.count = twoTo 52 := by
    have few : x.count < twoTo 52 + 1 := by
      apply Nat.lt_of_mul_lt_mul_right (a := den * twoTo x.shift)
      rw [Nat.succ_mul]
      omega
    have many := le_count hshift
    omega
  have quarter := carry least hshift
  obtain ⟨shift, succ⟩ : ∃ shift, x.shift = 1 + shift := ⟨x.shift - 1, by omega⟩
  have unit : den * twoTo x.shift = 2 * (den * twoTo shift) := by
    rw [succ, twoTo_add, Nat.mul_left_comm]
  have power : twoTo 52 * (den * twoTo x.shift) = 2 * (twoTo 52 * (den * twoTo shift)) := by
    rw [unit, Nat.mul_left_comm]
  have carried : twoTo 53 * (den * twoTo shift) = 2 * (twoTo 52 * (den * twoTo shift)) :=
    Nat.mul_assoc 2 (twoTo 52) _
  have some := Nat.le_mul_of_pos_left (den * twoTo shift) (twoTo_pos 52)
  rw [least, power, unit] at quarter
  rw [power] at short
  have bits : shift * twoTo 52 + twoTo 53 = x.magnitude := by
    rw [← magnitude_eq, succ, least, Nat.add_mul, Nat.one_mul, show twoTo 53 = 2 * twoTo 52 from rfl]
    omega
  rw [← bits]
  exact ofRatio_of_shift (by omega) (.inr (by omega)) (by omega) (by omega)

/-- What is nearest to a number is rounded to it. -/
theorem Nearest.ofRatio_eq {x : Binary64} {num den : Nat} (h : x.Nearest num den)
    (hnan : x.isNaN = false) : ofRatio num den = x.abs := by
  have bound : x.magnitude ≤ infinityBits := Nat.not_lt.mp (decide_eq_false_iff_not.mp hnan)
  rw [abs, ← Nat.min_eq_right bound]
  by_cases low : x.shift = 0 ∨ twoTo 52 * (den * twoTo x.shift) ≤ num * twoTo 1074
  · obtain ⟨below, above, _⟩ := h
    have high : num * twoTo 1074 < twoTo 53 * (den * twoTo x.shift) := by
      have few := Nat.mul_le_mul_right (den * twoTo x.shift) (Nat.succ_le_of_lt x.count_lt)
      rw [Nat.succ_mul] at few
      omega
    rw [← magnitude_eq]
    exact ofRatio_of_shift high low below above
  · rw [not_or, Nat.not_le] at low
    exact h.ofRatio_eq_carry (Nat.pos_of_ne_zero low.1) low.2

/-! ## What a number stands for -/

theorem ratio_den_pos (x : Binary64) : 0 < x.ratio.2 := by
  unfold ratio
  dsimp only
  split
  · dsimp only
    exact twoTo_pos 1074
  · split
    · exact Nat.one_pos
    · exact twoTo_pos _

/-- A number is as many units as it counts. -/
theorem ratio_eq (x : Binary64) :
    x.ratio.1 * twoTo 1074 = x.count * (x.ratio.2 * twoTo x.shift) := by
  have parts := x.magnitude_eq
  have fields := Nat.div_add_mod' x.magnitude (twoTo 52)
  rw [shift] at parts
  -- Only a number with an exponent field has a hidden unit. Its power of two stands above or below
  -- the line.
  unfold ratio
  dsimp only
  split
  · next field =>
    rw [field, Nat.zero_sub, Nat.zero_mul, Nat.zero_add] at parts
    rw [field, Nat.zero_mul, Nat.zero_add] at fields
    dsimp only
    rw [shift, field, Nat.zero_sub, fields, parts, show twoTo 0 = 1 from rfl, Nat.mul_one]
  · next field =>
    have all : twoTo 52 + x.magnitude % twoTo 52 = x.count := by
      obtain ⟨n, hn⟩ := Nat.exists_eq_succ_of_ne_zero field
      rw [hn, Nat.succ_mul] at fields
      rw [hn, Nat.succ_sub_one] at parts
      omega
    rw [all]
    split
    · next large =>
      have power : x.magnitude / twoTo 52 - 1075 + 1074 = x.shift := by
        rw [shift]
        omega
      dsimp only
      rw [Nat.mul_assoc, ← twoTo_add, Nat.one_mul, power]
    · next small =>
      have power : 1075 - x.magnitude / twoTo 52 + x.shift = 1074 :=
        Nat.sub_add_sub_cancel (Nat.le_of_not_le small) (Nat.pos_of_ne_zero field)
      dsimp only
      rw [← twoTo_add, power]

/-! ## Decimals -/

/-- No finite number is nearer than infinity. -/
theorem ofRatio_eq_infinity {num den : Nat} (hden : 0 < den) (h : twoTo 1024 * den ≤ num) :
    ofRatio num den = infinity := by
  have units : twoTo (1024 + 1074) ≤ num * twoTo 1074 / den := by
    rw [Nat.le_div_iff_mul_le hden, twoTo_add, Nat.mul_right_comm]
    exact Nat.mul_le_mul_right _ h
  have some : num * twoTo 1074 / den ≠ 0 :=
    Nat.ne_of_gt (Nat.lt_of_lt_of_le (twoTo_pos _) units)
  have log := le_log2_of_twoTo_le units
  obtain ⟨shift, hshift⟩ : ∃ shift, (num * twoTo 1074 / den).log2 = 52 + shift :=
    ⟨(num * twoTo 1074 / den).log2 - 52, by omega⟩
  have unit : 0 < den * twoTo shift := Nat.mul_pos hden (twoTo_pos shift)
  have many : twoTo 52 * (den * twoTo shift) ≤ num * twoTo 1074 := by
    rw [Nat.mul_left_comm, ← twoTo_add, ← hshift, Nat.mul_comm, ← Nat.le_div_iff_mul_le hden]
    exact Nat.log2_self_le some
  have count : twoTo 52 < roundDiv (num * twoTo 1074) (den * twoTo shift) + 1 := by
    have error := (roundDiv_error (num * twoTo 1074) unit).1
    apply Nat.lt_of_mul_lt_mul_right (a := den * twoTo shift)
    rw [Nat.add_mul, Nat.one_mul]
    omega
  have full : infinityBits ≤ shift * twoTo 52 + roundDiv (num * twoTo 1074) (den * twoTo shift) := by
    have high : 2046 * twoTo 52 ≤ shift * twoTo 52 := Nat.mul_le_mul_right _ (by omega)
    rw [infinityBits, Nat.succ_mul]
    omega
  rw [ofRatio, hshift, Nat.add_sub_cancel_left, Nat.min_eq_left full, infinity]

/-- Less than half of the smallest number is nearest to zero. -/
theorem ofRatio_eq_zero {num den : Nat} (h : 2 * (num * twoTo 1074) < den) :
    ofRatio num den = zero := by
  have shift : zero.shift = 0 := by decide
  have count : zero.count = 0 := by decide
  have nearest : zero.Nearest num den := by
    constructor
    · rw [count, shift, show twoTo 0 = 1 from rfl]
      omega
    · rw [count, shift, show twoTo 0 = 1 from rfl]
      omega
    · rw [shift]
      nofun
  exact nearest.ofRatio_eq (by decide)

/-- The shortcuts of `ofDecimal` give what rounding would. -/
theorem ofDecimal_eq (digits : Nat) (exponent : Int) : ofDecimal digits exponent
    = ofRatio (digits * tenTo exponent.toNat) (tenTo (-exponent).toNat) := by
  unfold ofDecimal
  split
  · next none =>
    refine (ofRatio_eq_zero ?_).symm
    rw [none, Nat.zero_mul, Nat.zero_mul]
    exact tenTo_pos _
  · next some =>
    -- A power of ten multiplies on one side of the ratio or on the other.
    cases exponent with
    | ofNat power =>
      have up : (Int.ofNat power).toNat = power := rfl
      have down : (-Int.ofNat power).toNat = 0 := Int.toNat_neg_natCast power
      have one : tenTo 0 = 1 := rfl
      rw [up, down, one]
      dsimp only
      split
      · next large =>
        refine (ofRatio_eq_infinity Nat.one_pos ?_).symm
        calc twoTo 1024 * 1
            ≤ tenTo 400 := by decide +kernel
          _ ≤ tenTo power := tenTo_le (Nat.le_of_lt large)
          _ ≤ digits * tenTo power := Nat.le_mul_of_pos_left _ (Nat.pos_of_ne_zero some)
      · rfl
    | negSucc power =>
      have up : (Int.negSucc power).toNat = 0 := rfl
      have down : (-Int.negSucc power).toNat = power + 1 := rfl
      have one : tenTo 0 = 1 := rfl
      rw [up, down, one, Nat.mul_one]
      dsimp only
      split
      · next small =>
        refine (ofRatio_eq_zero ?_).symm
        calc 2 * (digits * twoTo 1074)
            < 2 * (twoTo (digits.log2 + 1) * twoTo 1074) := by
              apply Nat.mul_lt_mul_of_pos_left _ Nat.two_pos
              exact Nat.mul_lt_mul_of_pos_right Nat.lt_log2_self (twoTo_pos 1074)
          _ = twoTo digits.log2 * (2 * 2 * twoTo 1074) := by
              rw [twoTo_add, show twoTo 1 = 2 from rfl, Nat.mul_assoc, Nat.mul_left_comm, Nat.mul_assoc]
          _ ≤ tenTo digits.log2 * tenTo 401 :=
              Nat.mul_le_mul (twoTo_le_tenTo _) (by decide +kernel)
          _ = tenTo (digits.log2 + 401) := (tenTo_add ..).symm
          _ ≤ tenTo (power + 1) := tenTo_le (by omega)
      · rfl

end JsPrune.Binary64
