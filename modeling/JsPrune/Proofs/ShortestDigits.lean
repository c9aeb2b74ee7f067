import JsPrune.Proofs.Rounding

/-!
# The digits found for a number

`shortest` looks at ever finer decimals around a number until one of them is rounded back to it. It
always finds one. The search starts with a power of ten that is not above the number
(`inUnits_leadingExponent_le`), and sixteen places further on the decimals lie closer than the numbers
do: of the two around a number at least one is nearest to it (`nearest_multiple`).

Main result: `ofDecimal_search`. The decimal found is rounded to the number it was found for.
-/

namespace JsPrune.Binary64

open JsPrune.Text

/-! ## Units of a power of ten -/

theorem inUnits_eq (num den : Nat) (exponent : Int) :
    inUnits num den exponent = (num * tenTo (-exponent).toNat, den * tenTo exponent.toNat) := by
  cases exponent with
  | ofNat power =>
    have down : (-Int.ofNat power).toNat = 0 := Int.toNat_neg_natCast power
    rw [down, show tenTo 0 = 1 from rfl, Nat.mul_one]
    rfl
  | negSucc power =>
    have up : (Int.negSucc power).toNat = 0 := rfl
    rw [up, show tenTo 0 = 1 from rfl, Nat.mul_one]
    rfl

/-- A unit `count` places further up holds `10 ^ count` of these. -/
theorem tenTo_shift (exponent : Int) (count : Nat) :
    tenTo exponent.toNat * tenTo count * tenTo (-(exponent + count)).toNat
      = tenTo (exponent + count).toNat * tenTo (-exponent).toNat := by
  rw [← tenTo_add, ← tenTo_add, ← tenTo_add]
  congr 1
  omega

/-- Zeros at the end of the digits only move the point. -/
theorem ofDecimal_mul_tenTo (digits count : Nat) (exponent : Int) :
    ofDecimal (digits * tenTo count) exponent = ofDecimal digits (exponent + count) := by
  rw [ofDecimal_eq, ofDecimal_eq]
  apply ofRatio_congr (tenTo_pos _) (tenTo_pos _)
  rw [Nat.mul_assoc digits, Nat.mul_assoc digits, Nat.mul_assoc digits, ← tenTo_shift exponent count,
    Nat.mul_comm (tenTo count)]

theorem length_toDigits_bounds {n : Nat} (h : 0 < n) :
    tenTo ((Nat.toDigits 10 n).length - 1) ≤ n ∧ n < tenTo (Nat.toDigits 10 n).length := by
  have some := Nat.length_toDigits_pos (b := 10) (n := n)
  refine ⟨?_, (Nat.length_toDigits_le_iff (by omega) some).mp (Nat.le_refl _)⟩
  rw [← Nat.not_lt]
  intro short
  by_cases single : (Nat.toDigits 10 n).length - 1 = 0
  · rw [single, show tenTo 0 = 1 from rfl] at short
    omega
  · have fewer := (Nat.length_toDigits_le_iff (by omega) (Nat.pos_of_ne_zero single)).mpr short
    omega

/-- The search starts with a unit that is not more than the number. -/
theorem inUnits_leadingExponent_le {num den : Nat} (hnum : 0 < num) (hden : 0 < den) :
    (inUnits num den (leadingExponent num den)).2 ≤ (inUnits num den (leadingExponent num den)).1 := by
  unfold leadingExponent
  dsimp only
  split
  · assumption
  · rw [inUnits_eq]
    have low := (length_toDigits_bounds hnum).1
    have high := (length_toDigits_bounds hden).2
    have some := Nat.length_toDigits_pos (b := 10) (n := num)
    generalize (Nat.toDigits 10 num).length = digits at *
    generalize (Nat.toDigits 10 den).length = places at *
    dsimp only
    calc den * tenTo (Int.ofNat digits - Int.ofNat places - 1).toNat
        ≤ tenTo places * tenTo (Int.ofNat digits - Int.ofNat places - 1).toNat :=
          Nat.mul_le_mul_right _ (Nat.le_of_lt high)
      _ = tenTo (digits - 1) * tenTo (-(Int.ofNat digits - Int.ofNat places - 1)).toNat := by
          rw [← tenTo_add, ← tenTo_add, Int.ofNat_eq_natCast, Int.ofNat_eq_natCast]
          congr 1
          omega
      _ ≤ num * tenTo (-(Int.ofNat digits - Int.ofNat places - 1)).toNat :=
          Nat.mul_le_mul_right _ low

/-- Further down there are ever more units to the number. -/
theorem inUnits_sub {num den : Nat} {exponent : Int} (count : Nat)
    (h : (inUnits num den exponent).2 ≤ (inUnits num den exponent).1) :
    tenTo count * (inUnits num den (exponent - count)).2 ≤ (inUnits num den (exponent - count)).1 := by
  have shift := tenTo_shift (exponent - count) count
  rw [Int.sub_add_cancel] at shift
  rw [inUnits_eq] at h ⊢
  dsimp only at h ⊢
  apply Nat.le_of_mul_le_mul_right _ (tenTo_pos (-exponent).toNat)
  calc tenTo count * (den * tenTo (exponent - count).toNat) * tenTo (-exponent).toNat
      = den * (tenTo (exponent - count).toNat * tenTo count * tenTo (-exponent).toNat) := by
        ac_rfl
    _ = den * tenTo exponent.toNat * tenTo (-(exponent - count)).toNat := by
        rw [shift, Nat.mul_assoc]
    _ ≤ num * tenTo (-exponent).toNat * tenTo (-(exponent - count)).toNat :=
        Nat.mul_le_mul_right _ h
    _ = num * tenTo (-(exponent - count)).toNat * tenTo (-exponent).toNat := Nat.mul_right_comm ..

/-! ## The two decimals around a number -/

/-- Two ways to measure one number, `num / den` and so many units of a given scale. -/
theorem mul_le_iff_of_ratio {num den scale units unit : Nat} (hden : 0 < den) (hscale : 0 < scale)
    (h : num * scale = units * (den * unit)) (count up down : Nat) :
    count * (den * up) ≤ num * down ↔ count * up * scale ≤ units * (down * unit) := by
  have left : den * (count * up * scale) = count * (den * up) * scale := by ac_rfl
  have right : den * (units * (down * unit)) = num * down * scale := by
    rw [Nat.mul_right_comm num, h]
    ac_rfl
  rw [← Nat.mul_le_mul_left_iff hden (n := count * up * scale), left, right,
    Nat.mul_le_mul_right_iff hscale]

/-- Where the decimals lie closer than the numbers, one of the two around a number is nearest to it. -/
theorem nearest_or_nearest {x : Binary64} {low unit den : Nat}
    (below : low * unit * twoTo 1074 ≤ x.count * (den * twoTo x.shift))
    (above : x.count * (den * twoTo x.shift) < (low + 1) * unit * twoTo 1074)
    (fine : tenTo 16 * unit * twoTo 1074 ≤ x.count * (den * twoTo x.shift)) :
    x.Nearest (low * unit) den ∨ x.Nearest ((low + 1) * unit) den := by
  have few := Nat.mul_le_mul_right (den * twoTo x.shift) (Nat.succ_le_of_lt x.count_lt)
  have next : (low + 1) * unit * twoTo 1074 = low * unit * twoTo 1074 + unit * twoTo 1074 := by
    rw [Nat.add_mul, Nat.one_mul, Nat.add_mul]
  rw [next] at above
  rw [Nat.mul_assoc, show tenTo 16 = 10000000000000000 from rfl] at fine
  rw [Nat.succ_mul, show twoTo 53 = 9007199254740992 from rfl] at few
  by_cases least : x.count = twoTo 52
  · -- A power of two has only a quarter of its unit below it, but half of one above.
    have whole : x.count * (den * twoTo x.shift) = 4503599627370496 * (den * twoTo x.shift) :=
      congrArg (· * (den * twoTo x.shift)) least
    by_cases near : 4 * (x.count * (den * twoTo x.shift))
        < 4 * (low * unit * twoTo 1074) + den * twoTo x.shift
    · exact .inl ⟨by omega, by omega, fun _ _ => near⟩
    · exact .inr ⟨by omega, by omega, fun _ _ => by omega⟩
  · by_cases near : 2 * (x.count * (den * twoTo x.shift))
        < 2 * (low * unit * twoTo 1074) + den * twoTo x.shift
    · exact .inl ⟨near, by omega, fun h => absurd h least⟩
    · exact .inr ⟨by omega, by omega, fun h => absurd h least⟩

/-- Sixteen places below a power of ten that is not above the number, the decimals lie close enough. -/
theorem nearest_multiple {x : Binary64} {num den : Nat} {exponent : Int}
    (hunits : inUnits x.ratio.1 x.ratio.2 exponent = (num, den)) (fine : tenTo 16 * den ≤ num) :
    x.Nearest (num / den * tenTo exponent.toNat) (tenTo (-exponent).toNat) ∨
      x.Nearest ((num / den + 1) * tenTo exponent.toNat) (tenTo (-exponent).toNat) := by
  rw [inUnits_eq] at hunits
  obtain ⟨rfl, rfl⟩ := Prod.mk.inj hunits
  have hden := Nat.mul_pos x.ratio_den_pos (tenTo_pos exponent.toNat)
  have measure (count : Nat) := mul_le_iff_of_ratio x.ratio_den_pos (twoTo_pos 1074) x.ratio_eq count
    (tenTo exponent.toNat) (tenTo (-exponent).toNat)
  refine nearest_or_nearest ((measure _).mp (Nat.div_mul_le_self ..)) ?_ ((measure _).mp fine)
  rw [← Nat.not_le, ← measure, Nat.not_le]
  exact Nat.lt_of_lt_of_eq (Nat.lt_mul_div_succ _ hden) (Nat.mul_comm ..)

/-- What is nearest to a number is read as it. -/
theorem ofDecimal_of_nearest {x : Binary64} {multiple : Nat} {exponent : Int}
    (hnan : x.isNaN = false)
    (h : x.Nearest (multiple * tenTo exponent.toNat) (tenTo (-exponent).toNat)) :
    ofDecimal multiple exponent = x.abs := by
  rw [ofDecimal_eq, h.ofRatio_eq hnan]

/-! ## The search -/

variable {tie : Tie} {x : Binary64} {exponent : Int}

/-- What is found at one unit is rounded to the number. -/
theorem ofDecimal_of_multipleAt? {multiple : Nat}
    (h : multipleAt? tie x exponent = some multiple) : ofDecimal multiple exponent = x := by
  unfold multipleAt? at h
  dsimp only at h
  split at h
  · cases h
  · next low _ =>
    cases h
    exact beq_iff_eq.mp low
  · next high =>
    cases h
    exact beq_iff_eq.mp high
  · next low high =>
    replace low := beq_iff_eq.mp low
    replace high := beq_iff_eq.mp high
    split at h
    · cases h
      exact low
    · split at h
      · cases h
        exact high
      · split at h
        · cases h
          exact high
        · cases h
          split <;> assumption

/-- Nothing is found at a unit only if both decimals are rounded elsewhere. -/
theorem multipleAt?_ne_none {num den : Nat} (hunits : inUnits x.ratio.1 x.ratio.2 exponent = (num, den))
    (h : ofDecimal (num / den) exponent = x ∨ ofDecimal (num / den + 1) exponent = x) :
    multipleAt? tie x exponent ≠ none := by
  unfold multipleAt?
  rw [hunits]
  dsimp only
  split
  · next low high =>
    rw [beq_eq_false_iff_ne] at low high
    rcases h with h | h
    · exact absurd h low
    · exact absurd h high
  · nofun
  · nofun
  · split
    · nofun
    · split
      · nofun
      · split <;> nofun

/-- The search ends with what it looks for, if that is there to be found. -/
theorem ofDecimal_firstMultiple {count : Nat}
    (h : ∃ step < count, multipleAt? tie x (exponent - step) ≠ none) :
    ofDecimal (firstMultiple tie x count exponent).1 (firstMultiple tie x count exponent).2 = x := by
  induction count generalizing exponent with
  | zero =>
    obtain ⟨_, hstep, _⟩ := h
    cases hstep
  | succ count ih =>
    rw [firstMultiple]
    split
    · next multiple found => exact ofDecimal_of_multipleAt? found
    · next none =>
      apply ih
      obtain ⟨step, hstep, found⟩ := h
      cases step with
      | zero =>
        rw [Int.natCast_zero, Int.sub_zero] at found
        exact absurd none found
      | succ step =>
        refine ⟨step, Nat.lt_of_succ_lt_succ hstep, ?_⟩
        rw [Int.sub_sub, Int.add_comm, ← Int.natCast_succ]
        exact found

/-! ## Seventeen digits suffice -/

theorem magnitude_abs (x : Binary64) : x.abs.magnitude = x.magnitude := by
  have small : x.magnitude < 2 ^ 63 := Nat.mod_lt _ (twoTo_pos 63)
  have bits : x.abs.bits.toNat = x.magnitude :=
    UInt64.toNat_ofNat_of_lt' (Nat.lt_trans small (by decide))
  rw [magnitude, bits]
  exact Nat.mod_eq_of_lt small

theorem abs_abs (x : Binary64) : x.abs.abs = x.abs := by
  rw [abs, magnitude_abs, abs]

theorem isNaN_abs (x : Binary64) : x.abs.isNaN = x.isNaN := by
  rw [isNaN, magnitude_abs, isNaN]

/-- Only zero stands for nothing. -/
theorem ratio_num_pos (hzero : x.isZero = false) : 0 < x.ratio.1 := by
  have packed := x.magnitude_eq
  have some : x.magnitude ≠ 0 := beq_eq_false_iff_ne.mp hzero
  rw [Nat.pos_iff_ne_zero]
  intro none
  have units := x.ratio_eq
  rw [none, Nat.zero_mul] at units
  have unit : 0 < x.ratio.2 * twoTo x.shift := Nat.mul_pos x.ratio_den_pos (twoTo_pos _)
  have count : x.count = 0 := (Nat.mul_eq_zero.mp units.symm).resolve_right (Nat.ne_of_gt unit)
  by_cases hshift : x.shift = 0
  · rw [hshift, count] at packed
    omega
  · have many := le_count (Nat.pos_of_ne_zero hshift)
    have := twoTo_pos 52
    omega

/-- At the seventeenth digit, if not before, a decimal is found. -/
theorem multipleAt?_leadingExponent (hnan : x.isNaN = false) (hsign : x.abs = x)
    (hzero : x.isZero = false) :
    multipleAt? tie x (leadingExponent x.ratio.1 x.ratio.2 - 16) ≠ none := by
  have start := inUnits_leadingExponent_le (ratio_num_pos hzero) x.ratio_den_pos
  apply multipleAt?_ne_none rfl
  rcases nearest_multiple rfl (inUnits_sub 16 start) with h | h
  · exact .inl ((ofDecimal_of_nearest hnan h).trans hsign)
  · exact .inr ((ofDecimal_of_nearest hnan h).trans hsign)

/-- The search of `shortest` finds a decimal that is rounded to the number. -/
theorem ofDecimal_search (tie : Tie) (hnan : x.isNaN = false) (hsign : x.abs = x) (hzero : x.isZero = false) :
    ofDecimal (firstMultiple tie x 17 (leadingExponent x.ratio.1 x.ratio.2)).1
      (firstMultiple tie x 17 (leadingExponent x.ratio.1 x.ratio.2)).2 = x :=
  ofDecimal_firstMultiple ⟨16, by omega, multipleAt?_leadingExponent hnan hsign hzero⟩

end JsPrune.Binary64
