import JsPrune.Proofs.Respacing
import JsPrune.Proofs.ShortestDigits

/-!
# Number literals and their values

A number is printed with the shortest digits that are rounded to it, laid out with a point or with an
exponent. Either layout is read as the same digits at the same place (`readUnsigned?_positional`,
`readUnsigned?_scientific`), so that a finite number without a sign is read back from its text
(`readUnsigned?_numberText`), and the text is one token (`spells_numberText`).

The lexer gives no other finite numbers: what it reads is rounded from a ratio, which has no sign and
is a number. It does give infinity, for a literal that is too large, and infinity is printed as a word.

Main result: `tokenize_numberText`. A literal survives printing, unless it is too large to be finite.
-/

namespace JsPrune

open JsPrune.Source JsPrune.Text

namespace Binary64

variable {tie : Tie} {x : Binary64}

/-! ## The value of digits -/

/-- Digits have the value that the standard library gives them. -/
theorem ofDigits_eq {text : List Char} (h : ∀ c ∈ text, isDigit c = true) :
    ofDigits text = Nat.ofDigitChars 10 text 0 := by
  have onward (value : Nat) : text.foldl (fun value c => value * 10 + hexValue c) value
      = Nat.ofDigitChars 10 text value := by
    induction text generalizing value with
    | nil => rfl
    | cons c rest ih =>
      have digit : hexValue c = c.toNat - '0'.toNat := by
        rw [hexValue, if_pos (h c (List.mem_cons_self ..))]
      rw [List.foldl_cons, Nat.ofDigitChars_cons, digit, Nat.mul_comm 10]
      exact ih (fun c hc => h c (List.mem_cons_of_mem _ hc)) _
  exact onward 0

theorem ofDigits_toDigits (n : Nat) : ofDigits (Nat.toDigits 10 n) = n := by
  rw [ofDigits_eq fun c hc => isDigit_of_toDigits hc, Nat.ofDigitChars_ten_toDigits]

theorem ofDigits_append_zeros {text : List Char} (h : ∀ c ∈ text, isDigit c = true) (count : Nat) :
    ofDigits (text ++ List.replicate count '0') = ofDigits text * tenTo count := by
  rw [ofDigits_eq (List.forall_mem_append.mpr ⟨h, isDigit_replicate count⟩), ofDigits_eq h,
    Nat.ofDigitChars_append, Nat.ofDigitChars_replicate_zero]
  exact Nat.mul_comm ..

theorem ofDigits_zeros_append {text : List Char} (h : ∀ c ∈ text, isDigit c = true) (count : Nat) :
    ofDigits (List.replicate count '0' ++ text) = ofDigits text := by
  rw [ofDigits_eq (List.forall_mem_append.mpr ⟨isDigit_replicate count, h⟩), ofDigits_eq h,
    Nat.ofDigitChars_append, Nat.ofDigitChars_replicate_zero, Nat.mul_zero]

/-- Digits are what is left of them without their last zeros, and so many zeros. -/
theorem exists_zeros (digits : List Char) : ∃ count,
    digits = (digits.reverse.dropWhile (· == '0')).reverse ++ List.replicate count '0' := by
  have zeros : ∀ c ∈ digits.reverse.takeWhile (· == '0'), c = '0' := by
    intro c hc
    have zero : (c == '0') = true := List.mem_takeWhile_imp (p := (· == '0')) hc
    exact beq_iff_eq.mp zero
  refine ⟨(digits.reverse.takeWhile (· == '0')).length, ?_⟩
  calc digits
      = (digits.reverse.takeWhile (· == '0') ++ digits.reverse.dropWhile (· == '0')).reverse := by
        rw [List.takeWhile_append_dropWhile, List.reverse_reverse]
    _ = _ := by
        rw [List.eq_replicate_of_mem zeros, List.length_replicate, List.reverse_append,
          List.reverse_replicate]

/-- The number that digits stand for. -/
def Digits.value (digits : Digits) : Binary64 :=
  ofDecimal (ofDigits digits.text) (digits.point - digits.text.length)

/-- The shortest digits stand for the magnitude they were found for. -/
theorem value_shortest (tie : Tie) (hnan : x.isNaN = false) : (x.shortest tie).value = x.abs := by
  have digits := isDigit_shortest tie x
  unfold shortest at digits ⊢
  split
  · next hzero =>
    rw [abs, beq_iff_eq.mp hzero]
    rfl
  · next hzero =>
    rw [if_neg hzero] at digits
    have found := ofDecimal_search tie (isNaN_abs x ▸ hnan) (abs_abs x)
      (by rw [isZero, magnitude_abs]; exact Bool.eq_false_iff.mpr hzero)
    dsimp only at digits ⊢
    generalize firstMultiple tie x.abs 17 (leadingExponent x.abs.ratio.1 x.abs.ratio.2) = decimal
      at found digits ⊢
    -- The zeros taken from the end of the digits come back as a higher exponent.
    obtain ⟨count, parts⟩ := exists_zeros (Nat.toDigits 10 decimal.1)
    generalize ((Nat.toDigits 10 decimal.1).reverse.dropWhile (· == '0')).reverse = text
      at digits parts ⊢
    have places := congrArg List.length parts
    have value := congrArg ofDigits parts
    rw [List.length_append, List.length_replicate] at places
    rw [ofDigits_toDigits, ofDigits_append_zeros digits] at value
    have point : Int.ofNat (Nat.toDigits 10 decimal.1).length + decimal.2 - text.length
        = decimal.2 + count := by
      rw [places, Int.ofNat_eq_natCast]
      omega
    rw [Digits.value, point, ← ofDecimal_mul_tenTo, ← value, found]

/-! ## Reading digits -/

/-- The fraction of a numeral with its point; nothing for a whole number. -/
def pointed (fraction : List Char) : List Char := if fraction.isEmpty then [] else '.' :: fraction

/-- A numeral is read digit by digit, up to the mark of its exponent. -/
theorem readUnsigned?_eq {whole fraction rest : List Char} (hwhole : ∀ c ∈ whole, isDigit c = true)
    (hfraction : ∀ c ∈ fraction, isDigit c = true) (hne : whole ≠ [])
    (hrest : rest = [] ∨ ∃ power, rest = 'e' :: power) :
    readUnsigned? (whole ++ (pointed fraction ++ rest)) = (readExponent? rest).map fun exponent =>
      ofDecimal (ofDigits (whole ++ fraction)) (exponent - fraction.length) := by
  have some : whole.isEmpty = false := List.isEmpty_eq_false_iff.mpr hne
  have apart : (pointed fraction ++ rest).takeWhile isDigit = [] ∧
      (pointed fraction ++ rest).dropWhile isDigit = pointed fraction ++ rest := by
    cases fraction with
    | nil => rcases hrest with rfl | ⟨power, rfl⟩ <;> exact ⟨rfl, rfl⟩
    | cons first others => exact ⟨rfl, rfl⟩
  have behind : rest.takeWhile isDigit = [] ∧ rest.dropWhile isDigit = rest := by
    rcases hrest with rfl | ⟨power, rfl⟩ <;> exact ⟨rfl, rfl⟩
  -- The whole part ends at the point, at the mark of the exponent, or with the text.
  rw [readUnsigned?, List.takeWhile_append_of_pos hwhole, List.dropWhile_append_of_pos hwhole,
    apart.1, apart.2, List.append_nil, some]
  dsimp only
  split
  · next more hpoint =>
    cases fraction with
    | nil => rcases hrest with rfl | ⟨power, rfl⟩ <;> cases hpoint
    | cons first others =>
      obtain rfl : first :: others ++ rest = more := (List.cons.inj hpoint).2
      rw [List.takeWhile_append_of_pos hfraction, List.dropWhile_append_of_pos hfraction, behind.1,
        behind.2, List.append_nil]
      rfl
  · next hpoint =>
    cases fraction with
    | nil => rfl
    | cons first others => exact absurd rfl (hpoint _)

/-- Zeros in front of digits, and zeros behind them, are made up for by the point. -/
theorem value_places {digits : Digits} (h : ∀ c ∈ digits.text, isDigit c = true) :
    ofDecimal (ofDigits (digits.places.1 ++ digits.places.2)) (0 - digits.places.2.length)
      = digits.value := by
  have lead (text : List Char) (htext : ∀ c ∈ text, isDigit c = true) :
      ofDigits (['0'] ++ text) = ofDigits text := ofDigits_zeros_append htext 1
  unfold Digits.places Digits.value
  split
  · next count hpoint =>
    split
    · next none =>
      rw [lead _ h, hpoint, none]
      rfl
    · split
      · next whole =>
        have exponent : 0 - (([] : List Char).length : Int) + (count - digits.text.length : Nat)
            = digits.point - digits.text.length := by
          rw [hpoint, List.length_nil, Int.ofNat_eq_natCast]
          omega
        rw [List.append_nil, ofDigits_append_zeros h, ofDecimal_mul_tenTo, exponent]
      · next inside =>
        -- The point stands among the digits, so no zeros are needed.
        have exponent : 0 - ((digits.text.drop count).length : Int)
            = digits.point - digits.text.length := by
          rw [hpoint, List.length_drop, Int.ofNat_eq_natCast]
          omega
        rw [List.take_append_drop, exponent]
  · next count hpoint =>
    have zeros := List.forall_mem_append.mpr ⟨isDigit_replicate (count + 1), h⟩
    have exponent : 0 - ((List.replicate (count + 1) '0' ++ digits.text).length : Int)
        = digits.point - digits.text.length := by
      rw [hpoint, List.length_append, List.length_replicate, Int.negSucc_eq]
      omega
    rw [lead _ zeros, ofDigits_zeros_append h, exponent]

/-- Positional notation is read as the digits. -/
theorem readUnsigned?_positional {digits : Digits} (h : ∀ c ∈ digits.text, isDigit c = true) :
    readUnsigned? (digits.positional []) = some digits.value := by
  obtain ⟨whole, fraction⟩ := isDigit_places h
  have read := readUnsigned?_eq whole fraction (places_ne_nil digits) (.inl rfl)
  rw [List.append_nil] at read
  rw [Digits.positional, ← value_places h]
  exact read

/-- The digits of an exponent, with its sign if it is negative. -/
def exponentText : Int → List Char
  | .ofNat power => natText power
  | .negSucc power => '-' :: natText (power + 1)

/-- An exponent is read as it is written. -/
theorem readExponent?_exponentText (exponent : Int) :
    readExponent? ('e' :: exponentText exponent) = some exponent := by
  have digits (power : Nat) : ∀ c ∈ natText power, isDigit c = true := fun c hc =>
    isDigit_of_toDigits hc
  have read (power : Nat) :
      ((natText power).isEmpty || !(natText power).all isDigit) = false := by
    rw [List.all_eq_true.mpr (digits power),
      List.isEmpty_eq_false_iff.mpr (show natText power ≠ [] from Nat.toDigits_ne_nil)]
    rfl
  have value (power : Nat) : ofDigits (natText power) = power := ofDigits_toDigits power
  have plain (power : Nat) (rest : List Char) :
      natText power ≠ '+' :: rest ∧ natText power ≠ '-' :: rest := by
    constructor <;> intro h <;> cases digits power _ (h ▸ List.mem_cons_self ..)
  unfold readExponent?
  dsimp only
  split
  · next h => cases h
  · cases exponent with
    | ofNat power =>
      rw [exponentText]
      split
      · next h => exact absurd h (plain power _).1
      · next h => exact absurd h (plain power _).2
      · rw [read, if_neg Bool.false_ne_true, value, Int.one_mul]
    | negSucc power =>
      rw [exponentText]
      show (if ((natText (power + 1)).isEmpty || !(natText (power + 1)).all isDigit) = true then none
        else some (-1 * Int.ofNat (ofDigits (natText (power + 1))))) = _
      rw [read, if_neg Bool.false_ne_true, value, Int.neg_one_mul]
      rfl

theorem scientific_eq {digits : Digits} {first : Char} {tail : List Char}
    (h : digits.text = first :: tail) : digits.scientific []
      = [first] ++ (pointed tail ++ 'e' :: exponentText (digits.point - 1)) := by
  unfold Digits.scientific
  rw [h]
  cases digits.point - 1 <;> cases tail <;> rfl

/-- Scientific notation is read as the digits. -/
theorem readUnsigned?_scientific {digits : Digits} (h : ∀ c ∈ digits.text, isDigit c = true)
    (hne : digits.text ≠ []) : readUnsigned? (digits.scientific []) = some digits.value := by
  obtain ⟨first, tail, htext⟩ := List.exists_cons_of_ne_nil hne
  rw [htext, List.forall_mem_cons] at h
  have place : digits.point - 1 - tail.length = digits.point - digits.text.length := by
    rw [htext, List.length_cons]
    omega
  rw [scientific_eq htext, readUnsigned?_eq (List.forall_mem_singleton.mpr h.1) h.2
    (List.cons_ne_nil _ _) (.inr ⟨_, rfl⟩), readExponent?_exponentText, Option.map_some, place,
    Digits.value, htext]
  rfl

/-! ## Reading a number back from its text -/

theorem ofDecimal_zero (exponent : Int) : ofDecimal 0 exponent = zero := by
  unfold ofDecimal
  exact if_pos rfl

theorem text_shortest_ne_nil (hnan : x.isNaN = false) : (x.shortest tie).text ≠ [] := by
  intro hnil
  have value := value_shortest tie hnan
  rw [Digits.value, hnil, show ofDigits [] = 0 from rfl, ofDecimal_zero] at value
  have none : x.isZero = true := by
    rw [isZero, ← magnitude_abs, ← value]
    decide
  rw [shortest, if_pos none] at hnil
  cases hnil

theorem abs_eq_self (h : x.isNegative = false) : x.abs = x := by
  have small : x.bits.toNat < 2 ^ 63 := Nat.not_le.mp (decide_eq_false_iff_not.mp h)
  have bits : x.magnitude = x.bits.toNat := Nat.mod_eq_of_lt small
  rw [abs, bits, ofNat, UInt64.ofNat_toNat]

/-- A finite number without a sign is read back from its text. -/
theorem readUnsigned?_numberText (hnan : x.isNaN = false) (hfinite : x.isInfinite = false)
    (hsign : x.isNegative = false) : readUnsigned? (numberText x).toList = some x := by
  have digits := isDigit_shortest .up x
  have value : (x.shortest .up).value = x := (value_shortest .up hnan).trans (abs_eq_self hsign)
  rw [numberText, hnan, if_neg Bool.false_ne_true, String.toList_ofList, hsign, hfinite]
  simp only [Bool.false_eq_true, if_false, List.nil_append]
  split
  · rw [readUnsigned?_scientific digits (text_shortest_ne_nil hnan), value]
  · rw [readUnsigned?_positional digits, value]

end Binary64

open Binary64

/-- The text of a finite number without a sign is one token. -/
theorem spells_numberText {x : Binary64} (hnan : x.isNaN = false) (hfinite : x.isInfinite = false)
    (hsign : x.isNegative = false) : spells (.number x) (numberText x).toList = true := by
  have read := readUnsigned?_numberText hnan hfinite hsign
  have word : (numberText x).toList.head?.all isWordChar = true := by
    rcases head?_numberText x with ⟨negative, _⟩ | word
    · rw [hsign] at negative
      cases negative
    · exact word
  cases htext : (numberText x).toList with
  | nil =>
    rw [htext] at read
    cases read
  | cons first rest =>
    rw [htext] at read word
    exact spells_of_readUnsigned? (isDigit_of_readUnsigned? word read) read

/-! ## The numbers of a program -/

theorem Binary64.toNat_bits_of_readUnsigned? {text : List Char} {x : Binary64}
    (h : readUnsigned? text = some x) : x.bits.toNat ≤ infinityBits := by
  unfold readUnsigned? at h
  dsimp only at h
  have decimal {digits fraction : Nat} {rest : List Char}
      (h : (readExponent? rest).map (fun exponent =>
        ofDecimal digits (exponent - Int.ofNat fraction)) = some x) :
      x.bits.toNat ≤ infinityBits := by
    obtain ⟨exponent, _, rfl⟩ := Option.map_eq_some_iff.mp h
    rw [ofDecimal_eq]
    exact toNat_bits_ofRatio_le ..
  split at h
  · split at h
    · cases h
    · exact decimal h
  · split at h
    · cases h
    · exact decimal h

/-- What is scanned as a number has no sign and is a number. -/
theorem Scan.toNat_bits_of_token {first : Char} {rest : List Char} {value : Binary64}
    (h : (Scan.token first rest).1 = .number value) : value.bits.toNat ≤ infinityBits := by
  have content : (Scan.token first rest).1.isContent = true := by rw [h]; rfl
  rcases Scan.token_cases content with ⟨_, hk, _⟩ | ⟨_, _, hn⟩ | ⟨_, _, ⟨_, hk⟩ | ⟨_, hk⟩⟩ | ⟨_, hk, _⟩
  · rw [h] at hk
    cases hk
  · rw [hn, Scan.number] at h
    split at h
    · unfold Scan.hexNumber at h
      dsimp only at h
      split at h
      · cases h
      · split at h
        · rw [← Token.Kind.number.inj h]
          exact toNat_bits_ofRatio_le ..
        · cases h
    · unfold Scan.decimalNumber at h
      dsimp only at h
      split at h
      · cases h
      · split at h
        · next hread =>
          cases h
          exact toNat_bits_of_readUnsigned? hread
        · cases h
  · rw [h] at hk
    cases hk
  · rw [h] at hk
    cases hk
  · rw [h] at hk
    cases hk

theorem toNat_bits_of_mem_tokenize {source : String} {token : Token} {value : Binary64}
    (hmem : token ∈ tokenize source) (hkind : token.kind = .number value) :
    value.bits.toNat ≤ infinityBits := by
  have spelled := spells_of_mem_tokenize hmem (by rw [hkind]; rfl)
  rw [hkind] at spelled
  cases htext : token.span.text source.toList with
  | nil =>
    rw [htext] at spelled
    cases spelled
  | cons first rest =>
    rw [htext] at spelled
    exact Scan.toNat_bits_of_token (congrArg Prod.fst (spells_cons.mp spelled).2.2)

/-- A literal survives printing: the text of its value is one token with the same bits. One that is
too large for a finite number is printed as a word, which is read as a name. -/
theorem tokenize_numberText {source : String} {token : Token} {value : Binary64}
    (hmem : token ∈ tokenize source) (hkind : token.kind = .number value) :
    (value.isInfinite = false →
      (tokenize (numberText value)).map (·.kind) = [.number value, .eof]) ∧
    (value.isInfinite = true → numberText value = "Infinity" ∧
      (tokenize (numberText value)).map (·.kind) = [.identifier "Infinity", .eof]) := by
  have bound := toNat_bits_of_mem_tokenize hmem hkind
  have magnitude : value.magnitude = value.bits.toNat :=
    Nat.mod_eq_of_lt (Nat.lt_of_le_of_lt bound (by decide))
  constructor
  · intro hfinite
    have hnan : value.isNaN = false := by
      rw [isNaN, magnitude]
      exact decide_eq_false (Nat.not_lt.mpr bound)
    have hsign : value.isNegative = false :=
      decide_eq_false (Nat.not_le.mpr (Nat.lt_of_le_of_lt bound (by decide)))
    obtain ⟨number, finish, htokens, hnumber, _, hfinish⟩ :=
      tokenize_of_spells (spells_numberText hnan hfinite hsign)
    rw [htokens, List.map_cons, List.map_singleton, hnumber, hfinish]
  · intro hinfinite
    have infinite : value = infinity := by
      rw [isInfinite, beq_iff_eq, magnitude] at hinfinite
      rw [infinity, ofNat, ← hinfinite, UInt64.ofNat_toNat]
    rw [infinite]
    exact ⟨by decide +kernel, by decide +kernel⟩

theorem tokenize_numberText_hexadecimal :
    (∃ token ∈ tokenize "0xFFFFFFFFFFFFFFFF", token.kind = .number ⟨0x43F0000000000000⟩) ∧
      isInfinite ⟨0x43F0000000000000⟩ = false ∧
      numberText ⟨0x43F0000000000000⟩ = "18446744073709552000" ∧
      (tokenize (numberText ⟨0x43F0000000000000⟩)).map (·.kind)
        = [.number ⟨0x43F0000000000000⟩, .eof] := by
  have kinds : (tokenize "0xFFFFFFFFFFFFFFFF").map (·.kind)
      = [.number ⟨0x43F0000000000000⟩, .eof] := by
    decide +kernel
  obtain ⟨token, hmem, hkind⟩ := List.mem_map.mp (kinds ▸ List.mem_cons_self ..)
  have finite : isInfinite ⟨0x43F0000000000000⟩ = false := by decide +kernel
  exact ⟨⟨token, hmem, hkind⟩, finite, by decide +kernel, (tokenize_numberText hmem hkind).1 finite⟩

/-- A literal that is too large does not survive: what is printed for it is a name. -/
theorem tokenize_numberText_overflow :
    (∃ token ∈ tokenize "1e999", token.kind = .number infinity) ∧
      (tokenize (numberText infinity)).map (·.kind) = [.identifier "Infinity", .eof] ∧
      (tokenize (numberText infinity)).map (·.kind) ≠ [.number infinity, .eof] := by
  have kinds : (tokenize "1e999").map (·.kind) = [.number infinity, .eof] := by decide +kernel
  have word : (tokenize (numberText infinity)).map (·.kind) = [.identifier "Infinity", .eof] := by
    decide +kernel
  obtain ⟨token, hmem, hkind⟩ := List.mem_map.mp (kinds ▸ List.mem_cons_self ..)
  refine ⟨⟨token, hmem, hkind⟩, word, ?_⟩
  rw [word]
  nofun

end JsPrune
