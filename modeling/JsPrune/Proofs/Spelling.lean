import JsPrune.Text.Literal
import JsPrune.Token.Lexer
import Mathlib.Data.List.Find
import Mathlib.Data.List.TakeWhile

/-!
# Texts that are one token

A text that the scanner takes whole for one token may be taken differently where more text follows:
a name goes on with the next letter, a plus sign joins the next one. `endsBefore` says which
characters a token of some kind is safe from. Which scanner takes a text is decided by its first two
characters (`Scan.scanner`), so what holds of each scanner holds of tokens.

Main result: `Scan.token_append`. A text that is one token by itself is that same token in front of
any text, provided its kind ends before the first character of that text. With it come the texts
that a printer writes: punctuators, reserved words and quoted strings.
-/

namespace JsPrune

open JsPrune.Source JsPrune.Text

/-! ## Where a token ends -/

/-- Whether a token of this kind can not go on with `c`. -/
def Token.Kind.endsBefore : Token.Kind → Char → Bool
  | .identifier _, c => !isWordChar c
  | .keyword _, c => !isWordChar c
  | .number _, c => !isWordChar c && c != '.'
  | .string _, _ => true
  | .punctuator symbol, c =>
    -- A slash could start a comment, and a point a fraction.
    !(symbol == .divide && (c == '/' || c == '*')) && !(symbol == .dot && isDigit c) &&
      Punctuator.all.all fun longer => !(symbol.text.toList ++ [c]).isPrefixOf longer.text.toList
  | _, _ => false

/-- Letters belong to words. -/
theorem isWordChar_of_isLetter {c : Char} (h : isLetter c = true) : isWordChar c = true := by
  rw [isWordChar, h]
  rfl

theorem isNumeral_of_isDigit {c : Char} (h : isDigit c = true) : isNumeral c = true := by
  rw [isDigit, Bool.and_eq_true, decide_eq_true_eq, decide_eq_true_eq] at h
  have low : ¬ c.toNat < 0x30 := Nat.not_lt.mpr h.1
  have high : c.toNat ≤ 0x39 := h.2
  rw [isNumeral, numeralRanges, Ranges.contains, if_neg low, if_pos high]

/-- Digits belong to words. -/
theorem isWordChar_of_isDigit {c : Char} (h : isDigit c = true) : isWordChar c = true := by
  rw [isWordChar, isNumeral_of_isDigit h, Bool.or_true]
  rfl

/-- What starts a name belongs to words. -/
theorem isWordChar_of_isNameStart {c : Char} (h : isNameStart c = true) : isWordChar c = true := by
  rw [isNameStart, Bool.or_assoc] at h
  rw [isWordChar, Bool.or_assoc, Bool.or_assoc, Bool.or_left_comm, h, Bool.or_true]

/-- What goes on with a name belongs to words. -/
theorem isWordChar_of_isNameChar {c : Char} (h : isNameChar c = true) : isWordChar c = true := by
  rw [isNameChar, Bool.or_eq_true] at h
  rcases h with h | h
  · exact isWordChar_of_isNameStart h
  · exact isWordChar_of_isDigit h

/-- Hexadecimal digits belong to words. -/
theorem isWordChar_of_isHexDigit {c : Char} (h : isHexDigit c = true) : isWordChar c = true := by
  rw [isHexDigit, Bool.or_eq_true, Bool.or_eq_true] at h
  rcases h with (h | h) | h
  · exact isWordChar_of_isDigit h
  · apply isWordChar_of_isLetter
    rw [Bool.and_eq_true, decide_eq_true_eq, decide_eq_true_eq] at h
    have low : 0x61 ≤ c.toNat := h.1
    have high : c.toNat ≤ 0x66 := h.2
    rw [isLetter, letterRanges, Ranges.contains, if_neg (by omega), if_neg (by omega),
      Ranges.contains, if_neg (by omega), if_pos (by omega)]
  · apply isWordChar_of_isLetter
    rw [Bool.and_eq_true, decide_eq_true_eq, decide_eq_true_eq] at h
    have low : 0x41 ≤ c.toNat := h.1
    have high : c.toNat ≤ 0x46 := h.2
    rw [isLetter, letterRanges, Ranges.contains, if_neg (by omega), if_pos (by omega)]

/-! ## Prefixes taken by a class of characters -/

/-- No character of the class comes next. -/
def Stops (p : Char → Bool) (more : List Char) : Prop := ∀ c ∈ more.head?, p c = false

/-- What stops at more characters stops at fewer. -/
theorem Stops.mono {p q : Char → Bool} {more : List Char} (h : Stops q more)
    (hpq : ∀ c, p c = true → q c = true) : Stops p more := by
  intro c hc
  cases hp : p c with
  | false => rfl
  | true => rw [← h c hc, hpq c hp]

/-- What is taken from a text ends within it, if the text behind it would end it. -/
theorem takeWhile_append_of_stops {p : Char → Bool} {text more : List Char} (h : Stops p more) :
    (text ++ more).takeWhile p = text.takeWhile p := by
  induction text with
  | nil =>
    cases more with
    | nil => rfl
    | cons c rest =>
      rw [List.nil_append, List.takeWhile_cons, h c rfl]
      rfl
  | cons c rest ih =>
    rw [List.cons_append, List.takeWhile_cons, List.takeWhile_cons, ih]

namespace Scan

/-! ## Numbers -/

/-- Digits are counted within the text, if no digit follows. -/
theorem digitCount_append {text more : List Char} (h : Stops isDigit more) :
    digitCount (text ++ more) = digitCount text := by
  rw [digitCount, takeWhile_append_of_stops h, digitCount]

theorem digitCount_le (text : List Char) : digitCount text ≤ text.length :=
  (List.takeWhile_sublist isDigit).length_le

theorem fractionLength_le (text : List Char) : fractionLength text ≤ text.length := by
  unfold fractionLength
  split
  · next rest =>
    have := digitCount_le rest
    rw [List.length_cons]
    omega
  · exact Nat.zero_le _

/-- A fraction ends within the text, if neither a digit nor a point follows. -/
theorem fractionLength_append {text more : List Char} (hd : Stops isDigit more)
    (hp : Stops (· == '.') more) : fractionLength (text ++ more) = fractionLength text := by
  cases text with
  | nil =>
    cases more with
    | nil => rfl
    | cons c rest =>
      have point : c ≠ '.' := by
        intro hc
        have := hp c rfl
        rw [hc] at this
        cases this
      rw [List.nil_append, fractionLength]
      · rfl
      · intro _ h
        exact point (List.cons.inj h).1
  | cons c rest =>
    by_cases point : c = '.'
    · subst point
      rw [List.cons_append, fractionLength, fractionLength, digitCount_append hd]
    · have other (tail : List Char) : fractionLength (c :: tail) = 0 := by
        rw [fractionLength]
        intro _ h
        exact point (List.cons.inj h).1
      rw [List.cons_append, other, other]

theorem signLength_le (text : List Char) : signLength text ≤ text.length := by
  unfold signLength
  split
  · exact Nat.succ_le_succ (Nat.zero_le _)
  · exact Nat.succ_le_succ (Nat.zero_le _)
  · exact Nat.zero_le _

/-- The sign is decided by the first character. -/
theorem signLength_append {text : List Char} (more : List Char) (h : text ≠ []) :
    signLength (text ++ more) = signLength text := by
  cases text with
  | nil => exact absurd rfl h
  | cons c rest =>
    by_cases plus : c = '+'
    · subst plus
      rfl
    · by_cases minus : c = '-'
      · subst minus
        rfl
      · have none (tail : List Char) : signLength (c :: tail) = 0 := by
          unfold signLength
          split
          · next h => exact absurd (List.cons.inj h).1 plus
          · next h => exact absurd (List.cons.inj h).1 minus
          · rfl
        rw [List.cons_append, none, none]

/-- An exponent is no longer than its text. -/
theorem exponentLength_le (text : List Char) : exponentLength text ≤ text.length := by
  cases text with
  | nil => exact Nat.le_refl _
  | cons mark rest =>
    have sign := signLength_le rest
    have digits := digitCount_le (rest.drop (signLength rest))
    rw [List.length_drop] at digits
    rw [exponentLength, List.length_cons]
    simp only
    split
    · omega
    · split <;> omega

/-- A complete exponent stays complete. -/
theorem exponentLength_append {text more : List Char} (hd : Stops isDigit more)
    (hn : Stops isNameStart more) (h : exponentLength text = text.length) :
    exponentLength (text ++ more) = text.length := by
  cases text with
  | nil =>
    cases more with
    | nil => rfl
    | cons c rest =>
      have start := hn c rfl
      have mark : (c != 'e' && c != 'E') = true := by
        rw [Bool.and_eq_true, bne_iff_ne, bne_iff_ne]
        constructor
        · rintro rfl
          exact absurd start (by decide)
        · rintro rfl
          exact absurd start (by decide)
      rw [List.nil_append, exponentLength, if_pos mark]
      rfl
  | cons mark rest =>
    have hne : rest ≠ [] := by
      rintro rfl
      have none : exponentLength [mark] = 0 := by
        rw [exponentLength]
        simp only
        split <;> rfl
      rw [none] at h
      cases h
    have drops : (rest ++ more).drop (signLength rest) = rest.drop (signLength rest) ++ more :=
      List.drop_append_of_le_length (signLength_le rest)
    rw [List.cons_append, exponentLength, signLength_append more hne, drops, digitCount_append hd,
      ← h, exponentLength]

/-- A decimal literal is no longer than its text. -/
theorem decimalLength_le (text : List Char) : decimalLength text ≤ text.length := by
  have whole := digitCount_le text
  have fraction := fractionLength_le (text.drop (digitCount text))
  rw [List.length_drop] at fraction
  have last := exponentLength_le (text.drop (digitCount text + fractionLength (text.drop (digitCount text))))
  rw [List.length_drop] at last
  rw [decimalLength]
  omega

/-- A decimal literal ends where a character follows that no number goes on with. -/
theorem decimalLength_append {text more : List Char} (hd : Stops isDigit more)
    (hp : Stops (· == '.') more) (hn : Stops isNameStart more)
    (h : decimalLength text = text.length) : decimalLength (text ++ more) = text.length := by
  have whole := digitCount_le text
  have fraction := fractionLength_le (text.drop (digitCount text))
  rw [List.length_drop] at fraction
  have dropWhole : (text ++ more).drop (digitCount text) = text.drop (digitCount text) ++ more :=
    List.drop_append_of_le_length whole
  have dropBoth : (text ++ more).drop (digitCount text + fractionLength (text.drop (digitCount text)))
      = text.drop (digitCount text + fractionLength (text.drop (digitCount text))) ++ more :=
    List.drop_append_of_le_length (by omega)
  rw [decimalLength] at h ⊢
  rw [digitCount_append hd, dropWhole, fractionLength_append hd hp, dropBoth,
    exponentLength_append hd hn (by rw [List.length_drop]; omega), List.length_drop]
  omega

/-- A decimal literal that takes its whole text is read the same before anything that could not go
on with it. -/
theorem decimalNumber_append {text more : List Char} (hd : Stops isDigit more)
    (hp : Stops (· == '.') more) (hn : Stops isNameStart more)
    (h : decimalLength text = text.length) : decimalNumber (text ++ more) = decimalNumber text := by
  have start : more.head?.any isNameStart = false := by
    cases more with
    | nil => rfl
    | cons c rest => exact hn c rfl
  rw [decimalNumber, decimalNumber]
  rw [decimalLength_append hd hp hn h, h, List.drop_left, List.drop_length, List.take_left,
    List.take_length, start]
  rfl

/-- A hexadecimal literal is read the same before anything but a further digit. -/
theorem hexNumber_append {rest more : List Char} (hne : rest ≠ []) (hx : Stops isHexDigit more) :
    hexNumber (rest ++ more) = hexNumber rest := by
  have drops : (rest ++ more).drop 1 = rest.drop 1 ++ more :=
    List.drop_append_of_le_length (List.length_pos_iff.mpr hne)
  rw [hexNumber, hexNumber, drops, takeWhile_append_of_stops hx]

/-! ## Words, strings and punctuators -/

/-- A word is read the same before anything that is not part of a name. -/
theorem word_append {rest more : List Char} (first : Char) (h : Stops isNameChar more) :
    word first (rest ++ more) = word first rest := by
  rw [word, takeWhile_append_of_stops h, word]

/-- A hexadecimal escape that is not broken off has its digits before the end of the text. -/
theorem hexEscape_append {count : Nat} {text : List Char} (more : List Char)
    (h : ∀ reason length, hexEscape count text ≠ .broken reason length) :
    hexEscape count (text ++ more) = hexEscape count text := by
  have enough : count ≤ text.length := by
    apply Nat.le_of_not_lt
    intro short
    have few : ((text.take count).takeWhile isHexDigit).length < count :=
      Nat.lt_of_le_of_lt (Nat.le_trans (List.takeWhile_sublist _).length_le
        (List.length_take_le' _ _)) short
    rw [hexEscape, if_pos few] at h
    exact h _ _ rfl
  rw [hexEscape, List.take_append_of_le_length enough, hexEscape]

/-- An escape that is not broken off reads the same with more text after it. -/
theorem escape_append {text : List Char} (more : List Char)
    (h : ∀ reason length, escape text ≠ .broken reason length) :
    escape (text ++ more) = escape text := by
  cases text with
  | nil => exact absurd rfl (h _ _)
  | cons c rest =>
    by_cases hx : c = 'x'
    · subst hx
      exact hexEscape_append more h
    · by_cases hu : c = 'u'
      · subst hu
        exact hexEscape_append more h
      · have short (tail : List Char) : escape (c :: tail) = escape [c] := by
          unfold escape
          simp only [if_neg hx, if_neg hu]
        rw [List.cons_append, short, short rest]

/-- An escape takes no more than the text has. -/
theorem escape_length_le {text : List Char} {length : Nat}
    (h : (∃ c, escape text = .char c length) ∨ escape text = .nothing length) :
    length ≤ text.length := by
  cases text with
  | nil =>
    rcases h with ⟨c, h⟩ | h
    · cases h
    · cases h
  | cons c rest =>
    -- The letter and as many digits as were asked for.
    have hex (count : Nat) (h : (∃ c, hexEscape count rest = .char c length) ∨
        hexEscape count rest = .nothing length) : length ≤ (c :: rest).length := by
      have few := (List.takeWhile_sublist (l := rest.take count) isHexDigit).length_le
      rw [List.length_take] at few
      rw [hexEscape] at h
      rw [List.length_cons]
      split at h
      · rcases h with ⟨_, h⟩ | h <;> cases h
      · split at h
        · rcases h with ⟨_, h⟩ | h
          · cases h
            omega
          · cases h
        · rcases h with ⟨_, h⟩ | h <;> cases h
    by_cases hx : c = 'x'
    · subst hx
      exact hex 2 h
    · by_cases hu : c = 'u'
      · subst hu
        exact hex 4 h
      · have one : length = 1 := by
          unfold escape at h
          simp only [if_neg hx, if_neg hu] at h
          grind
        rw [one]
        exact Nat.succ_le_succ (Nat.zero_le _)

/-- A string that is closed stays the same string. -/
theorem stringBody_append {quote : Char} {value : List Char} {taken length : Nat}
    {text meant : List Char} (more : List Char)
    (h : stringBody quote value taken text = (.string (String.ofList meant), length)) :
    stringBody quote value taken (text ++ more) = (.string (String.ofList meant), length) := by
  fun_induction stringBody quote value taken text with
  | case1 => cases h
  | case2 value taken rest =>
    rw [List.cons_append, stringBody, if_pos rfl]
    exact h
  | case3 value taken rest c length' he hq ih =>
    have kept : escape (rest ++ more) = .char c length' := by
      rw [← he]
      exact escape_append more fun _ _ hb => by rw [he] at hb; cases hb
    rw [List.cons_append, stringBody, if_neg hq, if_pos rfl, kept]
    simp only
    rw [List.drop_append_of_le_length (escape_length_le (.inl ⟨c, he⟩))]
    exact ih h
  | case4 value taken rest length' he hq ih =>
    have kept : escape (rest ++ more) = .nothing length' := by
      rw [← he]
      exact escape_append more fun _ _ hb => by rw [he] at hb; cases hb
    rw [List.cons_append, stringBody, if_neg hq, if_pos rfl, kept]
    simp only
    rw [List.drop_append_of_le_length (escape_length_le (.inr he))]
    exact ih h
  | case5 => cases h
  | case6 => cases h
  | case7 value taken c rest hq hb hn ih =>
    rw [List.cons_append, stringBody, if_neg hq, if_neg hb, if_neg hn]
    exact ih h

/-- Text after a punctuator that no longer one takes in changes nothing. -/
theorem longest?_append {symbol : Punctuator} {c : Char} (more : List Char)
    (h : Punctuator.longest? symbol.text.toList = some symbol)
    (hc : ∀ longer ∈ Punctuator.all,
      (symbol.text.toList ++ [c]).isPrefixOf longer.text.toList = false) :
    Punctuator.longest? (symbol.text.toList ++ c :: more) = some symbol := by
  rw [← h, Punctuator.longest?, Punctuator.longest?]
  apply List.find?_congr
  intro other hother
  rw [Bool.eq_iff_iff, List.isPrefixOf_iff_prefix, List.isPrefixOf_iff_prefix]
  constructor
  · intro hp
    have here : symbol.text.toList ++ [c] <+: symbol.text.toList ++ c :: more := ⟨more, by simp⟩
    rcases List.prefix_or_prefix_of_prefix hp here with shorter | longer
    · rcases List.prefix_concat_iff.mp shorter with same | within
      · have := hc other hother
        rw [← same, List.isPrefixOf_iff_prefix.mpr (List.prefix_refl _)] at this
        cases this
      · exact within
    · have := hc other hother
      rw [List.isPrefixOf_iff_prefix.mpr longer] at this
      cases this
  · intro hp
    exact hp.trans (List.prefix_append _ _)

/-- What the longest punctuator at the start of a text says of the text. -/
theorem text_of_punctuator {first : Char} {rest : List Char} {symbol : Punctuator}
    (h : punctuator first rest = (.punctuator symbol, rest.length)) :
    symbol.text.toList = first :: rest ∧ Punctuator.longest? (first :: rest) = some symbol := by
  rw [punctuator] at h
  split at h
  · next found hfound =>
    cases h' : (Prod.mk.inj h).1
    have fits := List.find?_some hfound
    rw [List.isPrefixOf_iff_prefix] at fits
    have length := (Prod.mk.inj h).2
    have positive : 0 < symbol.text.length := by cases symbol <;> decide
    have same : symbol.text.toList.length = (first :: rest).length := by
      rw [String.length_toList, List.length_cons]
      omega
    exact ⟨fits.eq_of_length same, hfound⟩
  · cases (Prod.mk.inj h).1

/-- The longest punctuator stays the longest, if the next character makes no longer one. -/
theorem punctuator_append {first c : Char} {rest more : List Char} {symbol : Punctuator}
    (h : punctuator first rest = (.punctuator symbol, rest.length))
    (hc : Token.Kind.endsBefore (.punctuator symbol) c = true) :
    punctuator first (rest ++ c :: more) = (.punctuator symbol, rest.length) := by
  obtain ⟨text, longest⟩ := text_of_punctuator h
  rw [Token.Kind.endsBefore, Bool.and_eq_true, List.all_eq_true] at hc
  have kept : Punctuator.longest? (first :: (rest ++ c :: more)) = some symbol := by
    rw [← List.cons_append, ← text]
    apply longest?_append more
    · rw [text]
      exact longest
    · intro longer hmem
      have := hc.2 longer hmem
      rw [Bool.not_eq_true'] at this
      exact this
  rw [punctuator, longest] at h
  rw [punctuator, kept]
  exact h

/-- A string that is not closed is a fault. -/
theorem stringBody_kind (quote : Char) (value : List Char) (taken : Nat) (text : List Char) :
    (∃ meant, (stringBody quote value taken text).1 = .string (String.ofList meant)) ∨
      ∃ reason, (stringBody quote value taken text).1 = .fault reason := by
  fun_induction stringBody quote value taken text with
  | case1 => exact .inr ⟨_, rfl⟩
  | case2 value => exact .inl ⟨value.reverse, rfl⟩
  | case3 _ _ _ _ _ _ _ ih => exact ih
  | case4 _ _ _ _ _ _ ih => exact ih
  | case5 => exact .inr ⟨_, rfl⟩
  | case6 => exact .inr ⟨_, rfl⟩
  | case7 _ _ _ _ _ _ _ ih => exact ih

variable {first c : Char} {rest more : List Char} {kind : Token.Kind}

/-- A string that is closed is read the same before anything. -/
theorem string_token_append (h : stringBody first [] 0 rest = (kind, rest.length))
    (hc : kind.endsBefore c = true) :
    stringBody first [] 0 (rest ++ c :: more) = (kind, rest.length) := by
  rcases stringBody_kind first [] 0 rest with ⟨meant, hk⟩ | ⟨reason, hk⟩
  · rw [h] at hk
    cases hk
    exact stringBody_append _ h
  · rw [h] at hk
    cases hk
    cases hc

/-- A word is read the same before a character that ends it. -/
theorem word_token_append (h : word first rest = (kind, rest.length))
    (hc : kind.endsBefore c = true) : word first (rest ++ c :: more) = (kind, rest.length) := by
  have stops : Stops isNameChar (c :: more) := by
    have free : isWordChar c = false := by
      rw [word] at h
      split at h
      · rw [← (Prod.mk.inj h).1, Token.Kind.endsBefore, Bool.not_eq_true'] at hc
        exact hc
      · rw [← (Prod.mk.inj h).1, Token.Kind.endsBefore, Bool.not_eq_true'] at hc
        exact hc
    intro d hd
    cases hd
    cases hn : isNameChar c with
    | false => rfl
    | true => rw [← free, isWordChar_of_isNameChar hn]
  rw [word_append first stops, h]

/-- What comes after a number is no part of it. -/
theorem number_token_append {value : Binary64} (h : number first rest = (.number value, rest.length))
    (hc : Token.Kind.endsBefore (.number value) c = true) :
    number first (rest ++ c :: more) = (.number value, rest.length) := by
  rw [Token.Kind.endsBefore, Bool.and_eq_true, Bool.not_eq_true', bne_iff_ne] at hc
  have free : Stops isWordChar (c :: more) := by
    intro d hd
    cases hd
    exact hc.1
  have noPoint : Stops (· == '.') (c :: more) := by
    intro d hd
    cases hd
    exact beq_eq_false_iff_ne.mpr hc.2
  have noHex : ((rest ++ c :: more).head?.any fun c => c == 'x' || c == 'X')
      = rest.head?.any fun c => c == 'x' || c == 'X' := by
    cases rest with
    | cons _ _ => rfl
    | nil =>
      show (c == 'x' || c == 'X') = false
      rw [Bool.or_eq_false_iff, beq_eq_false_iff_ne, beq_eq_false_iff_ne]
      constructor
      · rintro rfl
        exact absurd hc.1 (by decide)
      · rintro rfl
        exact absurd hc.1 (by decide)
  unfold number at h ⊢
  rw [noHex]
  split at h
  · next hex =>
    have hne : rest ≠ [] := by
      rintro rfl
      rw [List.head?_nil, Option.any_none, Bool.and_false] at hex
      cases hex
    rw [if_pos hex, hexNumber_append hne (free.mono fun _ => isWordChar_of_isHexDigit), h]
  · next hex =>
    -- An empty literal would not have been read as a number.
    have positive : 0 < decimalLength (first :: rest) := by
      apply Nat.pos_of_ne_zero
      intro zero
      rw [decimalNumber, zero] at h
      have kinds := (Prod.mk.inj h).1
      split at kinds
      · cases kinds
      · cases kinds
    have length : decimalLength (first :: rest) = (first :: rest).length := by
      have taken : decimalLength (first :: rest) - 1 = rest.length := (Prod.mk.inj h).2
      rw [List.length_cons]
      omega
    rw [if_neg hex, ← List.cons_append, decimalNumber_append
      (free.mono fun _ => isWordChar_of_isDigit) noPoint
      (free.mono fun _ => isWordChar_of_isNameStart) length, h]

/-- A number that is not well formed is a fault. -/
theorem number_kind (first : Char) (rest : List Char) :
    (∃ value, (number first rest).1 = .number value) ∨
      ∃ reason, (number first rest).1 = .fault reason := by
  rw [number]
  split
  · rw [hexNumber]
    simp only
    split
    · exact .inr ⟨_, rfl⟩
    · split
      · exact .inl ⟨_, rfl⟩
      · exact .inr ⟨_, rfl⟩
  · rw [decimalNumber]
    simp only
    split
    · exact .inr ⟨_, rfl⟩
    · split
      · exact .inl ⟨_, rfl⟩
      · exact .inr ⟨_, rfl⟩

/-- A number is read the same before a character that ends it. -/
theorem numeric_token_append (h : number first rest = (kind, rest.length))
    (hc : kind.endsBefore c = true) : number first (rest ++ c :: more) = (kind, rest.length) := by
  rcases number_kind first rest with ⟨value, hk⟩ | ⟨reason, hk⟩
  · rw [h] at hk
    cases hk
    exact number_token_append h hc
  · rw [h] at hk
    cases hk
    cases hc

/-- A punctuator is read the same before a character that ends it. -/
theorem punctuator_token_append (h : punctuator first rest = (kind, rest.length))
    (hc : kind.endsBefore c = true) :
    punctuator first (rest ++ c :: more) = (kind, rest.length) := by
  cases found : Punctuator.longest? (first :: rest) with
  | none =>
    rw [punctuator, found] at h
    rw [← (Prod.mk.inj h).1] at hc
    cases hc
  | some symbol =>
    have kinds : kind = .punctuator symbol := by
      rw [punctuator, found] at h
      exact (Prod.mk.inj h).1.symm
    subst kinds
    exact punctuator_append h hc

/-- The scanner of the token that starts with `first`, when `next` stands behind it. -/
def scanner (first : Char) (next : Option Char) : List Char → Scanned :=
  if first == '/' && next == some '/' then lineComment
  else if first == '/' && next == some '*' then blockComment
  else if first == '"' || first == '\x27' then stringBody first [] 0
  else if isDigit first then number first
  else if first == '.' && next.any isDigit then number first
  else if isNameStart first then word first
  else punctuator first

/-- What scanner a token is read by depends on its first two characters only. -/
theorem token_eq (first : Char) (rest : List Char) :
    token first rest = scanner first rest.head? rest := by
  unfold token scanner
  split_ifs <;> rfl

/-- There are six scanners. -/
theorem scanner_cases (first : Char) (next : Option Char) :
    scanner first next = lineComment ∨ scanner first next = blockComment ∨
      scanner first next = stringBody first [] 0 ∨ scanner first next = number first ∨
      (isNameStart first = true ∧ scanner first next = word first) ∨
      scanner first next = punctuator first := by
  unfold scanner
  split_ifs with _ _ _ _ _ name
  · exact .inl rfl
  · exact .inr (.inl rfl)
  · exact .inr (.inr (.inl rfl))
  · exact .inr (.inr (.inr (.inl rfl)))
  · exact .inr (.inr (.inr (.inl rfl)))
  · exact .inr (.inr (.inr (.inr (.inl ⟨name, rfl⟩))))
  · exact .inr (.inr (.inr (.inr (.inr rfl))))

/-- What stands behind a character makes a difference to a slash, which can start a comment, and to a
point, which can start a number. -/
theorem scanner_none (first : Char) (next : Option Char) :
    scanner first none = scanner first next ∨
      (first = '/' ∧ next = some '/' ∧ scanner first next = lineComment) ∨
      (first = '/' ∧ next = some '*' ∧ scanner first next = blockComment) ∨
      (first = '.' ∧ next.any isDigit = true ∧ scanner first next = number first) := by
  unfold scanner
  by_cases line : (first == '/' && next == some '/') = true
  · rw [if_pos line]
    rw [Bool.and_eq_true, beq_iff_eq, beq_iff_eq] at line
    exact .inr (.inl ⟨line.1, line.2, rfl⟩)
  by_cases block : (first == '/' && next == some '*') = true
  · rw [if_neg line, if_pos block]
    rw [Bool.and_eq_true, beq_iff_eq, beq_iff_eq] at block
    exact .inr (.inr (.inl ⟨block.1, block.2, rfl⟩))
  rw [if_neg line, if_neg block]
  by_cases point : (first == '.' && next.any isDigit) = true
  · rw [if_pos point]
    rw [Bool.and_eq_true, beq_iff_eq] at point
    obtain ⟨rfl, digit⟩ := point
    exact .inr (.inr (.inr ⟨rfl, digit, rfl⟩))
  · rw [if_neg point]
    refine .inl ?_
    simp only [reduceCtorEq, beq_iff_eq, Bool.and_eq_true, and_false, if_false, Option.any_none,
      Bool.false_eq_true]

/-- **A token stays the token it is** in front of a text that it can not go on with. -/
theorem token_append (h : token first rest = (kind, rest.length))
    (hm : ∀ c ∈ more.head?, kind.endsBefore c = true) :
    token first (rest ++ more) = (kind, rest.length) := by
  cases more with
  | nil => rw [List.append_nil, h]
  | cons c more =>
    have hc := hm c rfl
    -- The text behind can change the scanner only if the token is one character long.
    have same : scanner first (rest ++ c :: more).head? = scanner first rest.head? := by
      cases rest with
      | cons _ _ => rfl
      | nil =>
        have slash : token '/' [] = (.punctuator .divide, 0) := by decide
        have point : token '.' [] = (.punctuator .dot, 0) := by decide
        rcases scanner_none first (some c) with
          same | ⟨rfl, hnext, _⟩ | ⟨rfl, hnext, _⟩ | ⟨rfl, digit, _⟩
        · exact same.symm
        · rw [slash] at h
          cases h
          cases hnext
          exact absurd hc (by decide)
        · rw [slash] at h
          cases h
          cases hnext
          exact absurd hc (by decide)
        · rw [point] at h
          cases h
          rw [Option.any_some] at digit
          rw [Token.Kind.endsBefore, digit] at hc
          cases hc
    rw [token_eq] at h ⊢
    rw [same]
    -- Nothing ends a comment, so the first two cases do not come up.
    rcases scanner_cases first rest.head? with hs | hs | hs | hs | ⟨_, hs⟩ | hs
    all_goals rw [hs] at h ⊢
    · rw [lineComment] at h
      rw [← (Prod.mk.inj h).1] at hc
      cases hc
    · rw [blockComment] at h
      split at h
      · rw [← (Prod.mk.inj h).1] at hc
        cases hc
      · rw [← (Prod.mk.inj h).1] at hc
        cases hc
    · exact string_token_append h hc
    · exact numeric_token_append h hc
    · exact word_token_append h hc
    · exact punctuator_token_append h hc

end Scan

/-! ## Texts that a printer writes -/

/-- Whether tokens of this kind make up a program; comments, faults and the end of the text do not. -/
def Token.Kind.isContent : Token.Kind → Bool
  | .comment _ => false
  | .eof => false
  | .fault _ => false
  | _ => true

/-- Whether the scanner takes a whole text for one token of this kind. -/
def spells (kind : Token.Kind) : List Char → Bool
  | [] => false
  | first :: rest =>
    !isBlank first && kind.isContent && Scan.token first rest == (kind, rest.length)

/-- A text spells a token if the token starts right away and takes all of it. -/
theorem spells_cons {kind : Token.Kind} {first : Char} {rest : List Char} :
    spells kind (first :: rest) = true ↔ isBlank first = false ∧ kind.isContent = true ∧
      Scan.token first rest = (kind, rest.length) := by
  rw [spells, Bool.and_eq_true, Bool.and_eq_true, Bool.not_eq_true', beq_iff_eq, and_assoc]

/-- What a text spells is a token with content. -/
theorem content_of_spells {kind : Token.Kind} {text : List Char} (h : spells kind text = true) :
    kind.isContent = true := by
  cases text with
  | nil => cases h
  | cons first rest => exact (spells_cons.mp h).2.1

/-- Every punctuator is spelled by its text. -/
theorem spells_mark (symbol : Punctuator) : spells (.punctuator symbol) symbol.text.toList = true := by
  cases symbol <;> decide

/-- Every reserved word is spelled by its text. -/
theorem spells_word (word : Keyword) : spells (.keyword word) word.text.toList = true := by
  cases word <;> decide

/-- A hexadecimal digit has the value it is written for. -/
theorem hexDigit_spec : ∀ n < 16, isHexDigit (hexDigit n) = true ∧ hexValue (hexDigit n) = n := by
  decide

/-- Two hexadecimal digits spell a number below 256. -/
theorem hexEscape_hexText {n : Nat} (h : n < 256) (more : List Char) :
    Scan.hexEscape 2 (hexText 2 n ++ more) = .char (Char.ofNat n) 3 := by
  have high := hexDigit_spec (n / 16 % 16) (Nat.mod_lt _ (by omega))
  have low := hexDigit_spec (n % 16) (Nat.mod_lt _ (by omega))
  have text : hexText 2 n = [hexDigit (n / 16 % 16), hexDigit (n % 16)] := rfl
  have digits : (hexText 2 n).takeWhile isHexDigit = hexText 2 n := by
    rw [text, List.takeWhile_cons, high.1, List.takeWhile_cons, low.1]
    rfl
  have number : ofHexDigits (hexText 2 n) = n := by
    rw [text, ofHexDigits, List.foldl_cons, List.foldl_cons, List.foldl_nil, high.2, low.2]
    omega
  have length : (hexText 2 n).length = 2 := rfl
  have enough : ¬ (hexText 2 n).length < 2 := by
    rw [length]
    omega
  have valid : n.isValidChar := .inl (by omega)
  rw [Scan.hexEscape, List.take_left' length, digits, if_neg enough, number, if_pos valid]

/-- In a string literal between double quotes, `piece` is read as the one character `c`. -/
def StandsFor (piece : List Char) (c : Char) : Prop :=
  ∀ (value : List Char) (taken : Nat) (more : List Char),
    Scan.stringBody '"' value taken (piece ++ more)
      = Scan.stringBody '"' (c :: value) (taken + piece.length) more

/-- A backslash and what it escapes stand for one character. -/
theorem StandsFor.escape {c : Char} {text : List Char}
    (h : ∀ more, Scan.escape (text ++ more) = .char c text.length) :
    StandsFor ('\\' :: text) c := by
  intro value taken more
  rw [List.cons_append, Scan.stringBody, if_neg (by decide), if_pos rfl, h]
  simp only
  rw [List.drop_left, List.length_cons]
  congr 1
  omega

/-- A quoted character is read back as itself. -/
theorem standsFor_quoteChar (c : Char) : StandsFor (quoteChar c) c := by
  -- The escapes of single characters: by name, or by four hexadecimal digits.
  have named (meant : Char) (text : List Char)
      (h : ∀ more, Scan.escape (text ++ more) = .char meant text.length) (hc : c = meant) :
      StandsFor ('\\' :: text) c := hc ▸ .escape h
  refine iteInduction (motive := (StandsFor · c)) (named _ _ fun _ => rfl) fun hquote => ?_
  refine iteInduction (motive := (StandsFor · c)) (named _ _ fun _ => rfl) fun hslash => ?_
  refine iteInduction (motive := (StandsFor · c)) (named _ _ fun _ => rfl) fun hline => ?_
  refine iteInduction (motive := (StandsFor · c)) (named _ _ fun _ => rfl) fun _ => ?_
  refine iteInduction (motive := (StandsFor · c)) (named _ _ fun _ => rfl) fun _ => ?_
  refine iteInduction (motive := (StandsFor · c)) (named _ _ fun _ => rfl) fun _ => ?_
  refine iteInduction (motive := (StandsFor · c)) (named _ _ fun _ => rfl) fun _ => ?_
  refine iteInduction (motive := (StandsFor · c)) (named _ ['u', '2', '0', '2', '8'] fun _ => rfl)
    fun _ => ?_
  refine iteInduction (motive := (StandsFor · c)) (named _ ['u', '2', '0', '2', '9'] fun _ => rfl)
    fun _ => ?_
  refine iteInduction (motive := (StandsFor · c)) (fun hc => .escape fun more => ?_) fun _ => ?_
  · have small : c.toNat < 256 := by
      rw [isControl, Bool.or_eq_true, Bool.and_eq_true, decide_eq_true_eq, decide_eq_true_eq,
        decide_eq_true_eq] at hc
      omega
    have hex := hexEscape_hexText small more
    rw [Char.ofNat_toNat] at hex
    exact hex
  · intro value taken more
    rw [List.singleton_append, Scan.stringBody, if_neg hquote, if_neg hslash, if_neg hline]
    rfl

/-- The body of a string literal is read back as the string. -/
theorem stringBody_quote (text value : List Char) (taken : Nat) :
    Scan.stringBody '"' value taken (text.flatMap quoteChar ++ ['"'])
      = (.string (String.ofList (value.reverse ++ text)),
          taken + (text.flatMap quoteChar ++ ['"']).length) := by
  induction text generalizing value taken with
  | nil =>
    rw [List.flatMap_nil, List.nil_append, Scan.stringBody, if_pos rfl, List.append_nil]
    rfl
  | cons c rest ih =>
    rw [List.flatMap_cons, List.append_assoc, standsFor_quoteChar, ih, List.reverse_cons,
      List.append_assoc, List.singleton_append, Nat.add_assoc, ← List.length_append]

/-- A quoted text spells the string it was quoted from. -/
theorem spells_quote (text : String) : spells (.string text) (quote text).toList = true := by
  rw [quote, String.toList_ofList, spells_cons]
  refine ⟨by decide, rfl, ?_⟩
  have body := stringBody_quote text.toList [] 0
  rw [List.reverse_nil, List.nil_append, String.ofList_toList, Nat.zero_add] at body
  exact body

namespace Scan

/-- A token of a program is made by one of four scanners. -/
theorem scanner_of_content {first : Char} {next : Option Char} {text : List Char}
    (h : (scanner first next text).1.isContent = true) :
    scanner first next = stringBody first [] 0 ∨ scanner first next = number first ∨
      (isNameStart first = true ∧ scanner first next = word first) ∨
      scanner first next = punctuator first := by
  rcases scanner_cases first next with hs | hs | hmade
  · rw [hs] at h
    cases h
  · rw [hs, blockComment] at h
    split at h <;> cases h
  · exact hmade

/-- A token with content is a string, a number, a word or a punctuator. -/
theorem token_scanned {first : Char} {rest : List Char}
    (h : (token first rest).1.isContent = true) :
    (token first rest = stringBody first [] 0 rest) ∨
    (token first rest = number first rest) ∨
    (isNameStart first = true ∧ token first rest = word first rest) ∨
    (token first rest = punctuator first rest) := by
  rw [token_eq] at h ⊢
  rcases scanner_of_content h with hs | hs | ⟨name, hs⟩ | hs
  all_goals rw [hs]
  · exact .inl rfl
  · exact .inr (.inl rfl)
  · exact .inr (.inr (.inl ⟨name, rfl⟩))
  · exact .inr (.inr (.inr rfl))

/-- The ways in which a token of a program comes about. Each scanner has kinds of its own. -/
theorem token_cases {first : Char} {rest : List Char}
    (h : (token first rest).1.isContent = true) :
    (∃ text, (token first rest).1 = .string text ∧
      token first rest = stringBody first [] 0 rest) ∨
    (∃ value, (token first rest).1 = .number value ∧ token first rest = number first rest) ∨
    (isNameStart first = true ∧ token first rest = word first rest ∧
      ((∃ name, (token first rest).1 = .identifier name) ∨
        ∃ reserved, (token first rest).1 = .keyword reserved)) ∨
    ∃ symbol, (token first rest).1 = .punctuator symbol ∧
      token first rest = punctuator first rest := by
  rcases token_scanned h with ht | ht | ⟨start, ht⟩ | ht
  · rw [ht] at h ⊢
    rcases stringBody_kind first [] 0 rest with ⟨meant, hk⟩ | ⟨_, hk⟩
    · exact .inl ⟨_, hk, rfl⟩
    · rw [hk] at h
      cases h
  · rw [ht] at h ⊢
    rcases number_kind first rest with ⟨value, hk⟩ | ⟨_, hk⟩
    · exact .inr (.inl ⟨value, hk, rfl⟩)
    · rw [hk] at h
      cases h
  · rw [ht]
    refine .inr (.inr (.inl ⟨start, rfl, ?_⟩))
    rw [word]
    split
    · exact .inr ⟨_, rfl⟩
    · exact .inl ⟨_, rfl⟩
  · rw [ht] at h ⊢
    cases found : Punctuator.longest? (first :: rest) with
    | none =>
      rw [punctuator, found] at h
      cases h
    | some symbol => exact .inr (.inr (.inr ⟨symbol, by rw [punctuator, found], rfl⟩))

end Scan

/-- A name or reserved word is made of name characters. -/
theorem name_of_spells {kind : Token.Kind} {first : Char} {rest : List Char}
    (hs : spells kind (first :: rest) = true)
    (hk : (∃ name, kind = .identifier name) ∨ ∃ word, kind = .keyword word) :
    isNameStart first = true ∧ rest.all isNameChar = true ∧
      Scan.word first rest = (kind, rest.length) := by
  obtain ⟨_, content, token⟩ := spells_cons.mp hs
  have kinds : (Scan.token first rest).1 = kind := by rw [token]
  rw [← kinds] at hk content
  rcases Scan.token_cases content with ⟨_, h, _⟩ | ⟨_, h, _⟩ | ⟨start, h, _⟩ | ⟨_, h, _⟩
  · rcases hk with ⟨_, hk⟩ | ⟨_, hk⟩ <;> rw [h] at hk <;> cases hk
  · rcases hk with ⟨_, hk⟩ | ⟨_, hk⟩ <;> rw [h] at hk <;> cases hk
  · rw [h] at token
    have length : (rest.takeWhile isNameChar).length = rest.length := by
      rw [Scan.word] at token
      split at token <;> exact (Prod.mk.inj token).2
    have whole : rest.takeWhile isNameChar = rest :=
      (List.takeWhile_prefix isNameChar).eq_of_length length
    refine ⟨start, ?_, token⟩
    rw [List.all_eq_true]
    intro c hc
    rw [← whole] at hc
    exact List.mem_takeWhile_imp hc
  · rcases hk with ⟨_, hk⟩ | ⟨_, hk⟩ <;> rw [h] at hk <;> cases hk

/-- A punctuator is spelled in one way. -/
theorem mark_of_spells {symbol : Punctuator} {text : List Char}
    (hs : spells (.punctuator symbol) text = true) : text = symbol.text.toList := by
  cases text with
  | nil => cases hs
  | cons first rest =>
    obtain ⟨_, _, token⟩ := spells_cons.mp hs
    have content : (Scan.token first rest).1.isContent = true := by rw [token]; rfl
    rcases Scan.token_cases content with ⟨_, h, _⟩ | ⟨_, h, _⟩ | ⟨_, _, ⟨_, h⟩ | ⟨_, h⟩⟩ | ⟨_, _, h⟩
    · rw [token] at h
      cases h
    · rw [token] at h
      cases h
    · rw [token] at h
      cases h
    · rw [token] at h
      cases h
    · rw [h] at token
      exact (Scan.text_of_punctuator token).1.symm

/-! ## What a token leaves of the text -/

namespace Scan

/-- A string that is closed does not go beyond the text. -/
theorem stringBody_length_le (quote : Char) (value : List Char) (taken : Nat) (text : List Char)
    (h : (stringBody quote value taken text).1.isContent = true) :
    (stringBody quote value taken text).2 ≤ taken + text.length := by
  fun_induction stringBody quote value taken text with
  | case1 => cases h
  | case2 value taken rest =>
    show taken + 1 ≤ taken + (rest.length + 1)
    omega
  | case3 value taken rest c length he hq ih =>
    have room := escape_length_le (.inl ⟨c, he⟩)
    have bound := ih h
    rw [List.length_drop] at bound
    rw [List.length_cons]
    omega
  | case4 value taken rest length he hq ih =>
    have room := escape_length_le (.inr he)
    have bound := ih h
    rw [List.length_drop] at bound
    rw [List.length_cons]
    omega
  | case5 => cases h
  | case6 => cases h
  | case7 value taken c rest hq hb hn ih =>
    have bound := ih h
    rw [List.length_cons]
    omega

/-- A number does not go beyond the text. -/
theorem number_length_le (first : Char) (rest : List Char) :
    (number first rest).2 ≤ rest.length := by
  rw [number]
  split
  · next hex =>
    have hne : 0 < rest.length := by
      cases rest with
      | nil =>
        rw [List.head?_nil, Option.any_none, Bool.and_false] at hex
        cases hex
      | cons _ _ => exact Nat.succ_pos _
    have digits := (List.takeWhile_sublist (l := rest.drop 1) isHexDigit).length_le
    rw [List.length_drop] at digits
    rw [hexNumber]
    show 1 + ((rest.drop 1).takeWhile isHexDigit).length ≤ rest.length
    omega
  · have length := decimalLength_le (first :: rest)
    rw [List.length_cons] at length
    rw [decimalNumber]
    show decimalLength (first :: rest) - 1 ≤ rest.length
    omega

/-- A token of a program ends within the text. -/
theorem token_length_le {first : Char} {rest : List Char}
    (h : (token first rest).1.isContent = true) : (token first rest).2 ≤ rest.length := by
  rcases token_scanned h with ht | ht | ⟨_, ht⟩ | ht
  · rw [ht] at h ⊢
    have bound := stringBody_length_le first [] 0 rest h
    omega
  · rw [ht]
    exact number_length_le first rest
  · rw [ht, word]
    split <;> exact (List.takeWhile_sublist isNameChar).length_le
  · rw [ht, punctuator]
    split
    · next symbol hs =>
      have fits := List.find?_some hs
      rw [List.isPrefixOf_iff_prefix] at fits
      have length := fits.length_le
      rw [String.length_toList, List.length_cons] at length
      show symbol.text.length - 1 ≤ rest.length
      omega
    · exact Nat.zero_le _

end Scan

end JsPrune
