import JsPrune.Binary64.Decimal

/-!
# Literals of the program text

How numbers, strings and object keys are spelled in a program. Each spelling reads back as what it
stands for, keys excepted whose bare form the lexer splits differently.
-/

namespace JsPrune.Text

/-- A number literal: the shortest digits that read back, positional below `10 ^ 21` and with an
exponent from there on; of two equally near spellings the larger. -/
def numberText (x : Binary64) : String :=
  if x.isNaN then "NaN"
  else
    let sign := if x.isNegative then ['-'] else []
    let body :=
      if x.isInfinite then "Infinity".toList
      else
        let digits := x.shortest .up
        if (Binary64.ofDecimal 1 21).magnitude ≤ x.magnitude then digits.scientific []
        else digits.positional []
    String.ofList (sign ++ body)

/-- Whether `c` is a control character. -/
def isControl (c : Char) : Bool := c.toNat < 0x20 || (0x7F ≤ c.toNat && c.toNat < 0xA0)

/-- One character of a string literal: the short escapes, `\x` for the other control characters,
`\u` for the two line separators, and every other character as it is. -/
def quoteChar (c : Char) : List Char :=
  if c = '"' then ['\\', '"']
  else if c = '\\' then ['\\', '\\']
  else if c = '\n' then ['\\', 'n']
  else if c = '\r' then ['\\', 'r']
  else if c = '\t' then ['\\', 't']
  else if c = '\x08' then ['\\', 'b']
  else if c = '\x0c' then ['\\', 'f']
  else if c = '\u2028' then "\\u2028".toList
  else if c = '\u2029' then "\\u2029".toList
  else if isControl c then '\\' :: 'x' :: hexText 2 c.toNat
  else [c]

/-- A string literal between double quotes. -/
def quote (text : String) : String :=
  String.ofList ('"' :: (text.toList.flatMap quoteChar ++ ['"']))

/-- Whether `key` has the form of a name. -/
def isNameText (key : String) : Bool :=
  match key.toList with
  | [] => false
  | first :: rest => isNameStart first && rest.all isWordChar

/-- Whether `key` is the spelling that its own value would be given. -/
def isCanonicalNumber (key : String) : Bool :=
  match Binary64.readDecimal? key.toList with
  | some value => value.isAtLeastZero && numberText value == key
  | none => false

/-- An object key: bare where it is a name or a number in canonical spelling, quoted elsewhere. -/
def keyText (key : String) : String :=
  if isNameText key || isCanonicalNumber key then key else quote key

theorem exists_of_isNameText {key : String} (h : isNameText key = true) :
    ∃ first rest, key.toList = first :: rest ∧ isNameStart first = true ∧
      rest.all isWordChar = true := by
  unfold isNameText at h
  split at h
  · cases h
  · next first rest hchars =>
    rw [Bool.and_eq_true] at h
    exact ⟨first, rest, hchars, h⟩

theorem exists_of_isCanonicalNumber {key : String} (h : isCanonicalNumber key = true) :
    ∃ value, Binary64.readDecimal? key.toList = some value ∧ value.isAtLeastZero = true ∧
      numberText value = key := by
  unfold isCanonicalNumber at h
  split at h
  · next value hread =>
    rw [Bool.and_eq_true, beq_iff_eq] at h
    exact ⟨value, hread, h⟩
  · cases h

/-- A key is written as a name, as a number literal or as a string literal. -/
theorem keyText_cases (key : String) :
    (∃ first rest, (keyText key).toList = first :: rest ∧ isNameStart first = true ∧
      rest.all isWordChar = true) ∨
    (∃ value, keyText key = numberText value) ∨ keyText key = quote key := by
  unfold keyText
  split
  · next hbare =>
    rw [Bool.or_eq_true] at hbare
    rcases hbare with hname | hnumber
    · exact .inl (exists_of_isNameText hname)
    · obtain ⟨value, _, _, htext⟩ := exists_of_isCanonicalNumber hnumber
      exact .inr (.inl ⟨value, htext.symm⟩)
  · exact .inr (.inr rfl)

end JsPrune.Text
