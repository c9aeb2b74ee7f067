import JsPrune.Proofs.Parsed
import JsPrune.Proofs.RoundTrip

/-!
# Keys of printed objects

A key is written in one of three ways: bare as a name, bare as a number, or quoted. Which one it is,
the printer decides by tests of its own, and the lexer has to agree with each of them. For a quoted
key that is known. A bare name is a token if every character of it is a name character. A bare number
is a token because it can be read as a number: whatever is read as one takes up its whole text
(`decimalLength_of_readUnsigned?`), so it does not matter how the printer came to its digits.

Two kinds of keys are left over. The printer also takes the numerals beyond ASCII into a bare name,
and it takes the negative zero for a number that needs no sign. These are the miswritten keys
(`isMiswritten`).

Main result: `KeySurvives.intro`. Every other key survives: its text is one token, which is read as
the key, and an object that is printed with it is read with it again.
-/

namespace JsPrune

open ParseM Grammar Text

/-! ## Spellings of numbers -/

theorem drop_digitCount (text : List Char) :
    text.drop (Scan.digitCount text) = text.dropWhile isDigit := by
  have parts := List.takeWhile_append_dropWhile (p := isDigit) (l := text)
  calc text.drop (Scan.digitCount text)
      = (text.takeWhile isDigit ++ text.dropWhile isDigit).drop (Scan.digitCount text) := by rw [parts]
    _ = text.dropWhile isDigit := List.drop_left

theorem digitCount_add_length (text : List Char) :
    Scan.digitCount text + (text.dropWhile isDigit).length = text.length := by
  rw [← drop_digitCount, List.length_drop]
  have := Scan.digitCount_le text
  omega

/-- An exponent that can be read takes up all of its text. -/
theorem exponentLength_of_readExponent? {text : List Char} {exponent : Int}
    (h : Binary64.readExponent? text = some exponent) :
    Scan.exponentLength text = text.length := by
  cases text with
  | nil => rfl
  | cons mark rest =>
    have whole (sign : Nat) {digits : List Char} (hmark : ¬ (mark != 'e' && mark != 'E') = true)
        (hsign : Scan.signLength rest = sign) (hrest : rest.drop sign = digits)
        (hdigits : ¬ (digits.isEmpty || !digits.all isDigit) = true) :
        Scan.exponentLength (mark :: rest) = (mark :: rest).length := by
      rw [Bool.or_eq_true, not_or, List.isEmpty_iff, Bool.not_eq_true', Bool.not_eq_false]
        at hdigits
      have count : Scan.digitCount digits = digits.length := by
        rw [Scan.digitCount, List.takeWhile_eq_self_iff.mpr (List.all_eq_true.mp hdigits.2)]
      have some : digits.length ≠ 0 := fun h => hdigits.1 (List.length_eq_zero_iff.mp h)
      have within := Scan.signLength_le rest
      rw [Scan.exponentLength, if_neg hmark]
      simp only [hsign, hrest, count, if_neg some]
      rw [← hrest, List.length_drop, List.length_cons]
      omega
    unfold Binary64.readExponent? at h
    dsimp only at h
    split at h
    · cases h
    · next hmark =>
      split at h
      · split at h
        · cases h
        · next hdigits => exact whole 1 hmark rfl rfl hdigits
      · split at h
        · cases h
        · next hdigits => exact whole 1 hmark rfl rfl hdigits
      · next plus minus =>
        split at h
        · cases h
        · next hdigits =>
          refine whole 0 hmark ?_ List.drop_zero hdigits
          unfold Scan.signLength
          split
          · next more => exact absurd rfl (plus more)
          · next more => exact absurd rfl (minus more)
          · rfl

/-- A text that can be read as a number is a decimal literal from one end to the other. -/
theorem decimalLength_of_readUnsigned? {text : List Char} {x : Binary64}
    (h : Binary64.readUnsigned? text = some x) : Scan.decimalLength text = text.length := by
  have whole := digitCount_add_length text
  unfold Binary64.readUnsigned? at h
  dsimp only at h
  rw [Scan.decimalLength, ← List.drop_drop, drop_digitCount]
  split at h
  · next more hrest =>
    split at h
    · cases h
    · obtain ⟨exponent, hread, _⟩ := Option.map_eq_some_iff.mp h
      have last := exponentLength_of_readExponent? hread
      have fraction := digitCount_add_length more
      rw [hrest, List.length_cons] at whole
      rw [hrest, Scan.fractionLength, Nat.add_comm 1, List.drop_succ_cons, drop_digitCount]
      simp only at last
      omega
  · next point =>
    split at h
    · cases h
    · obtain ⟨exponent, hread, _⟩ := Option.map_eq_some_iff.mp h
      have last := exponentLength_of_readExponent? hread
      have fraction : Scan.fractionLength (text.dropWhile isDigit) = 0 := by
        unfold Scan.fractionLength
        split
        · next more hrest => exact absurd hrest (point more)
        · rfl
      rw [fraction, List.drop_zero]
      simp only at last
      omega

/-! ## Word characters are not blank -/

theorem exists_range_of_contains {table : Ranges} {code : Nat} (h : table.contains code = true) :
    ∃ range ∈ table, range.1 ≤ code ∧ code ≤ range.2 := by
  fun_induction Ranges.contains table code with
  | case1 => cases h
  | case2 => cases h
  | case3 code first last rest low high => exact ⟨_, List.mem_cons_self .., Nat.not_lt.mp low, high⟩
  | case4 code first last rest low high ih =>
    obtain ⟨range, hmem, hin⟩ := ih h
    exact ⟨range, List.mem_cons_of_mem _ hmem, hin⟩

theorem isBlank_eq_false {c : Char} (h : isWordChar c = true) : isBlank c = false := by
  have apart : ∀ range ∈ blankRanges, ∀ step < range.2 + 1 - range.1,
      isWordChar (Char.ofNat (range.1 + step)) = false := by
    decide +kernel
  rw [Bool.eq_false_iff]
  intro hblank
  obtain ⟨range, hmem, low, high⟩ := exists_range_of_contains hblank
  have none := apart range hmem (c.toNat - range.1) (by omega)
  rw [Nat.add_sub_cancel' low, Char.ofNat_toNat, h] at none
  cases none

/-- A text that starts with a digit and can be read as a number is one number token. -/
theorem spells_of_readUnsigned? {first : Char} {rest : List Char} {x : Binary64}
    (hfirst : isDigit first = true) (h : Binary64.readUnsigned? (first :: rest) = some x) :
    spells (.number x) (first :: rest) = true := by
  have length := decimalLength_of_readUnsigned? h
  have decimal : Scan.decimalNumber (first :: rest) = (.number x, rest.length) := by
    rw [Scan.decimalNumber, length, List.drop_length, List.take_length, h]
    rfl
  have number : Scan.number first rest = (.number x, rest.length) := by
    rw [Scan.number, if_neg, decimal]
    -- The literal would end before the mark of a hexadecimal one.
    rw [Bool.and_eq_true, beq_iff_eq, Option.any_eq_true]
    rintro ⟨rfl, mark, hmark, hx⟩
    cases rest with
    | nil => cases hmark
    | cons _ more =>
      cases hmark
      rw [Bool.or_eq_true, beq_iff_eq, beq_iff_eq] at hx
      rcases hx with rfl | rfl <;> cases length
  have apart : ∀ c : Char, isDigit c = false → (first == c) = false := by
    intro c hc
    rw [beq_eq_false_iff_ne]
    rintro rfl
    rw [hfirst] at hc
    cases hc
  refine spells_cons.mpr ⟨isBlank_eq_false (isWordChar_of_isDigit hfirst), rfl, ?_⟩
  unfold Scan.token
  rw [apart '/' rfl, apart '"' rfl, apart '\x27' rfl, hfirst, number]
  rfl

/-! ## Keys that are written as numbers -/

theorem numberText_negativeZero : numberText (.negative .zero) = "-0" := by decide +kernel

/-- Of the numbers with a sign only the zero is at least zero. -/
theorem eq_negativeZero {x : Binary64} (h : x.isAtLeastZero = true) (hsign : x.isNegative = true) :
    x = .negative .zero := by
  have zero : x.magnitude = 0 := by
    rw [Binary64.isAtLeastZero, hsign, Bool.not_true, Bool.or_false, Bool.and_eq_true] at h
    exact beq_iff_eq.mp h.2
  have high : 2 ^ 63 ≤ x.bits.toNat := decide_eq_true_iff.mp hsign
  have low : x.bits.toNat % 2 ^ 63 = 0 := zero
  have bound := x.bits.toNat_lt
  have bits : x.bits = UInt64.ofNat (2 ^ 63) := by
    apply UInt64.toNat_inj.mp
    rw [show (UInt64.ofNat (2 ^ 63)).toNat = 2 ^ 63 from rfl]
    omega
  cases x with
  | mk word => exact congrArg Binary64.mk bits

/-- An unsigned number starts with a digit or a point. -/
theorem head_of_readUnsigned? {first : Char} {rest : List Char} {x : Binary64}
    (h : Binary64.readUnsigned? (first :: rest) = some x) : isDigit first = true ∨ first = '.' := by
  cases hd : isDigit first with
  | true => exact .inl rfl
  | false =>
    refine .inr ?_
    have stop : ¬ isDigit first = true := by
      rw [hd]
      nofun
    unfold Binary64.readUnsigned? at h
    rw [List.takeWhile_cons_of_neg stop, List.dropWhile_cons_of_neg stop] at h
    dsimp only at h
    split at h
    · next hpoint => exact (List.cons.inj hpoint).1
    · cases h

/-- Unless it is written with a point in front, a number starts with a digit. -/
theorem isDigit_of_readUnsigned? {first : Char} {rest : List Char} {x : Binary64}
    (hfirst : isWordChar first = true) (h : Binary64.readUnsigned? (first :: rest) = some x) :
    isDigit first = true := by
  rcases head_of_readUnsigned? h with hdigit | rfl
  · exact hdigit
  · exact absurd hfirst (by decide +kernel)

/-- A canonical number other than the negative zero is one number token. -/
theorem spells_of_isCanonicalNumber {key : String} (h : isCanonicalNumber key = true)
    (hkey : key ≠ "-0") : ∃ x, spells (.number x) key.toList = true := by
  obtain ⟨x, hread, hzero, htext⟩ := exists_of_isCanonicalNumber h
  rcases head?_numberText x with ⟨hsign, _⟩ | hword
  · rw [eq_negativeZero hzero hsign, numberText_negativeZero] at htext
    exact absurd htext.symm hkey
  · rw [htext] at hword
    cases hchars : key.toList with
    | nil =>
      rw [hchars] at hread
      cases hread
    | cons first rest =>
      rw [hchars] at hread hword
      have word : isWordChar first = true := hword
      have unsigned : Binary64.readUnsigned? (first :: rest) = some x := by
        unfold Binary64.readDecimal? at hread
        split at hread
        · next hfirst =>
          cases hfirst
          exact absurd word (by decide +kernel)
        · next hfirst =>
          cases hfirst
          exact absurd word (by decide +kernel)
        · exact hread
      exact ⟨x, spells_of_readUnsigned? (isDigit_of_readUnsigned? word unsigned) unsigned⟩

/-! ## Keys that are written as names -/

/-- A name is scanned as far as its characters are name characters. -/
theorem word_eq (first : Char) (rest : List Char) :
    (∃ word : Keyword, word.text.toList = first :: rest.takeWhile isNameChar ∧
      Scan.word first rest = (.keyword word, (rest.takeWhile isNameChar).length)) ∨
    Scan.word first rest = (.identifier (String.ofList (first :: rest.takeWhile isNameChar)),
      (rest.takeWhile isNameChar).length) := by
  rw [Scan.word]
  split
  · next word hword =>
    have same := List.find?_some
      (p := fun other : Keyword => other.text == String.ofList (first :: rest.takeWhile isNameChar))
      hword
    exact .inl ⟨word, by rw [beq_iff_eq.mp same, String.toList_ofList], rfl⟩
  · exact .inr rfl

/-- A text of name characters is a token that stands for it as a key. -/
theorem spells_of_nameChars {key : String} {first : Char} {rest : List Char}
    (hkey : key.toList = first :: rest) (hfirst : isNameStart first = true)
    (hrest : rest.all isNameChar = true) :
    ∃ kind, spells kind key.toList = true ∧ keyName? kind key = some key := by
  have solid := isBlank_eq_false (isWordChar_of_isNameStart hfirst)
  have token := token_of_isNameStart hfirst rest
  have whole : rest.takeWhile isNameChar = rest :=
    List.takeWhile_eq_self_iff.mpr (List.all_eq_true.mp hrest)
  rw [hkey]
  rcases word_eq first rest with ⟨word, htext, hword⟩ | hname
  · rw [whole] at htext hword
    refine ⟨.keyword word, spells_cons.mpr ⟨solid, rfl, token.trans hword⟩, ?_⟩
    rw [keyName?, ← String.toList_inj.mp (htext.trans hkey.symm)]
  · rw [whole, ← hkey, String.ofList_toList] at hname
    exact ⟨.identifier key, spells_cons.mpr ⟨solid, rfl, token.trans hname⟩, rfl⟩

/-! ## Keys that can be read -/

/-- The pieces of an object with one entry, whose key is quoted. -/
def quotedEntry (key : String) : List Piece :=
  [.text "\x7b", .text (quote key), .text ":", .space, .text "x", .text "\x7d"]

/-- Every string can be the key of an object that is read. -/
theorem parse_quotedEntry (key : String) : parseExpression (Layout.compact.render (quotedEntry key))
    = .ok (.object [.property key (.identifier "x")]) := by
  have name : kindOf "x" = .identifier "x" := kindOf_of_spells (by decide)
  have value : Phrase false 0 1 2 false true [.text "x"] (.identifier "x") :=
    (Phrase.leaf false true (by rw [name]; rfl)).relax (by omega) (Nat.le_refl 1) id
  have entry : ReadAsEntry false 1 [.text (quote key), .text ":", .space, .text "x"]
      (.property key (.identifier "x")) :=
    .intro (by rw [kindOf_of_spells (spells_quote key)]; rfl) value
  have phrase : Phrase false 2 0 18 false true (quotedEntry key)
      (.object [.property key (.identifier "x")]) :=
    .object (.cons entry .nil) false true
  have flows : Follows (quotedEntry key) := by
    have last : Closed [.text "x"] := closed_name (lexesAs_of_spells (by decide))
    exact .cons closed_braceOpen.runs.follows (.cons (closed_quote key).runs.follows
      (.cons closed_colon.runs.follows
        (.space (.cons last.runs.follows closed_braceClose.runs.follows))))
  obtain ⟨last, _, hflows⟩ := flows .free rfl
  have reads := phrase.reads_expression fun _ : True => ⟨by decide, by decide⟩
  exact (reads.run (shows_render .compact hflows)).resolve_right fun ⟨refused, _⟩ => refused trivial

/-! ## Keys that can be read back -/

/-- Keys that are written bare although no token spells them: the negative zero, and names with a
numeral that the lexer does not take into a name. -/
def isMiswritten (key : String) : Bool :=
  key == "-0" || (isNameText key && !key.toList.all isNameChar)

/-- Any other key is written as one token that stands for it. -/
theorem spells_of_not_miswritten {key : String} (h : isMiswritten key = false) :
    ∃ kind, spells kind (keyText key).toList = true ∧ keyName? kind (keyText key) = some key := by
  rw [isMiswritten, Bool.or_eq_false_iff, beq_eq_false_iff_ne] at h
  obtain ⟨hzero, hname⟩ := h
  unfold keyText
  split
  · next hbare =>
    by_cases name : isNameText key = true
    · rw [name, Bool.true_and, Bool.not_eq_false'] at hname
      obtain ⟨first, rest, hchars, hfirst, _⟩ := exists_of_isNameText name
      rw [hchars, List.all_cons, Bool.and_eq_true] at hname
      exact spells_of_nameChars hchars hfirst hname.2
    · have canonical := (Bool.or_eq_true .. ▸ hbare).resolve_left name
      obtain ⟨x, hx⟩ := spells_of_isCanonicalNumber canonical hzero
      exact ⟨.number x, hx, rfl⟩
  · exact ⟨.string key, spells_quote key, rfl⟩

/-- Whether a token of this kind can be the key of an entry. -/
def Token.Kind.isKey : Token.Kind → Bool
  | .identifier _ => true
  | .keyword _ => true
  | .string _ => true
  | .number _ => true
  | _ => false

theorem isKey_of_keyName? {kind : Token.Kind} {spelling key : String}
    (h : keyName? kind spelling = some key) : kind.isKey = true := by
  unfold keyName? at h
  split at h
  case h_5 => cases h
  all_goals rfl

/-- A key comes back from the text it is written as. -/
structure KeySurvives (key : String) : Prop where
  /-- With a colon behind it, it is one token that can be a key, and the colon. -/
  tokens : ∃ name colon finish, tokenize (keyText key ++ ":") = [name, colon, finish] ∧
    name.kind.isKey = true ∧ colon.kind = .punctuator .colon ∧ finish.kind = .eof
  /-- A parser reads it as it was, up to the colon. -/
  read : ∀ start : Source.Span, ∃ after : Parser,
    Grammar.key start (Parser.ofSource (keyText key ++ ":")) = .ok key after ∧
      after.at? .colon = true
  /-- An object that is printed with it is read with the same key. -/
  reparsed : ∀ (before behind : List Node) (value : Node) (layout : Layout),
    (∀ entry ∈ before ++ behind, entry.Printable ∧ entry.kind = .objectProperty) →
    value.Printable → value.kind.isExpression = true →
    let printed := (Node.object (before ++ .property key value :: behind)).print layout
    parseExpression printed = .ok (.object
        (before.map Node.braced ++ .property key value.braced :: behind.map Node.braced)) ∨
      (Node.safeDepth < (Node.object (before ++ .property key value :: behind)).depth ∧
        IsNestingError (parseExpression printed))

namespace Node

theorem printable_property {key : String} {value : Node} {kind : Token.Kind}
    (hs : spells kind (keyText key).toList = true)
    (hkey : keyName? kind (keyText key) = some key) (h : value.Printable)
    (hkind : value.kind.isExpression = true) : (property key value).Printable := by
  refine .intro (slotsAccept_iff.mpr ?_) ⟨kind, lexesAs_of_spells hs, hkey⟩ ?_
  · intro field part hmem child hchild
    rcases hmem with _ | ⟨_, _ | ⟨_, ⟨⟩⟩⟩
    · cases hchild
    · rw [List.mem_singleton.mp hchild]
      exact ⟨_, rfl, hkind⟩
  · exact List.forall_mem_singleton.mpr h

theorem printable_object {entries : List Node}
    (h : ∀ entry ∈ entries, entry.Printable ∧ entry.kind = .objectProperty) :
    (object entries).Printable := by
  refine .intro (slotsAccept_iff.mpr ?_) trivial ?_
  · intro field part hmem child hchild
    rcases hmem with _ | ⟨_, ⟨⟩⟩
    refine ⟨_, rfl, ?_⟩
    rw [(h child hchild).2]
    rfl
  · intro child hchild
    exact (h child (by simpa [children, parts, Part.nodes] using hchild)).1

theorem braced_property (key : String) (value : Node) :
    (property key value).braced = property key value.braced := by
  rw [braced_eq]
  rfl

theorem braced_object (entries : List Node) :
    (object entries).braced = object (entries.map braced) := by
  rw [braced_eq]
  rfl

end Node

section Survives

variable {key : String}

/-- What stands in front of a colon splits off from it. -/
theorem splits_keyText {kind : Token.Kind} (hs : spells kind (keyText key).toList = true)
    (hkey : keyName? kind (keyText key) = some key) :
    Splits false (keyText key ++ ":").toList [⟨kind, false, (keyText key).toList⟩,
      ⟨.punctuator .colon, false, [':']⟩] := by
  have colon : Splits false ([] ++ ([':'] ++ [])) [⟨.punctuator .colon, false, [':']⟩] :=
    .lexeme rfl (spells_mark .colon) nofun (.finish rfl)
  have both : Splits false ([] ++ ((keyText key).toList ++ [':']))
      [⟨kind, false, (keyText key).toList⟩, ⟨.punctuator .colon, false, [':']⟩] := by
    refine .lexeme rfl hs ?_ colon
    rintro _ ⟨⟩
    have apart : isWordChar ':' = false := by decide +kernel
    cases kind with
    | identifier _ => rw [Token.Kind.endsBefore, apart]; rfl
    | keyword _ => rw [Token.Kind.endsBefore, apart]; rfl
    | string _ => rfl
    | number _ => rw [Token.Kind.endsBefore, apart]; rfl
    | _ => cases hkey
  rw [String.toList_append]
  exact both

theorem KeySurvives.intro (h : isMiswritten key = false) : KeySurvives key := by
  obtain ⟨kind, hs, hkey⟩ := spells_of_not_miswritten h
  have splits := splits_keyText hs hkey
  -- To the lexer the key is one token, to the grammar a key, and in a whole object it is part of a
  -- printable tree.
  refine ⟨?_, fun start => ?_, ?_⟩
  · obtain ⟨tokens, finish, htokens, hwords, hfinish⟩ :=
      @tokens_of_splits (keyText key ++ ":").toList [] (.ofSource (keyText key ++ ":").toList) _
        splits rfl rfl
    obtain ⟨name, rest, rfl, hname, hrest⟩ := List.map_eq_cons_iff.mp hwords
    obtain ⟨colon, rfl, hcolon⟩ := List.map_eq_singleton_iff.mp hrest
    have name_kind : name.kind = kind := congrArg Lexeme.kind hname
    exact ⟨name, colon, finish, htokens, by rw [name_kind]; exact isKey_of_keyName? hkey,
      congrArg Lexeme.kind hcolon, hfinish⟩
  · have shows := shows_ofSource splits
    have kinds := kindOf_of_spells hs
    rw [← kinds] at hkey shows
    rcases @reads_key True start _ _ _ _ _ hkey _ shows with
      ⟨after, hread, hafter⟩ | ⟨refused, _⟩
    · refine ⟨after, hread, ?_⟩
      rw [Parser.at?, hafter.kind_current]
      rfl
    · exact absurd trivial refused
  · intro before behind value layout hothers hvalue hkind
    have entry := Node.printable_property hs hkey hvalue hkind
    have object : (Node.object (before ++ .property key value :: behind)).Printable := by
      refine Node.printable_object (List.forall_mem_append.mpr ⟨?_, List.forall_mem_cons.mpr
        ⟨⟨entry, rfl⟩, ?_⟩⟩)
      · exact (List.forall_mem_append.mp hothers).1
      · exact (List.forall_mem_append.mp hothers).2
    have reads := object.reads_expression rfl layout.beautify layout.terminates
    rw [Node.braced_object, List.map_append, List.map_cons, Node.braced_property] at reads
    refine (reads.run (object.shows_print layout)).imp_right ?_
    rintro ⟨hroom, refused⟩
    rw [Node.depth_eq]
    exact ⟨Node.safeDepth_lt_of_not_room hroom, refused⟩

end Survives

end JsPrune
