import JsPrune.Proofs.Keys
import JsPrune.Proofs.Tiling

/-!
# Tokens and the text around them

Every scanner looks at characters behind its token to find the end of it: a number looks for a point
or an exponent, a punctuator for a longer one, a slash for a comment. None of them depends on what it
sees there, as long as the token does end: cut out of its text, the token is still the same token
(`Scan.token_take`), and put in front of a space it is so once more (`Scan.token_append`).

Main result: `tokenize_respaced`. A text may be spaced out, and its comments may go, without a change
to its tokens.
-/

namespace JsPrune

open JsPrune.Source JsPrune.Text

namespace Scan

/-! ## Scanning without the text behind -/

/-- A hexadecimal escape is as long as it should be, or broken. -/
theorem length_of_hexEscape {count length : Nat} {text : List Char}
    (h : (∃ c, hexEscape count text = .char c length) ∨ hexEscape count text = .nothing length) :
    length = count + 1 := by
  unfold hexEscape at h
  dsimp only at h
  split at h
  · rcases h with ⟨_, h⟩ | h <;> cases h
  · split at h
    · rcases h with ⟨_, h⟩ | h
      · cases h
        rfl
      · cases h
    · rcases h with ⟨_, h⟩ | h <;> cases h

/-- An escape reads the same without the text behind it. -/
theorem escape_take {text : List Char} {length : Nat} (more : Nat)
    (h : (∃ c, escape text = .char c length) ∨ escape text = .nothing length) :
    0 < length ∧ escape (text.take (length + more)) = escape text := by
  cases text with
  | nil => rcases h with ⟨_, h⟩ | h <;> cases h
  | cons c rest =>
    have hex (count : Nat) (h : (∃ c, hexEscape count rest = .char c length) ∨
        hexEscape count rest = .nothing length) :
        0 < length ∧ hexEscape count (rest.take (length + more - 1)) = hexEscape count rest := by
      have long := length_of_hexEscape h
      have digits : (rest.take (length + more - 1)).take count = rest.take count := by
        rw [List.take_take, Nat.min_eq_left (by omega)]
      rw [hexEscape, digits, hexEscape]
      exact ⟨by omega, rfl⟩
    have cut (hpos : 0 < length) :
        (c :: rest).take (length + more) = c :: rest.take (length + more - 1) := by
      rw [← List.take_succ_cons]
      congr 1
      omega
    by_cases hx : c = 'x'
    · subst hx
      obtain ⟨hpos, same⟩ := hex 2 h
      exact ⟨hpos, by rw [cut hpos]; exact same⟩
    by_cases hu : c = 'u'
    · subst hu
      obtain ⟨hpos, same⟩ := hex 4 h
      exact ⟨hpos, by rw [cut hpos]; exact same⟩
    -- Any other escape is settled by its first character.
    have short (tail : List Char) : escape (c :: tail) = escape [c] := by
      unfold escape
      simp only [if_neg hx, if_neg hu]
    have hpos : 0 < length := by
      unfold escape at h
      simp only [if_neg hx, if_neg hu] at h
      grind
    exact ⟨hpos, by rw [cut hpos, short, short rest]⟩

theorem le_stringBody (quote : Char) (value : List Char) (taken : Nat) (text : List Char) :
    taken ≤ (stringBody quote value taken text).2 := by
  fun_induction stringBody quote value taken text with
  | case1 => exact Nat.le_refl _
  | case2 => exact Nat.le_succ _
  | case3 _ _ _ _ _ _ _ ih => omega
  | case4 _ _ _ _ _ _ ih => omega
  | case5 => omega
  | case6 => exact Nat.le_refl _
  | case7 _ _ _ _ _ _ _ ih => omega

/-- A string literal reads the same without the text behind it. -/
theorem stringBody_take {quote : Char} {value meant : List Char} {taken length : Nat}
    {text : List Char}
    (h : stringBody quote value taken text = (.string (String.ofList meant), taken + length)) :
    stringBody quote value taken (text.take length)
      = (.string (String.ofList meant), taken + length) := by
  -- Each turn takes its characters from the part that is kept, so the cut comes behind all of them.
  fun_induction stringBody quote value taken text generalizing length with
  | case1 => cases h
  | case2 value taken rest =>
    have one : length = 1 := by
      have := (Prod.mk.inj h).2
      omega
    subst one
    rw [List.take_succ_cons, stringBody, if_pos rfl]
    exact h
  | case3 value taken rest c width he hq ih =>
    have bound := le_stringBody quote (c :: value) (taken + 1 + width) (rest.drop width)
    rw [h] at bound
    obtain ⟨more, rfl⟩ : ∃ more, length = width + more + 1 := ⟨length - 1 - width, by omega⟩
    have kept := (escape_take more (.inl ⟨c, he⟩)).2
    have total : taken + (width + more + 1) = taken + 1 + width + more := by omega
    rw [total] at h ⊢
    rw [List.take_succ_cons, stringBody, if_neg hq, if_pos rfl, kept, he]
    simp only
    rw [List.drop_take, Nat.add_sub_cancel_left]
    exact ih h
  | case4 value taken rest width he hq ih =>
    have bound := le_stringBody quote value (taken + 1 + width) (rest.drop width)
    rw [h] at bound
    obtain ⟨more, rfl⟩ : ∃ more, length = width + more + 1 := ⟨length - 1 - width, by omega⟩
    have kept := (escape_take more (.inr he)).2
    have total : taken + (width + more + 1) = taken + 1 + width + more := by omega
    rw [total] at h ⊢
    rw [List.take_succ_cons, stringBody, if_neg hq, if_pos rfl, kept, he]
    simp only
    rw [List.drop_take, Nat.add_sub_cancel_left]
    exact ih h
  -- A fault is no string.
  | case5 => cases h
  | case6 => cases h
  | case7 value taken c rest hq hb hn ih =>
    have bound := le_stringBody quote (c :: value) (taken + 1) rest
    rw [h] at bound
    obtain ⟨more, rfl⟩ : ∃ more, length = more + 1 := ⟨length - 1, by omega⟩
    have total : taken + (more + 1) = taken + 1 + more := by omega
    rw [total] at h ⊢
    rw [List.take_succ_cons, stringBody, if_neg hq, if_neg hb, if_neg hn]
    exact ih h

variable {first : Char} {rest : List Char}

theorem word_take (first : Char) (rest : List Char) :
    word first (rest.take (word first rest).2) = word first rest := by
  have length : (word first rest).2 = (rest.takeWhile isNameChar).length := by
    rw [word]
    split <;> rfl
  have name : rest.take (rest.takeWhile isNameChar).length = rest.takeWhile isNameChar :=
    (List.prefix_iff_eq_take.mp (List.takeWhile_prefix isNameChar)).symm
  rw [length, name, word, List.takeWhile_idem, word]

theorem hexNumber_take (rest : List Char) :
    hexNumber (rest.take (hexNumber rest).2) = hexNumber rest := by
  have digits : (rest.drop 1).take ((rest.drop 1).takeWhile isHexDigit).length
      = (rest.drop 1).takeWhile isHexDigit :=
    (List.prefix_iff_eq_take.mp (List.takeWhile_prefix isHexDigit)).symm
  rw [hexNumber, hexNumber, List.drop_take, Nat.add_sub_cancel_left, digits, List.takeWhile_idem]

/-- What was read as a number is a literal from one end to the other. -/
theorem decimalNumber_take {value : Binary64} {text : List Char}
    (h : (decimalNumber text).1 = .number value) :
    text.take (decimalLength text) ≠ [] ∧
      decimalNumber (text.take (decimalLength text)) = decimalNumber text := by
  have read : Binary64.readUnsigned? (text.take (decimalLength text)) = some value := by
    unfold decimalNumber at h
    dsimp only at h
    split at h
    · cases h
    · split at h
      · next found hfound =>
        cases h
        exact hfound
      · cases h
  refine ⟨fun none => ?_, ?_⟩
  · rw [none] at read
    cases read
  · have whole := decimalLength_of_readUnsigned? read
    have length := List.length_take_of_le (decimalLength_le text)
    have result : (decimalNumber text).2 = decimalLength text - 1 := rfl
    have pair : decimalNumber text = (.number value, decimalLength text - 1) := Prod.ext h result
    rw [pair, decimalNumber, whole, List.drop_length, List.take_length, length, read]
    rfl

/-- The first character of a text that is cut off, if it still has one. -/
theorem head?_take_cases (text : List Char) (n : Nat) :
    (text.take n).head? = none ∨ (text.take n).head? = text.head? := by
  cases n with
  | zero => exact .inl rfl
  | succ n => cases text <;> exact .inr rfl

theorem number_take {value : Binary64} (h : (number first rest).1 = .number value) :
    number first (rest.take (number first rest).2) = number first rest := by
  unfold number at h ⊢
  split at h
  · next hex =>
    have some : ∃ mark more, rest = mark :: more := by
      cases rest with
      | nil =>
        rw [List.head?_nil, Option.any_none, Bool.and_false] at hex
        cases hex
      | cons mark more => exact ⟨mark, more, rfl⟩
    obtain ⟨mark, more, rfl⟩ := some
    have kept : ((mark :: more).take (hexNumber (mark :: more)).2).head? = (mark :: more).head? := by
      rw [hexNumber, Nat.add_comm 1, List.take_succ_cons]
      rfl
    rw [if_pos hex, kept, if_pos hex, hexNumber_take]
  · next decimal =>
    obtain ⟨some, same⟩ := decimalNumber_take h
    -- The first character is one of the digits, so the cut leaves it alone.
    have positive : 0 < decimalLength (first :: rest) := by
      rw [Nat.pos_iff_ne_zero]
      intro zero
      rw [zero] at some
      exact some rfl
    have cut : (first :: rest).take (decimalLength (first :: rest))
        = first :: rest.take (decimalLength (first :: rest) - 1) := by
      rw [← List.take_succ_cons]
      congr 1
      omega
    have result : (decimalNumber (first :: rest)).2 = decimalLength (first :: rest) - 1 := rfl
    rw [cut] at same
    rw [if_neg decimal, result, if_neg, same]
    rcases head?_take_cases rest (decimalLength (first :: rest) - 1) with none | some
    · rw [none, Option.any_none, Bool.and_false]
      exact Bool.false_ne_true
    · rw [some]
      exact decimal

theorem punctuator_take {symbol : Punctuator} (h : (punctuator first rest).1 = .punctuator symbol) :
    first :: rest.take (punctuator first rest).2 = symbol.text.toList ∧
      punctuator first (rest.take (punctuator first rest).2) = punctuator first rest := by
  cases found : Punctuator.longest? (first :: rest) with
  | none =>
    rw [punctuator, found] at h
    cases h
  | some longest =>
    have scanned : punctuator first rest = (.punctuator longest, longest.text.length - 1) := by
      rw [punctuator, found]
    rw [scanned] at h ⊢
    cases h
    -- The longest one at the start of the whole text is longest at the start of its own.
    have fits := List.find?_some found
    rw [List.isPrefixOf_iff_prefix, List.prefix_iff_eq_take, String.length_toList] at fits
    have positive : 0 < symbol.text.length := by cases symbol <;> decide
    have alone : Punctuator.longest? symbol.text.toList = some symbol := by cases symbol <;> decide
    have cut : first :: rest.take (symbol.text.length - 1) = symbol.text.toList := by
      rw [fits, ← List.take_succ_cons]
      congr 1
      omega
    exact ⟨cut, by rw [punctuator, cut, alone]⟩

/-- **A token stays the token it is** when the text behind it is cut off. -/
theorem token_take (h : (token first rest).1.isContent = true) :
    token first (rest.take (token first rest).2) = token first rest := by
  simp only [token_eq] at h ⊢
  have same : scanner first (rest.take (scanner first rest.head? rest).2).head?
      = scanner first rest.head? := by
    rcases head?_take_cases rest (scanner first rest.head? rest).2 with hnone | hsome
    · rw [hnone]
      rcases scanner_none first rest.head? with
        same | ⟨_, _, line⟩ | ⟨_, _, block⟩ | ⟨hpoint, _, hnumber⟩
      · exact same
      · rw [line] at h
        cases h
      · rw [block, blockComment] at h
        split at h <;> cases h
      · -- A point by itself is no number, so the digit behind it is not cut off.
        rw [hnumber] at h hnone
        obtain ⟨value, hvalue⟩ | ⟨_, hfault⟩ := number_kind first rest
        · have alone := number_take hvalue
          have lone : number '.' [] = (.fault .malformedNumber, 0) := by decide
          rw [List.head?_eq_none_iff.mp hnone, hpoint, lone] at alone
          rw [hpoint, ← alone] at hvalue
          cases hvalue
        · rw [hfault] at h
          cases h
    · rw [hsome]
  rw [same]
  -- From here on each scanner answers for itself.
  rcases scanner_of_content h with hs | hs | ⟨_, hs⟩ | hs
  all_goals rw [hs] at h ⊢
  · obtain ⟨meant, hmeant⟩ | ⟨_, hfault⟩ := stringBody_kind first [] 0 rest
    · have pair : stringBody first [] 0 rest
          = (.string (String.ofList meant), 0 + (stringBody first [] 0 rest).2) :=
        Prod.ext hmeant (Nat.zero_add _).symm
      rw [stringBody_take pair, ← pair]
    · rw [hfault] at h
      cases h
  · obtain ⟨value, hvalue⟩ | ⟨_, hfault⟩ := number_kind first rest
    · exact number_take hvalue
    · rw [hfault] at h
      cases h
  · exact word_take first rest
  · cases found : Punctuator.longest? (first :: rest) with
    | none =>
      rw [punctuator, found] at h
      cases h
    | some symbol =>
      have kinds : (punctuator first rest).1 = .punctuator symbol := by
        rw [punctuator, found]
      exact (punctuator_take kinds).2

end Scan

/-! ## Tokens without the text around them -/

/-- What is read as a token of a program spells that token by itself. -/
theorem spells_token {first : Char} {rest : List Char} (hsolid : isBlank first = false)
    (h : (Scan.token first rest).1.isContent = true) :
    spells (Scan.token first rest).1 (first :: rest.take (Scan.token first rest).2) = true := by
  have length := List.length_take_of_le (Scan.token_length_le h)
  rw [spells_cons, Scan.token_take h, length]
  exact ⟨hsolid, h, rfl⟩

/-- Every token of a program is spelled by the text that it covers. -/
theorem spells_of_mem_tokens {source before : List Char} {lexer : Lexer}
    (hsource : source = before ++ lexer.rest)
    (hposition : lexer.position = Position.start.advance before) :
    ∀ token ∈ lexer.tokens, token.kind.isContent = true →
      spells token.kind (token.span.text source) = true := by
  fun_induction Lexer.tokens lexer generalizing before with
  | case1 lexer heof =>
    intro token hmem hcontent
    rw [List.mem_singleton.mp hmem, heof] at hcontent
    cases hcontent
  | case2 lexer hne ih =>
    obtain ⟨blank, first, rest, hrest, hb, hsolid⟩ := lexer.exists_solid hne
    have step := lexer.next_of_rest hrest hb hsolid
    have cut : first :: rest = first :: rest.take (Scan.token first rest).2
        ++ rest.drop (Scan.token first rest).2 := by
      rw [List.cons_append, List.take_append_drop]
    rw [List.forall_mem_cons]
    constructor
    · rw [step]
      intro hcontent
      have text := text_between (before ++ blank) (first :: rest.take (Scan.token first rest).2)
        (rest.drop (Scan.token first rest).2)
      rw [advance_append, ← hposition, List.append_assoc, ← cut, ← hrest, ← hsource] at text
      rw [text]
      exact spells_token hsolid hcontent
    · refine @ih (before ++ blank ++ first :: rest.take (Scan.token first rest).2) ?_ ?_
      · rw [step, hsource, hrest, cut]
        simp only [List.append_assoc]
      · rw [step, advance_append, advance_append, ← hposition]

theorem spells_of_mem_tokenize {source : String} {token : Token} (hmem : token ∈ tokenize source)
    (hcontent : token.kind.isContent = true) :
    spells token.kind (token.span.text source.toList) = true :=
  @spells_of_mem_tokens source.toList [] (.ofSource source.toList) rfl rfl token hmem hcontent

/-! ## Tokens with single spaces between them -/

/-- Texts that spell tokens keep apart where a space stands between them. -/
theorem splits_intercalate {words : List (Token.Kind × List Char)}
    (h : ∀ word ∈ words, spells word.1 word.2 = true) :
    Splits false ([' '].intercalate (words.map (·.2)))
      (words.map fun word => ⟨word.1, false, word.2⟩) := by
  have apart (kind : Token.Kind) (text more : List Char) (hs : spells kind text = true) :
      ∀ c ∈ (' ' :: more).head?, kind.endsBefore c = true := by
    intro c hc
    cases hc
    exact (endsBefore_blank (content_of_spells hs)).1
  induction words with
  | nil => exact @Splits.finish false [] rfl
  | cons word rest ih =>
    rw [List.forall_mem_cons] at h
    cases rest with
    | nil =>
      have last : Splits false ([] ++ (word.2 ++ [])) [⟨word.1, false, word.2⟩] :=
        .lexeme rfl h.1 nofun (.finish rfl)
      rw [List.nil_append, List.append_nil] at last
      rw [List.map_singleton, List.map_singleton, List.intercalate_singleton]
      exact last
    | cons second rest =>
      have behind : Splits false ([' '] ++ [' '].intercalate ((second :: rest).map (·.2)))
          ((second :: rest).map fun word => ⟨word.1, false, word.2⟩) :=
        .blank_append rfl (ih h.2)
      rw [List.map_cons, List.map_cons, List.intercalate_cons_cons, List.append_assoc]
      exact @Splits.lexeme false [] _ _ _ _ rfl h.1 (apart word.1 word.2 _ h.1) behind

/-- The tokens of a text that make up its program: all but the comments and the end. -/
def programTokens (source : String) : List Token :=
  (tokenize source).filter fun token => !token.kind.isTrivia && token.kind != .eof

/-- The texts of these tokens, with a single space between neighbours. -/
def respaced (source : String) : String :=
  " ".intercalate ((programTokens source).map fun token => String.ofList (token.span.text source.toList))

/-- **Tokens do not depend on the white space and the comments around them**: a text in which every
token is well formed has the same tokens, with the same values, when single spaces take the place
of all that stands between them. -/
theorem tokenize_respaced {source : String}
    (h : ∀ token ∈ tokenize source, ∀ reason, token.kind ≠ .fault reason) :
    (tokenize (respaced source)).map (·.kind)
      = (programTokens source).map (·.kind) ++ [.eof] := by
  let words := (programTokens source).map fun token =>
    (token.kind, token.span.text source.toList)
  have spelled : ∀ word ∈ words, spells word.1 word.2 = true := by
    intro word hword
    obtain ⟨token, htoken, rfl⟩ := List.mem_map.mp hword
    obtain ⟨hmem, hkept⟩ := List.mem_filter.mp htoken
    rw [Bool.and_eq_true, Bool.not_eq_true', bne_iff_ne] at hkept
    refine spells_of_mem_tokenize hmem ?_
    cases hkind : token.kind with
    | comment text =>
      rw [hkind] at hkept
      cases hkept.1
    | eof => exact absurd hkind hkept.2
    | fault reason => exact absurd hkind (h token hmem reason)
    | _ => rfl
  have chars : (respaced source).toList = [' '].intercalate (words.map (·.2)) := by
    rw [respaced, String.toList_intercalate, List.map_map, List.map_map]
    congr 1
    exact List.map_congr_left fun _ _ => String.toList_ofList
  obtain ⟨tokens, finish, htokens, hwords, hfinish⟩ :=
    @tokens_of_splits (respaced source).toList [] (.ofSource (respaced source).toList) _
      (chars ▸ splits_intercalate spelled) rfl rfl
  have kinds : tokens.map (·.kind) = (programTokens source).map (·.kind) := by
    have lexemes := congrArg (List.map (·.kind)) hwords
    rw [List.map_map, List.map_map, List.map_map] at lexemes
    exact lexemes
  rw [tokenize, htokens, List.map_append, kinds, List.map_singleton, hfinish]

theorem tokenize_respaced_cramped :
    (∀ token ∈ tokenize "a+++.5..b/ /*c*/\n0x1fin", ∀ reason, token.kind ≠ .fault reason) ∧
      respaced "a+++.5..b/ /*c*/\n0x1fin" = "a ++ + .5 . . b / 0x1f in" ∧
      (tokenize (respaced "a+++.5..b/ /*c*/\n0x1fin")).map (·.kind)
        = (programTokens "a+++.5..b/ /*c*/\n0x1fin").map (·.kind) ++ [.eof] := by
  have kinds : (tokenize "a+++.5..b/ /*c*/\n0x1fin").map (·.kind)
      = [.identifier "a", .punctuator .increment, .punctuator .plus,
        .number ⟨0x3fe0000000000000⟩, .punctuator .dot, .punctuator .dot, .identifier "b",
        .punctuator .divide, .comment "/*c*/", .number ⟨0x403f000000000000⟩, .keyword .inKw,
        .eof] := by
    decide +kernel
  have fine : ∀ token ∈ tokenize "a+++.5..b/ /*c*/\n0x1fin", ∀ reason, token.kind ≠ .fault reason := by
    intro token hmem reason hfault
    have kind := List.mem_map_of_mem (f := (·.kind)) hmem
    rw [kinds, hfault] at kind
    simp at kind
  exact ⟨fine, by decide +kernel, tokenize_respaced fine⟩

end JsPrune
