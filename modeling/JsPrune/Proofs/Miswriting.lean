import JsPrune.Proofs.Keys

/-!
# Keys that are lost

A miswritten key is printed bare and not read back. The negative zero starts with a sign, which no
key does. A name with a foreign numeral ends before the numeral, and the numeral starts no token, so
there is no colon behind the name (`token_of_miswritten`).

That a text is refused is shown along the parser's way to the key. `Parser.At` says where the parser
stands, by the characters before it, and `Fails` says of a step that it does not succeed there; a
sequence of steps fails with its first one.

Main result: `keySurvives_iff`. A key survives if and only if it is not miswritten, and an object that
is printed with a miswritten key in front is refused as a whole.
-/

namespace JsPrune

open ParseM Grammar Text Source

/-! ## Characters that only a printer takes into a name -/

/-- A word character that is no name character starts no token. -/
theorem token_of_foreign {c : Char} (hword : isWordChar c = true) (hname : isNameChar c = false)
    (rest : List Char) : Scan.token c rest = (.fault (.unexpectedCharacter c), 0) := by
  have apart : ∀ other : Char, isWordChar other = false → (c == other) = false := by
    intro other hother
    rw [beq_eq_false_iff_ne]
    rintro rfl
    rw [hword] at hother
    cases hother
  rw [isNameChar, Bool.or_eq_false_iff] at hname
  have none : Punctuator.longest? (c :: rest) = none := by
    have marks : ∀ symbol ∈ Punctuator.all,
        symbol.text.toList.head?.any (fun first => !isWordChar first) = true := by
      decide +kernel
    rw [Punctuator.longest?, List.find?_eq_none]
    intro symbol hmem hprefix
    have first := marks symbol hmem
    cases htext : symbol.text.toList with
    | nil =>
      rw [htext] at first
      cases first
    | cons start more =>
      rw [htext] at first hprefix
      rw [List.isPrefixOf_cons_cons, Bool.and_eq_true, beq_iff_eq] at hprefix
      rw [List.head?_cons, Option.any_some, hprefix.1, hword] at first
      cases first
  unfold Scan.token
  rw [apart '/' (by decide +kernel), apart '"' (by decide +kernel), apart '\x27' (by decide +kernel),
    apart '.' (by decide +kernel), hname.1, hname.2]
  simp only [Bool.false_and, Bool.false_or, Bool.false_eq_true, if_false]
  rw [Scan.punctuator, none]

/-! ## Where a parser stands -/

/-- The current token starts with `first`, at a text that goes on with `rest`, and nothing has been
read behind it. -/
structure Parser.At (parser : Parser) (first : Char) (rest : List Char) : Prop where
  kind : parser.current.kind = (Scan.token first rest).1
  peeked : parser.peeked = none
  behind : parser.lexer.rest = rest.drop (Scan.token first rest).2

theorem nextSignificant_of_solid {lexer : Lexer} {first : Char} {rest : List Char}
    (hrest : lexer.rest = first :: rest) (hsolid : isBlank first = false)
    (htrivia : (Scan.token first rest).1.isTrivia = false) :
    lexer.nextSignificant.1.kind = (Scan.token first rest).1 ∧
      lexer.nextSignificant.2.rest = rest.drop (Scan.token first rest).2 := by
  have next : lexer.next.1.kind = (Scan.token first rest).1 ∧
      lexer.next.2.rest = rest.drop (Scan.token first rest).2 := by
    have parts : lexer.rest = [] ++ first :: rest := hrest
    rw [lexer.next_of_rest parts rfl hsolid]
    exact ⟨rfl, rfl⟩
  rw [Lexer.nextSignificant, dif_neg (by rw [next.1, htrivia]; nofun)]
  exact next

namespace Parser.At

variable {parser : Parser} {first c : Char} {rest tail : List Char}

theorem ofSource {source : String} (h : source.toList = first :: rest) (hsolid : isBlank first = false)
    (htrivia : (Scan.token first rest).1.isTrivia = false) : (Parser.ofSource source).At first rest := by
  obtain ⟨hkind, hbehind⟩ :=
    @nextSignificant_of_solid (.ofSource source.toList) _ _ h hsolid htrivia
  exact ⟨hkind, rfl, hbehind⟩

theorem advance (h : parser.At first rest) (hdrop : rest.drop (Scan.token first rest).2 = c :: tail)
    (hsolid : isBlank c = false) (htrivia : (Scan.token c tail).1.isTrivia = false) :
    parser.advance.At c tail := by
  obtain ⟨hkind, hbehind⟩ := nextSignificant_of_solid (h.behind.trans hdrop) hsolid htrivia
  rw [Parser.advance, h.peeked]
  exact ⟨hkind, rfl, hbehind⟩

theorem setDepth (h : parser.At first rest) (nesting deep : Nat) :
    (parser.setDepth nesting deep).At first rest :=
  ⟨h.kind, h.peeked, h.behind⟩

end Parser.At

/-! ## Reading a key, from its end -/

/-- What was read as a key is what the token stands for, and nothing else was read. -/
theorem of_key {start : Span} {parser after : Parser} {name : String}
    (h : Grammar.key start parser = .ok name after) :
    keyName? parser.current.kind (String.ofList (parser.current.span.text parser.source)) = some name ∧
      after = parser.advance := by
  have run := (Reads.run_token_bind _ parser).symm.trans h
  dsimp only at run
  cases hk : parser.current.kind with
  | identifier _ | string _ | keyword _ | number _ =>
    rw [hk] at run
    cases run
    exact ⟨rfl, rfl⟩
  | _ =>
    rw [hk] at run
    cases run

/-! ## Miswritten keys -/

theorem keyText_of_miswritten {key : String} (h : isMiswritten key = true) : keyText key = key := by
  rw [isMiswritten, Bool.or_eq_true, beq_iff_eq, Bool.and_eq_true] at h
  rcases h with rfl | ⟨name, _⟩
  · decide +kernel
  · rw [keyText, name]
    rfl

/-- A list of which not all are in the class is cut before the first that is not. -/
theorem split_of_not_all {p : Char → Bool} {text : List Char} (h : text.all p = false) :
    ∃ taken c tail, text = taken ++ c :: tail ∧ taken.all p = true ∧ p c = false := by
  have parts := List.takeWhile_append_dropWhile (p := p) (l := text)
  have head := List.head?_dropWhile_not p text
  cases hdrop : text.dropWhile p with
  | nil =>
    have all := List.all_eq_true.mpr (List.dropWhile_eq_nil_iff.mp hdrop)
    rw [h] at all
    cases all
  | cons c tail =>
    rw [hdrop] at parts head
    exact ⟨_, c, tail, parts.symm, List.all_takeWhile, head⟩

/-- A name with a foreign character is read as a shorter name, and behind it nothing is a token. -/
theorem token_of_foreignName {first : Char} {chars : List Char} (start : isNameStart first = true)
    (words : chars.all isWordChar = true) (foreign : chars.all isNameChar = false)
    (more : List Char) : (Scan.token first (chars ++ more)).1.isKey = true ∧ ∃ c tail,
      (chars ++ more).drop (Scan.token first (chars ++ more)).2 = c :: tail ∧ isBlank c = false ∧
        Scan.token c tail = (.fault (.unexpectedCharacter c), 0) := by
  obtain ⟨taken, c, tail, rfl, htaken, hc⟩ := split_of_not_all foreign
  have word : isWordChar c = true :=
    List.all_eq_true.mp words c (List.mem_append_right _ (List.mem_cons_self ..))
  have name : (taken ++ c :: (tail ++ more)).takeWhile isNameChar = taken :=
    takeWhile_append_of_all htaken (by rintro _ ⟨⟩; exact hc)
  have scanned : (Scan.word first (taken ++ c :: (tail ++ more))).1.isKey = true ∧
      (Scan.word first (taken ++ c :: (tail ++ more))).2 = taken.length := by
    have word := word_eq first (taken ++ c :: (tail ++ more))
    rw [name] at word
    rcases word with ⟨_, _, hword⟩ | hname
    · rw [hword]
      exact ⟨rfl, rfl⟩
    · rw [hname]
      exact ⟨rfl, rfl⟩
  rw [List.append_assoc, List.cons_append, token_of_isNameStart start, scanned.2, List.drop_left]
  exact ⟨scanned.1, c, tail ++ more, rfl, isBlank_eq_false word, token_of_foreign word hc _⟩

/-- In front of a colon a miswritten key starts with a token that is no key, or with a shorter name and
a character that starts no token. -/
theorem token_of_miswritten {key : String} (h : isMiswritten key = true) (more : List Char) :
    ∃ first rest, key.toList ++ ':' :: more = first :: rest ∧ isBlank first = false ∧
      ((Scan.token first rest).1 = .punctuator .minus ∨
        ((Scan.token first rest).1.isKey = true ∧ ∃ c tail,
          rest.drop (Scan.token first rest).2 = c :: tail ∧ isBlank c = false ∧
            Scan.token c tail = (.fault (.unexpectedCharacter c), 0))) := by
  rw [isMiswritten, Bool.or_eq_true, beq_iff_eq, Bool.and_eq_true, Bool.not_eq_true'] at h
  rcases h with rfl | ⟨name, foreign⟩
  · have minus : Scan.token '-' ([] ++ '0' :: ':' :: more) = (.punctuator .minus, 0) :=
      Scan.token_append (by decide +kernel) (by rintro _ ⟨⟩; decide)
    rw [List.nil_append] at minus
    exact ⟨'-', '0' :: ':' :: more, rfl, by decide, .inl (by rw [minus])⟩
  · obtain ⟨first, rest, hchars, start, words⟩ := exists_of_isNameText name
    -- The first character is a name character, so the foreign one is behind it.
    rw [hchars, List.all_cons, isNameChar, start, Bool.true_or, Bool.true_and] at foreign
    rw [hchars]
    exact ⟨first, rest ++ ':' :: more, rfl, isBlank_eq_false (isWordChar_of_isNameStart start),
      .inr (token_of_foreignName start words foreign _)⟩

section Lost

variable {key : String} {first : Char} {rest more : List Char} {parser : Parser}

/-- Such a token is no comment and closes no object. -/
theorem solid_of_miswritten (h : isMiswritten key = true)
    (hchars : key.toList ++ ':' :: more = first :: rest) : isBlank first = false ∧
      (Scan.token first rest).1.isTrivia = false ∧
      (Scan.token first rest).1 ≠ .punctuator .braceClose := by
  obtain ⟨_, _, heq, hsolid, hminus | ⟨hkey, _⟩⟩ := token_of_miswritten h more
  · cases hchars.symm.trans heq
    rw [hminus]
    exact ⟨hsolid, rfl, nofun⟩
  · cases hchars.symm.trans heq
    refine ⟨hsolid, ?_, fun hclose => ?_⟩
    · cases hk : (Scan.token first rest).1 <;> rw [hk] at hkey <;> first
        | rfl
        | cases hkey
    · rw [hclose] at hkey
      cases hkey

/-- No entry starts with a miswritten key: if a key can be read at all, there is no colon behind it. -/
theorem no_colon_of_miswritten (h : isMiswritten key = true)
    (hchars : key.toList ++ ':' :: more = first :: rest) (hp : parser.At first rest) {start : Span}
    {name : String} {after : Parser} (hread : Grammar.key start parser = .ok name after) :
    after.current.kind ≠ .punctuator .colon := by
  obtain ⟨hname, rfl⟩ := of_key hread
  obtain ⟨_, _, heq, _, hminus | ⟨_, c, tail, hdrop, hsolid, hfault⟩⟩ := token_of_miswritten h more
  · cases hchars.symm.trans heq
    rw [hp.kind, hminus] at hname
    cases hname
  · cases hchars.symm.trans heq
    have next := hp.advance hdrop hsolid (by rw [hfault]; rfl)
    rw [next.kind, hfault]
    nofun

theorem not_keySurvives (h : isMiswritten key = true) : ¬ KeySurvives key := by
  intro survives
  obtain ⟨first, rest, hchars, _⟩ := token_of_miswritten h []
  obtain ⟨hsolid, htrivia, _⟩ := solid_of_miswritten h hchars
  obtain ⟨after, hread, hcolon⟩ := survives.read (.between .start .start)
  rw [keyText_of_miswritten h] at hread
  have source : (key ++ ":").toList = first :: rest := by
    rw [String.toList_append]
    exact hchars
  exact no_colon_of_miswritten h hchars (.ofSource source hsolid htrivia) hread
    (beq_iff_eq.mp hcolon)

end Lost

/-! ## Steps that fail -/

/-- The step does not succeed where the parser stands. -/
def Fails {α : Type} (step : ParseM α) (parser : Parser) : Prop :=
  ∀ value after, step parser ≠ .ok value after

namespace Fails

variable {α β : Type} {step : ParseM α} {next : α → ParseM β} {parser : Parser}

/-- Nothing comes after a step that fails. -/
theorem bind (h : Fails step parser) : Fails (step >>= next) parser := by
  intro value after hrun
  obtain ⟨a, middle, hstep, _⟩ := ok_of_bind hrun
  exact h a middle hstep

theorem after (h : ∀ a middle, step parser = .ok a middle → Fails (next a) middle) :
    Fails (step >>= next) parser := by
  intro value last hrun
  obtain ⟨a, middle, hstep, hrest⟩ := ok_of_bind hrun
  exact h a middle hstep value last hrest

theorem rounds_bind {next : Nat → ParseM β} (h : ∀ count, Fails (next (count + 1)) parser) :
    Fails (rounds >>= next) parser :=
  h (parser.lexer.rest.length + 3)

theorem token_bind {next : Token → ParseM β} (h : Fails (next parser.current) parser) :
    Fails (token >>= next) parser :=
  h

theorem nested (h : ∀ nesting deep, Fails step (parser.setDepth nesting deep)) :
    Fails (ParseM.nested step) parser := by
  intro value after hrun
  rw [ParseM.nested] at hrun
  split at hrun
  · cases hrun
  · split at hrun
    · next hstep => exact h _ _ _ _ hstep
    · cases hrun

theorem chained (h : Fails step parser) : Fails (ParseM.chained step) parser :=
  after fun _ _ hget => by
    cases hget
    exact bind h

theorem expect {symbol : Punctuator} (h : parser.current.kind ≠ .punctuator symbol) :
    Fails (ParseM.expect symbol) parser := by
  intro value after hrun
  obtain ⟨sees, middle, hsees, hrun⟩ := ok_of_bind hrun
  cases hsees
  rw [if_neg] at hrun
  · cases hrun
  · intro hat
    exact h (beq_iff_eq.mp hat)

end Fails

/-- An object whose first entry can not be read. -/
theorem fails_object {parser : Parser} {inner : Level}
    (hopen : parser.current.kind = .punctuator .braceOpen)
    (hclose : parser.advance.current.kind ≠ .punctuator .braceClose)
    (h : ∀ start, Fails (entry inner start) parser.advance) : Fails (Grammar.object inner) parser := by
  have opens : parser.at? .braceOpen = true := beq_iff_eq.mpr hopen
  have ongoing : ¬ parser.advance.at? .braceClose = true := fun hat => hclose (beq_iff_eq.mp hat)
  refine .token_bind (.after fun _ middle hexpect => ?_)
  obtain rfl : middle = parser.advance := by
    obtain ⟨sees, _, hsees, hrun⟩ := ok_of_bind hexpect
    cases hsees
    rw [if_pos opens] at hrun
    cases hrun
    rfl
  refine .rounds_bind fun count => .bind (.after fun sees _ hsees => ?_)
  cases hsees
  rw [if_neg ongoing]
  exact .bind (h _)

/-- An expression that starts with such an object. -/
theorem fails_expressionM {parser : Parser} {first : Char} {rest : List Char}
    (hp : parser.At first rest) (hopen : (Scan.token first rest).1 = .punctuator .braceOpen)
    (h : ∀ (inner : Level) (last : Parser), last.At first rest → Fails (Grammar.object inner) last) :
    Fails Parser.expressionM parser := by
  have levels : Level.ofNat maxNesting = (Level.ofNat (maxNesting - 1)).around := rfl
  -- From the expression down to the object no rule takes a token before the next one is entered.
  have operand (inner : Level) {last : Parser} (hl : last.At first rest) :
      Fails (unary inner) last := by
    refine .token_bind ?_
    rw [hl.kind, hopen]
    refine .bind (.chained (.bind (.after fun sees _ hsees => ?_)))
    cases hsees
    rw [Parser.atWord?, hl.kind, hopen]
    refine .token_bind ?_
    rw [hl.kind, hopen]
    exact h inner last hl
  have assigned (inner : Level) {last : Parser} (hl : last.At first rest) :
      Fails (Grammar.assignment inner false) last := by
    refine .token_bind (.bind (.bind ?_))
    rw [binary, climb_eq]
    exact .chained (.bind (operand inner hl))
  refine .bind (.rounds_bind fun count => .bind (.bind ?_))
  rw [levels]
  exact .nested fun nesting deep => assigned _ (hp.setDepth nesting deep)

/-! ## Printed objects -/

/-- An object that is printed starts with its brace and its first key. -/
theorem toList_print_object (key : String) (value : Node) (behind : List Node) (layout : Layout) :
    ∃ more, ((Node.object (.property key value :: behind)).print layout).toList
      = '\x7b' :: ((keyText key).toList ++ ':' :: more) := by
  obtain ⟨tail, pieces⟩ : ∃ tail, (Node.object (.property key value :: behind)).pieces layout.terminates
      = .text "\x7b" :: .text (keyText key) :: .text ":" :: tail := by
    have isExpression : (Node.object (.property key value :: behind)).kind.isExpression = true := rfl
    rw [Node.pieces, Node.asItself, if_pos isExpression, Node.asExpression, Bool.false_and,
      Bool.or_false, if_neg (by simp), Node.emit, Node.emitFragments, Node.asItself,
      if_neg (fun h => by cases h), Node.asStatement, if_neg (fun h => by cases h), Node.emit]
    exact ⟨_, rfl⟩
  -- Neither the brace nor the colon is a word character, so no blank is written between the three.
  have word : isWordChar '\x7b' = false ∧ isWordChar ':' = false := by decide +kernel
  have first : ∀ content, Piece.gap ['\x7b'] content = [] := by
    intro content
    cases content with
    | nil => rfl
    | cons c rest =>
      rw [Piece.gap, Piece.fuses, word.1]
      rfl
  have second : ∀ written, Piece.gap written [':'] = [] := by
    intro written
    cases written with
    | nil => rfl
    | cons c rest =>
      rw [Piece.gap, Piece.fuses, word.2, Bool.and_false, if_neg]
      simp
  have laid : layout.laid none (.text "\x7b" :: .text (keyText key) :: .text ":" :: tail)
      = '\x7b' :: ((keyText key).toList ++ ':' :: layout.laid (some ':') tail) := by
    have brace : ("\x7b".toList.getLast?.or none).toList = ['\x7b'] := rfl
    have colon : ":".toList = [':'] := rfl
    rw [Layout.laid, Layout.laid, Layout.laid, brace, colon, first, second]
    rfl
  rw [Node.print, Layout.render, String.toList_ofList, Layout.foldl_write, pieces]
  exact ⟨_, laid⟩

/-- What is printed of an object whose first key is miswritten is no expression. -/
theorem not_parsed_of_miswritten {key : String} (h : isMiswritten key = true) (value : Node)
    (behind : List Node) (layout : Layout) (tree : Node) :
    parseExpression ((Node.object (.property key value :: behind)).print layout) ≠ .ok tree := by
  obtain ⟨more, htext⟩ := toList_print_object key value behind layout
  obtain ⟨first, rest, hchars, _⟩ := token_of_miswritten h more
  obtain ⟨hsolid, htrivia, hclose⟩ := solid_of_miswritten h hchars
  rw [keyText_of_miswritten h, hchars] at htext
  have brace : Scan.token '\x7b' (first :: rest) = (.punctuator .braceOpen, 0) := by
    have alone : Scan.token '\x7b' [] = (.punctuator .braceOpen, 0) := by decide +kernel
    refine Scan.token_append alone fun c _ => endsBefore_punctuator ?_ nofun nofun
    rw [show Punctuator.extensions .braceOpen = [] by decide]
    exact List.not_mem_nil
  have fails : Fails Parser.expressionM
      (.ofSource ((Node.object (.property key value :: behind)).print layout)) := by
    refine fails_expressionM (.ofSource htext (by decide) (by rw [brace]; rfl)) (by rw [brace]) ?_
    intro inner last hl
    have next : last.advance.At first rest := hl.advance (by rw [brace]; rfl) hsolid htrivia
    refine fails_object (by rw [hl.kind, brace]) (by rw [next.kind]; exact hclose) fun start => ?_
    exact .after fun name after hread => .bind (.expect (no_colon_of_miswritten h hchars next hread))
  intro hparse
  rw [parseExpression, Parser.singleExpression, Parser.run] at hparse
  split at hparse
  · next hrun => exact fails _ _ hrun
  · cases hparse

/-- **A key survives printing unless it is miswritten.** The keys that are miswritten are the negative
zero and the names with a foreign numeral; an object that is printed with one of them in front is no
expression any more. -/
theorem keySurvives_iff (key : String) : (KeySurvives key ↔ isMiswritten key = false) ∧
    (isMiswritten key = true → ∀ (value : Node) (behind : List Node) (layout : Layout) (tree : Node),
      parseExpression ((Node.object (.property key value :: behind)).print layout) ≠ .ok tree) := by
  refine ⟨⟨fun survives => ?_, .intro⟩, not_parsed_of_miswritten⟩
  rw [Bool.eq_false_iff]
  exact fun h => not_keySurvives h survives

/-- The negative zero can be the key of an object that is read, but not of one that is printed. -/
theorem negativeZero_lost :
    parseExpression "\x7b\"-0\":x\x7d" = .ok (.object [.property "-0" (.identifier "x")]) ∧
      ¬ KeySurvives "-0" ∧ ∀ (layout : Layout) (tree : Node),
        parseExpression ((Node.object [.property "-0" (.identifier "x")]).print layout) ≠ .ok tree := by
  have miswritten : isMiswritten "-0" = true := by decide +kernel
  have source : Layout.compact.render (quotedEntry "-0") = "\x7b\"-0\":x\x7d" := by decide +kernel
  refine ⟨?_, not_keySurvives miswritten, not_parsed_of_miswritten miswritten _ []⟩
  rw [← source]
  exact parse_quotedEntry "-0"

end JsPrune
