import JsPrune.Node.Layout
import JsPrune.Proofs.Lookahead
import JsPrune.Proofs.Spelling

/-!
# The tokens of a rendered text

A printer lays texts side by side and leaves it to the layout to keep them apart. A parser sees the
result as tokens. `lexemes` says what it should see, piece by piece: for every text the token that
the text is by itself, with a mark where the layout breaks the line.

Main result: `shows_render`. If no text of a list of pieces runs into the next one (`Flows`), then a
parser set up on the rendered text sees exactly the lexemes of the pieces, in every layout.

The proof goes through `Splits`, which says of a string of characters that it is a list of lexemes
with white space between them where they need it.
-/

namespace JsPrune

open JsPrune.Source JsPrune.Text

/-! ## The text of a span -/

/-- Length of a text in bytes. -/
def byteLength : List Char → Nat
  | [] => 0
  | c :: rest => c.utf8Size + byteLength rest

/-- Bytes add up. -/
theorem byteLength_append (first second : List Char) :
    byteLength (first ++ second) = byteLength first + byteLength second := by
  induction first with
  | nil => rw [List.nil_append, byteLength, Nat.zero_add]
  | cons c rest ih => rw [List.cons_append, byteLength, byteLength, ih, Nat.add_assoc]

/-- The offset goes on by the bytes of a text. -/
theorem offset_advance (here : Position) (text : List Char) :
    (here.advance text).offset = here.offset + byteLength text := by
  induction text generalizing here with
  | nil => rfl
  | cons c rest ih =>
    have step : (here.next c).offset = here.offset + c.utf8Size := by
      rw [Position.next]
      split <;> rfl
    have tail := ih (here.next c)
    rw [step] at tail
    rw [Position.advance, List.foldl_cons, ← Position.advance, tail, byteLength, Nat.add_assoc]

/-- A position goes over two texts one after the other. -/
theorem advance_append (here : Position) (first second : List Char) :
    here.advance (first ++ second) = (here.advance first).advance second :=
  List.foldl_append

/-- As many bytes as a text has, dropped from its front, leave what follows it. -/
theorem dropBytes_append (first second : List Char) :
    dropBytes (first ++ second) (byteLength first) = some second := by
  induction first with
  | nil =>
    rw [List.nil_append, byteLength]
    cases second <;> rfl
  | cons c rest ih =>
    have pos := Char.utf8Size_pos c
    rw [List.cons_append, byteLength, dropBytes, if_pos (by omega), Nat.add_sub_cancel_left, ih]
    omega

/-- As many bytes as a text has, taken from the front, are the text. -/
theorem takeBytes_append (first second : List Char) :
    takeBytes (first ++ second) (byteLength first) = some first := by
  induction first with
  | nil =>
    rw [byteLength, takeBytes]
  | cons c rest ih =>
    have pos := Char.utf8Size_pos c
    rw [List.cons_append, byteLength, takeBytes, if_pos (by omega), Nat.add_sub_cancel_left, ih]
    · rfl
    · omega

/-- The span between two places of a text has the text between them. -/
theorem text_between (before taken after : List Char) :
    (Span.between (Position.start.advance before) ((Position.start.advance before).advance taken)).text
      (before ++ (taken ++ after)) = taken := by
  have start : (Position.start.advance before).offset = byteLength before := by
    rw [offset_advance]
    exact Nat.zero_add _
  have size : byteLength before + byteLength taken - byteLength before = byteLength taken := by
    omega
  rw [Span.text, Span.between, Span.size]
  simp only
  rw [offset_advance _ taken, start, size, dropBytes_append, Option.bind_some, takeBytes_append]
  rfl

/-! ## Characters that split into lexemes -/

/-- What a grammar sees of a token. -/
structure Lexeme where
  /-- What the token is. -/
  kind : Token.Kind
  /-- Whether a line break comes before it. -/
  newline : Bool
  /-- How it is spelled. -/
  text : List Char

/-- What a grammar sees of a token of `source`. -/
def Token.lexeme (source : List Char) (token : Token) : Lexeme :=
  ⟨token.kind, token.newlineBefore, token.span.text source⟩

/-- A text is a list of lexemes, with white space before each and at the end. No lexeme can go on
with the character after it. `newline` says that a line break was crossed already. -/
inductive Splits : Bool → List Char → List Lexeme → Prop
  | finish {newline : Bool} {blank : List Char} (hb : blank.all isBlank = true) :
      Splits newline blank []
  | lexeme {newline : Bool} {blank text more : List Char} {kind : Token.Kind} {rest : List Lexeme}
      (hb : blank.all isBlank = true) (hs : spells kind text = true)
      (he : ∀ c ∈ more.head?, kind.endsBefore c = true) (hr : Splits false more rest) :
      Splits newline (blank ++ (text ++ more))
        (⟨kind, newline || blank.any isLineBreak, text⟩ :: rest)

/-- All of a text is taken, and nothing behind it, where it all counts and the rest stops. -/
theorem takeWhile_append_of_all {p : Char → Bool} {blank rest : List Char}
    (hb : blank.all p = true) (hr : Stops p rest) : (blank ++ rest).takeWhile p = blank := by
  rw [takeWhile_append_of_stops hr, List.takeWhile_eq_self_iff]
  exact List.all_eq_true.mp hb

/-- One reading, from the white space and the character behind it. -/
theorem Lexer.next_of_rest {lexer : Lexer} {blank rest : List Char} {first : Char}
    (hrest : lexer.rest = blank ++ first :: rest) (hb : blank.all isBlank = true)
    (hsolid : isBlank first = false) :
    let scanned := Scan.token first rest
    let here := lexer.position.advance blank
    let stop := here.advance (first :: rest.take scanned.2)
    let newline := lexer.sawNewline || blank.any isLineBreak
    lexer.next = (⟨scanned.1, .between here stop, newline⟩,
      ⟨rest.drop scanned.2, stop,
        scanned.1.isTrivia && (newline || here.line < stop.line)⟩) := by
  have stops : Stops isBlank (first :: rest) := by
    intro c hc
    cases hc
    exact hsolid
  have left : lexer.rest.takeWhile isBlank = blank := by
    rw [hrest]
    exact takeWhile_append_of_all hb stops
  have right : lexer.rest.dropWhile isBlank = first :: rest := by
    have parts := List.takeWhile_append_dropWhile (p := isBlank) (l := lexer.rest)
    rw [left, hrest] at parts
    rw [hrest]
    exact List.append_cancel_left parts
  rw [Lexer.next]
  simp only [left, right]

/-- Reading one lexeme. -/
theorem next_of_spells {lexer : Lexer} {blank text more : List Char} {kind : Token.Kind}
    (hrest : lexer.rest = blank ++ (text ++ more)) (hb : blank.all isBlank = true)
    (hs : spells kind text = true) (he : ∀ c ∈ more.head?, kind.endsBefore c = true) :
    lexer.next = (⟨kind, .between (lexer.position.advance blank)
          ((lexer.position.advance blank).advance text),
        lexer.sawNewline || blank.any isLineBreak⟩,
      ⟨more, (lexer.position.advance blank).advance text, false⟩) := by
  cases text with
  | nil => cases hs
  | cons first rest =>
    obtain ⟨solid, content, token⟩ := spells_cons.mp hs
    have whole := Scan.token_append token he
    have trivia : kind.isTrivia = false := by
      cases kind with
      | comment _ => cases content
      | _ => rfl
    have parts : lexer.rest = blank ++ first :: (rest ++ more) := hrest
    rw [lexer.next_of_rest parts hb solid]
    simp only [whole, List.take_left, List.drop_left, trivia, Bool.false_and]

/-- Where only white space is left the text ends. -/
theorem next_of_blank {lexer : Lexer} (hb : lexer.rest.all isBlank = true) :
    lexer.next.1.kind = .eof := by
  have none : lexer.rest.dropWhile isBlank = [] := by
    rw [List.dropWhile_eq_nil_iff]
    exact List.all_eq_true.mp hb
  rw [Lexer.next]
  simp only [none]

/-- Before the end of the text comes some character that is not blank. -/
theorem Lexer.exists_solid {lexer : Lexer} (h : lexer.next.1.kind ≠ .eof) :
    ∃ blank first rest, lexer.rest = blank ++ first :: rest ∧ blank.all isBlank = true ∧
      isBlank first = false := by
  have parts := List.takeWhile_append_dropWhile (p := isBlank) (l := lexer.rest)
  have head := List.head?_dropWhile_not isBlank lexer.rest
  cases hdrop : lexer.rest.dropWhile isBlank with
  | nil =>
    rw [hdrop, List.append_nil] at parts
    exact absurd (next_of_blank (parts ▸ List.all_takeWhile)) h
  | cons first rest =>
    rw [hdrop] at parts head
    exact ⟨_, first, rest, parts.symm, List.all_takeWhile, head⟩

/-- The tokens of a text that splits into lexemes are those lexemes, and the end of the text. -/
theorem tokens_of_splits {source before : List Char} {lexer : Lexer} {rest : List Lexeme}
    (h : Splits lexer.sawNewline lexer.rest rest) (hsource : source = before ++ lexer.rest)
    (hposition : lexer.position = Position.start.advance before) :
    ∃ tokens finish, lexer.tokens = tokens ++ [finish] ∧ tokens.map (Token.lexeme source) = rest ∧
      finish.kind = .eof := by
  generalize hnewline : lexer.sawNewline = newline at h
  generalize hchars : lexer.rest = chars at h
  -- Each lexeme of the splitting is one reading of the lexer.
  induction h generalizing lexer before with
  | finish hb =>
    have eof : lexer.next.1.kind = .eof := next_of_blank (hchars ▸ hb)
    refine ⟨[], lexer.next.1, ?_, rfl, eof⟩
    rw [Lexer.tokens, dif_pos eof]
    rfl
  | @lexeme newline blank text more kind rest hb hs he _ ih =>
    have step := next_of_spells hchars hb hs he
    have ongoing : lexer.next.1.kind ≠ .eof := by
      rw [step]
      rintro rfl
      cases text with
      | nil => cases hs
      | cons _ _ => cases (spells_cons.mp hs).2.1
    have place : source = (before ++ blank ++ text) ++ lexer.next.2.rest := by
      rw [hsource, hchars, step]
      simp only [List.append_assoc]
    have position : lexer.next.2.position = Position.start.advance (before ++ blank ++ text) := by
      rw [step, advance_append, advance_append, ← hposition]
    obtain ⟨tokens, finish, htokens, hlexemes, hfinish⟩ :=
      ih place position (by rw [step]) (by rw [step])
    refine ⟨lexer.next.1 :: tokens, finish, ?_, ?_, hfinish⟩
    · rw [Lexer.tokens, dif_neg ongoing, htokens]
      rfl
    · have spelled : (Span.between (lexer.position.advance blank)
          ((lexer.position.advance blank).advance text)).text source = text := by
        have between := text_between (before ++ blank) text more
        rw [advance_append, ← hposition, List.append_assoc] at between
        rw [hsource, hchars]
        exact between
      rw [List.map_cons, hlexemes, step, Token.lexeme, hnewline]
      simp only [spelled]

/-- White space in front of a text belongs to its first lexeme. -/
theorem Splits.blank_append {newline : Bool} {blank chars : List Char} {words : List Lexeme}
    (hb : blank.all isBlank = true) (h : Splits (newline || blank.any isLineBreak) chars words) :
    Splits newline (blank ++ chars) words := by
  generalize hflag : (newline || blank.any isLineBreak) = flag at h
  cases h with
  | finish hb' => exact .finish (by rw [List.all_append, hb, hb']; rfl)
  | @lexeme _ blank' text more kind rest hb' hs he hr =>
    have all : (blank ++ blank').all isBlank = true := by
      rw [List.all_append, hb, hb']
      rfl
    have joined : Splits newline _ _ := .lexeme all hs he hr
    rw [List.any_append, ← Bool.or_assoc, hflag, List.append_assoc] at joined
    exact joined

/-! ## Laying out pieces from left to right -/

namespace Layout

variable (layout : Layout)

/-- The characters of a list of pieces, after output that ends in `last`. -/
def laid : Option Char → List Piece → List Char
  | _, [] => []
  | last, .text content :: rest =>
    Piece.gap last.toList content.toList ++
      (content.toList ++ laid (content.toList.getLast?.or last) rest)
  | last, .space :: rest =>
    if layout.beautify then ' ' :: laid (some ' ') rest else laid last rest
  | last, .newline level :: rest =>
    if layout.beautify then
      let indent := '\n' :: List.replicate (level * layout.indentWidth) ' '
      indent ++ laid indent.getLast? rest
    else laid last rest

/-- The gap before a text depends on the last character written only. -/
theorem gap_head? (written content : List Char) :
    Piece.gap written.head?.toList content = Piece.gap written content := by
  cases written <;> cases content <;> rfl

/-- A gap is one space at most. -/
theorem reverse_gap (written content : List Char) :
    (Piece.gap written content).reverse = Piece.gap written content := by
  unfold Piece.gap
  split
  · split <;> rfl
  · rfl

/-- Writing pieces one by one lays them out from left to right. -/
theorem foldl_write (pieces : List Piece) (written : List Char) :
    (pieces.foldl (Piece.write layout) written).reverse
      = written.reverse ++ laid layout written.head? pieces := by
  -- `written` is kept reversed, so its head is the last character so far, which decides the gap.
  induction pieces generalizing written with
  | nil => rw [laid, List.append_nil, List.foldl_nil]
  | cons piece rest ih =>
    rw [List.foldl_cons, ih]
    cases piece with
    | text content =>
      have last : (Piece.write layout written (.text content)).head?
          = content.toList.getLast?.or written.head? := by
        rw [Piece.write, List.head?_append, List.head?_reverse]
        cases hc : content.toList with
        | nil => cases written <;> rfl
        | cons c more =>
          rw [List.getLast?_cons]
          rfl
      rw [last, laid, Piece.write, List.reverse_append, List.reverse_reverse, List.reverse_append,
        reverse_gap, gap_head?]
      simp only [List.append_assoc]
    | space =>
      rw [laid, Piece.write]
      split
      · rw [List.reverse_cons, List.append_assoc]
        rfl
      · rfl
    | newline level =>
      rw [laid, Piece.write]
      split
      · have indent : List.replicate (level * layout.indentWidth) ' ' ++ '\n' :: written
            = ('\n' :: List.replicate (level * layout.indentWidth) ' ').reverse ++ written := by
          rw [List.reverse_cons, List.reverse_replicate, List.append_assoc]
          rfl
        have last : (('\n' :: List.replicate (level * layout.indentWidth) ' ').reverse
            ++ written).head? = ('\n' :: List.replicate (level * layout.indentWidth) ' ').getLast? := by
          rw [List.head?_append, List.head?_reverse, List.getLast?_cons]
          rfl
        rw [indent, last, List.reverse_append, List.reverse_reverse, List.append_assoc]
      · rfl

end Layout

/-! ## Texts that do not run into each other -/

/-- What a text has to avoid because of the text before it. -/
inductive Edge where
  /-- Nothing. -/
  | free
  /-- A point, which would go on with the number. -/
  | number
  /-- Characters that would make a longer operator. -/
  | operator
  /-- A digit, which would make a fraction of the point. -/
  | member
deriving DecidableEq

namespace Edge

/-- Whether a text that starts with `c` may follow. -/
def admits : Edge → Char → Bool
  | free, _ => true
  | number, c => c != '.'
  | operator, c => !(['=', '<', '>', '&', '|', '*', '/'].contains c)
  | member, c => !isDigit c

/-- What a token leaves behind. -/
def after : Token.Kind → Edge
  | .number _ => number
  | .punctuator .dot => member
  | .punctuator symbol =>
    if [Punctuator.braceOpen, .braceClose, .parenOpen, .parenClose, .bracketOpen, .bracketClose,
      .semicolon, .comma, .question, .colon, .tilde, .increment, .decrement].contains symbol
    then free else operator
  | _ => free

end Edge

/-- The characters with which some longer punctuator goes on. -/
def Punctuator.extensions (symbol : Punctuator) : List Char :=
  Punctuator.all.filterMap fun longer =>
    if symbol.text.toList.isPrefixOf longer.text.toList then
      (longer.text.toList.drop symbol.text.toList.length).head?
    else none

/-- The list of punctuators is complete. -/
theorem Punctuator.mem_all (symbol : Punctuator) : symbol ∈ Punctuator.all := by
  cases symbol <;> decide

/-- A punctuator ends before a character that makes no longer one, no comment and no number of it.
-/
theorem endsBefore_punctuator {symbol : Punctuator} {c : Char} (he : c ∉ symbol.extensions)
    (hs : symbol = .divide → c ≠ '/' ∧ c ≠ '*') (hd : symbol = .dot → isDigit c = false) :
    Token.Kind.endsBefore (.punctuator symbol) c = true := by
  rw [Token.Kind.endsBefore, Bool.and_eq_true, Bool.and_eq_true]
  refine ⟨⟨?_, ?_⟩, ?_⟩
  · by_cases h : symbol = .divide
    · simp [hs h]
    · simp [h]
  · by_cases h : symbol = .dot
    · simp [hd h]
    · simp [h]
  · rw [List.all_eq_true]
    intro longer hmem
    rw [Bool.not_eq_true', ← Bool.not_eq_true, List.isPrefixOf_iff_prefix]
    rintro ⟨tail, htail⟩
    apply he
    rw [Punctuator.extensions, List.mem_filterMap]
    refine ⟨longer, hmem, ?_⟩
    have short : symbol.text.toList.isPrefixOf longer.text.toList = true := by
      rw [List.isPrefixOf_iff_prefix, ← htail, List.append_assoc]
      exact List.prefix_append _ _
    rw [if_pos short, ← htail, List.append_assoc, List.drop_left]
    rfl

/-- A character that the edge after a punctuator admits is kept apart from it or can not join it. -/
theorem fuses_of_extension {symbol : Punctuator} {c : Char} (hc : c ∈ symbol.extensions)
    (ha : (Edge.after (.punctuator symbol)).admits c = true) :
    (symbol.text.toList.getLast?.any fun last => Piece.fuses last c) = true := by
  have table : (Punctuator.all.all fun symbol => symbol.extensions.all fun c =>
      !(Edge.after (.punctuator symbol)).admits c ||
        symbol.text.toList.getLast?.any fun last => Piece.fuses last c) = true := by
    decide
  have entry := List.all_eq_true.mp (List.all_eq_true.mp table symbol symbol.mem_all) c hc
  rw [ha] at entry
  exact entry

/-- A text is one token and, if it is a number, does not end in its point. -/
def Written (kind : Token.Kind) (text : String) : Prop :=
  spells kind text.toList = true ∧ (Edge.after kind = .number → text.toList.getLast?.any isWordChar = true)

/-- The last character of a text of name characters is a word character. -/
theorem getLast?_of_name {first : Char} {rest : List Char} (hf : isNameStart first = true)
    (hr : rest.all isNameChar = true) : (first :: rest).getLast?.any isWordChar = true := by
  have all : ∀ c ∈ first :: rest, isWordChar c = true := by
    intro c hc
    rcases List.mem_cons.mp hc with rfl | hc
    · exact isWordChar_of_isNameStart hf
    · exact isWordChar_of_isNameChar (List.all_eq_true.mp hr c hc)
  rw [Option.any_eq_true]
  exact ⟨_, List.getLast?_eq_some_getLast (List.cons_ne_nil _ _), all _ (List.getLast_mem _)⟩

/-- Two characters of words run together. -/
theorem fuses_of_word {last c : Char} (hl : isWordChar last = true) (hc : isWordChar c = true) :
    Piece.fuses last c = true := by
  rw [Piece.fuses, hl, hc]
  rfl

/-- **What an edge admits is safe**: it is kept apart by a space, or the token ends before it. -/
theorem safe_of_admits {kind : Token.Kind} {text : String} {c : Char} (hw : Written kind text)
    (ha : (Edge.after kind).admits c = true) :
    (text.toList.getLast?.any fun last => Piece.fuses last c) = true ∨ kind.endsBefore c = true := by
  obtain ⟨hs, hnumber⟩ := hw
  -- A text that ends in a word character is kept apart from every word character.
  have word (hl : text.toList.getLast?.any isWordChar = true) :
      (text.toList.getLast?.any fun last => Piece.fuses last c) = true ∨ isWordChar c = false := by
    cases hc : isWordChar c with
    | false => exact .inr rfl
    | true =>
      refine .inl ?_
      rw [Option.any_eq_true] at hl ⊢
      obtain ⟨last, hlast, hl⟩ := hl
      exact ⟨last, hlast, fuses_of_word hl hc⟩
  have name (hk : (∃ name, kind = .identifier name) ∨ ∃ word, kind = .keyword word) :
      text.toList.getLast?.any isWordChar = true := by
    cases htext : text.toList with
    | nil => rw [htext] at hs; cases hs
    | cons first rest =>
      rw [htext] at hs
      obtain ⟨hf, hr, _⟩ := name_of_spells hs hk
      exact getLast?_of_name hf hr
  cases kind with
  | identifier n =>
    rcases word (name (.inl ⟨n, rfl⟩)) with h | h
    · exact .inl h
    · exact .inr (by rw [Token.Kind.endsBefore, h]; rfl)
  | keyword w =>
    rcases word (name (.inr ⟨w, rfl⟩)) with h | h
    · exact .inl h
    · exact .inr (by rw [Token.Kind.endsBefore, h]; rfl)
  | number value =>
    rcases word (hnumber rfl) with h | h
    · exact .inl h
    · refine .inr ?_
      rw [Token.Kind.endsBefore, h]
      exact ha
  | string value => exact .inr rfl
  | punctuator symbol =>
    by_cases hext : c ∈ symbol.extensions
    · rw [mark_of_spells hs]
      exact .inl (fuses_of_extension hext ha)
    · refine .inr (endsBefore_punctuator hext ?_ ?_)
      · rintro rfl
        constructor
        · rintro rfl
          exact absurd ha (by decide)
        · rintro rfl
          exact absurd ha (by decide)
      · rintro rfl
        rw [← Bool.not_eq_true']
        exact ha
  | comment _ => cases content_of_spells hs
  | eof => cases content_of_spells hs
  | fault _ => cases content_of_spells hs

/-- White space ends every token. -/
theorem endsBefore_blank {kind : Token.Kind} (h : kind.isContent = true) :
    kind.endsBefore ' ' = true ∧ kind.endsBefore '\n' = true := by
  cases kind with
  | punctuator symbol => cases symbol <;> decide
  | comment _ => cases h
  | eof => cases h
  | fault _ => cases h
  | _ => exact ⟨rfl, rfl⟩

/-- No text of a list of pieces runs into the next one. The list starts after something that leaves
the first edge behind, and leaves the second. -/
inductive Flows : Edge → List Piece → Edge → Prop
  | nil {edge : Edge} : Flows edge [] edge
  | space {edge last : Edge} {rest : List Piece} (hr : Flows edge rest last) :
      Flows edge (.space :: rest) last
  | newline {edge last : Edge} {rest : List Piece} (level : Nat) (hr : Flows edge rest last) :
      Flows edge (.newline level :: rest) last
  | text {edge last : Edge} {content : String} {kind : Token.Kind} {rest : List Piece}
      (hw : Written kind content) (ha : ∀ c ∈ content.toList.head?, edge.admits c = true)
      (hr : Flows (.after kind) rest last) : Flows edge (.text content :: rest) last

/-- Pieces that flow one after the other flow together. -/
theorem Flows.append {first middle last : Edge} {left right : List Piece}
    (hl : Flows first left middle) (hr : Flows middle right last) :
    Flows first (left ++ right) last := by
  induction hl with
  | nil => exact hr
  | space _ ih => exact .space (ih hr)
  | newline level _ ih => exact .newline level (ih hr)
  | text hw ha _ ih => exact .text hw ha (ih hr)

/-- The kind of token that a text is by itself. -/
def kindOf (content : String) : Token.Kind :=
  match content.toList with
  | [] => .eof
  | first :: rest => (Scan.token first rest).1

/-- A text that spells a token is of its kind. -/
theorem kindOf_of_spells {kind : Token.Kind} {content : String}
    (h : spells kind content.toList = true) : kindOf content = kind := by
  rw [kindOf]
  cases htext : content.toList with
  | nil => rw [htext] at h; cases h
  | cons first rest =>
    rw [htext] at h
    show (Scan.token first rest).1 = kind
    rw [(spells_cons.mp h).2.2]

/-- The text of a punctuator is of its kind. -/
theorem kindOf_mark (symbol : Punctuator) : kindOf symbol.text = .punctuator symbol :=
  kindOf_of_spells (spells_mark symbol)

/-- So is the text of a reserved word. -/
theorem kindOf_word (word : Keyword) : kindOf word.text = .keyword word :=
  kindOf_of_spells (spells_word word)

/-- The marks that a printer writes. -/
@[simp] theorem kindOf_marks : kindOf "(" = .punctuator .parenOpen ∧
    kindOf ")" = .punctuator .parenClose ∧ kindOf "[" = .punctuator .bracketOpen ∧
    kindOf "]" = .punctuator .bracketClose ∧ kindOf "\x7b" = .punctuator .braceOpen ∧
    kindOf "\x7d" = .punctuator .braceClose ∧ kindOf ";" = .punctuator .semicolon ∧
    kindOf "," = .punctuator .comma ∧ kindOf ":" = .punctuator .colon ∧
    kindOf "?" = .punctuator .question ∧ kindOf "." = .punctuator .dot ∧
    kindOf "=" = .punctuator .assign :=
  ⟨kindOf_mark .parenOpen, kindOf_mark .parenClose, kindOf_mark .bracketOpen,
    kindOf_mark .bracketClose, kindOf_mark .braceOpen, kindOf_mark .braceClose,
    kindOf_mark .semicolon, kindOf_mark .comma, kindOf_mark .colon, kindOf_mark .question,
    kindOf_mark .dot, kindOf_mark .assign⟩

/-- The words that a printer writes in expressions. -/
@[simp] theorem kindOf_expression_words : kindOf "function" = .keyword .functionKw ∧
    kindOf "new" = .keyword .newKw ∧ kindOf "true" = .keyword .trueKw ∧
    kindOf "false" = .keyword .falseKw ∧ kindOf "null" = .keyword .nullKw ∧
    kindOf "this" = .keyword .thisKw :=
  ⟨kindOf_word .functionKw, kindOf_word .newKw, kindOf_word .trueKw, kindOf_word .falseKw,
    kindOf_word .nullKw, kindOf_word .thisKw⟩

/-- The words that a printer writes in statements. -/
@[simp] theorem kindOf_statement_words : kindOf "var" = .keyword .varKw ∧
    kindOf "let" = .keyword .letKw ∧ kindOf "const" = .keyword .constKw ∧
    kindOf "if" = .keyword .ifKw ∧ kindOf "else" = .keyword .elseKw ∧
    kindOf "while" = .keyword .whileKw ∧ kindOf "do" = .keyword .doKw ∧
    kindOf "for" = .keyword .forKw ∧ kindOf "in" = .keyword .inKw ∧
    kindOf "return" = .keyword .returnKw ∧ kindOf "throw" = .keyword .throwKw ∧
    kindOf "break" = .keyword .breakKw ∧ kindOf "continue" = .keyword .continueKw ∧
    kindOf "switch" = .keyword .switchKw ∧ kindOf "case" = .keyword .caseKw ∧
    kindOf "default" = .keyword .defaultKw ∧ kindOf "try" = .keyword .tryKw ∧
    kindOf "catch" = .keyword .catchKw ∧ kindOf "finally" = .keyword .finallyKw ∧
    kindOf "debugger" = .keyword .debuggerKw :=
  ⟨kindOf_word .varKw, kindOf_word .letKw, kindOf_word .constKw, kindOf_word .ifKw,
    kindOf_word .elseKw, kindOf_word .whileKw, kindOf_word .doKw, kindOf_word .forKw,
    kindOf_word .inKw, kindOf_word .returnKw, kindOf_word .throwKw, kindOf_word .breakKw,
    kindOf_word .continueKw, kindOf_word .switchKw, kindOf_word .caseKw, kindOf_word .defaultKw,
    kindOf_word .tryKw, kindOf_word .catchKw, kindOf_word .finallyKw, kindOf_word .debuggerKw⟩

/-- What a grammar should see of a list of pieces. `newline` says that a line break was written
already; breaks are written only if the layout keeps them. -/
def lexemes (beautify : Bool) : Bool → List Piece → List Lexeme
  | _, [] => []
  | newline, .text content :: rest =>
    ⟨kindOf content, newline, content.toList⟩ :: lexemes beautify false rest
  | newline, .space :: rest => lexemes beautify newline rest
  | newline, .newline _ :: rest => lexemes beautify (newline || beautify) rest

@[simp] theorem lexemes_nil (beautify newline : Bool) : lexemes beautify newline [] = [] := rfl

@[simp] theorem lexemes_text (beautify newline : Bool) (content : String) (rest : List Piece) :
    lexemes beautify newline (.text content :: rest)
      = ⟨kindOf content, newline, content.toList⟩ :: lexemes beautify false rest := rfl

@[simp] theorem lexemes_space (beautify newline : Bool) (rest : List Piece) :
    lexemes beautify newline (.space :: rest) = lexemes beautify newline rest := rfl

@[simp] theorem lexemes_newline (beautify newline : Bool) (level : Nat) (rest : List Piece) :
    lexemes beautify newline (.newline level :: rest)
      = lexemes beautify (newline || beautify) rest := rfl

/-- A token ends before what is laid out after it. -/
theorem endsBefore_laid (layout : Layout) {kind : Token.Kind} {content : String}
    (hw : Written kind content) {rest : List Piece} {last : Edge}
    (hr : Flows (.after kind) rest last) :
    ∀ c ∈ (layout.laid content.toList.getLast? rest).head?, kind.endsBefore c = true := by
  have blank := endsBefore_blank (content_of_spells hw.1)
  generalize hedge : Edge.after kind = edge at hr
  -- Spaces and line breaks that are not kept leave the question to the next text.
  induction hr with
  | nil =>
    intro c hc
    cases hc
  | space hr ih =>
    intro c hc
    rw [Layout.laid] at hc
    split at hc
    · cases hc
      exact blank.1
    · exact ih hedge c hc
  | newline level hr ih =>
    intro c hc
    rw [Layout.laid] at hc
    split at hc
    · cases hc
      exact blank.2
    · exact ih hedge c hc
  | @text edge last next nextKind rest hnext ha hr ih =>
    intro c hc
    subst hedge
    rw [Layout.laid] at hc
    cases htext : next.toList with
    | nil =>
      have := hnext.1
      rw [htext] at this
      cases this
    | cons first more =>
      -- No token is spelled by nothing, so both texts have a character next to the seam.
      have hadmits : (Edge.after kind).admits first = true := ha first (by rw [htext]; rfl)
      cases hlast : content.toList.getLast? with
      | none =>
        rw [List.getLast?_eq_none_iff] at hlast
        have := hw.1
        rw [hlast] at this
        cases this
      | some final =>
        rw [htext, hlast] at hc
        have gap : Piece.gap (some final).toList (first :: more)
            = if Piece.fuses final first then [' '] else [] := rfl
        rw [gap] at hc
        split at hc
        · cases hc
          exact blank.1
        · next apart =>
          cases hc
          rcases safe_of_admits hw hadmits with h | h
          · rw [hlast] at h
            exact absurd h apart
          · exact h

/-- A gap is at most one space. -/
theorem gap_blank (written content : List Char) : (Piece.gap written content).all isBlank = true ∧
    (Piece.gap written content).any isLineBreak = false := by
  unfold Piece.gap
  split
  · split
    · decide
    · decide
  · decide

/-- Pieces that flow are laid out as their lexemes. -/
theorem splits_laid (layout : Layout) {edge last : Edge} {pieces : List Piece}
    (h : Flows edge pieces last) (before : Option Char) (newline : Bool) :
    Splits newline (layout.laid before pieces) (lexemes layout.beautify newline pieces) := by
  -- The character before and the line breaks so far change as the pieces go by.
  induction h generalizing before newline with
  | nil => exact .finish rfl
  | space hr ih =>
    rw [Layout.laid, lexemes]
    split
    · have flag : (newline || [' '].any isLineBreak) = newline := Bool.or_false newline
      have apart : Splits newline ([' '] ++ _) _ :=
        Splits.blank_append rfl (by rw [flag]; exact ih (some ' ') newline)
      exact apart
    · exact ih _ _
  | newline level hr ih =>
    rw [Layout.laid, lexemes]
    split
    · next beautify =>
      refine Splits.blank_append ?_ ?_
      · rw [List.all_eq_true]
        intro c hc
        rcases List.mem_cons.mp hc with rfl | hc
        · decide
        · rw [List.eq_of_mem_replicate hc]
          decide
      · have flag : (newline || ('\n' :: List.replicate (level * layout.indentWidth) ' ').any
            isLineBreak) = (newline || layout.beautify) := by
          rw [beautify, List.any_cons]
          rfl
        rw [flag]
        exact ih _ _
    · next plain =>
      rw [Bool.not_eq_true] at plain
      rw [plain, Bool.or_false, ← plain]
      exact ih _ _
  | @text edge last content kind rest hw ha hr ih =>
    -- Only here a token comes out; the gap before it is white space like any other.
    have gap := gap_blank before.toList content.toList
    have ends := endsBefore_laid layout hw hr
    have solid : content.toList.getLast?.or before = content.toList.getLast? := by
      cases htext : content.toList with
      | nil =>
        have := hw.1
        rw [htext] at this
        cases this
      | cons c more =>
        rw [List.getLast?_cons]
        rfl
    have read : Splits newline _ _ := .lexeme gap.1 hw.1 ends (ih _ false)
    rw [gap.2, Bool.or_false] at read
    rw [Layout.laid, lexemes, kindOf_of_spells hw.1, solid]
    exact read

/-! ## A parser on a rendered text -/

/-- What a parser has before it: the lexemes that are to come, and the levels around them. -/
structure Parser.Shows (parser : Parser) (words : List Lexeme) (depth : Nat) : Prop where
  words : parser.pending.map (Token.lexeme parser.source) = words
  depth : parser.treeDepth = depth

/-- A text splits into tokens with content only. -/
theorem content_of_splits {newline : Bool} {chars : List Char} {words : List Lexeme}
    (h : Splits newline chars words) : ∀ word ∈ words, word.kind.isContent = true := by
  induction h with
  | finish => simp
  | lexeme _ hs _ _ ih =>
    intro word hw
    rcases List.mem_cons.mp hw with rfl | hw
    · exact content_of_spells hs
    · exact ih word hw

/-- A parser shows the tokens that its text splits into. -/
theorem shows_ofSource {source : String} {words : List Lexeme}
    (h : Splits false source.toList words) : (Parser.ofSource source).Shows words 0 := by
  obtain ⟨tokens, finish, htokens, hwords, hfinish⟩ :=
    @tokens_of_splits source.toList [] (.ofSource source.toList) words h rfl rfl
  have content : ∀ token ∈ tokens, token.kind.isContent = true := by
    intro token ht
    have word := content_of_splits h (token.lexeme source.toList)
    rw [← hwords] at word
    exact word (List.mem_map_of_mem ht)
  have solid : (tokenize source).filter (fun token => !token.kind.isTrivia) = tokens ++ [finish] := by
    rw [tokenize, htokens, List.filter_eq_self]
    intro token ht
    rcases List.mem_append.mp ht with ht | ht
    · have := content token ht
      cases hk : token.kind <;> simp_all [Token.Kind.isContent, Token.Kind.isTrivia]
    · rw [List.mem_singleton.mp ht, hfinish]
      rfl
  have pending : Token.content (tokens ++ [finish]) = tokens := by
    rw [Token.content, List.takeWhile_append_of_pos, List.takeWhile_cons, hfinish]
    · exact List.append_nil _
    · intro token ht
      rw [bne_iff_ne]
      intro heof
      have := content token ht
      rw [heof] at this
      cases this
  refine ⟨?_, rfl⟩
  have all : (Parser.ofSource source).pending = tokens := by
    rw [← pending, ← solid]
    exact content_nextSignificant _
  rw [all]
  exact hwords

/-- **A parser sees the lexemes of the pieces**, whatever the layout. -/
theorem shows_render (layout : Layout) {pieces : List Piece} {last : Edge}
    (h : Flows .free pieces last) :
    (Parser.ofSource (layout.render pieces)).Shows (lexemes layout.beautify false pieces) 0 := by
  apply shows_ofSource
  rw [Layout.render, String.toList_ofList, Layout.foldl_write]
  exact splits_laid layout h none false

end JsPrune
