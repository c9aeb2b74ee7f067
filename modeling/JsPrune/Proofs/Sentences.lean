import JsPrune.Proofs.Expressions

/-!
# Statements read back

`Sentence` says of a list of pieces that it is read as a certain statement. Two things about what
comes next matter: a statement whose semicolon was left out has to stand before a closing brace or at
the end, and one that ends in an `if` without `else` must not stand before an `else`.

For every statement: if its parts are phrases and sentences, the whole is a sentence. Lists of
statements are read by three loops of the grammar, for blocks, branches and programs; `Lines.rounds`
covers all of them.
-/

namespace JsPrune

open ParseM Grammar

variable {beautify : Bool} {n : Nat} {room : Prop} {levels depth : Nat}

/-! ## Sentences -/

/-- Whether a statement can start with a token of this kind. Words that go on with the statement before
are left out. -/
def opensStatement (kind : Token.Kind) : Bool :=
  !([.punctuator .braceClose, .eof, .keyword .caseKw, .keyword .defaultKw, .keyword .elseKw,
    .keyword .finallyKw] : List Token.Kind).contains kind

/-- Every token can start a statement but those that end one or go on with one. -/
theorem opensStatement_iff {kind : Token.Kind} : opensStatement kind = true ↔
    kind ≠ .punctuator .braceClose ∧ kind ≠ .eof ∧ kind ≠ .keyword .caseKw ∧
      kind ≠ .keyword .defaultKw ∧ kind ≠ .keyword .elseKw ∧ kind ≠ .keyword .finallyKw := by
  simp [opensStatement]

/-- Where a statement ends: `ended` says that its own semicolon is written, if it needs one, and
`opened` that an `else` would join it. -/
structure EndsStatement (ended opened : Bool) (next : Token.Kind) : Prop where
  closed : ended = false → next = .punctuator .braceClose ∨ next = .eof
  alone : opened = true → next ≠ .keyword .elseKw
  final : next ≠ .keyword .finallyKw

/-- The pieces are read as a statement. -/
structure Sentence (beautify : Bool) (n slack : Nat) (ended opened : Bool) (pieces : List Piece)
    (value : Node) : Prop where
  opens : opensStatement (upcoming pieces) = true
  reads : ∀ (room : Prop) (levels depth : Nat), (room → Room n slack levels depth) →
    ∀ (newline : Bool) (rest : List Piece), EndsStatement ended opened (upcoming rest) →
      Reads room (statement (.ofNat levels)) ⟨lexemes beautify newline (pieces ++ rest), depth⟩ value
        ⟨lexemes beautify false rest, depth⟩

variable {slack : Nat} {ended opened : Bool} {pieces : List Piece} {value : Node}

/-- What comes first does not depend on what follows, unless nothing is there. -/
theorem upcoming_append {first : List Piece} (h : upcoming first ≠ .eof) (second : List Piece) :
    upcoming (first ++ second) = upcoming first := by
  induction first with
  | nil => exact absurd rfl h
  | cons piece rest ih =>
    cases piece with
    | text content => rfl
    | space => exact ih h
    | newline level => exact ih h

/-- Where something comes first there is a text. -/
theorem textCount_pos {pieces : List Piece} (h : upcoming pieces ≠ .eof) : 0 < textCount pieces := by
  induction pieces with
  | nil => exact absurd rfl h
  | cons piece rest ih =>
    cases piece with
    | text content => exact Nat.succ_pos _
    | space => exact ih h
    | newline level => exact ih h

namespace Sentence

/-- What a sentence starts with does not depend on what follows. -/
theorem upcoming_append (h : Sentence beautify n slack ended opened pieces value)
    (rest : List Piece) : upcoming (pieces ++ rest) = upcoming pieces :=
  JsPrune.upcoming_append (opensStatement_iff.mp h.opens).2.1 rest

/-- A statement one level further in. -/
theorem inner (h : Sentence beautify n slack ended opened pieces value)
    (hroom : room → Room n (slack + 1) levels depth) (newline : Bool) (rest : List Piece)
    (hends : EndsStatement ended opened (upcoming rest)) :
    Reads room (Level.ofNat levels).statement ⟨lexemes beautify newline (pieces ++ rest), depth⟩ value
      ⟨lexemes beautify false rest, depth⟩ :=
  reads_inner Level.statement statement rfl (fun _ => rfl) hroom fun further hfurther =>
    h.reads room further (depth + 1) hfurther newline rest hends

/-- A space before a sentence changes nothing. -/
theorem spaced (h : Sentence beautify n slack ended opened pieces value) :
    Sentence beautify n slack ended opened (.space :: pieces) value :=
  ⟨h.opens, h.reads⟩

/-- A sentence is also one with more slack, and one that no `else` may follow. -/
theorem relax (h : Sentence beautify n slack ended opened pieces value) {more : Nat}
    {opened' : Bool} (hs : slack ≤ more) (ho : opened = true → opened' = true) :
    Sentence beautify n more ended opened' pieces value where
  opens := h.opens
  reads room levels depth hroom newline rest hends :=
    h.reads room levels depth (fun hr => (hroom hr).mono hs) newline rest
      ⟨hends.closed, fun hopened => hends.alone (ho hopened), hends.final⟩

/-- What is read with the room for a child is read with the room for its parent. -/
theorem step (h : Sentence beautify n 2 ended opened pieces value) :
    Sentence beautify (n + 1) 0 ended opened pieces value :=
  ⟨h.opens, fun room levels depth hroom => h.reads room levels depth fun hr => (hroom hr).step⟩

end Sentence

/-! ## Lists of statements -/

/-- Statements on lines of their own. Only the last may go without its semicolon. -/
inductive Lines (beautify : Bool) (n level : Nat) (ended : Bool) : List Piece → List Node → Prop
  | nil : Lines beautify n level ended [] []
  | last {pieces : List Piece} {value : Node} (h : Sentence beautify n 0 ended true pieces value) :
      Lines beautify n level ended pieces [value]
  | more {pieces rest : List Piece} {value : Node} {values : List Node}
      (h : Sentence beautify n 0 true true pieces value) (hr : Lines beautify n level ended rest values)
      (hne : values ≠ []) :
      Lines beautify n level ended (pieces ++ .newline level :: rest) (value :: values)

namespace Lines

variable {level : Nat} {values : List Node}

/-- There are at least as many texts as statements, which bounds the turns of the loop that reads
them. -/
theorem length_le (h : Lines beautify n level ended pieces values) :
    values.length ≤ textCount pieces := by
  induction h with
  | nil => exact Nat.le_refl 0
  | last h => exact textCount_pos (opensStatement_iff.mp h.opens).2.1
  | more h _ _ ih =>
    have first := textCount_pos (opensStatement_iff.mp h.opens).2.1
    rw [textCount_append, textCount_newline, List.length_cons]
    omega

/-- Statements start as statements do. -/
theorem opens (h : Lines beautify n level ended pieces values) (hne : values ≠ [])
    (rest : List Piece) : opensStatement (upcoming (pieces ++ rest)) = true := by
  cases h with
  | nil => exact absurd rfl hne
  | last h => rw [h.upcoming_append]; exact h.opens
  | more h _ _ => rw [List.append_assoc, h.upcoming_append]; exact h.opens

/-- Statements are read one after the other up to where the loop stops. The loop may be that of a
program, a block or a branch. -/
theorem rounds {item? : ParseM (Option Node)}
    (hitem : ∀ (words rest : List Lexeme) (value : Node), opensStatement (nextKind words) = true →
      Reads room (Level.ofNat levels).statement ⟨words, depth⟩ value ⟨rest, depth⟩ →
      Reads room item? ⟨words, depth⟩ (some value) ⟨rest, depth⟩)
    (h : Lines beautify n level ended pieces values) (hne : values ≠ [])
    (hroom : room → Room n 1 levels depth) (newline : Bool) (rest : List Piece)
    (hstop : Reads room item? ⟨lexemes beautify false rest, depth⟩ none
      ⟨lexemes beautify false rest, depth⟩)
    (hends : EndsStatement ended true (upcoming rest)) :
    Rounds room item? ⟨lexemes beautify newline (pieces ++ rest), depth⟩ values
      ⟨lexemes beautify false rest, depth⟩ := by
  induction h generalizing newline with
  | nil => exact absurd rfl hne
  | @last pieces value h =>
    refine .round (hitem _ _ value ?_ (h.inner hroom newline rest hends)) (.stop hstop)
    rw [nextKind_lexemes, h.upcoming_append]
    exact h.opens
  | @more pieces others value values h hr hmore ih =>
    rw [List.append_assoc, List.cons_append]
    obtain ⟨_, _, _, _, noElse, noFinally⟩ := opensStatement_iff.mp (hr.opens hmore rest)
    refine .round (hitem _ _ value ?_ (h.inner hroom newline (.newline level :: (others ++ rest))
      ⟨nofun, fun _ => noElse, noFinally⟩)) (ih hmore _)
    rw [nextKind_lexemes, h.upcoming_append]
    exact h.opens

end Lines

/-- Statements in braces. -/
inductive Enclosed (beautify : Bool) (n : Nat) : List Piece → List Node → Prop
  | nil : Enclosed beautify n [.text "\x7b", .text "\x7d"] []
  | lines {level ended pieces values} (h : Lines beautify n (level + 1) ended pieces values)
      (hne : values ≠ []) : Enclosed beautify n (Node.inBraces level pieces) values

namespace Enclosed

variable {values : List Node}

/-- Statements in braces start with a brace. -/
theorem upcoming_append (h : Enclosed beautify n pieces values) (rest : List Piece) :
    upcoming (pieces ++ rest) = .punctuator .braceOpen := by
  cases h with
  | nil => simp
  | lines _ _ => simp [Node.inBraces]

/-- In a block a statement is read where one starts. -/
theorem blockStatement?_reads (start : Source.Span) (words rest : List Lexeme) (value : Node)
    (hopens : opensStatement (nextKind words) = true)
    (h : Reads room (Level.ofNat levels).statement ⟨words, depth⟩ value ⟨rest, depth⟩) :
    Reads room (blockStatement? (.ofNat levels) start) ⟨words, depth⟩ (some value) ⟨rest, depth⟩ := by
  have starts := opensStatement_iff.mp hopens
  refine .misses starts.1 (.get_bind fun parser hs => ?_)
  have ongoing : parser.atEnd? = false := by
    rw [Parser.atEnd?, hs.kind_current, beq_eq_false_iff_ne]
    exact starts.2.1
  rw [ongoing]
  exact h.bind (.pure _ _)

/-- A block is read from brace to brace, whatever follows. -/
theorem reads_block (h : Enclosed beautify n pieces values) (hroom : room → Room n 1 levels depth)
    (newline : Bool) (rest : List Piece) :
    Reads room (block (.ofNat levels)) ⟨lexemes beautify newline (pieces ++ rest), depth⟩ values
      ⟨lexemes beautify false rest, depth⟩ := by
  refine .token_bind fun start _ => ?_
  cases h with
  | nil =>
    simp only [List.cons_append, List.nil_append, lexemes_text]
    refine (Reads.expect (by simp)).bind (.rounds_bind fun count _ => ?_)
    refine (Rounds.many (.stop (.sees (by simp) (.pure none _))) (Nat.zero_le _)).bind ?_
    exact Reads.advance.bind (.pure _ _)
  | @lines level ended pieces values h hne =>
    simp only [Node.inBraces, List.cons_append, List.append_assoc, List.nil_append, lexemes_text,
      lexemes_newline]
    refine (Reads.expect (by simp)).bind (.rounds_bind fun count hcount => ?_)
    have rounds := h.rounds (blockStatement?_reads start.span) hne hroom beautify
      (.newline level :: .text "\x7d" :: rest) (.sees (by simp) (.pure _ _))
      ⟨fun _ => .inl (by simp), fun _ => by simp, by simp⟩
    have enough := h.length_le
    rw [Bool.false_or] at hcount ⊢
    refine (rounds.many ?_).bind ?_
    · rw [length_lexemes, textCount_append] at hcount
      omega
    · simp only [lexemes_newline, lexemes_text]
      exact Reads.advance.bind (.pure _ _)

end Enclosed

/-! ## Functions -/

/-- A name that is one token, and no reserved word. -/
def IsName (name : String) : Prop := kindOf name = .identifier name

/-- A name is read where an identifier has to stand. -/
theorem IsName.reads {name : String} (h : IsName name) {newline : Bool} {words : List Lexeme} :
    Reads room identifier ⟨⟨kindOf name, newline, name.toList⟩ :: words, depth⟩ name
      ⟨words, depth⟩ :=
  .identifier h

/-- The printer puts commas between names as between other items. -/
theorem nameList_eq (names : List String) :
    Node.nameList names = commaList (names.map fun name => [.text name]) := by
  induction names with
  | nil => rfl
  | cons first rest ih =>
    cases rest with
    | nil => rfl
    | cons second rest =>
      rw [Node.nameList, ih]
      · rfl
      · exact List.cons_ne_nil _ _

/-- The pieces of a function behind its opening word. -/
def signature (name : Option String) (names : List String) (body : List Piece) : List Piece :=
  name.toList.map Piece.text ++ (Node.inParens (Node.nameList names) ++ .space :: body)

section Function

variable {tag : LambdaTag} {name : Option String} {names : List String} {body : List Piece}
variable {values : List Node}

/-- The name of a function is read if it is there, before its parameters. -/
theorem reads_functionName (hname : ∀ x ∈ name, IsName x)
    (htag : tag = .declaration → name.isSome = true) (rest : List Piece)
    (hrest : upcoming rest = .punctuator .parenOpen) :
    Reads room (functionName? tag)
      ⟨lexemes beautify false (name.toList.map Piece.text ++ rest), depth⟩ name
      ⟨lexemes beautify false rest, depth⟩ := by
  refine .token_bind fun token hk => ?_
  rw [nextKind_lexemes] at hk
  cases name with
  | none =>
    have anonymous : tag ≠ .declaration := fun ht => by cases htag ht
    rw [hk, Option.toList_none, List.map_nil, List.nil_append, hrest]
    simp only [if_neg anonymous]
    exact .pure _ _
  | some name =>
    have known : kindOf name = .identifier name := hname name rfl
    rw [hk, Option.toList_some, List.map_cons, List.map_nil, List.singleton_append, upcoming_text,
      known]
    exact Reads.advance.bind (.pure _ _)

/-- The parameters of a function are read between their parentheses. -/
theorem reads_parameters (h : ∀ parameter ∈ names, IsName parameter) (rest : List Piece) :
    Reads room parameters
      ⟨lexemes beautify false (Node.inParens (Node.nameList names) ++ rest), depth⟩ names
      ⟨lexemes beautify false rest, depth⟩ := by
  have each : List.Forall₂ (ReadAsItem beautify room identifier (· ≠ .punctuator .parenClose)
      (fun _ => true) depth) (names.map fun name => [.text name]) names := by
    rw [List.forall₂_map_left_iff, List.forall₂_same]
    intro parameter hmem newline rest
    have hname : kindOf parameter = .identifier parameter := h parameter hmem
    refine ⟨by simp [hname], fun _ => ?_⟩
    rw [List.singleton_append, lexemes_text]
    exact (h parameter hmem).reads
  simp only [Node.inParens, nameList_eq, List.cons_append, List.append_assoc, List.nil_append,
    lexemes_text]
  refine (Reads.expect (by simp)).bind (.rounds_bind fun count hcount => ?_)
  rw [length_lexemes] at hcount
  have inside := reads_listed each rfl (by decide) (.text ")" :: rest) (by simp) hcount
  exact inside.bind ((Reads.expect (by simp)).bind (.pure _ _))

/-- A function is read from its name on to its closing brace. -/
theorem reads_lambda (hname : ∀ x ∈ name, IsName x) (htag : tag = .declaration → name.isSome = true)
    (hnames : ∀ parameter ∈ names, IsName parameter) (hbody : Enclosed beautify n body values)
    (hroom : room → Room n 1 levels depth) (rest : List Piece) :
    Reads room (lambda (.ofNat levels) tag)
      ⟨lexemes beautify false (signature name names body ++ rest), depth⟩
      (.lambda tag name names values) ⟨lexemes beautify false rest, depth⟩ := by
  have statements := hbody.reads_block hroom false rest
  simp only [signature, List.append_assoc]
  refine (reads_functionName hname htag _ (by simp [Node.inParens])).bind ?_
  exact (reads_parameters hnames _).bind (statements.bind (.pure _ _))

/-- A function that is an expression binds as tightly as anything. -/
theorem Phrase.function (hname : ∀ x ∈ name, IsName x) (hnames : ∀ parameter ∈ names, IsName parameter)
    (hbody : Enclosed beautify n body values) (noIn calls : Bool) :
    Phrase beautify (n + 1) 0 18 noIn calls (.text "function" :: signature name names body)
      (.lambda .expression name names values) := by
  refine .ofChain (.ofText _ (by simp [opensExpression]) (by simp [prefixOperator?]) (by simp))
    (by omega) (.ofHead calls ?_)
  intro room levels depth hroom newline rest
  rw [List.cons_append, lexemes_text]
  refine .missesWord (by simp) (.token_bind fun token hk => ?_)
  rw [nextKind_cons] at hk
  simp only [kindOf_expression_words] at hk
  rw [hk]
  exact Reads.advance.bind (reads_lambda hname (fun ht => by cases ht) hnames hbody
    (fun hr => (hroom hr).step.mono (by omega)) rest)

end Function

/-! ## One statement -/

/-- Whether a label comes first. -/
def isLabel : List Lexeme → Bool
  | ⟨.identifier _, _, _⟩ :: rest => nextKind rest == .punctuator .colon
  | _ => false

/-- What does not start with a name is no label. -/
theorem isLabel_eq_false {words : List Lexeme} (h : ∀ name, nextKind words ≠ .identifier name) :
    isLabel words = false := by
  unfold isLabel
  split
  · next name _ _ _ => exact absurd rfl (h name)
  · rfl

/-- Looking for a label reads one token ahead and takes none. -/
theorem reads_seesLabel (words : List Lexeme) :
    Reads room seesLabel ⟨words, depth⟩ (isLabel words) ⟨words, depth⟩ := by
  refine .token_bind fun token hk => ?_
  rw [hk]
  cases words with
  | nil => exact .pure _ _
  | cons word rest =>
    obtain ⟨kind, newline, text⟩ := word
    cases kind with
    | identifier name =>
      refine .peek_bind fun next hnext => ?_
      rw [hnext]
      exact .pure _ _
    | _ => exact .pure _ _

section Dispatch

variable {content : String} {rest : List Piece} {newline : Bool} {after : View}

/-- Without a label the first token says what statement this is. -/
theorem reads_statement {words : List Lexeme} (hlabel : isLabel words = false)
    (h : Reads room (do
        match (← token).kind with
        | .punctuator .braceOpen => return .body .block (← block (.ofNat levels))
        | .punctuator .semicolon => advance; return .empty
        | .keyword word => wordStatement (.ofNat levels) word
        | _ => simple (.ofNat levels)) ⟨words, depth⟩ value after) :
    Reads room (statement (.ofNat levels)) ⟨words, depth⟩ value after := by
  refine (reads_seesLabel words).bind ?_
  rw [hlabel]
  exact h

/-- A statement that a reserved word opens. -/
theorem reads_wordStatement {word : Keyword} (hword : kindOf content = .keyword word)
    (h : Reads room (wordStatement (.ofNat levels) word)
      ⟨⟨kindOf content, newline, content.toList⟩ :: lexemes beautify false rest, depth⟩ value after) :
    Reads room (statement (.ofNat levels)) ⟨lexemes beautify newline (.text content :: rest), depth⟩
      value after := by
  rw [lexemes_text]
  refine reads_statement (by rw [hword]; rfl) (.token_bind fun token hk => ?_)
  rw [nextKind_cons, hword] at hk
  rw [hk]
  exact h

end Dispatch

/-- A lone semicolon is a sentence. -/
theorem Sentence.empty (ended opened : Bool) :
    Sentence beautify n slack ended opened [.text ";"] .empty := by
  refine ⟨by simp [opensStatement], ?_⟩
  intro room levels depth _ newline rest _
  rw [List.singleton_append, lexemes_text]
  refine reads_statement (by simp [isLabel]) (.token_bind fun token hk => ?_)
  rw [nextKind_cons] at hk
  simp only [kindOf_marks] at hk
  rw [hk]
  exact Reads.advance.bind (.pure _ _)

/-- A block is a sentence, and closed by its brace. -/
theorem Sentence.block {values : List Node} (h : Enclosed beautify n pieces values)
    (ended opened : Bool) :
    Sentence beautify n 1 ended opened pieces (.body .block values) := by
  have first := h.upcoming_append
  refine ⟨by rw [← List.append_nil pieces, first]; rfl, ?_⟩
  intro room levels depth hroom newline rest _
  have statements := h.reads_block hroom newline rest
  refine reads_statement (isLabel_eq_false ?_) (.token_bind fun token hk => ?_)
  · intro name
    rw [nextKind_lexemes, first]
    nofun
  · rw [nextKind_lexemes, first] at hk
    rw [hk]
    exact statements.bind (.pure _ _)

/-! ## Statements with a semicolon -/

/-- What comes after a statement whose semicolon may be left out. -/
theorem upcoming_ending {rest : List Piece} (h : EndsStatement ended opened (upcoming rest)) :
    upcoming (Node.ending ended ++ rest) = .punctuator .semicolon ∨
      upcoming (Node.ending ended ++ rest) = .punctuator .braceClose ∨
      upcoming (Node.ending ended ++ rest) = .eof := by
  cases ended with
  | true => exact .inl (by simp [Node.ending])
  | false => exact .inr (h.closed rfl)

/-- Where a statement ends, its last expression ends. -/
theorem closes_ending {rest : List Piece} (h : EndsStatement ended opened (upcoming rest)) :
    closesExpression (upcoming (Node.ending ended ++ rest)) = true := by
  rcases upcoming_ending h with next | next | next
  all_goals rw [next]; rfl

/-- The ending of a statement is read, be it a semicolon or nothing. -/
theorem reads_ending {rest : List Piece} (h : EndsStatement ended opened (upcoming rest)) :
    Reads room semicolon ⟨lexemes beautify false (Node.ending ended ++ rest), depth⟩ ()
      ⟨lexemes beautify false rest, depth⟩ := by
  cases ended with
  | true => exact .semicolon (by simp)
  | false =>
    refine .no_semicolon ?_
    rw [nextKind_lexemes]
    exact h.closed rfl

/-- Whatever starts an expression starts a statement. -/
theorem opensStatement_of_opensExpression {kind : Token.Kind} (h : opensExpression kind = true) :
    opensStatement kind = true := by
  rw [opensStatement_iff]
  refine ⟨?_, ?_, ?_, ?_, ?_, ?_⟩
  all_goals rintro rfl; cases h

/-- A token that an expression starts with, but that would be taken for something else. -/
def ambiguous (kind : Token.Kind) : Bool :=
  kind == .punctuator .braceOpen || kind == .keyword .functionKw

/-- A reserved word that starts an expression opens no other statement, but for functions. -/
theorem wordStatement_eq_simple {word : Keyword} (inner : Level)
    (h : opensExpression (.keyword word) = true) (hf : ambiguous (.keyword word) = false) :
    wordStatement inner word = simple inner := by
  cases word <;> first
    | rfl
    | exact absurd h (by decide)
    | exact absurd hf (by decide)

/-- An expression with its semicolon. -/
theorem reads_simple {level : Nat} {noIn calls : Bool}
    (h : Phrase beautify n 1 level noIn calls pieces value) (hroom : room → Room n 2 levels depth)
    (newline : Bool) {rest : List Piece} (hends : EndsStatement ended opened (upcoming rest)) :
    Reads room (Grammar.simple (.ofNat levels))
      ⟨lexemes beautify newline (pieces ++ (Node.ending ended ++ rest)), depth⟩ (.simple value)
      ⟨lexemes beautify false rest, depth⟩ :=
  (h.whole room levels depth hroom false newline _ nofun
    (endsExpression_of_closes _ (closes_ending hends))).bind ((reads_ending hends).bind (.pure _ _))

/-- An expression and its ending are a sentence, if the expression does not start as another
statement would. -/
theorem Sentence.simple {level : Nat} {noIn calls : Bool}
    (h : Phrase beautify n 1 level noIn calls pieces value)
    (hstart : ambiguous (upcoming pieces) = false) (ended opened : Bool) :
    Sentence beautify (n + 1) 0 ended opened (pieces ++ Node.ending ended) (.simple value) := by
  obtain ⟨content, tail, rfl, hopens, _, hname⟩ := h.opens
  refine ⟨opensStatement_of_opensExpression hopens, ?_⟩
  intro room levels depth hroom newline rest hends
  have whole := reads_simple h (fun hr => (hroom hr).step) newline hends
  rw [List.append_assoc]
  refine reads_statement ?_ (.token_bind fun token hk => ?_)
  · rw [List.cons_append, lexemes_text]
    unfold isLabel
    split
    · next name _ _ words heq =>
      obtain ⟨hword, hwords⟩ := List.cons.inj heq
      have noColon : upcoming (tail ++ (Node.ending ended ++ rest)) ≠ .punctuator .colon := by
        refine upcoming_append_ne (hname name (congrArg Lexeme.kind hword)) ?_
        rcases upcoming_ending hends with next | next | next
        all_goals rw [next]; nofun
      rw [← hwords, nextKind_lexemes, beq_eq_false_iff_ne]
      exact noColon
    · rfl
  · rw [nextKind_lexemes] at hk
    rw [upcoming_text] at hstart
    rw [hk, List.cons_append, upcoming_text]
    split
    · next hbrace => rw [hbrace] at hstart; cases hstart
    · next hsemicolon => rw [hsemicolon] at hopens; cases hopens
    · next word hword =>
      rw [hword] at hopens hstart
      rw [wordStatement_eq_simple _ hopens hstart]
      exact whole
    · exact whole

/-- The pieces are read as a binding of a declaration. -/
def ReadAsDefinition (beautify : Bool) (n : Nat) (noIn : Bool) (pieces : List Piece) (value : Node) :
    Prop :=
  ∀ (room : Prop) (levels depth : Nat) (head : Bool), (room → Room n 0 levels depth) →
    (head = true → noIn = true) →
    ReadAsItem beautify room (definition (.ofNat levels) head) (fun _ => True) (endsExpression head)
      depth pieces value

/-- What ends a binding is no equals sign. -/
theorem assign_not_next {head : Bool} {kind : Token.Kind}
    (h : kind = .punctuator .comma ∨ endsExpression head kind = true) :
    kind ≠ .punctuator .assign := by
  rintro rfl
  rcases h with h | h
  · cases h
  · cases head <;> cases h

/-- A name alone is read as a binding. -/
theorem ReadAsDefinition.bare {name : String} (hname : IsName name) (noIn : Bool) :
    ReadAsDefinition beautify n noIn [.text name] (.varDef name none) := by
  intro room levels depth head _ _ newline rest
  refine ⟨trivial, fun hstop => ?_⟩
  rw [List.singleton_append, lexemes_text]
  refine hname.reads.bind (.misses ?_ (.pure _ _))
  rw [nextKind_lexemes]
  exact assign_not_next hstop

/-- So is a name with a value behind an equals sign. -/
theorem ReadAsDefinition.valued {name : String} {noIn calls : Bool} (hname : IsName name)
    (h : Phrase beautify n 1 2 noIn calls pieces value) :
    ReadAsDefinition beautify (n + 1) noIn ([.text name, .space, .text "=", .space] ++ pieces)
      (.varDef name (some value)) := by
  intro room levels depth head hroom hhead newline rest
  refine ⟨trivial, fun hstop => ?_⟩
  obtain ⟨_, read⟩ := h.item (Nat.le_refl 2) (fun hr => (hroom hr).step) head hhead false rest
  simp only [List.cons_append, List.nil_append, lexemes_text, lexemes_space]
  refine hname.reads.bind (.sees (by simp) (Reads.advance.bind ?_))
  exact (read hstop).bind (.pure _ _)

/-- The pieces, without a semicolon, are read as a declaration. -/
def ReadAsDeclaration (beautify : Bool) (n : Nat) (noIn : Bool) (tag : DeclarationTag)
    (pieces : List Piece) (value : Node) : Prop :=
  ∀ (room : Prop) (levels depth : Nat) (head newline : Bool) (rest : List Piece),
    (room → Room n 0 levels depth) → (head = true → noIn = true) →
    endsExpression head (upcoming rest) = true →
    Reads room (declaration (.ofNat levels) tag head)
      ⟨lexemes beautify newline (pieces ++ rest), depth⟩ value ⟨lexemes beautify false rest, depth⟩

/-- Bindings with commas between them are read as a declaration. -/
theorem ReadAsDeclaration.intro {tag : DeclarationTag} {noIn : Bool} {items : List (List Piece)}
    {values : List Node} (h : List.Forall₂ (ReadAsDefinition beautify n noIn) items values)
    (hne : items ≠ []) :
    ReadAsDeclaration beautify (n + 1) noIn tag (.text tag.word :: .space :: commaList items)
      (.declaration tag values) := by
  intro room levels depth head newline rest hroom hhead hends
  have each := h.imp fun pieces value hd => hd room levels depth head
    (fun hr => (hroom hr).step.mono (Nat.zero_le _)) hhead
  have noComma : upcoming rest ≠ .punctuator .comma := by
    rw [endsExpression, Bool.and_eq_true, bne_iff_ne] at hends
    exact hends.2
  have series := series_commaList each hne false rest hends noComma
  have enough := length_le_textCount_commaList items
  rw [h.length_eq] at enough
  simp only [List.cons_append, lexemes_text, lexemes_space]
  refine Reads.advance.bind
    (.rounds_bind fun count hcount => (series.separated ?_).bind (.pure _ _))
  rw [length_lexemes, textCount_append] at hcount
  omega

/-- The word of a declaration says which it is. -/
theorem kindOf_word_declaration (tag : DeclarationTag) :
    declarationTag? (kindOf tag.word) = some tag := by
  cases tag <;> simp [DeclarationTag.word, declarationTag?]

/-- A declaration and its ending are a sentence. -/
theorem Sentence.declaration {tag : DeclarationTag} {noIn : Bool} {tail : List Piece}
    (h : ReadAsDeclaration beautify n noIn tag (.text tag.word :: tail) value) (ended opened : Bool) :
    Sentence beautify n 0 ended opened (.text tag.word :: tail ++ Node.ending ended) value := by
  have read : ∀ (room : Prop) (levels depth : Nat), (room → Room n 0 levels depth) →
      ∀ (newline : Bool) (rest : List Piece), EndsStatement ended opened (upcoming rest) →
      Reads room (do
          let declared ← Grammar.declaration (.ofNat levels) tag false
          semicolon
          return declared)
        ⟨lexemes beautify newline (.text tag.word :: (tail ++ (Node.ending ended ++ rest))), depth⟩ value
        ⟨lexemes beautify false rest, depth⟩ :=
    fun room levels depth hroom newline rest hends =>
      (h room levels depth false newline _ hroom nofun
        (endsExpression_of_closes _ (closes_ending hends))).bind
        ((reads_ending hends).bind (.pure _ _))
  refine ⟨?_, ?_⟩
  · cases tag <;> simp [DeclarationTag.word, opensStatement]
  · intro room levels depth hroom newline rest hends
    have whole := read room levels depth hroom newline rest hends
    rw [List.cons_append, List.cons_append, List.append_assoc]
    cases tag with
    | var => exact reads_wordStatement kindOf_statement_words.1 whole
    | let_ => exact reads_wordStatement kindOf_statement_words.2.1 whole
    | const => exact reads_wordStatement kindOf_statement_words.2.2.1 whole

end JsPrune
