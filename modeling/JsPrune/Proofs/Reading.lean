import JsPrune.Proofs.Rendering

/-!
# What a step of parsing reads

A step of parsing is looked at from outside: which lexemes are before it, how deep in the tree it
stands, what it answers, and what is left. `Reads` says this of a step. The only refusal it allows is
the one for nesting too deeply, and that only if `room` is false; so a statement with a true `room`
says that the step succeeds.

There is one lemma for each step that the grammar is built from, and one for each way to put steps
together. Repetitions are covered by what one round reads (`reads_separated`, `reads_listed`,
`reads_many`).
-/

namespace JsPrune

/-- What a parser has before it. -/
structure View where
  /-- The lexemes that are to come. -/
  words : List Lexeme
  /-- The levels of the tree around them. -/
  depth : Nat

variable {α β : Type} {room : Prop} {before middle after : View}

/-- Whatever parser shows `before`, the step answers `value` and leaves `after`, or there is no room
and it refuses to nest so deeply. -/
def Reads (room : Prop) (step : ParseM α) (before : View) (value : α) (after : View) : Prop :=
  ∀ parser, parser.Shows before.words before.depth →
    (∃ last, step parser = .ok value last ∧ last.Shows after.words after.depth) ∨
    (¬ room ∧ ∃ refusal last, step parser = .error refusal last ∧
      refusal.complaint = .nestingTooDeep)

/-- The kind of the first of some lexemes; behind the last comes the end of the text. -/
def nextKind : List Lexeme → Token.Kind
  | [] => .eof
  | word :: _ => word.kind

@[simp] theorem nextKind_nil : nextKind [] = .eof := rfl

@[simp] theorem nextKind_cons (word : Lexeme) (words : List Lexeme) :
    nextKind (word :: words) = word.kind := rfl

namespace Parser.Shows

variable {parser : Parser} {word : Lexeme} {words : List Lexeme} {depth : Nat}

/-- The tokens to come are fewer than the turns that a loop is given. -/
theorem length_lt (h : parser.Shows words depth) :
    words.length < parser.lexer.rest.length + 4 := by
  rw [← h.words, List.length_map]
  exact parser.length_pending_lt

/-- The current token is the first of those to come. -/
theorem kind_current (h : parser.Shows words depth) : parser.current.kind = nextKind words := by
  rw [← h.words]
  cases hp : parser.pending with
  | nil => exact kind_current_of_pending hp
  | cons token rest =>
    rw [current_of_pending hp]
    rfl

/-- The current token is the first lexeme. -/
theorem lexeme_current (h : parser.Shows (word :: words) depth) :
    parser.current.lexeme parser.source = word := by
  obtain ⟨token, rest, hp, hword, _⟩ := List.map_eq_cons_iff.mp h.words
  rw [current_of_pending hp]
  exact hword

/-- It is marked with the line break before it. -/
theorem newline_current (h : parser.Shows (word :: words) depth) :
    parser.current.newlineBefore = word.newline :=
  congrArg Lexeme.newline h.lexeme_current

/-- Its span is its text. -/
theorem text_current (h : parser.Shows (word :: words) depth) :
    parser.current.span.text parser.source = word.text :=
  congrArg Lexeme.text h.lexeme_current

/-- The token read ahead is the second of those to come. -/
theorem kind_peek (h : parser.Shows (word :: words) depth) :
    parser.peek.1.kind = nextKind words := by
  obtain ⟨token, rest, hp, _, hwords⟩ := List.map_eq_cons_iff.mp h.words
  rw [Parser.kind_peek hp, ← hwords]
  cases rest <;> rfl

/-- Going on leaves the rest to come. -/
theorem advance (h : parser.Shows (word :: words) depth) : parser.advance.Shows words depth := by
  obtain ⟨token, rest, hp, _, hwords⟩ := List.map_eq_cons_iff.mp h.words
  obtain ⟨lexer, current, peeked, frame⟩ := parser.advance_frame
  refine ⟨?_, ?_⟩
  · rw [pending_advance hp, frame]
    exact hwords
  · rw [frame]
    exact h.depth

/-- Reading ahead changes nothing about what is to come. -/
theorem peek (h : parser.Shows words depth) : parser.peek.2.Shows words depth := by
  obtain ⟨lexer, peeked, frame⟩ := parser.peek_frame
  refine ⟨?_, ?_⟩
  · rw [pending_peek, frame]
    exact h.words
  · rw [frame]
    exact h.depth

/-- The counts are no concern of the tokens. -/
theorem setDepth (h : parser.Shows words depth) (nesting deep : Nat) :
    (parser.setDepth nesting deep).Shows words deep :=
  ⟨h.words, rfl⟩

end Parser.Shows

namespace ParseM

variable {step : ParseM α} {next : α → ParseM β} {chain : ParseM α} {parser last : Parser}

/-! ## What comes after a step -/

/-- After an answer the next step is taken. -/
theorem bind_of_ok {value : α} (h : step parser = .ok value last) :
    (step >>= next) parser = next value last := by
  show EStateM.bind step next parser = _
  rw [EStateM.bind, h]

/-- After a refusal no other step is taken. -/
theorem bind_of_error {refusal : Refusal} (h : step parser = .error refusal last) :
    (step >>= next) parser = .error refusal last := by
  show EStateM.bind step next parser = _
  rw [EStateM.bind, h]

/-! ## Chains that end -/

/-- A chain that is complete gives its links back. -/
theorem chained_of_ok {value : α} (h : chain parser = .ok value last) :
    chained chain parser = .ok value (last.setDepth last.nesting parser.treeDepth) := by
  show (chain >>= _) parser = _
  exact bind_of_ok h

/-- A chain that is broken off keeps them. -/
theorem chained_of_error {refusal : Refusal} (h : chain parser = .error refusal last) :
    chained chain parser = .error refusal last := by
  show (chain >>= _) parser = _
  exact bind_of_error h

end ParseM

namespace Reads

/-! ## Putting steps together -/

/-- An answer takes no tokens. -/
theorem pure (value : α) (view : View) : Reads room (Pure.pure value) view value view :=
  fun parser h => .inl ⟨parser, rfl, h⟩

/-- Of two steps the second goes on where the first one stopped. -/
theorem bind {step : ParseM α} {next : α → ParseM β} {a : α} {b : β}
    (ha : Reads room step before a middle) (hb : Reads room (next a) middle b after) :
    Reads room (step >>= next) before b after := by
  intro parser h
  rcases ha parser h with ⟨last, hstep, hlast⟩ | ⟨hroom, refusal, last, hstep, hdeep⟩
  · rw [ParseM.bind_of_ok hstep]
    exact hb last hlast
  · exact .inr ⟨hroom, refusal, last, ParseM.bind_of_error hstep, hdeep⟩

/-- Where there is no room the refusal may come at once. -/
theorem refuse {value : α} (h : ¬ room) :
    Reads room (ParseM.refuse .nestingTooDeep) before value after :=
  fun parser _ => .inr ⟨h, _, parser, rfl, rfl⟩

/-! ## Looking at the state -/

variable {word : Lexeme} {words rest : List Lexeme} {depth : Nat}

/-- A step that first looks at the state. -/
theorem get_bind {next : Parser → ParseM β} {b : β}
    (h : ∀ parser : Parser, parser.Shows words depth → Reads room (next parser) ⟨words, depth⟩ b after) :
    Reads room (get >>= next) ⟨words, depth⟩ b after :=
  fun parser hs => h parser hs parser hs

/-- Asking for the current token takes none. -/
theorem run_token_bind (next : Token → ParseM β) (parser : Parser) :
    (ParseM.token >>= next) parser = next parser.current parser := rfl

/-- A step that first looks at the kind of the current token. -/
theorem token_bind {next : Token → ParseM β} {b : β}
    (h : ∀ token : Token, token.kind = nextKind words → Reads room (next token) ⟨words, depth⟩ b after) :
    Reads room (ParseM.token >>= next) ⟨words, depth⟩ b after :=
  fun parser hs => h parser.current hs.kind_current parser hs

/-- A step that first looks at the current token and the line break before it. -/
theorem token_newline_bind {next : Token → ParseM β} {b : β}
    (h : ∀ token : Token, token.kind = word.kind → token.newlineBefore = word.newline →
      Reads room (next token) ⟨word :: words, depth⟩ b after) :
    Reads room (ParseM.token >>= next) ⟨word :: words, depth⟩ b after :=
  fun parser hs => h parser.current hs.kind_current hs.newline_current parser hs

/-- A test for a mark is decided by the kind that comes next. -/
theorem seesMark_bind {symbol : Punctuator} {next : Bool → ParseM β} {b : β}
    (h : Reads room (next (nextKind words == .punctuator symbol)) ⟨words, depth⟩ b after) :
    Reads room (ParseM.seesMark symbol >>= next) ⟨words, depth⟩ b after := by
  refine get_bind fun parser hs => ?_
  have sees : parser.at? symbol = (nextKind words == .punctuator symbol) := by
    rw [Parser.at?, hs.kind_current]
  show Reads room (next (parser.at? symbol)) _ b after
  rw [sees]
  exact h

/-- So is a test for a reserved word. -/
theorem seesWord_bind {keyword : Keyword} {next : Bool → ParseM β} {b : β}
    (h : Reads room (next (nextKind words == .keyword keyword)) ⟨words, depth⟩ b after) :
    Reads room (ParseM.seesWord keyword >>= next) ⟨words, depth⟩ b after := by
  refine get_bind fun parser hs => ?_
  have sees : parser.atWord? keyword = (nextKind words == .keyword keyword) := by
    rw [Parser.atWord?, hs.kind_current]
  show Reads room (next (parser.atWord? keyword)) _ b after
  rw [sees]
  exact h

/-- The mark stands here. -/
theorem sees {symbol : Punctuator} {next : Bool → ParseM β} {b : β}
    (hk : nextKind words = .punctuator symbol) (h : Reads room (next true) ⟨words, depth⟩ b after) :
    Reads room (ParseM.seesMark symbol >>= next) ⟨words, depth⟩ b after := by
  apply seesMark_bind
  rw [beq_iff_eq.mpr hk]
  exact h

/-- The mark does not stand here. -/
theorem misses {symbol : Punctuator} {next : Bool → ParseM β} {b : β}
    (hk : nextKind words ≠ .punctuator symbol) (h : Reads room (next false) ⟨words, depth⟩ b after) :
    Reads room (ParseM.seesMark symbol >>= next) ⟨words, depth⟩ b after := by
  apply seesMark_bind
  rw [beq_eq_false_iff_ne.mpr hk]
  exact h

/-- The reserved word stands here. -/
theorem seesWord {keyword : Keyword} {next : Bool → ParseM β} {b : β}
    (hk : nextKind words = .keyword keyword) (h : Reads room (next true) ⟨words, depth⟩ b after) :
    Reads room (ParseM.seesWord keyword >>= next) ⟨words, depth⟩ b after := by
  apply seesWord_bind
  rw [beq_iff_eq.mpr hk]
  exact h

/-- The reserved word does not stand here. -/
theorem missesWord {keyword : Keyword} {next : Bool → ParseM β} {b : β}
    (hk : nextKind words ≠ .keyword keyword) (h : Reads room (next false) ⟨words, depth⟩ b after) :
    Reads room (ParseM.seesWord keyword >>= next) ⟨words, depth⟩ b after := by
  apply seesWord_bind
  rw [beq_eq_false_iff_ne.mpr hk]
  exact h

/-- A step that first asks for a bound on its rounds, which is beyond the lexemes that are left. -/
theorem rounds_bind {next : Nat → ParseM β} {b : β}
    (h : ∀ count, words.length < count → Reads room (next count) ⟨words, depth⟩ b after) :
    Reads room (ParseM.rounds >>= next) ⟨words, depth⟩ b after :=
  get_bind fun _ hs => h _ hs.length_lt

/-- A step that first reads a token ahead. -/
theorem peek_bind {next : Token → ParseM β} {b : β}
    (h : ∀ token : Token, token.kind = nextKind words →
      Reads room (next token) ⟨word :: words, depth⟩ b after) :
    Reads room (ParseM.peek >>= next) ⟨word :: words, depth⟩ b after :=
  fun parser hs => h parser.peek.1 hs.kind_peek parser.peek.2 hs.peek

/-! ## Taking lexemes -/

/-- Going on takes one token. -/
theorem advance : Reads room ParseM.advance ⟨word :: words, depth⟩ () ⟨words, depth⟩ :=
  fun _ h => .inl ⟨_, rfl, h.advance⟩

/-- A mark that has to stand here is taken if it does. -/
theorem expect {symbol : Punctuator} (h : word.kind = .punctuator symbol) :
    Reads room (ParseM.expect symbol) ⟨word :: words, depth⟩ () ⟨words, depth⟩ :=
  sees h advance

/-- So is a name. -/
theorem identifier {name : String} (h : word.kind = .identifier name) :
    Reads room ParseM.identifier ⟨word :: words, depth⟩ name ⟨words, depth⟩ := by
  refine token_bind fun token hk => ?_
  rw [nextKind_cons, h] at hk
  rw [hk]
  exact advance.bind (pure _ _)

/-- A semicolon that is written. -/
theorem semicolon (h : word.kind = .punctuator .semicolon) :
    Reads room ParseM.semicolon ⟨word :: words, depth⟩ () ⟨words, depth⟩ :=
  sees h advance

/-- A semicolon that is left out: before a closing brace or at the end of the text. -/
theorem no_semicolon (h : nextKind words = .punctuator .braceClose ∨ nextKind words = .eof) :
    Reads room ParseM.semicolon ⟨words, depth⟩ () ⟨words, depth⟩ := by
  refine misses (by rcases h with h | h <;> rw [h] <;> decide) (get_bind fun parser hs => ?_)
  have ends : parser.atStatementEnd? = true := by
    rw [Parser.atStatementEnd?, Parser.at?, Parser.at?, Parser.atEnd?, hs.kind_current]
    rcases h with h | h <;> rw [h] <;> simp
  rw [ends]
  exact pure _ _

/-! ## Levels -/

/-- One level deeper there has to be room for the level itself. -/
theorem nested {body : ParseM α} {value : α} (hroom : room → depth < maxTreeDepth)
    (h : Reads room body ⟨words, depth + 1⟩ value ⟨rest, depth + 1⟩) :
    Reads room (ParseM.nested body) ⟨words, depth⟩ value ⟨rest, depth⟩ := by
  intro parser hs
  have level : parser.treeDepth = depth := hs.depth
  rw [ParseM.nested]
  split
  · next deep =>
    refine .inr ⟨fun hr => ?_, _, parser, rfl, rfl⟩
    have shallow := hroom hr
    omega
  · rw [level]
    have deeper := hs.setDepth (parser.nesting + 1) (depth + 1)
    rcases h _ deeper with ⟨last, hbody, hlast⟩ | ⟨hno, refusal, last, hbody, hdeep⟩
    · rw [hbody]
      exact .inl ⟨_, rfl, hlast.setDepth _ _⟩
    · rw [hbody]
      exact .inr ⟨hno, refusal, _, rfl, hdeep⟩

/-- A link is charged for if there is room. -/
theorem chainLink (hroom : room → depth < maxTreeDepth) :
    Reads room ParseM.chainLink ⟨words, depth⟩ () ⟨words, depth + 1⟩ := by
  refine get_bind fun parser hs => ?_
  have level : parser.treeDepth = depth := hs.depth
  split
  · next deep =>
    refine refuse fun hr => ?_
    have shallow := hroom hr
    omega
  · intro last hl
    have here : last.treeDepth = depth := hl.depth
    refine .inl ⟨last.setDepth last.nesting (depth + 1), ?_, hl.setDepth _ _⟩
    rw [← here]
    rfl

end Reads

/-- Like `Reads`, at whatever depth the step ends. The links of a chain are counted, and only the
whole chain gives them back. -/
def Finishes (room : Prop) (step : ParseM α) (before : View) (value : α) (words : List Lexeme) :
    Prop :=
  ∀ parser, parser.Shows before.words before.depth →
    (∃ last depth, step parser = .ok value last ∧ last.Shows words depth) ∨
    (¬ room ∧ ∃ refusal last, step parser = .error refusal last ∧
      refusal.complaint = .nestingTooDeep)

namespace Reads

variable {words rest : List Lexeme} {depth deep : Nat}

/-- What is read stops somewhere. -/
theorem finishes {step : ParseM α} {value : α} (h : Reads room step before value ⟨words, deep⟩) :
    Finishes room step before value words := by
  intro parser hs
  rcases h parser hs with ⟨last, hstep, hlast⟩ | hrefused
  · exact .inl ⟨last, deep, hstep, hlast⟩
  · exact .inr hrefused

end Reads

namespace Finishes

variable {words rest : List Lexeme} {depth : Nat}

/-- What finishes may come behind what is read. -/
theorem after_reads {step : ParseM α} {next : α → ParseM β} {a : α} {b : β}
    (ha : Reads room step before a middle) (hb : Finishes room (next a) middle b words) :
    Finishes room (step >>= next) before b words := by
  intro parser h
  rcases ha parser h with ⟨last, hstep, hlast⟩ | ⟨hroom, refusal, last, hstep, hdeep⟩
  · rw [ParseM.bind_of_ok hstep]
    exact hb last hlast
  · exact .inr ⟨hroom, refusal, last, ParseM.bind_of_error hstep, hdeep⟩

/-- A loop gets more turns than there are tokens to come. -/
theorem rounds_bind {next : Nat → ParseM β} {b : β}
    (h : ∀ count, words.length < count → Finishes room (next count) ⟨words, depth⟩ b rest) :
    Finishes room (ParseM.rounds >>= next) ⟨words, depth⟩ b rest :=
  fun parser hs => h _ hs.length_lt parser hs

/-- A chain gives its links back. -/
theorem chained {chain : ParseM α} {value : α}
    (h : Finishes room chain ⟨words, depth⟩ value rest) :
    Reads room (ParseM.chained chain) ⟨words, depth⟩ value ⟨rest, depth⟩ := by
  intro parser hs
  rcases h parser hs with ⟨last, deep, hchain, hlast⟩ | ⟨hroom, refusal, last, hchain, hdeep⟩
  · exact .inl ⟨_, ParseM.chained_of_ok hchain, hs.depth ▸ hlast.setDepth _ _⟩
  · exact .inr ⟨hroom, refusal, last, ParseM.chained_of_error hchain, hdeep⟩

/-! ## Repetition -/

/-- A loop goes on with what one turn has made. -/
theorem extend_step {step? : α → ParseM (Option α)} {count : Nat} {value next last : α}
    (h : Reads room (step? value) before (some next) middle)
    (hr : Finishes room (ParseM.extend step? count next) middle last rest) :
    Finishes room (ParseM.extend step? (count + 1) value) before last rest :=
  after_reads h hr

/-- It stops where a turn has nothing to add. -/
theorem extend_stop {step? : α → ParseM (Option α)} {value : α}
    (h : Reads room (step? value) ⟨words, depth⟩ none ⟨words, depth⟩) :
    (count : Nat) → Finishes room (ParseM.extend step? count value) ⟨words, depth⟩ value words
  | 0 => (Reads.pure value _).finishes
  | _ + 1 => (h.bind (.pure value _)).finishes

end Finishes

/-- Rounds of a repetition that ends when there is no item any more. -/
inductive Rounds (room : Prop) (item? : ParseM (Option α)) : View → List α → View → Prop
  | stop {view : View} (h : Reads room item? view none view) : Rounds room item? view [] view
  | round {first second last : View} {value : α} {values : List α}
      (h : Reads room item? first (some value) second) (hr : Rounds room item? second values last) :
      Rounds room item? first (value :: values) last

/-- A loop over items reads them all, if it has a turn for each. -/
theorem Rounds.many {item? : ParseM (Option α)} {values : List α} {count : Nat}
    (h : Rounds room item? before values after) (hc : values.length ≤ count) :
    Reads room (ParseM.many item? count) before values after := by
  induction h generalizing count with
  | @stop view h =>
    cases count with
    | zero => exact .pure [] view
    | succ count => exact h.bind (.pure [] view)
  | round h _ ih =>
    cases count with
    | zero => exact absurd hc (Nat.not_succ_le_zero _)
    | succ count => exact h.bind ((ih (Nat.le_of_succ_le_succ hc)).bind (.pure _ _))

/-- Items with commas between them. Every item starts with a kind of token that `start` allows. -/
inductive Series (room : Prop) (start : Token.Kind → Prop) (item : ParseM α) :
    View → List α → View → Prop
  | last {words rest : List Lexeme} {depth : Nat} {value : α} (hs : start (nextKind words))
      (h : Reads room item ⟨words, depth⟩ value ⟨rest, depth⟩)
      (hn : nextKind rest ≠ .punctuator .comma) :
      Series room start item ⟨words, depth⟩ [value] ⟨rest, depth⟩
  | more {words rest : List Lexeme} {depth : Nat} {word : Lexeme} {value : α} {values : List α}
      {last : View} (hs : start (nextKind words))
      (h : Reads room item ⟨words, depth⟩ value ⟨word :: rest, depth⟩)
      (hc : word.kind = .punctuator .comma)
      (hr : Series room start item ⟨rest, depth⟩ values last) :
      Series room start item ⟨words, depth⟩ (value :: values) last

/-- So does a loop over items with commas. -/
theorem Series.separated {start : Token.Kind → Prop} {item : ParseM α} {values : List α}
    {count : Nat} (h : Series room start item before values after) (hc : values.length ≤ count) :
    Reads room (ParseM.separated item count) before values after := by
  induction h generalizing count with
  | last _ h hn =>
    cases count with
    | zero => exact absurd hc (Nat.not_succ_le_zero _)
    | succ count => exact h.bind (.misses hn (.pure _ _))
  | more _ h hcomma _ ih =>
    cases count with
    | zero => exact absurd hc (Nat.not_succ_le_zero _)
    | succ count =>
      exact h.bind (.sees hcomma (Reads.advance.bind
        ((ih (Nat.le_of_succ_le_succ hc)).bind (.pure _ _))))

/-- A list that is not empty, up to the mark that closes it. -/
theorem Series.listed {close : Punctuator} {item : ParseM α} {values : List α} {count : Nat}
    (h : Series room (· ≠ .punctuator close) item before values after)
    (hc : values.length ≤ count) :
    Reads room (ParseM.listed close item count) before values after := by
  induction h generalizing count with
  | last hs h hn =>
    cases count with
    | zero => exact absurd hc (Nat.not_succ_le_zero _)
    | succ count => exact .misses hs (h.bind (.misses hn (.pure _ _)))
  | more hs h hcomma _ ih =>
    cases count with
    | zero => exact absurd hc (Nat.not_succ_le_zero _)
    | succ count =>
      exact .misses hs (h.bind (.sees hcomma (Reads.advance.bind
        ((ih (Nat.le_of_succ_le_succ hc)).bind (.pure _ _)))))

/-- An empty list is read as one. -/
theorem Reads.listed_nil {close : Punctuator} {item : ParseM α} {words : List Lexeme} {depth : Nat}
    (h : nextKind words = .punctuator close) :
    (count : Nat) → Reads room (ParseM.listed close item count) ⟨words, depth⟩ [] ⟨words, depth⟩
  | 0 => .pure [] _
  | _ + 1 => .sees h (.pure [] _)

end JsPrune
