import JsPrune.Proofs.Grammatical
import JsPrune.Proofs.Growth

/-!
# What the parser builds

Every function of the grammar, when it succeeds, builds a tree that suits the place it is built for.
Two things have to be known about the text. The names among its tokens are names, because the lexer
made them (`named_nextSignificant`). And a statement that ends in an `if` without `else` is not
followed by an `else`, because the innermost `if` would have taken it.

`Makes` is the judgement: what a step answers, and which token stands behind it. The functions of the
grammar are taken one by one over an arbitrary inner level, `Level.Sound`, and `Level.sound_ofNat`
stacks the levels up.

Main result: `formed_of_parse`. Every tree that is parsed is a program, grammatical and with every
`else` bound.
-/

namespace JsPrune

open ParseM Grammar Text

/-! ## Names among the tokens -/

/-- If the token is an identifier, its name is one. -/
def Token.Named (token : Token) : Prop :=
  ∀ name, token.kind = .identifier name → Node.IsNameToken name

/-- Names start above the digits in the table of characters, except for the dollar sign. -/
theorem toNat_of_isNameStart {c : Char} (h : isNameStart c = true) : 0x41 ≤ c.toNat ∨ c = '$' := by
  by_cases low : c.toNat < 0x41
  · have letter : isLetter c = false := by
      rw [isLetter, letterRanges, Ranges.contains, if_pos low]
    rw [isNameStart, letter, Bool.false_or, Bool.or_eq_true, beq_iff_eq, beq_iff_eq] at h
    rcases h with rfl | rfl
    · exact absurd low (by decide)
    · exact .inr rfl
  · exact .inl (Nat.not_lt.mp low)

/-- What starts like a name is scanned as one. -/
theorem token_of_isNameStart {first : Char} (h : isNameStart first = true) (rest : List Char) :
    Scan.token first rest = Scan.word first rest := by
  have apart : ∀ c : Char, isNameStart c = false → (first == c) = false := by
    intro c hc
    rw [beq_eq_false_iff_ne]
    rintro rfl
    rw [h] at hc
    cases hc
  have digit : isDigit first = false := by
    rw [Bool.eq_false_iff]
    intro hd
    rw [isDigit, Bool.and_eq_true, decide_eq_true_eq, decide_eq_true_eq] at hd
    have high : first.toNat ≤ 0x39 := hd.2
    rcases toNat_of_isNameStart h with hle | rfl
    · omega
    · exact absurd hd.1 (by decide)
  unfold Scan.token
  rw [apart '/' (by decide), apart '"' (by decide), apart '\x27' (by decide), apart '.' (by decide),
    digit, h]
  rfl

/-- The name of an identifier that is scanned is one token by itself. -/
theorem isNameToken_of_scan {first : Char} {rest : List Char} {name : String}
    (hsolid : isBlank first = false) (h : (Scan.token first rest).1 = .identifier name) :
    Node.IsNameToken name := by
  have content : (Scan.token first rest).1.isContent = true := by rw [h]; rfl
  rcases Scan.token_cases content with ⟨_, hk, _⟩ | ⟨_, hk, _⟩ | ⟨start, hw, _⟩ | ⟨_, hk, _⟩
  · rw [h] at hk
    cases hk
  · rw [h] at hk
    cases hk
  · rw [hw, Scan.word] at h
    split at h
    · cases h
    · next hnone =>
      cases h
      -- The name goes on as far as it can, so scanning it again takes all of it.
      have whole : (rest.takeWhile isNameChar).takeWhile isNameChar = rest.takeWhile isNameChar :=
        List.takeWhile_idem
      apply lexesAs_of_spells
      rw [String.toList_ofList, spells_cons, token_of_isNameStart start, Scan.word, whole]
      refine ⟨hsolid, rfl, ?_⟩
      simp only [hnone]
  · rw [h] at hk
    cases hk

/-- The lexer makes names of nothing else. -/
theorem named_next (lexer : Lexer) : lexer.next.1.Named := by
  intro name h
  obtain ⟨blank, first, rest, hrest, hb, hsolid⟩ := lexer.exists_solid (by rw [h]; nofun)
  rw [lexer.next_of_rest hrest hb hsolid] at h
  exact isNameToken_of_scan hsolid h

/-- The lexer makes no other names. -/
theorem named_nextSignificant (lexer : Lexer) : lexer.nextSignificant.1.Named := by
  fun_induction Lexer.nextSignificant lexer with
  | case1 lexer _ ih => exact ih
  | case2 lexer _ => exact named_next lexer

/-- The names among the tokens that were read are names. -/
structure Parser.Lexed (parser : Parser) : Prop where
  current : parser.current.Named
  peeked : ∀ token ∈ parser.peeked, token.Named

namespace Parser

/-- A parser starts with names that are names. -/
theorem lexed_ofSource (source : String) : (ofSource source).Lexed :=
  ⟨named_nextSignificant _, nofun⟩

/-- Going on keeps the names names. -/
theorem Lexed.advance {parser : Parser} (h : parser.Lexed) : parser.advance.Lexed := by
  rw [Parser.advance]
  split
  · next token hp => exact ⟨h.peeked token hp, fun _ hmem => absurd hmem (Option.not_mem_none _)⟩
  · next hp => exact ⟨named_nextSignificant _, h.peeked⟩

/-- So does reading ahead. -/
theorem Lexed.peek {parser : Parser} (h : parser.Lexed) : parser.peek.2.Lexed := by
  rw [Parser.peek]
  split
  · exact h
  · refine ⟨h.current, fun token htoken => ?_⟩
    rw [← Option.mem_some.mp htoken]
    exact named_nextSignificant _

theorem Lexed.setDepth {parser : Parser} (h : parser.Lexed) (nesting deep : Nat) :
    (parser.setDepth nesting deep).Lexed :=
  ⟨h.current, h.peeked⟩

end Parser

/-! ## What a step makes -/

variable {α β : Type}

/-- When the step succeeds, `post` holds of its value and of the token behind it, and the names still
to come are names if they were. -/
def Makes (post : α → Token → Prop) (step : ParseM α) : Prop :=
  ∀ parser value after, parser.Lexed → step parser = .ok value after →
    after.Lexed ∧ post value after.current

/-- What a step answers, whatever stands behind it. -/
abbrev Gives (post : α → Prop) (step : ParseM α) : Prop := Makes (fun value _ => post value) step

/-- A step that may be taken anywhere. -/
abbrev Passes (step : ParseM α) : Prop := Gives (fun _ => True) step

namespace Makes

variable {post : α → Token → Prop} {goal : β → Token → Prop} {known : α → Prop}

/-- An answer is made whatever comes next. -/
theorem pure {value : α} (h : ∀ next, post value next) : Makes post (Pure.pure value) := by
  intro parser result after lexed hstep
  cases hstep
  exact ⟨lexed, h _⟩

/-- Of two steps the second makes the answer, from what the first one gave. -/
theorem bind {step : ParseM α} {next : α → ParseM β} (h : Gives known step)
    (hnext : ∀ a, known a → Makes goal (next a)) : Makes goal (step >>= next) := by
  intro parser b after lexed hrun
  obtain ⟨a, middle, hstep, hrest⟩ := ok_of_bind hrun
  obtain ⟨lexed', hknown⟩ := h parser a middle lexed hstep
  exact hnext a hknown middle b after lexed' hrest

/-- A step whose answer does not matter comes first. -/
theorem after {step : ParseM α} {next : α → ParseM β} (h : Passes step)
    (hnext : ∀ a, Makes goal (next a)) : Makes goal (step >>= next) :=
  h.bind fun a _ => hnext a

/-- The last step, and what is made of its answer. -/
theorem last {step : ParseM α} {f : α → β} (h : Makes (fun a next => goal (f a) next) step) :
    Makes goal (step >>= fun a => Pure.pure (f a)) := by
  intro parser b after lexed hrun
  obtain ⟨a, middle, hstep, hrest⟩ := ok_of_bind hrun
  cases hrest
  exact h parser a after lexed hstep

/-- What is made well is made well enough. -/
theorem mono {weaker : α → Token → Prop} {step : ParseM α} (h : Makes post step)
    (himp : ∀ a next, post a next → weaker a next) : Makes weaker step := by
  intro parser value after lexed hstep
  obtain ⟨lexed', hpost⟩ := h parser value after lexed hstep
  exact ⟨lexed', himp value _ hpost⟩

/-- A refusal makes nothing, so anything can be said of it. -/
theorem refuseAt (span : Source.Span) (complaint : Complaint) :
    Makes post (ParseM.refuseAt span complaint) := by
  intro parser value after lexed hstep
  cases hstep

theorem refuse (complaint : Complaint) : Makes post (ParseM.refuse complaint) := by
  intro parser value after lexed hstep
  cases hstep

theorem unexpected : Makes post ParseM.unexpected := by
  intro parser value after lexed hstep
  cases hstep

/-- Either branch of a test. -/
theorem ite {test : Prop} [Decidable test] {yes no : ParseM α} (hyes : test → Makes post yes)
    (hno : ¬ test → Makes post no) : Makes post (if test then yes else no) := by
  by_cases h : test
  · rw [if_pos h]
    exact hyes h
  · rw [if_neg h]
    exact hno h

theorem get : Passes (MonadState.get : ParseM Parser) := by
  intro parser value after lexed hstep
  cases hstep
  exact ⟨lexed, trivial⟩

/-- The current token is named well. -/
theorem token : Gives Token.Named ParseM.token := by
  intro parser value after lexed hstep
  cases hstep
  exact ⟨lexed, lexed.current⟩

theorem seesMark (symbol : Punctuator) : Passes (ParseM.seesMark symbol) :=
  get.after fun _ => pure fun _ => trivial

theorem seesWord (word : Keyword) : Passes (ParseM.seesWord word) :=
  get.after fun _ => pure fun _ => trivial

/-- There is always room for a round. -/
theorem rounds : Gives (0 < ·) ParseM.rounds :=
  get.after fun _ => pure fun _ => Nat.succ_pos _

/-- Going on changes the token that comes next, and nothing is said of it. -/
theorem advance : Passes ParseM.advance := by
  intro parser value after lexed hstep
  cases hstep
  exact ⟨lexed.advance, trivial⟩

/-- Reading ahead does not even change that. -/
theorem peek : Passes ParseM.peek := by
  intro parser value after lexed hstep
  cases hstep
  exact ⟨lexed.peek, trivial⟩

theorem expect (symbol : Punctuator) : Passes (ParseM.expect symbol) :=
  (seesMark symbol).after fun _ => ite (fun _ => advance) fun _ =>
    token.bind fun _ _ => refuse _

/-- The name that is answered is one. -/
theorem identifier : Gives Node.IsNameToken ParseM.identifier := by
  refine token.bind fun found hfound => ?_
  split
  · next name hname => exact advance.after fun _ => pure fun _ => hfound name hname
  · exact refuse _

theorem semicolon : Passes ParseM.semicolon := by
  refine (seesMark .semicolon).after fun _ => ite (fun _ => advance) fun _ => ?_
  exact get.after fun _ => ite (fun _ => pure fun _ => trivial) fun _ =>
    token.bind fun _ _ => refuse _

/-- The counter of levels is no concern of the tokens. -/
theorem nested {body : ParseM α} (h : Makes post body) : Makes post (ParseM.nested body) := by
  intro parser value after lexed hstep
  rw [ParseM.nested] at hstep
  split at hstep
  · cases hstep
  · split at hstep
    · next found last hbody =>
      cases hstep
      obtain ⟨lexed', hpost⟩ := h _ _ _ (lexed.setDepth _ _) hbody
      exact ⟨lexed'.setDepth _ _, hpost⟩
    · cases hstep

theorem chainLink : Passes ParseM.chainLink := by
  refine get.after fun _ => ite (fun _ => refuse _) fun _ => ?_
  intro parser value after lexed hstep
  cases hstep
  exact ⟨lexed.setDepth _ _, trivial⟩

/-- What a chain gives does not depend on its levels. -/
theorem chained {chain : ParseM α} (h : Gives known chain) : Gives known (ParseM.chained chain) := by
  refine get.after fun _ => h.bind fun value hvalue => ?_
  refine Makes.after ?_ fun _ => pure fun _ => hvalue
  intro parser value after lexed hstep
  cases hstep
  exact ⟨lexed.setDepth _ _, trivial⟩

/-! ## Repetition -/

/-- Every item of a loop is as each turn gives it. -/
theorem many {item? : ParseM (Option α)} (h : Gives (∀ value ∈ ·, known value) item?) :
    (count : Nat) → Gives (∀ value ∈ ·, known value) (ParseM.many item? count)
  | 0 => pure fun _ => nofun
  | count + 1 => by
    refine h.bind fun found hfound => ?_
    cases found with
    | none => exact pure fun _ => nofun
    | some first =>
      refine (many h count).bind fun rest hrest => pure fun _ => ?_
      exact List.forall_mem_cons.mpr ⟨hfound first rfl, hrest⟩

/-- What each turn keeps of the value holds at the end. -/
theorem extend {step? : α → ParseM (Option α)}
    (h : ∀ value, known value → Gives (∀ next ∈ ·, known next) (step? value)) :
    (count : Nat) → (value : α) → known value → Gives known (ParseM.extend step? count value)
  | 0, _, hvalue => pure fun _ => hvalue
  | count + 1, value, hvalue => by
    refine (h value hvalue).bind fun found hfound => ?_
    cases found with
    | none => exact pure fun _ => hvalue
    | some next => exact extend h count next (hfound next rfl)

/-- There is at least one item if there is room for a round. -/
theorem separated {item : ParseM α} (h : Gives known item) :
    (count : Nat) → Gives (fun values => (∀ value ∈ values, known value) ∧ (0 < count → values ≠ []))
      (ParseM.separated item count)
  | 0 => pure fun _ => ⟨nofun, nofun⟩
  | count + 1 => by
    refine h.bind fun first hfirst => (seesMark .comma).after fun _ => ite (fun _ => ?_) fun _ => ?_
    · refine advance.after fun _ => (separated h count).bind fun rest hrest => pure fun _ => ?_
      exact ⟨List.forall_mem_cons.mpr ⟨hfirst, hrest.1⟩, fun _ => List.cons_ne_nil _ _⟩
    · exact pure fun _ => ⟨List.forall_mem_singleton.mpr hfirst, fun _ => List.cons_ne_nil _ _⟩

/-- Every item up to a closing mark is as each of them is given. -/
theorem listed {close : Punctuator} {item : ParseM α} (h : Gives known item) :
    (count : Nat) → Gives (∀ value ∈ ·, known value) (ParseM.listed close item count)
  | 0 => pure fun _ => nofun
  | count + 1 => by
    refine (seesMark close).after fun _ => ite (fun _ => pure fun _ => nofun) fun _ => ?_
    refine h.bind fun first hfirst => (seesMark .comma).after fun _ => ite (fun _ => ?_) fun _ => ?_
    · refine advance.after fun _ => (listed h count).bind fun rest hrest => pure fun _ => ?_
      exact List.forall_mem_cons.mpr ⟨hfirst, hrest⟩
    · exact pure fun _ => List.forall_mem_singleton.mpr hfirst

end Makes

/-! ## Expressions -/

/-- A statement, and no `else` behind it that it would take. -/
def Node.Complete (node : Node) (next : Token) : Prop :=
  node.Suits .statement ∧ (node.endsWithOpenIf = true → next.kind ≠ .keyword .elseKw)

/-- A statement that takes no `else` may have anything behind it. -/
theorem Node.complete_of_not_open {node : Node} (suits : node.Suits .statement)
    (h : node.endsWithOpenIf = false) (next : Token) : node.Complete next := by
  refine ⟨suits, fun ends => ?_⟩
  rw [h] at ends
  cases ends

/-- What the parsers of an inner level make suits its place. -/
structure Level.Sound (inner : Level) : Prop where
  statement : Makes Node.Complete inner.statement
  assignment : ∀ noIn, Gives (Node.Suits .expression) (inner.assignment noIn)
  unary : Gives (Node.Suits .expression) inner.unary
  callee : Gives (Node.Suits .expression) inner.callee

/-- A keyword can be the name of a member. -/
theorem isMemberToken_text (word : Keyword) : Node.IsMemberToken word.text :=
  .inr ⟨word, lexesAs_of_spells (spells_word word), rfl⟩

/-- An operator after an operand steps. -/
theorem isStep_of_stepOperator? {found : Token} {operator : UnaryOp}
    (h : stepOperator? found = some operator) : operator.isStep = true := by
  unfold stepOperator? at h
  split at h
  · cases h
  · split at h <;> cases h <;> rfl

/-- The operators that combine are not those that assign. -/
theorem isAssignment_of_combining? {noIn : Bool} {kind : Token.Kind} {operator : BinaryOp}
    (h : combining? noIn kind = some operator) : operator.isAssignment = false := by
  unfold combining? at h
  split at h
  · cases h
  · obtain ⟨_, plain⟩ := Option.filter_eq_some_iff.mp h
    rwa [Bool.not_eq_true'] at plain

/-- The operators that assign are assignments. -/
theorem isAssignment_of_assigning? {kind : Token.Kind} {operator : BinaryOp}
    (h : assigning? kind = some operator) : operator.isAssignment = true := by
  unfold assigning? at h
  split at h
  · exact (Option.filter_eq_some_iff.mp h).2
  · cases h

namespace Level.Sound

variable {inner : Level}

/-- A row of expressions suits the place of one, because it has two at least. -/
theorem expression (h : inner.Sound) (noIn : Bool) :
    Gives (Node.Suits .expression) (Grammar.expression inner noIn) := by
  refine Makes.rounds.bind fun count hcount => (Makes.separated (h.assignment noIn) count).bind ?_
  rintro values ⟨hvalues, hsome⟩
  split
  · next single => exact .pure fun _ => hvalues single (.head _)
  · next several =>
    have two : 2 ≤ values.length := by
      rcases values with _ | ⟨first, _ | ⟨second, rest⟩⟩
      · exact absurd rfl (hsome hcount)
      · exact absurd rfl (several first)
      · exact Nat.le_add_left 2 rest.length
    exact .pure fun _ => Node.suits_of_seats rfl two trivial (.sequence hvalues)

/-- Parentheses change nothing about what is inside. -/
theorem parenthesized (h : inner.Sound) :
    Gives (Node.Suits .expression) (Grammar.parenthesized inner) :=
  (Makes.expect .parenOpen).after fun _ => (h.expression false).bind fun _ hvalue =>
    (Makes.expect .parenClose).after fun _ => .pure fun _ => hvalue

/-- A statement for which it does not matter what comes next. -/
theorem inside (h : inner.Sound) : Gives (Node.Suits .statement) inner.statement :=
  h.statement.mono fun _ _ complete => complete.1

/-- All of a block are statements. -/
theorem block (h : inner.Sound) :
    Gives (∀ node ∈ ·, node.Suits .statement) (Grammar.block inner) := by
  refine Makes.token.bind fun start _ => (Makes.expect .braceOpen).after fun _ =>
    Makes.rounds.bind fun count _ => (Makes.many ?_ count).bind fun values hvalues =>
      Makes.advance.after fun _ => .pure fun _ => hvalues
  refine (Makes.seesMark .braceClose).after fun _ => .ite (fun _ => .pure fun _ => nofun) fun _ => ?_
  refine Makes.get.after fun _ => .ite (fun _ => .refuseAt _ _) fun _ => ?_
  exact h.inside.bind fun value hvalue =>
    .pure fun _ node hmem => Option.mem_some.mp hmem ▸ hvalue

/-- A declaration has a name, and a name that is there is one. -/
theorem functionName? (tag : LambdaTag) :
    Gives (fun name => (tag = .declaration → name.isSome = true) ∧ ∀ x ∈ name, Node.IsNameToken x)
      (Grammar.functionName? tag) := by
  refine Makes.token.bind fun found hfound => ?_
  split
  · next name hname =>
    refine Makes.advance.after fun _ => .pure fun _ => ⟨fun _ => rfl, fun x hmem => ?_⟩
    rw [← Option.mem_some.mp hmem]
    exact hfound name hname
  · exact .ite (fun _ => .refuse _) fun hne => .pure fun _ => ⟨fun htag => absurd htag hne, nofun⟩

/-- Parameters are names. -/
theorem parameters : Gives (∀ x ∈ ·, Node.IsNameToken x) Grammar.parameters :=
  (Makes.expect .parenOpen).after fun _ => Makes.rounds.bind fun count _ =>
    (Makes.listed Makes.identifier count).bind fun _ hnames =>
      (Makes.expect .parenClose).after fun _ => .pure fun _ => hnames

/-- A function suits any place that takes its kind, and no `else` could join it. -/
theorem lambda (h : inner.Sound) {tag : LambdaTag} (slot : Slot)
    (hslot : ∀ name names body, slot.accepts (Node.lambda tag name names body).kind = true) :
    Gives (fun node => node.Suits slot ∧ node.endsWithOpenIf = false) (Grammar.lambda inner tag) := by
  refine (functionName? tag).bind fun name hname => parameters.bind fun names hnames =>
    h.block.bind fun body hbody => .pure fun _ => ⟨?_, rfl⟩
  have shaped : (Node.lambda tag name names body).Shaped := ⟨hname.1, hname.2, hnames⟩
  refine Node.suits_of_seats (hslot _ _ _) shaped trivial ?_
  cases tag <;> exact ⟨.literal, .literal, .sequence hbody⟩

/-- An array of expressions is an expression. -/
theorem array (h : inner.Sound) : Gives (Node.Suits .expression) (Grammar.array inner) := by
  refine Makes.token.bind fun start _ => (Makes.expect .bracketOpen).after fun _ =>
    Makes.rounds.bind fun count _ => (Makes.listed ?_ count).bind fun values hvalues =>
      (Makes.expect .bracketClose).after fun _ => .pure fun _ =>
        Node.suits_of_seats rfl trivial trivial (.sequence hvalues)
  refine Makes.get.after fun _ => .ite (fun _ => .refuseAt _ _) fun _ => ?_
  exact (Makes.seesMark .comma).after fun _ => .ite (fun _ => .refuse _) fun _ => h.assignment false

theorem key (start : Source.Span) : Passes (Grammar.key start) := by
  refine Makes.token.bind fun found _ => ?_
  split
  · exact Makes.advance.after fun _ => .pure fun _ => trivial
  · exact Makes.advance.after fun _ => .pure fun _ => trivial
  · exact Makes.advance.after fun _ => .pure fun _ => trivial
  · exact Makes.get.after fun _ => Makes.advance.after fun _ => .pure fun _ => trivial
  · exact .refuseAt _ _
  · exact .refuse _

/-- A key that was read is printed so that it is read again. -/
theorem entry (h : inner.Sound) (start : Source.Span) :
    Gives (Node.Suits .property) (Grammar.entry inner start) :=
  (key start).after fun _ => (Makes.expect .colon).after fun _ =>
    (h.assignment false).bind fun _ hvalue => .pure fun _ =>
      Node.suits_of_seats rfl trivial trivial ⟨.literal, .child hvalue⟩

/-- An object of entries is an expression. -/
theorem object (h : inner.Sound) : Gives (Node.Suits .expression) (Grammar.object inner) :=
  Makes.token.bind fun start _ => (Makes.expect .braceOpen).after fun _ =>
    Makes.rounds.bind fun count _ => (Makes.listed (h.entry start.span) count).bind fun _ hvalues =>
      (Makes.expect .braceClose).after fun _ => .pure fun _ =>
        Node.suits_of_seats rfl trivial trivial (.sequence hvalues)

/-- A leaf after its token. -/
theorem leaf {node : Node} (h : node.Suits .expression) : Gives (Node.Suits .expression) (do
    ParseM.advance
    return node : ParseM Node) :=
  Makes.advance.after fun _ => .pure fun _ => h

/-- Whatever needs no operator is an expression. -/
theorem primary (h : inner.Sound) : Gives (Node.Suits .expression) (Grammar.primary inner) := by
  refine Makes.token.bind fun found hfound => ?_
  split
  · next name hname =>
    exact leaf (Node.suits_of_seats rfl (hfound name hname) trivial trivial)
  · exact leaf (Node.suits_of_seats rfl trivial trivial trivial)
  · exact leaf (Node.suits_of_seats rfl trivial trivial trivial)
  · exact leaf (Node.suits_of_seats rfl trivial trivial trivial)
  · exact leaf (Node.suits_of_seats rfl trivial trivial trivial)
  · exact leaf (Node.suits_of_seats rfl trivial trivial trivial)
  · exact leaf (Node.suits_of_seats rfl trivial trivial trivial)
  · have made : Gives _ (Grammar.lambda inner .expression) :=
      h.lambda .expression fun _ _ _ => rfl
    exact Makes.advance.after fun _ => made.mono fun _ _ suits => suits.1
  · exact h.parenthesized
  · exact h.array
  · exact h.object
  · exact .unexpected

/-- Arguments are expressions. -/
theorem arguments (h : inner.Sound) :
    Gives (∀ node ∈ ·, node.Suits .expression) (Grammar.arguments inner) :=
  (Makes.expect .parenOpen).after fun _ => Makes.rounds.bind fun count _ =>
    (Makes.listed (h.assignment false) count).bind fun _ hvalues =>
      (Makes.expect .parenClose).after fun _ => .pure fun _ => hvalues

/-- So is what a chain starts with. -/
theorem chainHead (h : inner.Sound) : Gives (Node.Suits .expression) (Grammar.chainHead inner) := by
  refine (Makes.seesWord .newKw).after fun _ => .ite (fun _ => ?_) fun _ => h.primary
  refine Makes.advance.after fun _ => h.callee.bind fun callee hcallee =>
    (Makes.seesMark .parenOpen).after fun _ => .ite (fun _ => ?_) fun _ => ?_
  · exact h.arguments.bind fun values hvalues => .pure fun _ =>
      Node.suits_of_seats rfl trivial trivial ⟨.child hcallee, .sequence hvalues⟩
  · exact .pure fun _ => Node.suits_of_seats rfl trivial trivial ⟨.child hcallee, .sequence nofun⟩

/-- A link on an expression is an expression, and its name is a name or a reserved word. -/
theorem chainStep (h : inner.Sound) (allowCall : Bool) {owner : Node}
    (howner : owner.Suits .expression) :
    Gives (∀ next ∈ ·, next.Suits .expression) (Grammar.chainStep inner allowCall owner) := by
  have link : ∀ {node : Node}, node.Suits .expression → ∀ next ∈ some node, next.Suits .expression :=
    fun suits next hmem => Option.mem_some.mp hmem ▸ suits
  refine (Makes.seesMark .dot).after fun _ => .ite (fun _ => ?_) fun _ => ?_
  · refine Makes.chainLink.after fun _ => Makes.advance.after fun _ =>
      Makes.token.bind fun found hfound => ?_
    split
    · next name hname =>
      exact Makes.advance.after fun _ => .pure fun _ => link
        (Node.suits_of_seats rfl (.inl (hfound name hname)) trivial ⟨.child howner, .literal⟩)
    · next word _ =>
      exact Makes.advance.after fun _ => .pure fun _ => link
        (Node.suits_of_seats rfl (isMemberToken_text word) trivial ⟨.child howner, .literal⟩)
    · exact .refuse _
  refine (Makes.seesMark .bracketOpen).after fun _ => .ite (fun _ => ?_) fun _ => ?_
  · exact Makes.chainLink.after fun _ => Makes.advance.after fun _ =>
      (h.expression false).bind fun index hindex => (Makes.expect .bracketClose).after fun _ =>
        .pure fun _ => link
          (Node.suits_of_seats rfl trivial trivial ⟨.child howner, .child hindex⟩)
  refine (Makes.seesMark .parenOpen).after fun _ => .ite (fun _ => ?_) fun _ => .pure fun _ => nofun
  exact Makes.chainLink.after fun _ => h.arguments.bind fun values hvalues => .pure fun _ => link
    (Node.suits_of_seats rfl trivial trivial ⟨.child howner, .sequence hvalues⟩)

/-- So is a whole chain. -/
theorem chain (h : inner.Sound) (allowCall : Bool) :
    Gives (Node.Suits .expression) (Grammar.chain inner allowCall) :=
  Makes.chained (h.chainHead.bind fun head hhead => Makes.rounds.bind fun count _ =>
    Makes.extend (fun _ howner => h.chainStep allowCall howner) count head hhead)

/-- A stepping operator stands behind something that can be assigned to. -/
theorem postfixed (h : inner.Sound) : Gives (Node.Suits .expression) (Grammar.postfixed inner) := by
  refine (h.chain true).bind fun operand hoperand => Makes.token.bind fun found _ => ?_
  split
  · exact .pure fun _ => hoperand
  · next operator hstep =>
    refine .ite (fun hassignable => ?_) fun _ => .refuse _
    have shaped : (Node.unary .after operator operand).Shaped :=
      ⟨isStep_of_stepOperator? hstep, hassignable⟩
    exact Makes.advance.after fun _ => .pure fun _ =>
      Node.suits_of_seats rfl shaped trivial ⟨.literal, .child hoperand⟩

/-- So it does before its operand. -/
theorem operand (h : inner.Sound) : Gives (Node.Suits .expression) (Grammar.unary inner) := by
  refine Makes.token.bind fun found _ => ?_
  split
  · exact h.postfixed
  · next operator _ =>
    refine Makes.advance.after fun _ => h.unary.bind fun operand hoperand =>
      .ite (fun _ => .refuseAt _ _) fun hfine => .pure fun _ => ?_
    have shaped : (Node.unary .before operator operand).Shaped := by
      intro hstep
      rw [hstep, Bool.true_and, Bool.not_eq_true', Bool.not_eq_false] at hfine
      exact hfine
    exact Node.suits_of_seats rfl shaped trivial ⟨.literal, .child hoperand⟩

end Level.Sound

/-- Operands joined by operators make an expression. -/
theorem Makes.climb {operand : ParseM Node} (h : Gives (Node.Suits .expression) operand)
    (noIn : Bool) (least : Nat) :
    Gives (Node.Suits .expression) (Grammar.climb operand noIn least) := by
  -- The right operand of an operator climbs from a higher level.
  induction hm : tightest + 1 - least using Nat.strongRecOn generalizing least with
  | ind m ih =>
    have right : ∀ level,
        Gives (Node.Suits .expression) (rightOperand operand noIn least level) := by
      intro level
      unfold rightOperand
      exact .ite (fun hle => ih (tightest + 1 - (level + 1)) (by omega) (level + 1) rfl) fun _ => h
    have step : ∀ left : Node, left.Suits .expression →
        Gives (∀ next ∈ ·, next.Suits .expression) (climbStep operand noIn least left) := by
      intro left hleft
      refine Makes.token.bind fun found _ => ?_
      split
      · exact .pure fun _ _ hmem => absurd hmem (Option.not_mem_none _)
      · next operator hfound =>
        refine .ite (fun _ => .pure fun _ _ hmem => absurd hmem (Option.not_mem_none _)) fun _ =>
          Makes.advance.after fun _ => Makes.chainLink.after fun _ => (right operator.precedence).bind fun value hvalue => ?_
        have suits : (Node.binary .combine left operator value).Suits .expression :=
          Node.suits_of_seats rfl (isAssignment_of_combining? hfound) trivial
            ⟨.child hleft, .literal, .child hvalue⟩
        exact .pure fun _ next hmem => Option.mem_some.mp hmem ▸ suits
    rw [climb_eq]
    exact .chained (h.bind fun first hfirst => Makes.rounds.bind fun count _ =>
      Makes.extend step count first hfirst)

namespace Level.Sound

variable {inner : Level}

/-- A conditional of expressions is an expression. -/
theorem conditional (h : inner.Sound) (noIn : Bool) :
    Gives (Node.Suits .expression) (Grammar.conditional inner noIn) := by
  refine (Makes.climb h.operand noIn _).bind fun test htest => (Makes.seesMark .question).after
    fun _ => .ite (fun _ => ?_) fun _ => .pure fun _ => htest
  refine Makes.advance.after fun _ => (h.assignment false).bind fun yes hyes =>
    (Makes.expect .colon).after fun _ => (h.assignment noIn).bind fun no hno => .pure fun _ => ?_
  exact Node.suits_of_seats rfl trivial trivial ⟨.child htest, .child hyes, .child hno⟩

/-- An assignment has something on its left side that can be assigned to. -/
theorem assigning (h : inner.Sound) (noIn : Bool) :
    Gives (Node.Suits .expression) (Grammar.assignment inner noIn) := by
  refine Makes.token.bind fun start _ => (h.conditional noIn).bind fun left hleft =>
    Makes.token.bind fun found _ => ?_
  split
  · exact .pure fun _ => hleft
  · next operator hfound =>
    refine .ite (fun hassignable => ?_) fun _ => .refuseAt _ _
    have shaped : ∀ right, (Node.binary .assign left operator right).Shaped :=
      fun _ => ⟨isAssignment_of_assigning? hfound, hassignable⟩
    exact Makes.advance.after fun _ => (h.assignment noIn).bind fun right hright => .pure fun _ =>
      Node.suits_of_seats rfl (shaped right) trivial ⟨.child hleft, .literal, .child hright⟩

/-! ## Statements -/

/-- A binding has a name. -/
theorem definition (h : inner.Sound) (noIn : Bool) :
    Gives (Node.Suits .definition) (Grammar.definition inner noIn) := by
  refine Makes.identifier.bind fun name hname => (Makes.seesMark .assign).after fun _ =>
    .ite (fun _ => ?_) fun _ => ?_
  · refine Makes.advance.after fun _ => (h.assignment noIn).bind fun value hvalue => .pure fun _ => ?_
    exact Node.suits_of_seats rfl hname trivial
      ⟨.literal, .optional fun node hmem => Option.mem_some.mp hmem ▸ hvalue⟩
  · exact .pure fun _ => Node.suits_of_seats rfl hname trivial ⟨.literal, .optional nofun⟩

/-- A declaration has one binding at least, and no `else` could join it. -/
theorem declaration (h : inner.Sound) (tag : DeclarationTag) (noIn : Bool) {slot : Slot}
    (hslot : ∀ definitions, slot.accepts (Node.declaration tag definitions).kind = true) :
    Gives (fun node => node.Suits slot ∧ node.endsWithOpenIf = false)
      (Grammar.declaration inner tag noIn) := by
  refine Makes.advance.after fun _ => Makes.rounds.bind fun count hcount =>
    (Makes.separated (h.definition noIn) count).bind fun values hvalues => .pure fun _ => ⟨?_, rfl⟩
  have shaped : (Node.declaration tag values).Shaped := List.length_pos_of_ne_nil (hvalues.2 hcount)
  refine Node.suits_of_seats (hslot values) shaped trivial ?_
  cases tag <;> exact .sequence hvalues.1

/-- The `else` goes to the innermost `if`: where one is read, the body before it is not open. -/
theorem ifElse (h : inner.Sound) : Makes Node.Complete (Grammar.ifElse inner) := by
  refine Makes.advance.after fun _ => h.parenthesized.bind fun test htest => ?_
  intro parser value after lexed hrun
  obtain ⟨yes, middle, hyes, hrun⟩ := ok_of_bind hrun
  obtain ⟨lexed', suits, hopen⟩ := h.statement parser yes middle lexed hyes
  obtain ⟨sees, _, hsees, hrun⟩ := ok_of_bind hrun
  cases hsees
  by_cases hword : middle.atWord? .elseKw = true
  · have helse : middle.current.kind = .keyword .elseKw := eq_of_beq hword
    have bound : yes.endsWithOpenIf = false := by
      rw [Bool.eq_false_iff]
      exact fun ends => hopen ends helse
    have other : Makes Node.Complete (do
        ParseM.advance
        return .ifElse test yes (some (← inner.statement)) : ParseM Node) := by
      refine Makes.advance.after fun _ => .last (h.statement.mono fun no next hno => ⟨?_, hno.2⟩)
      exact Node.suits_of_seats rfl trivial bound ⟨.child htest, .child suits,
        .optional fun node hmem => Option.mem_some.mp hmem ▸ hno.1⟩
    rw [if_pos hword] at hrun
    exact other middle value after lexed' hrun
  · rw [if_neg hword] at hrun
    cases hrun
    refine ⟨lexed', ?_, fun _ helse => hword (beq_iff_eq.mpr helse)⟩
    exact Node.suits_of_seats rfl trivial trivial ⟨.child htest, .child suits, .optional nofun⟩

/-- A loop is open to an `else` when its body is, and then no `else` comes next. -/
theorem whileLoop (h : inner.Sound) : Makes Node.Complete (Grammar.whileLoop inner) :=
  Makes.advance.after fun _ => h.parenthesized.bind fun _ htest =>
    .last (h.statement.mono fun _ _ hbody =>
      ⟨Node.suits_of_seats rfl trivial trivial ⟨.child htest, .child hbody.1⟩, hbody.2⟩)

/-- A `do` loop ends behind its test, where no `else` could join it. -/
theorem doLoop (h : inner.Sound) : Makes Node.Complete (Grammar.doLoop inner) := by
  refine Makes.advance.after fun _ => h.inside.bind fun repeated hbody =>
    (Makes.seesWord .whileKw).after fun _ => .ite (fun _ => ?_) fun _ =>
      Makes.token.bind fun _ _ => .refuse _
  refine Makes.advance.after fun _ => h.parenthesized.bind fun test htest => ?_
  have complete : ∀ next, (Node.loop .do_ test repeated).Complete next := fun _ =>
    ⟨Node.suits_of_seats rfl trivial trivial ⟨.child htest, .child hbody⟩, nofun⟩
  exact (Makes.seesMark .semicolon).after fun _ => .ite
    (fun _ => Makes.advance.after fun _ => .pure complete) fun _ => .pure complete

/-- An expression, if there is one. -/
theorem optionalExpression (h : inner.Sound) (close : Punctuator) :
    Gives (∀ node ∈ ·, node.Suits .expression) (Grammar.optionalExpression inner close) :=
  (Makes.seesMark close).after fun _ => .ite (fun _ => .pure fun _ => nofun) fun _ =>
    (h.expression false).bind fun _ hvalue => .pure fun _ _ hmem => Option.mem_some.mp hmem ▸ hvalue

/-- What a loop over names may bind is checked before the rest is read. -/
theorem forIn_init {init : Node} (h : forInProblem? init = none) :
    (∃ tag definition, init = .declaration tag [definition]) ∨ init.isAssignable = true := by
  unfold forInProblem? at h
  split at h
  · next tag definition => exact .inl ⟨tag, definition, rfl⟩
  · cases h
  · split at h
    · next hassignable => exact .inr hassignable
    · cases h

/-- A loop over the keys of an object has a target that fits, and ends as its body does. -/
theorem forIn (h : inner.Sound) {init : Node} (hinit : init.Suits .forInit) :
    Makes Node.Complete (Grammar.forIn inner init) := by
  unfold Grammar.forIn
  split
  · exact .refuse _
  · next hproblem =>
    refine Makes.advance.after fun _ => (h.expression false).bind fun subject hsubject =>
      (Makes.expect .parenClose).after fun _ => .last (h.statement.mono fun body _ hbody => ⟨?_, hbody.2⟩)
    exact Node.suits_of_seats rfl (forIn_init hproblem) trivial
      ⟨.child hinit, .child hsubject, .child hbody.1⟩

/-- What comes first in the head of a loop suits the place. -/
theorem forInit? (h : inner.Sound) :
    Gives (∀ node ∈ ·, node.Suits .forInit) (Grammar.forInit? inner) := by
  refine (Makes.seesMark .semicolon).after fun _ => .ite (fun _ => .pure fun _ => nofun) fun _ =>
    Makes.token.bind fun found _ => ?_
  split
  · next tag _ =>
    have accepted : ∀ definitions, Slot.forInit.accepts (Node.declaration tag definitions).kind = true := by
      intro definitions
      cases tag <;> rfl
    exact (h.declaration tag true accepted).bind fun _ hvalue =>
      .pure fun _ _ hmem => Option.mem_some.mp hmem ▸ hvalue.1
  · exact (h.expression true).bind fun _ hvalue =>
      .pure fun _ _ hmem => Option.mem_some.mp hmem ▸ hvalue.forInit

/-- Either kind of loop with a head of several parts ends as its body does. -/
theorem forLoop (h : inner.Sound) : Makes Node.Complete (Grammar.forLoop inner) := by
  refine Makes.advance.after fun _ => (Makes.expect .parenOpen).after fun _ =>
    h.forInit?.bind fun init hinit => (Makes.seesWord .inKw).after fun _ => ?_
  split
  · next target => exact h.forIn (hinit target rfl)
  · refine (Makes.expect .semicolon).after fun _ =>
      (h.optionalExpression .semicolon).bind fun test htest => (Makes.expect .semicolon).after fun _ =>
        (h.optionalExpression .parenClose).bind fun step hstep =>
          (Makes.expect .parenClose).after fun _ =>
            .last (h.statement.mono fun body _ hbody => ⟨?_, hbody.2⟩)
    exact Node.suits_of_seats rfl trivial trivial
      ⟨.optional hinit, .optional htest, .optional hstep, .child hbody.1⟩

/-- A `throw` has its value. -/
theorem exit (h : inner.Sound) (tag : ExitTag) : Makes Node.Complete (Grammar.exit inner tag) := by
  have value? : Gives (fun value => (∀ node ∈ value, node.Suits .expression) ∧
      (tag = .throw → value.isSome = true)) (Grammar.exitValue? inner tag) := by
    refine Makes.get.after fun _ => .ite (fun _ => ?_) fun _ => ?_
    · exact .ite (fun _ => .refuse _) fun hne =>
        .pure fun _ => ⟨nofun, fun htag => absurd htag hne⟩
    · exact (h.expression false).bind fun _ hvalue =>
        .pure fun _ => ⟨fun _ hmem => Option.mem_some.mp hmem ▸ hvalue, fun _ => rfl⟩
  refine Makes.advance.after fun _ => value?.bind fun found hfound =>
    Makes.semicolon.after fun _ => .pure fun _ => ⟨?_, nofun⟩
  have shaped : (Node.exit tag found).Shaped := hfound.2
  cases tag <;> exact Node.suits_of_seats rfl shaped trivial (.optional hfound.1)

/-- A label of a jump is a name. -/
theorem jump (tag : JumpTag) : Makes Node.Complete (Grammar.jump tag) := by
  have label? : Gives (∀ name ∈ ·, Node.IsNameToken name) Grammar.jumpLabel? := by
    refine Makes.token.bind fun found hfound => ?_
    split
    · next name hname _ =>
      refine Makes.advance.after fun _ => .pure fun _ x hmem => ?_
      rw [← Option.mem_some.mp hmem]
      exact hfound name hname
    · exact .pure fun _ => nofun
  refine Makes.advance.after fun _ => label?.bind fun label hlabel =>
    Makes.semicolon.after fun _ => .pure fun _ => ⟨?_, nofun⟩
  have shaped : (Node.jump tag label).Shaped := hlabel
  cases tag <;> exact Node.suits_of_seats rfl shaped trivial .literal

/-- A labeled statement ends as the statement does. -/
theorem labeled (h : inner.Sound) : Makes Node.Complete (Grammar.labeled inner) :=
  Makes.identifier.bind fun _ hlabel => (Makes.expect .colon).after fun _ =>
    .last (h.statement.mono fun _ _ hbody =>
      ⟨Node.suits_of_seats rfl hlabel trivial ⟨.literal, .child hbody.1⟩, hbody.2⟩)

/-- All of a branch are statements. -/
theorem branchBody (h : inner.Sound) :
    Gives (∀ node ∈ ·, node.Suits .statement) (Grammar.branchBody inner) := by
  refine Makes.rounds.bind fun count _ => Makes.many (Makes.token.bind fun found _ => ?_) count
  split
  · exact .pure fun _ => nofun
  · exact .pure fun _ => nofun
  · exact .pure fun _ => nofun
  · exact .pure fun _ => nofun
  · exact h.inside.bind fun _ hvalue => .pure fun _ _ hmem => Option.mem_some.mp hmem ▸ hvalue

/-- A branch has statements behind its colon. -/
theorem branch? (h : inner.Sound) (start : Source.Span) :
    Gives (∀ node ∈ ·, node.Suits .switchBranch) (Grammar.branch? inner start) := by
  refine Makes.token.bind fun found _ => ?_
  split
  · exact .pure fun _ => nofun
  · refine Makes.advance.after fun _ => (h.expression false).bind fun test htest =>
      (Makes.expect .colon).after fun _ => h.branchBody.bind fun body hbody =>
        .pure fun _ node hmem => ?_
    rw [← Option.mem_some.mp hmem]
    exact Node.suits_of_seats rfl trivial trivial ⟨.child htest, .sequence hbody⟩
  · refine Makes.advance.after fun _ => (Makes.expect .colon).after fun _ =>
      h.branchBody.bind fun body hbody => .pure fun _ node hmem => ?_
    rw [← Option.mem_some.mp hmem]
    exact Node.suits_of_seats rfl trivial trivial (.sequence hbody)
  · exact .refuseAt _ _
  · exact .unexpected

/-- A `switch` is closed by its brace. -/
theorem switch (h : inner.Sound) : Makes Node.Complete (Grammar.switch inner) := by
  refine Makes.advance.after fun _ => h.parenthesized.bind fun subject hsubject =>
    Makes.token.bind fun start _ => (Makes.expect .braceOpen).after fun _ =>
      Makes.rounds.bind fun count _ => (Makes.many (h.branch? start.span) count).bind
        fun branches hbranches => Makes.advance.after fun _ => .pure fun _ => ⟨?_, nofun⟩
  exact Node.suits_of_seats rfl trivial trivial ⟨.child hsubject, .sequence hbranches⟩

/-- A handler has a name for what it catches. -/
theorem handler? (h : inner.Sound) :
    Gives (∀ node ∈ ·, node.Suits .catchClause) (Grammar.handler? inner) := by
  refine (Makes.seesWord .catchKw).after fun _ => .ite (fun _ => ?_) fun _ => .pure fun _ => nofun
  refine Makes.advance.after fun _ => (Makes.expect .parenOpen).after fun _ =>
    Makes.identifier.bind fun parameter hparameter => (Makes.expect .parenClose).after fun _ =>
      h.block.bind fun body hbody => .pure fun _ node hmem => ?_
  rw [← Option.mem_some.mp hmem]
  exact Node.suits_of_seats rfl hparameter trivial ⟨.literal, .sequence hbody⟩

/-- The last clause of a `try` has statements. -/
theorem finalizer? (h : inner.Sound) :
    Gives (∀ node ∈ ·, node.Suits .finallyClause) (Grammar.finalizer? inner) := by
  refine (Makes.seesWord .finallyKw).after fun _ => .ite (fun _ => ?_) fun _ => .pure fun _ => nofun
  refine Makes.advance.after fun _ => h.block.bind fun body hbody => .pure fun _ node hmem => ?_
  rw [← Option.mem_some.mp hmem]
  exact Node.suits_of_seats rfl trivial trivial (.sequence hbody)

/-- A `try` has one clause at least and is closed by a brace. -/
theorem tryCatch (h : inner.Sound) : Makes Node.Complete (Grammar.tryCatch inner) := by
  refine Makes.advance.after fun _ => h.block.bind fun body hbody =>
    h.handler?.bind fun handler hhandler => h.finalizer?.bind fun finalizer hfinalizer =>
      .ite (fun _ => .refuse _) fun hguarded => .pure fun _ => ⟨?_, nofun⟩
  have shaped : (Node.try_ body handler finalizer).Shaped := by
    cases handler with
    | some handler => exact .inl rfl
    | none =>
      cases finalizer with
      | some finalizer => exact .inr rfl
      | none => exact absurd rfl hguarded
  exact Node.suits_of_seats rfl shaped trivial
    ⟨.sequence hbody, .optional hhandler, .optional hfinalizer⟩

/-- An expression statement is no `if`, so no `else` could join it. -/
theorem simple (h : inner.Sound) : Makes Node.Complete (Grammar.simple inner) :=
  (h.expression false).bind fun _ hvalue => Makes.semicolon.after fun _ => .pure fun _ =>
    ⟨Node.suits_of_seats rfl trivial trivial (.child hvalue), nofun⟩

/-- Whatever statement a reserved word opens is complete. -/
theorem wordStatement (h : inner.Sound) (word : Keyword) :
    Makes Node.Complete (Grammar.wordStatement inner word) := by
  have declared : ∀ tag, Makes Node.Complete (do
      let declared ← Grammar.declaration inner tag false
      ParseM.semicolon
      return declared : ParseM Node) := by
    intro tag
    have accepted : ∀ definitions,
        Slot.statement.accepts (Node.declaration tag definitions).kind = true := by
      intro definitions
      cases tag <;> rfl
    exact (h.declaration tag false accepted).bind fun value hvalue => Makes.semicolon.after fun _ =>
      .pure (Node.complete_of_not_open hvalue.1 hvalue.2)
  unfold Grammar.wordStatement
  split
  · exact declared .var
  · exact declared .let_
  · exact declared .const
  · exact h.ifElse
  · exact h.whileLoop
  · exact h.doLoop
  · exact h.forLoop
  · exact h.exit .return_
  · exact h.exit .throw
  · exact jump .break_
  · exact jump .continue_
  · exact h.switch
  · exact h.tryCatch
  · have made : Gives _ (Grammar.lambda inner .declaration) :=
      h.lambda .statement fun _ _ _ => rfl
    exact Makes.advance.after fun _ => made.mono fun _ next suits =>
      Node.complete_of_not_open suits.1 suits.2 next
  · exact Makes.advance.after fun _ => Makes.semicolon.after fun _ => .pure fun _ =>
      ⟨Node.suits_of_seats rfl trivial trivial trivial, nofun⟩
  · exact h.simple

/-- Every statement is complete when the level inside is sound. -/
theorem statement' (h : inner.Sound) : Makes Node.Complete (Grammar.statement inner) := by
  have label : Passes Grammar.seesLabel := by
    refine Makes.token.bind fun found _ => ?_
    split
    · exact Makes.peek.after fun _ => .pure fun _ => trivial
    · exact .pure fun _ => trivial
  refine label.after fun _ => .ite (fun _ => h.labeled) fun _ => Makes.token.bind fun found _ => ?_
  split
  · exact h.block.bind fun body hbody => .pure fun _ =>
      ⟨Node.suits_of_seats rfl trivial trivial (.sequence hbody), nofun⟩
  · exact Makes.advance.after fun _ => .pure fun _ =>
      ⟨Node.suits_of_seats rfl trivial trivial trivial, nofun⟩
  · exact h.wordStatement _
  · exact h.simple

/-- A level around a sound one is sound. -/
theorem around (h : inner.Sound) : inner.around.Sound where
  statement := h.statement'.nested
  assignment noIn := (h.assigning noIn).nested
  unary := h.operand.nested
  callee := (h.chain false).nested

end Level.Sound

/-- Every level makes what suits its place. -/
theorem Level.sound_ofNat (levels : Nat) : (Level.ofNat levels).Sound := by
  induction levels with
  | zero => exact ⟨.refuse _, fun _ => .refuse _, .refuse _, .refuse _⟩
  | succ levels ih => exact ih.around

/-! ## Whole texts -/

/-- What the parser makes of a whole text is a program, grammatical and with every `else` bound. -/
theorem gives_program : Gives (fun tree => tree.kind = .toplevel ∧ tree.Grammatical ∧ tree.ElseBound)
    Parser.programM := by
  have statement? : Gives (∀ node ∈ ·, node.Suits .statement) Parser.statement? := by
    refine Makes.get.after fun _ => .ite (fun _ => .pure fun _ => nofun) fun _ => ?_
    exact (Level.sound_ofNat maxNesting).inside.bind fun _ hvalue =>
      .pure fun _ _ hmem => Option.mem_some.mp hmem ▸ hvalue
  refine Makes.rounds.bind fun count _ => (Makes.many statement? count).bind fun values hvalues =>
    .pure fun _ => ⟨rfl, ?_⟩
  have seats : (Node.toplevel values).fields.Forall fun entry => entry.1.Seats entry.2 :=
    .sequence hvalues
  exact Node.formed_of_seats trivial trivial seats

/-- **Every tree that is parsed is grammatical**, and every `else` in it is bound to the `if` it is
printed behind. -/
theorem formed_of_parse {source : String} {tree : Node} (h : parse source = .ok tree) :
    tree.kind = .toplevel ∧ tree.Grammatical ∧ tree.ElseBound := by
  unfold parse Parser.program Parser.run at h
  cases hstep : Parser.programM (.ofSource source) with
  | ok value after =>
    rw [hstep] at h
    cases h
    exact (gives_program _ _ _ (Parser.lexed_ofSource source) hstep).2
  | error refusal after =>
    rw [hstep] at h
    cases h

end JsPrune
