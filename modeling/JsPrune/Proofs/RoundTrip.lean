import JsPrune.Proofs.ReadBack
import JsPrune.Proofs.Seamless

/-!
# Printing and reading back

Main result: `Node.Printable.parse_print`. Whatever the layout, the text of a printable program or
expression is read back as the tree itself, with braces where the printer had to put them
(`Node.braced`). The only other thing that can happen is that the parser refuses to nest so deeply,
and never for a tree of up to `Node.safeDepth` levels.

The proof joins two halves. `Printable.seamless` says that the texts do not run into each other, so
the lexer gives back the pieces that were printed; `Printable.readsBack` says that the grammar makes
the tree of these pieces.
-/

namespace JsPrune

open ParseM Grammar Text

namespace Node

/-! ## How expression statements start -/

/-- The pieces of a node never start as a block or a function would, whatever follows them. -/
def OpensPlainly (node : Node) : Prop :=
  ∀ (forced : Bool) (indent : Nat) (terminate noIn : Bool) (rest : List Piece),
    ambiguous (upcoming (node.emit forced indent terminate noIn ++ rest)) = false

namespace OpensPlainly

variable {node : Node}

/-- In its place, too, the node opens plainly: parentheses are no brace and no word. -/
theorem fit (h : node.OpensPlainly) (forced : Bool) (indent least : Nat) (noIn : Bool)
    (rest : List Piece) :
    ambiguous (upcoming (node.fitted forced indent least noIn ++ rest)) = false := by
  rw [fitted, asExpression]
  split
  · simp [inParens, ambiguous]
  · exact h forced indent _ noIn rest

/-- What starts with a text is decided by the text. -/
theorem ofText (content : String) (hkind : ambiguous (kindOf content) = false)
    (h : ∀ forced indent terminate noIn, ∃ tail,
      node.emit forced indent terminate noIn = .text content :: tail) : node.OpensPlainly := by
  intro forced indent terminate noIn rest
  obtain ⟨tail, hpieces⟩ := h forced indent terminate noIn
  rw [hpieces, List.cons_append, upcoming_text]
  exact hkind

/-- A text that spells one token opens as the token does. -/
theorem ofSpells {content : String} {kind : Token.Kind} (hspells : spells kind content.toList = true)
    (hkind : ambiguous kind = false)
    (h : ∀ forced indent terminate noIn, node.emit forced indent terminate noIn = [.text content]) :
    node.OpensPlainly := by
  refine ofText content ?_ fun forced indent terminate noIn => ⟨[], h forced indent terminate noIn⟩
  rw [kindOf_of_spells hspells]
  exact hkind

/-- What starts with another expression starts as that one does. -/
theorem ofFirst {first : Node} (hfirst : first.OpensPlainly)
    (h : ∀ forced indent terminate noIn, ∃ least tail,
      node.emit forced indent terminate noIn = first.fitted forced indent least noIn ++ tail) :
    node.OpensPlainly := by
  intro forced indent terminate noIn rest
  obtain ⟨least, tail, hpieces⟩ := h forced indent terminate noIn
  rw [hpieces, List.append_assoc]
  exact hfirst.fit forced indent least noIn (tail ++ rest)

/-- A member opens as its owner does, in parentheses or not. -/
theorem dot {owner : Node} {name : String} (h : owner.OpensPlainly) :
    (Node.dot owner name).OpensPlainly := by
  intro forced indent terminate noIn rest
  rw [emit, List.append_assoc]
  split
  · simp [inParens, ambiguous]
  · exact h.fit forced indent 17 noIn _

/-- No prefix operator is a brace or the word `function`. -/
theorem before (operator : UnaryOp) (operand : Node) :
    (Node.unary .before operator operand).OpensPlainly := by
  refine ofText operator.symbol ?_ fun forced indent terminate noIn => ⟨_, by rw [emit]⟩
  have known := prefixOperator?_symbol operator
  cases hk : ambiguous (kindOf operator.symbol) with
  | false => rfl
  | true =>
    rw [ambiguous, Bool.or_eq_true, beq_iff_eq, beq_iff_eq] at hk
    rcases hk with hk | hk
    · rw [hk] at known
      cases known
    · rw [hk] at known
      cases known

end OpensPlainly

/-- Only expressions that the printer guards start as a block or a function would. -/
theorem Printable.opensPlainly {node : Node} (h : node.Printable)
    (hkind : node.kind.isExpression = true) (hstart : node.startsAmbiguously = false) :
    node.OpensPlainly := by
  induction h with
  | @intro node slots spelled below ih =>
    -- The induction goes down the left side of the tree.
    have first : ∀ {child : Node}, node.Holds .expression child → child.startsAmbiguously = false →
        child.OpensPlainly := fun held => ih _ held.mem_children (held.accepts slots)
    cases node with
    | call tag callee nodes =>
      cases tag with
      | plain =>
        exact .ofFirst (first (.call_callee .plain) hstart) fun _ _ _ _ =>
          ⟨17, _, by rw [emit, fitted]⟩
      | new => exact .ofText "new" (by simp [ambiguous]) fun _ _ _ _ => ⟨_, by rw [emit]; rfl⟩
    | sequence nodes =>
      cases nodes with
      | nil => cases spelled
      | cons leading rest =>
        exact .ofFirst (first (.sequence (.head _)) hstart) fun _ _ _ _ =>
          ⟨2, _, by rw [emit, emitList, List.append_assoc, fitted]⟩
    | dot owner name => exact .dot (first .dot hstart)
    | sub owner index =>
      exact .ofFirst (first .sub_owner hstart) fun _ _ _ _ =>
        ⟨17, _, by rw [emit, List.append_assoc, List.append_assoc, fitted]⟩
    | unary tag operator operand =>
      cases tag with
      | before => exact .before operator operand
      | after =>
        exact .ofFirst (first (.unary .after) hstart) fun _ _ _ _ =>
          ⟨16, _, by rw [emit, fitted]⟩
    | binary tag left operator right =>
      cases tag with
      | combine =>
        exact .ofFirst (first (.binary_left .combine) hstart) fun _ _ _ _ =>
          ⟨operator.precedence, _, by rw [emit, List.append_assoc, fitted]⟩
      | assign =>
        exact .ofFirst (first (.binary_left .assign) hstart) fun _ _ _ _ =>
          ⟨16, _, by rw [emit, List.append_assoc, fitted]⟩
    | conditional test yes no =>
      exact .ofFirst (first .conditional_test hstart) fun _ _ _ _ =>
        ⟨4, _, by simp only [emit, List.append_assoc, fitted]; rfl⟩
    | array nodes =>
      exact .ofText "[" (by simp [ambiguous]) fun _ _ _ _ => ⟨_, by rw [emit]; rfl⟩
    | identifier name =>
      exact .ofSpells (spells_of_lexesAs spelled rfl) rfl fun _ _ _ _ => emit_identifier ..
    | number value =>
      obtain ⟨_, _, _, hlexes⟩ := spelled
      exact .ofSpells (spells_of_lexesAs hlexes rfl) rfl fun _ _ _ _ => by rw [emit]
    | string value => exact .ofSpells (spells_quote value) rfl fun _ _ _ _ => by rw [emit]
    | boolean value =>
      cases value with
      | true => exact .ofSpells (spells_word .trueKw) rfl fun _ _ _ _ => by rw [emit]; rfl
      | false => exact .ofSpells (spells_word .falseKw) rfl fun _ _ _ _ => by rw [emit]; rfl
    | null => exact .ofSpells (spells_word .nullKw) rfl fun _ _ _ _ => by rw [emit]; rfl
    | this => exact .ofSpells (spells_word .thisKw) rfl fun _ _ _ _ => by rw [emit]; rfl
    | object nodes => cases hstart
    | lambda tag name names nodes =>
      cases tag with
      | declaration => cases hkind
      | expression => cases hstart
    | body tag | declaration tag | loop tag | exit tag | jump tag => cases tag <;> cases hkind
    | _ => cases hkind

/-! ## Every printable node is read back -/

/-- An expression stands in the place of one or first in the head of a loop. -/
theorem readsBack_ofExpression {n : Nat} {node : Node} (hkind : node.kind.isExpression = true)
    (h : node.ReadsExpression n) {slot : Slot} (hslot : slot.accepts node.kind = true) :
    node.ReadsBack n slot := by
  cases slot with
  | expression => exact h
  | forInit => exact readsBack_init_expression hkind h
  | _ =>
    exfalso
    revert hkind hslot
    generalize node.kind = kind
    cases kind <;> decide

/-- A kind of node that only the place of a statement takes. -/
def isPlainStatement (kind : Kind) : Bool :=
  kind.isStatement && !Slot.forInit.accepts kind

/-- A statement of most kinds stands in the place of a statement only. -/
theorem readsBack_ofStatement {n : Nat} {node : Node} (hkind : isPlainStatement node.kind = true)
    (h : node.ReadsStatement n) {slot : Slot} (hslot : slot.accepts node.kind = true) :
    node.ReadsBack n slot := by
  cases slot with
  | statement => exact h
  | _ =>
    exfalso
    revert hkind hslot
    generalize node.kind = kind
    cases kind <;> decide

/-- A declaration stands in the place of a statement or first in the head of a loop. -/
theorem readsBack_declaration {n : Nat} {tag : DeclarationTag} {nodes : List Node}
    (hkind : ∀ node ∈ nodes, node.kind.isExpression = false)
    (h : ∀ node ∈ nodes, node.ReadsBack n .definition) (hne : 1 ≤ nodes.length) {slot : Slot}
    (hslot : slot.accepts (declaration tag nodes).kind = true) :
    (declaration tag nodes).ReadsBack (n + 1) slot := by
  cases slot with
  | statement => exact .declaration tag hkind h hne
  | forInit => exact readsBack_init_declaration tag hkind h hne
  | _ => cases tag <;> cases hslot

/-- A place that takes no names takes no expressions. -/
theorem isExpression_of_accepts {slot : Slot} {kind : Kind} (h : slot.accepts .identifier = false)
    (hslot : slot.accepts kind = true) : kind.isExpression = false := by
  revert h hslot
  cases slot <;> cases kind <;> decide

namespace MadeOf

variable {node child : Node} {slot : Slot} {n : Nat}

/-- A place that takes no names holds no expressions. -/
theorem isExpression_eq_false {good : Slot → Node → Prop} (h : node.MadeOf good)
    (hnames : slot.accepts .identifier = false) (held : node.Holds slot child) :
    child.kind.isExpression = false :=
  isExpression_of_accepts hnames (held.accepts h.printable.slots)

/-- An expression is read back if all that it holds is. -/
theorem readsExpression (h : node.MadeOf fun slot child => child.ReadsBack n slot)
    (hkind : node.kind.isExpression = true) : node.ReadsExpression (n + 1) := by
  -- One rule of `Proofs/ReadBack` for each kind; `h.spelled` is what its words have to be.
  cases node with
  | lambda tag name names nodes =>
    obtain ⟨_, hname, hnames⟩ := h.spelled
    cases tag with
    | declaration => cases hkind
    | expression =>
      exact .function (fun x hx => (hname x hx).isName) (fun x hx => (hnames x hx).isName)
        (fun child hmem => h.isStatement (.lambda .expression hmem))
        fun child hmem => h.held (.lambda .expression hmem)
  | call tag callee nodes =>
    have first : callee.ReadsExpression n := h.held (.call_callee tag)
    have second : ∀ child ∈ nodes, child.ReadsExpression n := fun child hmem =>
      h.held (.call_argument tag hmem)
    cases tag with
    | plain => exact .call first second
    | new => exact .new first second
  | sequence nodes => exact .sequence (fun child hmem => h.held (.sequence hmem)) h.spelled
  | dot owner name => exact .dot (h.held .dot) (IsMemberToken.isMember h.spelled)
  | sub owner index => exact .sub (h.held .sub_owner) (h.held .sub_index)
  | unary tag operator operand =>
    cases tag with
    | before => exact .before (h.held (.unary .before)) h.spelled
    | after => exact .after (h.held (.unary .after)) h.spelled.1 h.spelled.2
  | binary tag left operator right =>
    have first : left.ReadsExpression n := h.held (.binary_left tag)
    have second : right.ReadsExpression n := h.held (.binary_right tag)
    cases tag with
    | combine => exact .combine first second h.spelled
    | assign => exact .assign first second h.spelled.1 h.spelled.2
  | conditional test yes no =>
    exact .conditional (h.held .conditional_test) (h.held .conditional_yes)
      (h.held .conditional_no)
  | array nodes => exact .array fun child hmem => h.held (.array hmem)
  | object nodes =>
    exact .object (fun child hmem => h.isExpression_eq_false rfl (.object hmem))
      fun child hmem => h.held (.object hmem)
  | identifier name =>
    exact .ofSpells (spells_of_lexesAs h.spelled rfl) rfl (fun _ _ _ _ => emit_identifier ..)
      (by rw [braced_eq]; rfl) rfl
  | number value =>
    obtain ⟨_, _, hsign, hlexes⟩ := h.spelled
    refine .ofSpells (spells_of_lexesAs hlexes rfl) rfl (fun _ _ _ _ => by rw [emit])
      (by rw [braced_eq]; rfl) ?_
    rw [precedence, hsign]
    rfl
  | string value =>
    exact .ofSpells (spells_quote value) rfl (fun _ _ _ _ => by rw [emit])
      (by rw [braced_eq]; rfl) rfl
  | boolean value =>
    cases value with
    | true =>
      exact .ofSpells (spells_word .trueKw) rfl (fun _ _ _ _ => by rw [emit]; rfl)
        (by rw [braced_eq]; rfl) rfl
    | false =>
      exact .ofSpells (spells_word .falseKw) rfl (fun _ _ _ _ => by rw [emit]; rfl)
        (by rw [braced_eq]; rfl) rfl
  | null =>
    exact .ofSpells (spells_word .nullKw) rfl (fun _ _ _ _ => by rw [emit]; rfl)
      (by rw [braced_eq]; rfl) rfl
  | this =>
    exact .ofSpells (spells_word .thisKw) rfl (fun _ _ _ _ => by rw [emit]; rfl)
      (by rw [braced_eq]; rfl) rfl
  | body tag | declaration tag | loop tag | exit tag | jump tag => cases tag <;> cases hkind
  | _ => cases hkind

/-- The expression of an expression statement does not start as another statement would. -/
theorem readsStatement_simple {value : Node}
    (h : (simple value).MadeOf fun slot child => child.ReadsBack n slot) :
    (simple value).ReadsStatement (n + 1) := by
  refine .simple (h.held .simple) fun forced indent terminate hstart => ?_
  have printable : value.Printable := h.printable.children value Holds.simple.mem_children
  have start := printable.opensPlainly (h.isExpression .simple) hstart forced indent terminate false []
  rw [List.append_nil] at start
  exact start

/-- A statement that stands nowhere else is read back if all that it holds is. -/
theorem readsStatement (h : node.MadeOf fun slot child => child.ReadsBack n slot)
    (hkind : isPlainStatement node.kind = true) : node.ReadsStatement (n + 1) := by
  cases node with
  | body tag nodes =>
    cases tag with
    | block =>
      exact .block (fun child hmem => h.isStatement (.body .block hmem))
        fun child hmem => h.held (.body .block hmem)
    | _ => cases hkind
  | empty => exact .empty
  | simple value => exact h.readsStatement_simple
  | ifElse test yes no =>
    have first : test.ReadsExpression n := h.held .ifElse_test
    have second : yes.ReadsStatement n := h.held .ifElse_yes
    cases no with
    | none => exact .ifOnly first second (h.isStatement .ifElse_yes)
    | some no =>
      exact .ifElse first second (h.isStatement .ifElse_yes) (h.held (.ifElse_no rfl))
        (h.isStatement (.ifElse_no rfl))
  | loop tag test repeated =>
    have first : test.ReadsExpression n := h.held (.loop_test tag)
    have second : repeated.ReadsStatement n := h.held (.loop_body tag)
    have kind := h.isStatement (.loop_body tag)
    cases tag with
    | while_ => exact .whileLoop first second kind
    | do_ => exact .doLoop first second kind
  | forLoop init test step repeated =>
    exact .forLoop (fun child hmem => h.held (.forLoop_init hmem))
      (fun child hmem => h.held (.forLoop_test hmem))
      (fun child hmem => h.held (.forLoop_step hmem)) (h.held .forLoop_body)
      (h.isStatement .forLoop_body)
  | forIn init subject repeated =>
    exact .forIn (h.held .forIn_init) (forInProblem?_braced h.spelled) (h.held .forIn_subject)
      (h.held .forIn_body) (h.isStatement .forIn_body)
  | exit tag value => exact .exit tag (fun child hmem => h.held (.exit tag hmem)) h.spelled
  | jump tag label => exact .jump tag fun name hmem => (h.spelled name hmem).isName
  | labeled label repeated =>
    exact .labeled (IsNameToken.isName h.spelled) (h.held .labeled) (h.isStatement .labeled)
  | switch subject nodes =>
    exact .switch (h.held .switch_subject) fun child hmem => h.held (.switch_branch hmem)
  | try_ nodes handler finalizer =>
    exact .tryCatch (fun child hmem => h.isStatement (.try_statement hmem))
      (fun child hmem => h.held (.try_statement hmem))
      (fun child hmem =>
        ⟨h.isExpression_eq_false rfl (.try_handler hmem), h.held (.try_handler hmem)⟩)
      (fun child hmem =>
        ⟨h.isExpression_eq_false rfl (.try_finalizer hmem), h.held (.try_finalizer hmem)⟩)
      h.spelled
  | debugger => exact .debugger
  | lambda tag name names nodes =>
    obtain ⟨hsome, hname, hnames⟩ := h.spelled
    cases tag with
    | declaration =>
      exact .function (fun x hx => (hname x hx).isName) (hsome rfl)
        (fun x hx => (hnames x hx).isName)
        (fun child hmem => h.isStatement (.lambda .declaration hmem))
        fun child hmem => h.held (.lambda .declaration hmem)
    | expression => cases hkind
  | declaration tag | call tag | unary tag | binary tag => cases tag <;> cases hkind
  | _ => cases hkind

/-- Each part of a statement, and a declaration, is read back where it may stand. -/
theorem readsBack_part (h : node.MadeOf fun slot child => child.ReadsBack n slot)
    (hexpression : node.kind.isExpression = false) (hstatement : isPlainStatement node.kind = false)
    (hslot : slot.accepts node.kind = true) : node.ReadsBack (n + 1) slot := by
  cases node with
  | body tag nodes =>
    have kinds : ∀ child ∈ nodes, child.kind.isStatement = true := fun child hmem =>
      h.isStatement (.body tag hmem)
    have reads : ∀ child ∈ nodes, child.ReadsStatement n := fun child hmem =>
      h.held (.body tag hmem)
    cases tag with
    | toplevel => cases slot <;> cases hslot
    | block => cases hstatement
    | defaultBranch =>
      cases slot with
      | switchBranch => exact readsBack_default kinds reads
      | _ => cases hslot
    | finallyClause =>
      cases slot with
      | finallyClause => exact readsBack_finally kinds reads
      | _ => cases hslot
  | declaration tag nodes =>
    exact readsBack_declaration
      (fun child hmem => h.isExpression_eq_false rfl (.declaration tag hmem))
      (fun child hmem => h.held (.declaration tag hmem)) h.spelled hslot
  | varDef name value =>
    cases slot with
    | definition =>
      exact readsBack_definition (IsNameToken.isName h.spelled) fun child hmem =>
        h.held (.varDef hmem)
    | _ => cases hslot
  | case_ test nodes =>
    cases slot with
    | switchBranch =>
      exact readsBack_case (h.held .case_test)
        (fun child hmem => h.isStatement (.case_statement hmem))
        fun child hmem => h.held (.case_statement hmem)
    | _ => cases hslot
  | catch_ parameter nodes =>
    cases slot with
    | catchClause =>
      exact readsBack_catch (IsNameToken.isName h.spelled)
        (fun child hmem => h.isStatement (.catch_ hmem)) fun child hmem => h.held (.catch_ hmem)
    | _ => cases hslot
  | property key value =>
    obtain ⟨kind, hkind, hkey⟩ := h.spelled
    cases slot with
    | property =>
      refine readsBack_property (h.held .property) ?_
      rw [kindOf_of_spells (spells_of_lexesAs hkind (content_of_keyName? hkey).1)]
      exact hkey
    | _ => cases hslot
  | lambda tag =>
    cases tag with
    | declaration => cases hstatement
    | expression => cases hexpression
  | loop tag | exit tag | jump tag => cases tag <;> cases hstatement
  | call tag | unary tag | binary tag => cases tag <;> cases hexpression
  | empty | simple | ifElse | forLoop | forIn | labeled | switch | try_ | debugger => cases hstatement
  | _ => cases hexpression

/-- What holds nodes that are read back is read back itself. -/
theorem readsBack (h : node.MadeOf fun slot child => child.ReadsBack n slot)
    (hslot : slot.accepts node.kind = true) : node.ReadsBack (n + 1) slot := by
  cases hexpression : node.kind.isExpression with
  | true => exact readsBack_ofExpression hexpression (h.readsExpression hexpression) hslot
  | false =>
    cases hstatement : isPlainStatement node.kind with
    | true => exact readsBack_ofStatement hstatement (h.readsStatement hstatement) hslot
    | false => exact h.readsBack_part hexpression hstatement hslot

end MadeOf

/-- Every printable node is read back wherever it may stand. -/
theorem Printable.readsBack {node : Node} (h : node.Printable) {n : Nat} (hn : node.height ≤ n)
    {slot : Slot} (hslot : slot.accepts node.kind = true) : node.ReadsBack n slot := by
  induction h generalizing n slot with
  | @intro node slots spelled below ih =>
    obtain ⟨m, rfl⟩ : ∃ m, n = m + 1 := by
      rw [height_eq] at hn
      exact ⟨n - 1, by omega⟩
    have made : node.MadeOf fun slot child => child.ReadsBack m slot := by
      refine ⟨.intro slots spelled below, fun {slot child} held => ?_⟩
      have lower := height_lt_of_mem_children held.mem_children
      exact ih child held.mem_children (by omega) (held.accepts slots)
    exact made.readsBack hslot

end Node

/-! ## Whole texts -/

section Whole

variable {beautify ended : Bool} {n : Nat} {room : Prop} {pieces : List Piece} {values : List Node}

/-- In a program a statement is read where one starts. -/
theorem reads_statement? {words rest : List Lexeme} {depth : Nat} {value : Node}
    (hopens : opensStatement (nextKind words) = true)
    (h : Reads room (Level.ofNat maxNesting).statement ⟨words, depth⟩ value ⟨rest, depth⟩) :
    Reads room Parser.statement? ⟨words, depth⟩ (some value) ⟨rest, depth⟩ := by
  refine .get_bind fun parser hs => ?_
  have ongoing : parser.atEnd? = false := by
    rw [Parser.atEnd?, hs.kind_current, beq_eq_false_iff_ne]
    exact (opensStatement_iff.mp hopens).2.1
  rw [ongoing]
  exact h.bind (.pure _ _)

theorem atEnd?_of_shows {parser : Parser} {depth : Nat} (h : parser.Shows [] depth) :
    parser.atEnd? = true := by
  rw [Parser.atEnd?, h.kind_current]
  rfl

/-- A program stops at the end of the text. -/
theorem reads_statement?_end {depth : Nat} :
    Reads room Parser.statement? ⟨[], depth⟩ none ⟨[], depth⟩ := by
  refine .get_bind fun parser hs => ?_
  rw [atEnd?_of_shows hs]
  exact .pure _ _

/-- Statements up to the end of the text are a program. -/
theorem Lines.reads_program (h : Lines beautify n 0 ended pieces values)
    (hroom : room → Room n 1 maxNesting 0) :
    Reads room Parser.programM ⟨lexemes beautify false pieces, 0⟩ (.toplevel values) ⟨[], 0⟩ := by
  have rounds : Rounds room Parser.statement? ⟨lexemes beautify false pieces, 0⟩ values ⟨[], 0⟩ := by
    cases values with
    | nil =>
      cases h
      exact .stop reads_statement?_end
    | cons first rest =>
      have all := h.rounds (fun _ _ _ hopens => reads_statement? hopens) nofun hroom false []
        reads_statement?_end ⟨fun _ => .inr rfl, nofun, nofun⟩
      rw [List.append_nil] at all
      exact all
  have enough := h.length_le
  refine .rounds_bind fun count hcount => (rounds.many ?_).bind (.pure _ _)
  rw [length_lexemes] at hcount
  omega

/-- A phrase that takes up the whole text is an expression. -/
theorem Phrase.reads_expression {level : Nat} {noIn calls : Bool} {value : Node}
    (h : Phrase beautify n 0 level noIn calls pieces value) (hroom : room → Room n 1 maxNesting 0) :
    Reads room Parser.expressionM ⟨lexemes beautify false pieces, 0⟩ value ⟨[], 0⟩ := by
  have whole := h.whole room maxNesting 0 hroom false false [] nofun rfl
  rw [List.append_nil] at whole
  refine whole.bind (.get_bind fun parser hs => ?_)
  rw [atEnd?_of_shows hs]
  exact .pure _ _

/-- The text was refused because of its nesting. -/
def IsNestingError (result : Except Error Node) : Prop :=
  ∃ line column excerpt,
    result = .error (.ofCause (.parse Complaint.nestingTooDeep.message line column excerpt))

/-- What a step reads is what a parser makes of the text. -/
theorem Reads.run {step : ParseM Node} {before after : View} {value : Node} {parser : Parser}
    (h : Reads room step before value after) (hs : parser.Shows before.words before.depth) :
    (parser.run step).1 = .ok value ∨ (¬ room ∧ IsNestingError (parser.run step).1) := by
  rw [Parser.run]
  rcases h parser hs with ⟨last, hstep, _⟩ | ⟨hroom, refusal, last, hstep, hdeep⟩
  · rw [hstep]
    exact .inl rfl
  · rw [hstep]
    exact .inr ⟨hroom, refusal.span.line, refusal.span.column, _, by rw [← hdeep]; rfl⟩

end Whole

namespace Node

/-- A tree of up to this many levels is never refused for its nesting, whatever it is made of. -/
def safeDepth : Nat := 19

theorem weight_le {n m : Nat} (h : n ≤ m) : weight n ≤ weight m := by
  induction h with
  | refl => exact Nat.le_refl _
  | step _ ih =>
    rw [weight]
    omega

/-- A tree that does not fit is deeper than the safe depth. -/
theorem safeDepth_lt_of_not_room {n : Nat} (h : ¬ Room n 1 maxNesting 0) : safeDepth < n := by
  by_contra hle
  have low : n ≤ 19 := Nat.not_lt.mp hle
  have light := weight_le low
  rw [show weight 19 = 247 from rfl] at light
  refine h ⟨?_, ?_⟩
  · rw [maxNesting]
    omega
  · rw [maxTreeDepth]
    omega

theorem eq_toplevel_of_kind {tree : Node} (h : tree.kind = .toplevel) :
    ∃ nodes, tree = toplevel nodes := by
  cases tree with
  | body tag nodes =>
    cases tag with
    | toplevel => exact ⟨nodes, rfl⟩
    | _ => cases h
  | declaration tag nodes => cases tag <;> cases h
  | loop tag test repeated => cases tag <;> cases h
  | exit tag value => cases tag <;> cases h
  | jump tag label => cases tag <;> cases h
  | lambda tag name names nodes => cases tag <;> cases h
  | call tag callee nodes => cases tag <;> cases h
  | unary tag operator operand => cases tag <;> cases h
  | binary tag left operator right => cases tag <;> cases h
  | _ => cases h

/-- The pieces of a program are read as the program. -/
theorem Printable.reads_program {nodes : List Node} (h : (toplevel nodes).Printable)
    (beautify forced : Bool) :
    Reads (Room (toplevel nodes).height 1 maxNesting 0) Parser.programM
      ⟨lexemes beautify false ((toplevel nodes).pieces forced), 0⟩ (toplevel nodes).braced
      ⟨[], 0⟩ := by
  obtain ⟨slots, _, below⟩ := h
  have held : ∀ node ∈ nodes, (toplevel nodes).Holds .statement node := fun node hmem =>
    .body .toplevel hmem
  have lines := lines_emit (fun node hmem => (held node hmem).accepts slots)
    (fun node hmem => (below node (held node hmem).mem_children).readsBack
      (Nat.le_of_lt (height_lt_of_mem_children (held node hmem).mem_children))
      ((held node hmem).accepts slots)) beautify forced 0 false
  have whole : (toplevel nodes).pieces forced = emitStatements forced 0 false false nodes := by
    rw [pieces, asItself, if_neg (fun h => by cases h), asStatement, if_neg (fun h => by cases h),
      emit]
  rw [whole, braced_eq]
  exact lines.reads_program id

/-- The pieces of an expression are read as the expression. -/
theorem Printable.reads_expression {tree : Node} (h : tree.Printable)
    (hkind : tree.kind.isExpression = true) (beautify forced : Bool) :
    Reads (Room tree.height 1 maxNesting 0) Parser.expressionM
      ⟨lexemes beautify false (tree.pieces forced), 0⟩ tree.braced ⟨[], 0⟩ := by
  have phrase : tree.ReadsBack tree.height .expression := h.readsBack (Nat.le_refl _) hkind
  have whole : tree.pieces forced = tree.emit forced 0 (endsHere forced false tree) false := by
    rw [pieces, asItself, if_pos hkind, asExpression, Bool.false_and, Bool.or_false, if_neg]
    simp
  rw [whole]
  exact (phrase beautify forced 0 _ false).reads_expression id

/-- The lexer makes the printed pieces of the printed text. -/
theorem Printable.shows_print {tree : Node} (h : tree.Printable) (layout : Layout) :
    (Parser.ofSource (tree.print layout)).Shows
      (lexemes layout.beautify false (tree.pieces layout.terminates)) 0 := by
  have flows : Follows (tree.pieces layout.terminates) := by
    rw [pieces, asItself]
    split
    · exact h.seamless.fitted_follows layout.terminates 0 0 false
    · exact h.seamless.follows_asStatement layout.terminates 0 false false
  obtain ⟨last, _, hflows⟩ := flows .free rfl
  exact shows_render layout hflows

/-- **Printing and reading back gives the same tree**, with braces where an `else` would have been
taken away. -/
theorem Printable.parse_print {tree : Node} (h : tree.Printable) (layout : Layout) :
    (tree.kind = .toplevel → parse (tree.print layout) = .ok tree.braced ∨
      (safeDepth < tree.depth ∧ IsNestingError (parse (tree.print layout)))) ∧
    (tree.kind.isExpression = true → parseExpression (tree.print layout) = .ok tree.braced ∨
      (safeDepth < tree.depth ∧ IsNestingError (parseExpression (tree.print layout)))) := by
  have shows := h.shows_print layout
  rw [depth_eq]
  refine ⟨fun hkind => ?_, fun hkind => ?_⟩
  · obtain ⟨nodes, rfl⟩ := eq_toplevel_of_kind hkind
    refine ((h.reads_program layout.beautify layout.terminates).run shows).imp_right ?_
    exact fun ⟨hroom, refused⟩ => ⟨safeDepth_lt_of_not_room hroom, refused⟩
  · refine ((h.reads_expression hkind layout.beautify layout.terminates).run shows).imp_right ?_
    exact fun ⟨hroom, refused⟩ => ⟨safeDepth_lt_of_not_room hroom, refused⟩

/-- A program with one `if` in the other, where the `else` belongs to the outer one. -/
def danglingElse : Node :=
  toplevel [ifElse (identifier "a") (ifElse (identifier "b") (simple (identifier "c")) none)
    (some (simple (identifier "d")))]

theorem printable_danglingElse : danglingElse.Printable := by
  have name : ∀ {name : String}, spells (.identifier name) name.toList = true →
      (identifier name).Printable := fun h => .intro rfl (lexesAs_of_spells h) nofun
  have statement : ∀ {name : String}, spells (.identifier name) name.toList = true →
      (simple (identifier name)).Printable :=
    fun h => .intro rfl trivial (List.forall_mem_singleton.mpr (name h))
  have inner : (ifElse (identifier "b") (simple (identifier "c")) none).Printable :=
    .intro rfl trivial (List.forall_mem_cons.mpr ⟨name (by decide),
      List.forall_mem_singleton.mpr (statement (by decide))⟩)
  refine .intro rfl trivial (List.forall_mem_singleton.mpr (.intro rfl trivial ?_))
  exact List.forall_mem_cons.mpr ⟨name (by decide), List.forall_mem_cons.mpr ⟨inner,
    List.forall_mem_singleton.mpr (statement (by decide))⟩⟩

theorem braced_danglingElse : danglingElse.braced = toplevel [ifElse (identifier "a")
    (block [ifElse (identifier "b") (simple (identifier "c")) none])
    (some (simple (identifier "d")))] := by
  have name : ∀ name, (identifier name).braced = identifier name := by
    intro name
    rw [braced_eq]
    rfl
  have statement : ∀ name, (simple (identifier name)).braced = simple (identifier name) := by
    intro x
    rw [braced_eq]
    exact congrArg simple (name x)
  have inner : (ifElse (identifier "b") (simple (identifier "c")) none).braced
      = ifElse (identifier "b").braced (simple (identifier "c")).braced none := by
    rw [braced_eq]
    rfl
  have outer : danglingElse.braced = toplevel [(ifElse (identifier "a")
      (ifElse (identifier "b") (simple (identifier "c")) none)
      (some (simple (identifier "d")))).braced] := by
    rw [danglingElse, braced_eq]
    rfl
  rw [outer, braced_ifElse, endsWithOpenIf, if_pos rfl, inner, name, name, statement, statement]

/-- Without the braces the `else` would come back with the inner `if`. -/
theorem parse_print_danglingElse : parse "if(a)\x7bif(b)c\x7delse d"
    = .ok (toplevel [ifElse (identifier "a")
        (block [ifElse (identifier "b") (simple (identifier "c")) none])
        (some (simple (identifier "d")))]) := by
  have text : danglingElse.print .compact = "if(a)\x7bif(b)c\x7delse d" := by decide
  have within : danglingElse.conformsWithin 5 = true := by decide
  rcases (printable_danglingElse.parse_print .compact).1 rfl with same | ⟨deep, _⟩
  · rw [text, braced_danglingElse] at same
    exact same
  · have shallow := depth_le_of_within within
    rw [safeDepth] at deep
    omega

end Node

end JsPrune
