import JsPrune.Proofs.ReadBack
import JsPrune.Proofs.Seams

/-!
# Printed trees do not run together

By induction over a printable tree: the pieces of an expression can stand after an operator, all other
pieces after anything but a point or an operator. An expression that binds as tightly as a member
access leaves no number open, so a point can follow it; a number by itself is the exception, and the
printer puts it in parentheses there.
-/

namespace JsPrune

open Text

namespace Node

/-- The pieces of a node meet their neighbours well, wherever the node stands. -/
def Seamless (node : Node) : Prop :=
  ∀ (forced : Bool) (indent : Nat) (terminate noIn : Bool),
    Follows (node.emit forced indent terminate noIn) ∧
    (node.kind.isExpression = true → Runs (node.emit forced indent terminate noIn) ∧
      (17 ≤ node.precedence → node.isNumber = false →
        Closed (node.emit forced indent terminate noIn)))

namespace Seamless

variable {node : Node}

/-- Of what is no expression only this is asked, that it can stand after a soft edge. -/
theorem ofFollows (hkind : node.kind.isExpression = false)
    (h : ∀ forced indent terminate noIn, Follows (node.emit forced indent terminate noIn)) :
    node.Seamless := by
  intro forced indent terminate noIn
  refine ⟨h forced indent terminate noIn, fun hexpression => ?_⟩
  rw [hkind] at hexpression
  cases hexpression

/-- An expression that nothing is ever attached to, because it binds too loosely or is a number, may
leave a number open. -/
theorem ofRuns (hlevel : node.precedence < 17 ∨ node.isNumber = true)
    (h : ∀ forced indent terminate noIn, Runs (node.emit forced indent terminate noIn)) :
    node.Seamless := by
  intro forced indent terminate noIn
  refine ⟨(h forced indent terminate noIn).follows, fun _ => ⟨h forced indent terminate noIn, ?_⟩⟩
  intro htight hnumber
  rcases hlevel with hlevel | hlevel
  · omega
  · rw [hnumber] at hlevel
    cases hlevel

/-- What leaves nothing behind meets every neighbour well. -/
theorem ofClosed
    (h : ∀ forced indent terminate noIn, Closed (node.emit forced indent terminate noIn)) :
    node.Seamless := fun forced indent terminate noIn =>
  have closed := h forced indent terminate noIn
  ⟨closed.runs.follows, fun _ => ⟨closed.runs, fun _ _ => closed⟩⟩

/-! ## Fitting -/

/-- An expression can stand after an operator, in parentheses or not. -/
theorem fitted_runs (h : node.Seamless) (hkind : node.kind.isExpression = true) (forced : Bool)
    (indent least : Nat) (noIn : Bool) : Runs (node.fitted forced indent least noIn) := by
  rw [fitted, asExpression]
  split
  · exact (Follows.inParens (h forced indent _ false).1).runs
  · exact ((h forced indent _ noIn).2 hkind).1

/-- Where a point may follow, an expression that is no number leaves nothing behind: it binds
tightly enough or stands in parentheses. -/
theorem fitted_closed (h : node.Seamless) (hkind : node.kind.isExpression = true) (forced : Bool)
    (indent : Nat) (noIn : Bool) (hnumber : node.isNumber = false) :
    Closed (node.fitted forced indent 17 noIn) := by
  rw [fitted, asExpression]
  split
  · exact Follows.inParens (h forced indent _ false).1
  · next hplain =>
    rw [Bool.or_eq_true, not_or, decide_eq_true_iff] at hplain
    exact ((h forced indent _ noIn).2 hkind).2 (Nat.not_lt.mp hplain.1) hnumber

/-- Whatever stands in the place of an expression can stand after a soft edge. -/
theorem fitted_follows (h : node.Seamless) (forced : Bool) (indent least : Nat) (noIn : Bool) :
    Follows (node.fitted forced indent least noIn) := by
  rw [fitted, asExpression]
  split
  · exact (Follows.inParens (h forced indent _ false).1).runs.follows
  · exact (h forced indent _ noIn).1

/-- A semicolon or nothing can stand after a soft edge. -/
theorem follows_ending (terminate : Bool) : Follows (ending terminate) := by
  cases terminate with
  | true => exact closed_semicolon.runs.follows
  | false => exact .nil

/-- Whatever stands in the place of a statement can stand after a soft edge. -/
theorem follows_asStatement (h : node.Seamless) (forced : Bool) (indent : Nat)
    (terminate noIn : Bool) :
    Follows (node.asStatement forced terminate noIn fun t m => node.emit forced indent t m) := by
  rw [asStatement]
  split
  · exact (h.fitted_follows forced indent 0 noIn).append (follows_ending _)
  · exact (h forced indent _ noIn).1

/-- So can the body of a compound statement. -/
theorem follows_asBody (h : node.Seamless) (forced : Bool) (indent : Nat) (terminate noIn : Bool) :
    Follows (node.asBody forced terminate noIn fun t m => node.emit forced indent t m) := by
  have body := h.follows_asStatement forced indent terminate noIn
  rw [asBody]
  split
  · exact body
  · exact body.space

/-- So can a node by itself. -/
theorem follows_asItself (h : node.Seamless) (forced : Bool) (indent : Nat) (noIn : Bool) :
    Follows (node.asItself forced noIn fun t m => node.emit forced indent t m) := by
  rw [asItself]
  split
  · exact h.fitted_follows forced indent 0 noIn
  · exact h.follows_asStatement forced indent false noIn

/-- So can what stands in the place of a branch. -/
theorem follows_asBranch (h : node.Seamless) (forced : Bool) (indent : Nat) (terminate noIn : Bool) :
    Follows (node.asBranch forced terminate noIn fun t m => node.emit forced indent t m) := by
  rw [asBranch]
  split
  · exact (h forced indent terminate noIn).1
  · exact h.follows_asStatement forced indent terminate noIn

/-- So can what stands first in the head of a loop. -/
theorem follows_asForInit (h : node.Seamless) (forced : Bool) (indent : Nat) :
    Follows (node.asForInit forced fun t m => node.emit forced indent t m) := by
  rw [asForInit]
  split
  · exact (h forced indent false true).1
  · exact h.fitted_follows forced indent 0 true

/-! ## Lists -/

variable {nodes : List Node}

/-- A list of statements can stand after a soft edge. -/
theorem follows_emitStatements (h : ∀ node ∈ nodes, node.Seamless) (forced : Bool) (indent : Nat)
    (terminate noIn : Bool) : Follows (emitStatements forced indent terminate noIn nodes) := by
  induction nodes with
  | nil =>
    rw [emitStatements]
    exact .nil
  | cons first rest ih =>
    have head := (h first (List.mem_cons_self ..)).follows_asStatement forced indent
      (!rest.isEmpty || terminate) noIn
    have tail := ih fun node hmem => h node (List.mem_cons_of_mem _ hmem)
    rw [emitStatements]
    split <;> grind

/-- A list of branches can stand after a soft edge. -/
theorem follows_emitBranches (h : ∀ node ∈ nodes, node.Seamless) (forced : Bool) (indent : Nat)
    (noIn : Bool) : Follows (emitBranches forced indent noIn nodes) := by
  induction nodes with
  | nil =>
    rw [emitBranches]
    exact .nil
  | cons first rest ih =>
    have head := (h first (List.mem_cons_self ..)).follows_asBranch forced indent (!rest.isEmpty) noIn
    have tail := ih fun node hmem => h node (List.mem_cons_of_mem _ hmem)
    rw [emitBranches]
    grind

theorem follows_comma : Follows comma := closed_comma.runs.follows.append (.space .nil)

/-- A list of expressions with commas can stand after a soft edge. -/
theorem follows_emitList (h : ∀ node ∈ nodes, node.Seamless) (forced : Bool) (indent : Nat)
    (noIn : Bool) : Follows (emitList forced indent noIn nodes) := by
  induction nodes with
  | nil =>
    rw [emitList]
    exact .nil
  | cons first rest ih =>
    have head := (h first (List.mem_cons_self ..)).fitted_follows forced indent 2 noIn
    have tail := ih fun node hmem => h node (List.mem_cons_of_mem _ hmem)
    have separator := follows_comma
    rw [emitList]
    split <;> grind [fitted]

/-- A list of bindings or entries can stand after a soft edge. -/
theorem follows_emitFragments (h : ∀ node ∈ nodes, node.Seamless) (forced : Bool) (indent : Nat)
    (noIn : Bool) : Follows (emitFragments forced indent noIn nodes) := by
  induction nodes with
  | nil =>
    rw [emitFragments]
    exact .nil
  | cons first rest ih =>
    have head := (h first (List.mem_cons_self ..)).follows_asItself forced indent noIn
    have tail := ih fun node hmem => h node (List.mem_cons_of_mem _ hmem)
    have separator := follows_comma
    rw [emitFragments]
    split <;> grind

/-- An optional expression with a space before it can stand after a soft edge. -/
theorem follows_emitClause {value? : Option Node} (h : ∀ value ∈ value?, value.Seamless)
    (forced : Bool) (indent : Nat) (noIn : Bool) : Follows (emitClause forced indent noIn value?) := by
  cases value? with
  | none =>
    rw [emitClause]
    exact .nil
  | some value =>
    rw [emitClause]
    exact ((h value rfl).fitted_follows forced indent 0 noIn).space

/-- So can the optional first part of a loop head. -/
theorem follows_emitForInit {init? : Option Node} (h : ∀ init ∈ init?, init.Seamless)
    (forced : Bool) (indent : Nat) : Follows (emitForInit forced indent init?) := by
  cases init? with
  | none =>
    rw [emitForInit]
    exact .nil
  | some init =>
    rw [emitForInit]
    exact (h init rfl).follows_asForInit forced indent

/-- So can an optional clause of a `try`. -/
theorem follows_emitAppended {clause? : Option Node} (h : ∀ clause ∈ clause?, clause.Seamless)
    (forced : Bool) (indent : Nat) (noIn : Bool) :
    Follows (emitAppended forced indent noIn clause?) := by
  cases clause? with
  | none =>
    rw [emitAppended]
    exact .nil
  | some clause =>
    rw [emitAppended]
    exact ((h clause rfl).follows_asItself forced indent noIn).space

/-- Braces leave nothing behind, whatever is between them. -/
theorem closed_bracesOf (h : ∀ node ∈ nodes, node.Seamless) (forced : Bool) (indent : Nat)
    (noIn : Bool) :
    Closed (bracesOf indent nodes (emitStatements forced (indent + 1) false noIn nodes)) := by
  have inside := follows_emitStatements h forced (indent + 1) false noIn
  have opening := closed_braceOpen
  have closing := closed_braceClose
  rw [bracesOf]
  split
  · exact opening.runs.close closing
  · have front : Runs (.text "\x7b" :: .newline (indent + 1) ::
        (emitStatements forced (indent + 1) false noIn nodes ++ [.newline indent])) :=
      opening.runs.cons ((inside.append (Follows.nil.newline indent)).newline _)
    have whole := front.close closing
    rw [inBraces]
    simpa only [List.cons_append, List.append_assoc, List.nil_append] using whole

/-- A list of names can stand after a soft edge. -/
theorem follows_nameList {names : List String} (h : ∀ name ∈ names, IsNameToken name) :
    Follows (nameList names) := by
  induction names with
  | nil => exact .nil
  | cons first rest ih =>
    have head := (closed_name (h first (List.mem_cons_self ..))).runs.follows
    have tail := ih fun name hmem => h name (List.mem_cons_of_mem _ hmem)
    have separator := follows_comma
    cases rest with
    | nil => exact head
    | cons second rest =>
      rw [nameList]
      · grind
      · exact List.cons_ne_nil _ _

/-- So can one name or none. -/
theorem follows_optional_name {name : Option String} (h : ∀ x ∈ name, IsNameToken x) :
    Follows (name.toList.map Piece.text) := by
  cases name with
  | none => exact .nil
  | some name => exact (closed_name (h name rfl)).runs.follows

end Seamless

/-! ## Every construct -/

namespace Seamless

section Expressions

variable {owner callee index operand left right test yes no value : Node} {nodes : List Node}

/-- A member by name leaves nothing behind: after its point there is a word. -/
theorem dot (h : owner.Seamless) (hkind : owner.kind.isExpression = true) {name : String}
    (hname : IsMemberToken name) : (Node.dot owner name).Seamless := by
  refine ofClosed fun forced indent terminate noIn => ?_
  rw [emit]
  refine Closed.member ?_ hname
  split
  · exact (h.fitted_follows forced indent 0 noIn).inParens
  · next hnumber => exact h.fitted_closed hkind forced indent noIn (Bool.eq_false_iff.mpr hnumber)

/-- A computed member ends in a bracket. -/
theorem sub (h : owner.Seamless) (hkind : owner.kind.isExpression = true) (hindex : index.Seamless) :
    (Node.sub owner index).Seamless := by
  refine ofClosed fun forced indent terminate noIn => ?_
  rw [emit]
  have front := (h.fitted_runs hkind forced indent 17 noIn).append closed_bracketOpen.runs.follows
  exact (front.append (hindex.fitted_follows forced indent 0 noIn)).close closed_bracketClose

/-- A call ends in a parenthesis. -/
theorem call (h : callee.Seamless) (hkind : callee.kind.isExpression = true)
    (hnodes : ∀ node ∈ nodes, node.Seamless) : (Node.call .plain callee nodes).Seamless := by
  refine ofClosed fun forced indent terminate noIn => ?_
  rw [emit]
  exact (h.fitted_runs hkind forced indent 17 noIn).close
    (follows_emitList hnodes forced indent noIn).inParens

/-- A constructor call starts with a word and ends in a parenthesis. -/
theorem new (h : callee.Seamless) (hnodes : ∀ node ∈ nodes, node.Seamless) :
    (Node.call .new callee nodes).Seamless := by
  refine ofClosed fun forced indent terminate noIn => ?_
  have middle : Follows (if callee.containsCall then inParens (callee.fitted forced indent 0 noIn)
      else callee.fitted forced indent 17 noIn) := by
    split
    · exact (h.fitted_follows forced indent 0 noIn).inParens.runs.follows
    · exact h.fitted_follows forced indent 17 noIn
  have word := closed_word .newKw
  rw [emit]
  exact (word.runs.cons middle).close (follows_emitList hnodes forced indent noIn).inParens

/-- An array starts and ends with a bracket. -/
theorem array (hnodes : ∀ node ∈ nodes, node.Seamless) : (Node.array nodes).Seamless := by
  refine ofClosed fun forced indent terminate noIn => ?_
  rw [emit]
  exact (closed_bracketOpen.runs.cons (follows_emitList hnodes forced indent noIn)).close
    closed_bracketClose

/-- An object starts and ends with a brace. -/
theorem object (hnodes : ∀ node ∈ nodes, node.Seamless) : (Node.object nodes).Seamless := by
  refine ofClosed fun forced indent terminate noIn => ?_
  rw [emit]
  exact (closed_braceOpen.runs.cons (follows_emitFragments hnodes forced indent noIn)).close
    closed_braceClose

/-- A function starts with a word and ends in a brace. -/
theorem lambda {tag : LambdaTag} {name : Option String} {names : List String}
    (hname : ∀ x ∈ name, IsNameToken x) (hnames : ∀ x ∈ names, IsNameToken x)
    (hnodes : ∀ node ∈ nodes, node.Seamless) : (Node.lambda tag name names nodes).Seamless := by
  refine ofClosed fun forced indent terminate noIn => ?_
  have word := closed_word .functionKw
  have title := follows_optional_name hname
  have parameters := (follows_nameList hnames).inParens.runs.follows
  rw [emit]
  refine Runs.close ?_ (closed_bracesOf hnodes forced indent false)
  exact ((word.runs.cons title).append parameters).append (.space .nil)

/-- A row of expressions with commas is as loose as its last expression, and nothing is attached to
it. -/
theorem sequence (hnodes : ∀ node ∈ nodes, node.Seamless)
    (hkind : ∀ node ∈ nodes, node.kind.isExpression = true) (hlength : 2 ≤ nodes.length) :
    (Node.sequence nodes).Seamless := by
  refine ofRuns (.inl (by show 1 < 17; omega)) fun forced indent terminate noIn => ?_
  rw [emit]
  cases nodes with
  | nil => cases hlength
  | cons first rest =>
    have tail := follows_emitList (fun node hmem => hnodes node (List.mem_cons_of_mem _ hmem)) forced
      indent noIn
    have head := (hnodes first (List.mem_cons_self ..)).fitted_runs
      (hkind first (List.mem_cons_self ..)) forced indent 2 noIn
    rw [emitList]
    refine (head.append ?_).append tail
    split
    · exact .nil
    · exact follows_comma

/-- A prefix operator keeps away from an operand that starts with the same sign. -/
theorem before (operator : UnaryOp) (h : operand.Seamless)
    (hkind : operand.kind.isExpression = true) : (Node.unary .before operator operand).Seamless := by
  refine ofRuns (.inl (by show 14 < 17; omega)) fun forced indent terminate noIn => ?_
  rw [emit]
  exact (h.fitted_runs hkind forced indent 14 noIn).unary operator

/-- A stepping operator after its operand leaves nothing behind. -/
theorem after {operator : UnaryOp} (hstep : operator.isStep = true) (h : operand.Seamless)
    (hkind : operand.kind.isExpression = true) : (Node.unary .after operator operand).Seamless := by
  refine ofRuns (.inl (by show 15 < 17; omega)) fun forced indent terminate noIn => ?_
  rw [emit]
  exact (h.fitted_runs hkind forced indent 16 noIn).append (closed_step hstep).runs.follows

/-- Both operands of an operator can stand next to it. -/
theorem combine {operator : BinaryOp} (hoperator : operator.isAssignment = false) (hl : left.Seamless)
    (hlk : left.kind.isExpression = true) (hr : right.Seamless)
    (hrk : right.kind.isExpression = true) : (Node.binary .combine left operator right).Seamless := by
  refine ofRuns (.inl ?_) fun forced indent terminate noIn => ?_
  · have bound := (BinaryOp.precedence_bounds hoperator).2
    rw [Grammar.tightest] at bound
    show operator.precedence < 17
    omega
  · rw [emit, List.append_assoc]
    exact (hl.fitted_runs hlk forced indent _ noIn).append
      (.space (.binary operator (hr.fitted_runs hrk forced indent _ noIn).space))

/-- Both sides of an assignment can stand next to its operator. -/
theorem assign (operator : BinaryOp) (hl : left.Seamless)
    (hlk : left.kind.isExpression = true) (hr : right.Seamless)
    (hrk : right.kind.isExpression = true) : (Node.binary .assign left operator right).Seamless := by
  refine ofRuns (.inl (by show 2 < 17; omega)) fun forced indent terminate noIn => ?_
  rw [emit, List.append_assoc]
  exact (hl.fitted_runs hlk forced indent _ noIn).append
    (.space (.binary operator (hr.fitted_runs hrk forced indent _ noIn).space))

/-- The question mark and the colon of a conditional keep its three parts apart. -/
theorem conditional (ht : test.Seamless) (htk : test.kind.isExpression = true) (hy : yes.Seamless)
    (hn : no.Seamless) : (Node.conditional test yes no).Seamless := by
  refine ofRuns (.inl (by show 3 < 17; omega)) fun forced indent terminate noIn => ?_
  have first := ht.fitted_runs htk forced indent 4 noIn
  have second := hy.fitted_follows forced indent 2 noIn
  have third := hn.fitted_follows forced indent 2 noIn
  rw [emit]
  simp only [List.append_assoc]
  refine first.append ?_
  rw [fitted] at second third
  grind [closed_question, closed_colon]

/-- An entry is its key, a colon and its value. -/
theorem property {key : String} (hkey : Runs [.text (keyText key)]) (h : value.Seamless) :
    (Node.property key value).Seamless := by
  refine ofFollows rfl fun forced indent terminate noIn => ?_
  have second := h.fitted_follows forced indent 2 noIn
  rw [emit]
  rw [fitted] at second
  grind [closed_colon]

end Expressions

section Statements

variable {test yes no repeated value init subject : Node} {nodes : List Node}

/-- A list of statements meets its neighbours well with any word or braces around it. -/
theorem body (tag : BodyTag) (h : ∀ node ∈ nodes, node.Seamless) :
    (Node.body tag nodes).Seamless := by
  refine ofFollows (by cases tag <;> rfl) fun forced indent terminate noIn => ?_
  have braces := closed_bracesOf h forced indent noIn
  cases tag with
  | toplevel =>
    rw [emit]
    exact follows_emitStatements h forced indent false noIn
  | block =>
    rw [emit]
    exact braces.runs.follows
  | defaultBranch =>
    have word : Closed [.text "default"] := closed_word .defaultKw
    have lines := follows_emitStatements h forced (indent + 1) terminate noIn
    rw [emit]
    split <;> grind [closed_colon]
  | finallyClause =>
    have word : Closed [.text "finally"] := closed_word .finallyKw
    rw [emit]
    grind

/-- An expression statement meets its neighbours well, in the parentheses of the printer or not. -/
theorem simple (h : value.Seamless) : (Node.simple value).Seamless := by
  refine ofFollows rfl fun forced indent terminate noIn => ?_
  have pieces := h.fitted_follows forced indent 0 noIn
  rw [emit]
  refine Follows.append ?_ (follows_ending terminate)
  split
  · exact pieces.inParens.runs.follows
  · exact pieces

/-- The word of a declaration and its bindings meet well. -/
theorem declaration (tag : DeclarationTag) (h : ∀ node ∈ nodes, node.Seamless) :
    (Node.declaration tag nodes).Seamless := by
  refine ofFollows (by cases tag <;> rfl) fun forced indent terminate noIn => ?_
  have word : Closed [.text tag.word] := by
    cases tag with
    | var => exact closed_word .varKw
    | let_ => exact closed_word .letKw
    | const => exact closed_word .constKw
  have definitions := follows_emitFragments h forced indent noIn
  have ending := follows_ending terminate
  rw [emit]
  split <;> grind

/-- A name can stand before an assigned value. -/
theorem varDef {name : String} {value? : Option Node} (hname : IsNameToken name)
    (h : ∀ value ∈ value?, value.kind.isExpression = true ∧ value.Seamless) :
    (Node.varDef name value?).Seamless := by
  refine ofFollows rfl fun forced indent terminate noIn => ?_
  have title := (closed_name hname).runs.follows
  cases value? with
  | none =>
    rw [emit]
    exact title
  | some value =>
    obtain ⟨hkind, hvalue⟩ := h value rfl
    rw [emit]
    exact title.append (.space (.assign (hvalue.fitted_runs hkind forced indent 2 noIn).space))

/-- An `if` meets its neighbours well with and without `else`, whatever braces the printer adds. -/
theorem ifElse {no? : Option Node} (htest : test.Seamless) (hyes : yes.Seamless)
    (hno : ∀ no ∈ no?, no.Seamless) : (Node.ifElse test yes no?).Seamless := by
  refine ofFollows rfl fun forced indent terminate noIn => ?_
  have ifWord : Closed [.text "if"] := closed_word .ifKw
  have elseWord : Closed [.text "else"] := closed_word .elseKw
  have condition := (htest.fitted_follows forced indent 0 noIn).inParens
  rw [fitted] at condition
  cases no? with
  | none =>
    have body := hyes.follows_asBody forced indent terminate noIn
    rw [emit]
    grind
  | some no =>
    have body := hyes.follows_asBody forced indent true noIn
    have inside := hyes.follows_asStatement forced (indent + 1) false noIn
    have other := (hno no rfl).follows_asBody forced indent terminate noIn
    rw [emit]
    simp only [inBraces]
    split <;> grind [closed_braceOpen, closed_braceClose]

/-- A loop meets its neighbours well with its test before or after its body. -/
theorem loop (tag : LoopTag) (htest : test.Seamless) (h : repeated.Seamless) :
    (Node.loop tag test repeated).Seamless := by
  refine ofFollows (by cases tag <;> rfl) fun forced indent terminate noIn => ?_
  have word : Closed [.text "while"] := closed_word .whileKw
  have condition := (htest.fitted_follows forced indent 0 noIn).inParens
  rw [fitted] at condition
  cases tag with
  | while_ =>
    have body := h.follows_asBody forced indent terminate noIn
    rw [emit]
    grind
  | do_ =>
    have opening : Closed [.text "do"] := closed_word .doKw
    have body := h.follows_asBody forced indent true noIn
    have ending := follows_ending terminate
    rw [emit]
    grind

theorem forLoop {init? test? step? : Option Node} (hinit : ∀ init ∈ init?, init.Seamless)
    (htest : ∀ test ∈ test?, test.Seamless) (hstep : ∀ step ∈ step?, step.Seamless)
    (h : repeated.Seamless) : (Node.forLoop init? test? step? repeated).Seamless := by
  refine ofFollows rfl fun forced indent terminate noIn => ?_
  have word : Closed [.text "for"] := closed_word .forKw
  have first := follows_emitForInit hinit forced indent
  have second := follows_emitClause htest forced indent noIn
  have third := follows_emitClause hstep forced indent noIn
  have body := h.follows_asBody forced indent terminate noIn
  rw [emit]
  grind [closed_parenOpen, closed_parenClose, closed_semicolon]

theorem forIn (hinit : init.Seamless) (hsubject : subject.Seamless) (h : repeated.Seamless) :
    (Node.forIn init subject repeated).Seamless := by
  refine ofFollows rfl fun forced indent terminate noIn => ?_
  have forWord : Closed [.text "for"] := closed_word .forKw
  have inWord : Closed [.text "in"] := closed_word .inKw
  have first := hinit.follows_asForInit forced indent
  have second := hsubject.fitted_follows forced indent 0 noIn
  have body := h.follows_asBody forced indent terminate noIn
  rw [emit]
  rw [fitted] at second
  grind [closed_parenOpen, closed_parenClose]

theorem exit (tag : ExitTag) {value? : Option Node} (h : ∀ value ∈ value?, value.Seamless) :
    (Node.exit tag value?).Seamless := by
  refine ofFollows (by cases tag <;> rfl) fun forced indent terminate noIn => ?_
  have clause := follows_emitClause h forced indent noIn
  have ending := follows_ending terminate
  cases tag with
  | return_ =>
    have word := closed_word .returnKw
    rw [emit]
    exact (word.runs.cons clause).follows.append ending
  | throw =>
    have word := closed_word .throwKw
    rw [emit]
    exact (word.runs.cons clause).follows.append ending

theorem jump (tag : JumpTag) {label : Option String} (hlabel : ∀ x ∈ label, IsNameToken x) :
    (Node.jump tag label).Seamless := by
  refine ofFollows (by cases tag <;> rfl) fun forced indent terminate noIn => ?_
  have name := follows_optional_name hlabel
  have ending := follows_ending terminate
  cases tag with
  | break_ =>
    have word := closed_word .breakKw
    rw [emit]
    exact (word.runs.cons name).follows.append ending
  | continue_ =>
    have word := closed_word .continueKw
    rw [emit]
    exact (word.runs.cons name).follows.append ending

theorem labeled {label : String} (hlabel : IsNameToken label) (h : repeated.Seamless) :
    (Node.labeled label repeated).Seamless := by
  refine ofFollows rfl fun forced indent terminate noIn => ?_
  have name := closed_name hlabel
  have body := h.follows_asStatement forced indent terminate noIn
  rw [emit]
  grind [closed_colon]

/-- A `switch` ends in a brace. -/
theorem switch (hsubject : subject.Seamless) (h : ∀ node ∈ nodes, node.Seamless) :
    (Node.switch subject nodes).Seamless := by
  refine ofFollows rfl fun forced indent terminate noIn => ?_
  have word : Closed [.text "switch"] := closed_word .switchKw
  have condition := (hsubject.fitted_follows forced indent 0 noIn).inParens
  have branches := follows_emitBranches h forced (indent + 1) noIn
  rw [emit]
  rw [fitted] at condition
  split <;> grind [closed_braceOpen, closed_braceClose]

theorem case_ (htest : test.Seamless) (h : ∀ node ∈ nodes, node.Seamless) :
    (Node.case_ test nodes).Seamless := by
  refine ofFollows rfl fun forced indent terminate noIn => ?_
  have word : Closed [.text "case"] := closed_word .caseKw
  have condition := htest.fitted_follows forced indent 0 noIn
  have lines := follows_emitStatements h forced (indent + 1) terminate noIn
  rw [emit]
  rw [fitted] at condition
  split <;> grind [closed_colon]

theorem try_ {handler finalizer : Option Node} (h : ∀ node ∈ nodes, node.Seamless)
    (hhandler : ∀ clause ∈ handler, clause.Seamless)
    (hfinalizer : ∀ clause ∈ finalizer, clause.Seamless) :
    (Node.try_ nodes handler finalizer).Seamless := by
  refine ofFollows rfl fun forced indent terminate noIn => ?_
  have word : Closed [.text "try"] := closed_word .tryKw
  have braces := closed_bracesOf h forced indent noIn
  have caught := follows_emitAppended hhandler forced indent noIn
  have finished := follows_emitAppended hfinalizer forced indent noIn
  rw [emit]
  grind

theorem catch_ {parameter : String} (hparameter : IsNameToken parameter)
    (h : ∀ node ∈ nodes, node.Seamless) : (Node.catch_ parameter nodes).Seamless := by
  refine ofFollows rfl fun forced indent terminate noIn => ?_
  have word : Closed [.text "catch"] := closed_word .catchKw
  have name := closed_name hparameter
  have clause : Follows [.text "(", .text parameter, .text ")", .space] := by
    grind [closed_parenOpen, closed_parenClose]
  rw [emit]
  refine Follows.append ?_ (closed_bracesOf h forced indent noIn).runs.follows
  grind

end Statements

/-- A node that is one text leaves behind what the text does. -/
theorem leaf {node : Node} {content : String} (h : Closed [.text content])
    (hemit : ∀ forced indent terminate noIn, node.emit forced indent terminate noIn = [.text content]) :
    node.Seamless := by
  refine ofClosed fun forced indent terminate noIn => ?_
  rw [hemit]
  exact h

end Seamless

/-! ## Every printable tree -/

namespace MadeOf

variable {node : Node}

/-- An expression meets its neighbours well if all that it holds does. -/
theorem seamless_expression (h : node.MadeOf fun _ child => child.Seamless)
    (hkind : node.kind.isExpression = true) : node.Seamless := by
  -- The kinds that print an operand bare need it to be an expression, for `fitted` to guard it.
  cases node with
  | lambda tag name names nodes =>
    exact .lambda h.spelled.2.1 h.spelled.2.2 fun child hmem => h.held (.lambda tag hmem)
  | call tag callee nodes =>
    cases tag with
    | plain =>
      exact .call (h.held (.call_callee .plain)) (h.isExpression (.call_callee .plain))
        fun child hmem => h.held (.call_argument .plain hmem)
    | new =>
      exact .new (h.held (.call_callee .new)) fun child hmem => h.held (.call_argument .new hmem)
  | sequence nodes =>
    exact .sequence (fun child hmem => h.held (.sequence hmem))
      (fun child hmem => h.isExpression (.sequence hmem)) h.spelled
  | dot owner name => exact .dot (h.held .dot) (h.isExpression .dot) h.spelled
  | sub owner index =>
    exact .sub (h.held .sub_owner) (h.isExpression .sub_owner) (h.held .sub_index)
  | unary tag operator operand =>
    cases tag with
    | before => exact .before operator (h.held (.unary .before)) (h.isExpression (.unary .before))
    | after => exact .after h.spelled.1 (h.held (.unary .after)) (h.isExpression (.unary .after))
  | binary tag left operator right =>
    have first := h.held (.binary_left tag)
    have second := h.held (.binary_right tag)
    have kinds := And.intro (h.isExpression (.binary_left tag)) (h.isExpression (.binary_right tag))
    cases tag with
    | combine => exact .combine h.spelled first kinds.1 second kinds.2
    | assign => exact .assign operator first kinds.1 second kinds.2
  | conditional test yes no =>
    exact .conditional (h.held .conditional_test) (h.isExpression .conditional_test)
      (h.held .conditional_yes) (h.held .conditional_no)
  | array nodes => exact .array fun child hmem => h.held (.array hmem)
  | object nodes => exact .object fun child hmem => h.held (.object hmem)
  | identifier name => exact .leaf (closed_name h.spelled) fun _ _ _ _ => emit_identifier ..
  | number value =>
    obtain ⟨_, _, _, hlexes⟩ := h.spelled
    refine .ofRuns (.inr rfl) fun forced indent terminate noIn => ?_
    rw [emit]
    exact runs_number hlexes
  | string value => exact .leaf (closed_quote value) fun _ _ _ _ => by rw [emit]
  | boolean value =>
    cases value with
    | true => exact .leaf (closed_word .trueKw) fun _ _ _ _ => by rw [emit]; rfl
    | false => exact .leaf (closed_word .falseKw) fun _ _ _ _ => by rw [emit]; rfl
  | null => exact .leaf (closed_word .nullKw) fun _ _ _ _ => by rw [emit]; rfl
  | this => exact .leaf (closed_word .thisKw) fun _ _ _ _ => by rw [emit]; rfl
  | body tag | declaration tag | loop tag | exit tag | jump tag => cases tag <;> cases hkind
  | _ => cases hkind

/-- A statement or a part of one meets its neighbours well if all that it holds does. -/
theorem seamless_statement (h : node.MadeOf fun _ child => child.Seamless)
    (hkind : node.kind.isExpression = false) : node.Seamless := by
  cases node with
  | body tag nodes => exact .body tag fun child hmem => h.held (.body tag hmem)
  | empty => exact .leaf closed_semicolon fun _ _ _ _ => by rw [emit]
  | simple value => exact .simple (h.held .simple)
  | declaration tag nodes =>
    exact .declaration tag fun child hmem => h.held (.declaration tag hmem)
  | varDef name value =>
    exact .varDef h.spelled fun child hmem =>
      ⟨h.isExpression (.varDef hmem), h.held (.varDef hmem)⟩
  | ifElse test yes no =>
    exact .ifElse (h.held .ifElse_test) (h.held .ifElse_yes)
      fun child hmem => h.held (.ifElse_no hmem)
  | loop tag test repeated => exact .loop tag (h.held (.loop_test tag)) (h.held (.loop_body tag))
  | forLoop init test step repeated =>
    exact .forLoop (fun child hmem => h.held (.forLoop_init hmem))
      (fun child hmem => h.held (.forLoop_test hmem))
      (fun child hmem => h.held (.forLoop_step hmem)) (h.held .forLoop_body)
  | forIn init subject repeated =>
    exact .forIn (h.held .forIn_init) (h.held .forIn_subject) (h.held .forIn_body)
  | exit tag value => exact .exit tag fun child hmem => h.held (.exit tag hmem)
  | jump tag label => exact .jump tag h.spelled
  | labeled label repeated => exact .labeled h.spelled (h.held .labeled)
  | switch subject nodes =>
    exact .switch (h.held .switch_subject) fun child hmem => h.held (.switch_branch hmem)
  | case_ test nodes =>
    exact .case_ (h.held .case_test) fun child hmem => h.held (.case_statement hmem)
  | try_ nodes handler finalizer =>
    exact .try_ (fun child hmem => h.held (.try_statement hmem))
      (fun child hmem => h.held (.try_handler hmem))
      (fun child hmem => h.held (.try_finalizer hmem))
  | catch_ parameter nodes => exact .catch_ h.spelled fun child hmem => h.held (.catch_ hmem)
  | debugger =>
    refine .ofFollows rfl fun forced indent terminate noIn => ?_
    rw [emit]
    exact ((closed_word .debuggerKw).runs.cons (Seamless.follows_ending terminate)).follows
  | lambda tag name names nodes =>
    exact .lambda h.spelled.2.1 h.spelled.2.2 fun child hmem => h.held (.lambda tag hmem)
  | property key value =>
    obtain ⟨kind, hlexes, hkey⟩ := h.spelled
    exact .property (runs_key hlexes hkey) (h.held .property)
  | call tag | unary tag | binary tag => cases tag <;> cases hkind
  | _ => cases hkind

end MadeOf

/-- Every printable tree meets its neighbours well. -/
theorem Printable.seamless {node : Node} (h : node.Printable) : node.Seamless := by
  induction h with
  | @intro node slots spelled below ih =>
    have made : node.MadeOf fun _ child => child.Seamless :=
      ⟨.intro slots spelled below, fun held => ih _ held.mem_children⟩
    cases hkind : node.kind.isExpression with
    | true => exact made.seamless_expression hkind
    | false => exact made.seamless_statement hkind

end Node

end JsPrune
