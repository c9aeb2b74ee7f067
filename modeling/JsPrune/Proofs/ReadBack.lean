import JsPrune.Proofs.Printable

/-!
# Reading back what was printed

Every construct is printed with its children fitted into their places. If the children are read back,
so is the construct; this is the one step of an induction over the height of the tree. What it means
to be read back depends on the slot a node stands in, so the induction is over all slots at once.
-/

namespace JsPrune

open ParseM Grammar Text

namespace Node

variable {n : Nat} {b forced : Bool} {indent : Nat}

/-! ## What it means to be read back -/

/-- An expression is read back from its own pieces, at the strength it binds with. -/
def ReadsExpression (n : Nat) (node : Node) : Prop :=
  ∀ (beautify forced : Bool) (indent : Nat) (terminate noIn : Bool),
    Phrase beautify n 0 node.precedence (noIn && !node.isInTest) node.containsCall
      (node.emit forced indent terminate noIn) node.braced

/-- A statement is read back from its own pieces, with or without its semicolon. -/
def ReadsStatement (n : Nat) (node : Node) : Prop :=
  ∀ (beautify forced : Bool) (indent : Nat) (ended : Bool), (forced = true → ended = true) →
    Sentence beautify n 0 ended node.endsWithOpenIf (node.emit forced indent ended false) node.braced

/-- A node is read back where a slot wants it. -/
def ReadsBack (n : Nat) (node : Node) : Slot → Prop
  | .expression => node.ReadsExpression n
  | .statement => node.ReadsStatement n
  | .definition => ∀ (beautify forced : Bool) (indent : Nat) (terminate noIn : Bool),
    ReadAsDefinition beautify n noIn (node.emit forced indent terminate noIn) node.braced
  | .property => ∀ (beautify forced : Bool) (indent : Nat) (terminate noIn : Bool),
    ReadAsEntry beautify n (node.emit forced indent terminate noIn) node.braced
  | .switchBranch => ∀ (beautify forced : Bool) (indent : Nat) (terminate : Bool),
    node.isBranch = true ∧
      Branch beautify n (terminate || forced) (node.emit forced indent terminate false) node.braced
  | .catchClause => ∀ (beautify forced : Bool) (indent : Nat) (terminate : Bool),
    ReadAsHandler beautify n (node.emit forced indent terminate false) node.braced
  | .finallyClause => ∀ (beautify forced : Bool) (indent : Nat) (terminate : Bool),
    ReadAsFinalizer beautify n (node.emit forced indent terminate false) node.braced
  | .forInit => ∀ (beautify forced : Bool) (indent : Nat),
    ReadAsInit beautify n
      (node.asForInit forced fun terminate noIn => node.emit forced indent terminate noIn) node.braced

/-! ## Fitting -/

/-- The pieces of a node where an expression of strength `least` belongs. -/
def fitted (forced : Bool) (indent least : Nat) (noIn : Bool) (node : Node) : List Piece :=
  node.asExpression forced least noIn fun terminate noIn => node.emit forced indent terminate noIn

variable {node : Node}

/-- In parentheses or not, an expression is a phrase that binds as tightly as its place asks for. -/
theorem ReadsExpression.fit (h : node.ReadsExpression n) (beautify forced : Bool)
    (indent : Nat) {least : Nat} (hleast : least ≤ 18) (noIn : Bool) :
    Phrase beautify n 1 least noIn node.containsCall (node.fitted forced indent least noIn)
      node.braced := by
  rw [fitted, asExpression]
  split
  · exact (Phrase.parens (h beautify forced indent _ false).whole noIn _).relax hleast
      (Nat.le_refl 1) id
  · next hplain =>
    rw [Bool.or_eq_true, not_or, decide_eq_true_iff, Bool.and_eq_true, not_and] at hplain
    have flag : (noIn && !node.isInTest) = noIn := by
      cases noIn with
      | false => rfl
      | true => rw [Bool.true_and, Bool.eq_false_iff.mpr (hplain.2 rfl)]; rfl
    have phrase := h beautify forced indent (endsHere forced false node) noIn
    rw [flag] at phrase
    exact phrase.relax (Nat.not_lt.mp hplain.1) (Nat.zero_le 1) id

/-- In parentheses of its own an expression is the head of a chain. -/
theorem ReadsExpression.fit_inParens (h : node.ReadsExpression n) (beautify forced : Bool)
    (indent : Nat) {noIn : Bool} (hin : (noIn && node.isInTest) = false) (noIn' calls : Bool) :
    Phrase beautify n 1 18 noIn' calls (inParens (node.fitted forced indent 0 noIn)) node.braced := by
  rw [fitted, asExpression, hin]
  exact .parens (h beautify forced indent _ noIn).whole noIn' calls

/-- Expressions with commas between them are read as a list. -/
theorem ReadsExpression.items {nodes : List Node} (h : ∀ node ∈ nodes, node.ReadsExpression n)
    (beautify forced : Bool) (indent : Nat) (noIn : Bool) :
    ReadAsList beautify n noIn (nodes.map (fitted forced indent 2 noIn)) (nodes.map braced) := by
  rw [ReadAsList, List.forall₂_map_left_iff, List.forall₂_map_right_iff, List.forall₂_same]
  intro node hmem
  exact ((h node hmem).fit beautify forced indent (by omega) noIn).relax (Nat.le_refl 2)
    (Nat.le_refl 1) fun _ => rfl

/-- The printer puts commas where the grammar looks for them. -/
theorem emitList_eq (forced : Bool) (indent : Nat) (noIn : Bool) (nodes : List Node) :
    emitList forced indent noIn nodes = commaList (nodes.map (fitted forced indent 2 noIn)) := by
  induction nodes with
  | nil => simp only [emitList, List.map_nil, commaList]
  | cons first rest ih =>
    rw [emitList, ih]
    cases rest with
    | nil => simp [commaList, fitted]
    | cons second rest => simp [commaList, fitted]

/-! ## Expressions -/

section Expressions

variable {owner callee index operand left right test yes no : Node} {nodes : List Node}

/-- A text that is one identifier is a name. -/
theorem IsNameToken.isName {name : String} (h : IsNameToken name) : IsName name :=
  kindOf_of_spells (spells_of_lexesAs h rfl)

/-- A text that is a name or a reserved word can stand behind a point. -/
theorem IsMemberToken.isMember {name : String} (h : IsMemberToken name) : IsMember name := by
  rcases h with h | ⟨word, h, hword⟩
  · exact .inl h.isName
  · exact .inr ⟨word, kindOf_of_spells (spells_of_lexesAs h rfl), hword⟩

/-- A node that is one token. -/
theorem ReadsExpression.ofSpells {content : String} {kind : Token.Kind}
    (hspells : spells kind content.toList = true) (hleaf : tokenNode? kind = some node)
    (hemit : ∀ forced indent terminate noIn, node.emit forced indent terminate noIn = [.text content])
    (hbraced : node.braced = node) (hlevel : node.precedence = 18) : node.ReadsExpression n := by
  intro beautify forced indent terminate noIn
  rw [hemit, hbraced, hlevel]
  rw [← kindOf_of_spells hspells] at hleaf
  exact .leaf _ _ hleaf

/-- The owner of a member is read as a chain; a number gets its parentheses. -/
theorem ReadsExpression.dot (h : owner.ReadsExpression n) {name : String} (hname : IsMember name) :
    (Node.dot owner name).ReadsExpression (n + 1) := by
  intro beautify forced indent terminate noIn
  rw [braced_eq, emit]
  -- In front of the point a number gets parentheses.
  have phrase : Phrase beautify n 1 17 noIn owner.containsCall
      (if owner.isNumber then inParens (owner.fitted forced indent 0 noIn)
       else owner.fitted forced indent 17 noIn) owner.braced := by
    split
    · next hnumber =>
      have hin : (noIn && owner.isInTest) = false := by
        cases owner with
        | number value => exact Bool.and_false _
        | _ => cases hnumber
      exact (h.fit_inParens beautify forced indent hin noIn _).relax (by omega) (Nat.le_refl 1) id
    · exact h.fit beautify forced indent (by omega) noIn
  exact .ofChain (phrase.opens.append (Nat.le_refl 17) (by simp)) (Nat.le_refl 17)
    ((phrase.chain (Nat.le_refl 17)).dot hname)

/-- What stands in the brackets of a computed member is any expression. -/
theorem ReadsExpression.sub (h : owner.ReadsExpression n) (hindex : index.ReadsExpression n) :
    (Node.sub owner index).ReadsExpression (n + 1) := by
  intro beautify forced indent terminate noIn
  rw [braced_eq, emit, List.append_assoc, List.append_assoc]
  have first := h.fit beautify forced indent (by omega : 17 ≤ 18) noIn
  have second := hindex.fit beautify forced indent (by omega : 0 ≤ 18) noIn
  exact .ofChain (first.opens.append (Nat.le_refl 17) (by simp)) (Nat.le_refl 17)
    ((first.chain (Nat.le_refl 17)).sub second.whole)

/-- What is called is read as a chain that may hold calls. -/
theorem ReadsExpression.call (h : callee.ReadsExpression n)
    (hnodes : ∀ node ∈ nodes, node.ReadsExpression n) :
    (Node.call .plain callee nodes).ReadsExpression (n + 1) := by
  intro beautify forced indent terminate noIn
  rw [braced_eq, emit, emitList_eq]
  have first := h.fit beautify forced indent (by omega : 17 ≤ 18) noIn
  exact .ofChain (first.opens.append (Nat.le_refl 17) (by simp [inParens])) (Nat.le_refl 17)
    ((first.chain (Nat.le_refl 17)).call (items hnodes beautify forced indent noIn))

/-- What `new` is applied to may hold no call, and where it does there are parentheses. -/
theorem ReadsExpression.new (h : callee.ReadsExpression n)
    (hnodes : ∀ node ∈ nodes, node.ReadsExpression n) :
    (Node.call .new callee nodes).ReadsExpression (n + 1) := by
  intro beautify forced indent terminate noIn
  rw [braced_eq, emit, emitList_eq, List.cons_append]
  -- A callee with a call in its chain gets parentheses.
  have phrase : Phrase beautify n 1 17 noIn false
      (if callee.containsCall then inParens (callee.fitted forced indent 0 noIn)
       else callee.fitted forced indent 17 noIn) callee.braced := by
    split
    · next hcall =>
      have hin : (noIn && callee.isInTest) = false := by
        cases callee with
        | binary tag left operator right => cases hcall
        | _ => exact Bool.and_false _
      exact (h.fit_inParens beautify forced indent hin noIn false).relax (by omega) (Nat.le_refl 1) id
    · next hcall =>
      exact (h.fit beautify forced indent (by omega) noIn).relax (Nat.le_refl 17) (Nat.le_refl 1)
        fun hc => absurd hc hcall
  exact .new (phrase.chain (Nat.le_refl 17)) (items hnodes beautify forced indent noIn) _ _

/-- An array is read back item by item. -/
theorem ReadsExpression.array (hnodes : ∀ node ∈ nodes, node.ReadsExpression n) :
    (Node.array nodes).ReadsExpression (n + 1) := by
  intro beautify forced indent terminate noIn
  rw [braced_eq, emit, emitList_eq]
  exact .array (items hnodes beautify forced indent noIn) _ _

/-- A row of two expressions at least is read as a row. -/
theorem ReadsExpression.sequence (hnodes : ∀ node ∈ nodes, node.ReadsExpression n)
    (hlength : 2 ≤ nodes.length) : (Node.sequence nodes).ReadsExpression (n + 1) := by
  intro beautify forced indent terminate noIn
  rw [braced_eq, emit, emitList_eq]
  have phrase := Phrase.sequence (items hnodes beautify forced indent noIn)
    (by rw [List.length_map]; exact hlength) (Node.sequence nodes).containsCall
  rw [show (noIn && !(Node.sequence nodes).isInTest) = noIn from Bool.and_true _]
  exact phrase

/-- A stepping operator before its operand comes back if the operand can be assigned to. -/
theorem ReadsExpression.before (h : operand.ReadsExpression n) {operator : UnaryOp}
    (hstep : operator.isStep = true → operand.isAssignable = true) :
    (Node.unary .before operator operand).ReadsExpression (n + 1) := by
  intro beautify forced indent terminate noIn
  rw [braced_eq, emit]
  have phrase := h.fit beautify forced indent (by omega : 14 ≤ 18) noIn
  exact .before (phrase.operand (Nat.le_refl 14))
    (fun hs => (isAssignable_braced operand).trans (hstep hs)) _ _

/-- What can be assigned to binds as tightly as a member access, so it stands without parentheses.
-/
theorem of_isAssignable (h : node.isAssignable = true) :
    17 ≤ node.precedence ∧ node.isInTest = false := by
  cases node with
  | identifier name => exact ⟨Nat.le_succ 17, rfl⟩
  | dot owner name => exact ⟨Nat.le_refl 17, rfl⟩
  | sub owner index => exact ⟨Nat.le_refl 17, rfl⟩
  | _ => cases h

/-- So does a stepping operator after its operand. -/
theorem ReadsExpression.after (h : operand.ReadsExpression n) {operator : UnaryOp}
    (hoperator : operator.isStep = true) (hoperand : operand.isAssignable = true) :
    (Node.unary .after operator operand).ReadsExpression (n + 1) := by
  intro beautify forced indent terminate noIn
  rw [braced_eq, emit]
  obtain ⟨hlevel, hin⟩ := of_isAssignable hoperand
  have phrase := (h beautify forced indent (endsHere forced false operand) noIn).relax hlevel
    (Nat.zero_le 1) id
  have plain : operand.fitted forced indent 16 noIn
      = operand.emit forced indent (endsHere forced false operand) noIn := by
    rw [fitted, asExpression, hin, Bool.and_false, Bool.or_false, if_neg]
    rw [decide_eq_true_iff]
    omega
  rw [← plain] at phrase
  exact .after (phrase.chain (Nat.le_refl 17)) phrase.opens hoperator
    ((isAssignable_braced operand).trans hoperand) _ _

/-- The right operand stands for one that binds tighter, as the grammar reads it. -/
theorem ReadsExpression.combine (hleft : left.ReadsExpression n) (hright : right.ReadsExpression n)
    {operator : BinaryOp} (hoperator : operator.isAssignment = false) :
    (Node.binary .combine left operator right).ReadsExpression (n + 1) := by
  intro beautify forced indent terminate noIn
  rw [braced_eq, emit, List.append_assoc]
  obtain ⟨_, high⟩ := BinaryOp.precedence_bounds hoperator
  rw [tightest] at high
  have first := (hleft.fit beautify forced indent (by omega : operator.precedence ≤ 18) noIn).relax
    (Nat.le_refl _) (Nat.le_refl 1) fun _ => rfl
  have second := (hright.fit beautify forced indent (by omega : operator.precedence + 1 ≤ 18)
    noIn).relax (Nat.le_refl _) (Nat.le_refl 1) fun _ => rfl
  refine .combine first second hoperator ?_ _
  intro hflag
  rw [Bool.and_eq_true, Bool.not_eq_true'] at hflag
  refine ⟨hflag.1, ?_⟩
  rintro rfl
  cases hflag.2

/-- The left side of an assignment is read first and found fit to be assigned to. -/
theorem ReadsExpression.assign (hleft : left.ReadsExpression n) (hright : right.ReadsExpression n)
    {operator : BinaryOp} (hoperator : operator.isAssignment = true)
    (hassignable : left.isAssignable = true) :
    (Node.binary .assign left operator right).ReadsExpression (n + 1) := by
  intro beautify forced indent terminate noIn
  rw [braced_eq, emit, List.append_assoc]
  have first := hleft.fit beautify forced indent (by omega : 16 ≤ 18) noIn
  have second := (hright.fit beautify forced indent (by omega : 2 ≤ 18) noIn).relax (Nat.le_refl _)
    (Nat.le_refl 1) fun _ => rfl
  rw [show (noIn && !(Node.binary .assign left operator right).isInTest) = noIn from Bool.and_true _]
  exact .assign first second hoperator ((isAssignable_braced left).trans hassignable) _

/-- The test of a conditional binds tighter than the conditional does. -/
theorem ReadsExpression.conditional (htest : test.ReadsExpression n) (hyes : yes.ReadsExpression n)
    (hno : no.ReadsExpression n) : (Node.conditional test yes no).ReadsExpression (n + 1) := by
  intro beautify forced indent terminate noIn
  rw [braced_eq, emit]
  simp only [List.append_assoc]
  have first := (htest.fit beautify forced indent (by omega : 4 ≤ 18) noIn).relax (Nat.le_refl _)
    (Nat.le_refl 1) fun _ => rfl
  have second := (hyes.fit beautify forced indent (by omega : 2 ≤ 18) noIn).relax (Nat.le_refl _)
    (Nat.le_refl 1) fun _ => rfl
  have third := (hno.fit beautify forced indent (by omega : 2 ≤ 18) noIn).relax (Nat.le_refl _)
    (Nat.le_refl 1) fun _ => rfl
  rw [show (noIn && !(Node.conditional test yes no).isInTest) = noIn from Bool.and_true _]
  exact .choose first second third _

/-- Entries or bindings, as a list. -/
theorem emitFragments_eq {nodes : List Node} (h : ∀ node ∈ nodes, node.kind.isExpression = false)
    (forced : Bool) (indent : Nat) (noIn : Bool) :
    emitFragments forced indent noIn nodes
      = commaList (nodes.map fun node => node.emit forced indent (endsHere forced false node) noIn) := by
  induction nodes with
  | nil => simp only [emitFragments, List.map_nil, commaList]
  | cons first rest ih =>
    have plain : asItself forced noIn first (fun t m => first.emit forced indent t m)
        = first.emit forced indent (endsHere forced false first) noIn := by
      have hfirst := h first (List.mem_cons_self ..)
      simp [asItself, asStatement, hfirst]
    rw [emitFragments, ih fun node hmem => h node (List.mem_cons_of_mem _ hmem), plain]
    cases rest with
    | nil => simp [commaList]
    | cons second rest => simp [commaList]

/-- An object is read back entry by entry. -/
theorem ReadsExpression.object (hkind : ∀ node ∈ nodes, node.kind.isExpression = false)
    (hnodes : ∀ node ∈ nodes, node.ReadsBack n .property) :
    (Node.object nodes).ReadsExpression (n + 1) := by
  intro beautify forced indent terminate noIn
  rw [braced_eq, emit, emitFragments_eq hkind]
  refine .object ?_ _ _
  rw [List.forall₂_map_left_iff, List.forall₂_map_right_iff, List.forall₂_same]
  intro node hmem
  exact hnodes node hmem beautify forced indent _ noIn

/-- An entry is read back if its key is. -/
theorem readsBack_property {key : String} {value : Node} (h : value.ReadsExpression n)
    (hkey : keyName? (kindOf (keyText key)) (keyText key) = some key) :
    (property key value).ReadsBack (n + 1) .property := by
  intro beautify forced indent terminate noIn
  rw [braced_eq, emit]
  exact .intro hkey (h.fit beautify forced indent (by omega) noIn)

end Expressions

/-! ## Lists of statements -/

/-- The pieces of a node where a statement belongs. -/
def placed (forced : Bool) (indent : Nat) (terminate : Bool) (node : Node) : List Piece :=
  node.asStatement forced terminate false fun terminate noIn =>
    node.emit forced indent terminate noIn

/-- No kind is both a statement and an expression. -/
theorem isExpression_eq_false {kind : Kind} (h : kind.isStatement = true) :
    kind.isExpression = false := by
  cases kind <;> first
    | rfl
    | exact absurd h (by decide)

/-- A branch of a switch is no statement. -/
theorem isBranch_eq_false (h : node.kind.isStatement = true) : node.isBranch = false := by
  cases node with
  | body tag statements =>
    cases tag with
    | defaultBranch => cases h
    | _ => rfl
  | case_ test statements => cases h
  | _ => rfl

/-- A statement in its place is a sentence, ended if the place or the layout asks for it. -/
theorem ReadsStatement.place (h : node.ReadsStatement n) (hkind : node.kind.isStatement = true)
    (beautify forced : Bool) (indent : Nat) (terminate : Bool) :
    Sentence beautify n 0 (terminate || forced) node.endsWithOpenIf
      (node.placed forced indent terminate) node.braced := by
  have plain : node.placed forced indent terminate
      = node.emit forced indent (terminate || forced) false := by
    rw [placed, asStatement, isExpression_eq_false hkind, endsHere, isBranch_eq_false hkind]
    rfl
  rw [plain]
  refine h beautify forced indent _ fun hforced => ?_
  rw [hforced, Bool.or_true]

/-- The body of a compound statement, with a space before it unless it is a lone semicolon. -/
theorem ReadsStatement.embody (h : node.ReadsStatement n) (hkind : node.kind.isStatement = true)
    (beautify forced : Bool) (indent : Nat) (terminate : Bool) :
    Sentence beautify n 1 (terminate || forced) node.endsWithOpenIf
      (node.asBody forced terminate false fun t m => node.emit forced indent t m) node.braced := by
  have sentence := (h.place hkind beautify forced indent terminate).relax (Nat.zero_le 1) id
  rw [asBody]
  split
  · exact sentence
  · exact sentence.spaced

section Statements

variable {nodes : List Node}

/-- Statements on lines of their own are read back, each of them. -/
theorem lines_emit (hkind : ∀ node ∈ nodes, node.kind.isStatement = true)
    (h : ∀ node ∈ nodes, node.ReadsStatement n) (beautify forced : Bool) (indent : Nat)
    (terminate : Bool) :
    Lines beautify n indent (terminate || forced) (emitStatements forced indent terminate false nodes)
      (nodes.map braced) := by
  induction nodes with
  | nil =>
    rw [emitStatements]
    exact .nil
  | cons first rest ih =>
    have sentence := fun terminate => (h first (List.mem_cons_self ..)).place
      (hkind first (List.mem_cons_self ..)) beautify forced indent terminate
    have others := ih (fun node hmem => hkind node (List.mem_cons_of_mem _ hmem))
      fun node hmem => h node (List.mem_cons_of_mem _ hmem)
    rw [emitStatements]
    cases rest with
    | nil =>
      simp only [List.isEmpty_nil, Bool.not_true, Bool.false_or, if_true, List.append_nil,
        emitStatements, List.map_cons, List.map_nil]
      exact .last ((sentence terminate).relax (Nat.le_refl 0) fun _ => rfl)
    | cons second rest =>
      rw [List.isEmpty_cons, Bool.not_false, Bool.true_or, if_neg nofun, List.append_assoc,
        List.map_cons]
      refine .more ?_ others nofun
      have head := sentence true
      rw [Bool.true_or] at head
      exact head.relax (Nat.le_refl 0) fun _ => rfl

/-- So are statements in braces. -/
theorem enclosed_emit (hkind : ∀ node ∈ nodes, node.kind.isStatement = true)
    (h : ∀ node ∈ nodes, node.ReadsStatement n) (beautify forced : Bool) (indent : Nat) :
    Enclosed beautify n
      (bracesOf indent nodes (emitStatements forced (indent + 1) false false nodes))
      (nodes.map braced) := by
  rw [bracesOf]
  cases nodes with
  | nil => exact .nil
  | cons first rest => exact .lines (lines_emit hkind h beautify forced (indent + 1) false) nofun

/-- So are the statements of a branch. -/
theorem branchLines_emit (hkind : ∀ node ∈ nodes, node.kind.isStatement = true)
    (h : ∀ node ∈ nodes, node.ReadsStatement n) (beautify forced : Bool) (indent : Nat)
    (terminate : Bool) :
    BranchLines beautify n (terminate || forced)
      (if nodes.isEmpty then []
       else .newline indent :: emitStatements forced indent terminate false nodes)
      (nodes.map braced) := by
  cases nodes with
  | nil => exact .nil
  | cons first rest => exact .lines (lines_emit hkind h beautify forced indent terminate) nofun

/-! ## Statements -/

variable {test yes no repeated value : Node}

/-- Where the layout's semicolons are already counted in, they change nothing. -/
theorem or_eq_of_imp {ended forced : Bool} (h : forced = true → ended = true) :
    (ended || forced) = ended := by
  cases forced with
  | false => exact Bool.or_false _
  | true => rw [h rfl]; rfl

/-- A lone semicolon is read back. -/
theorem ReadsStatement.empty : Node.empty.ReadsStatement n := by
  intro beautify forced indent ended _
  rw [braced_eq, emit]
  exact .empty ended _

/-- A block is read back as one, since a brace that opens a statement opens a block. -/
theorem ReadsStatement.block (hkind : ∀ node ∈ nodes, node.kind.isStatement = true)
    (h : ∀ node ∈ nodes, node.ReadsStatement n) :
    (Node.body .block nodes).ReadsStatement (n + 1) := by
  intro beautify forced indent ended _
  rw [braced_eq, emit]
  exact ((Sentence.block (enclosed_emit hkind h beautify forced indent) ended _).relax
    (by omega) id).step

/-- An expression statement is read back, since the printer guards those that start as something
else would. -/
theorem ReadsStatement.simple (h : value.ReadsExpression n)
    (hstart : ∀ forced indent terminate, value.startsAmbiguously = false →
      ambiguous (upcoming (value.emit forced indent terminate false)) = false) :
    (Node.simple value).ReadsStatement (n + 1) := by
  intro beautify forced indent ended _
  rw [braced_eq, emit]
  show Sentence _ _ _ _ _ ((if value.startsAmbiguously then inParens (value.fitted forced indent 0 false)
    else value.fitted forced indent 0 false) ++ ending ended) _
  cases hs : value.startsAmbiguously with
  | true =>
    refine .simple (h.fit_inParens beautify forced indent (Bool.false_and _) false true) ?_ ended _
    simp [inParens, ambiguous]
  | false =>
    refine .simple (h.fit beautify forced indent (Nat.zero_le 18) false) ?_ ended _
    exact hstart forced indent _ hs

/-- A binding is read back with its value or without one. -/
theorem readsBack_definition {name : String} {value? : Option Node} (hname : IsName name)
    (h : ∀ value ∈ value?, value.ReadsExpression n) :
    (varDef name value?).ReadsBack (n + 1) .definition := by
  intro beautify forced indent terminate noIn
  rw [braced_eq]
  cases value? with
  | none =>
    rw [emit]
    exact .bare hname noIn
  | some value =>
    rw [emit]
    exact .valued hname ((h value rfl).fit beautify forced indent (by omega) noIn)

/-- A declaration without its semicolon. -/
theorem readAsDeclaration_emit {tag : DeclarationTag}
    (hkind : ∀ node ∈ nodes, node.kind.isExpression = false)
    (h : ∀ node ∈ nodes, node.ReadsBack n .definition) (hne : 1 ≤ nodes.length)
    (beautify forced : Bool) (indent : Nat) (noIn : Bool) :
    ReadAsDeclaration beautify (n + 1) noIn tag
      (.text tag.word :: .space :: emitFragments forced indent noIn nodes)
      (declaration tag (nodes.map braced)) := by
  rw [emitFragments_eq hkind]
  refine .intro ?_ ?_
  · rw [List.forall₂_map_left_iff, List.forall₂_map_right_iff, List.forall₂_same]
    intro node hmem
    exact h node hmem beautify forced indent _ noIn
  · intro hnil
    rw [List.map_eq_nil_iff] at hnil
    rw [hnil] at hne
    cases hne

/-- The pieces of a declaration that is not empty. -/
theorem emit_declaration (tag : DeclarationTag) (hne : 1 ≤ nodes.length) (forced : Bool)
    (indent : Nat) (terminate noIn : Bool) :
    (declaration tag nodes).emit forced indent terminate noIn
      = .text tag.word :: .space :: emitFragments forced indent noIn nodes ++ ending terminate := by
  cases nodes with
  | nil => cases hne
  | cons first rest =>
    rw [emit]
    rfl

/-- A declaration of one binding at least is read back as a statement. -/
theorem ReadsStatement.declaration (tag : DeclarationTag)
    (hkind : ∀ node ∈ nodes, node.kind.isExpression = false)
    (h : ∀ node ∈ nodes, node.ReadsBack n .definition) (hne : 1 ≤ nodes.length) :
    (Node.declaration tag nodes).ReadsStatement (n + 1) := by
  intro beautify forced indent ended _
  have value : (Node.declaration tag nodes).braced = Node.declaration tag (nodes.map braced) := by
    rw [braced_eq]
    cases tag <;> rfl
  rw [value, emit_declaration tag hne]
  exact .declaration (readAsDeclaration_emit hkind h hne beautify forced indent false) ended _

/-- It is also read back in the head of a loop, where no `in` stands bare in it. -/
theorem readsBack_init_declaration (tag : DeclarationTag)
    (hkind : ∀ node ∈ nodes, node.kind.isExpression = false)
    (h : ∀ node ∈ nodes, node.ReadsBack n .definition) (hne : 1 ≤ nodes.length) :
    (Node.declaration tag nodes).ReadsBack (n + 1) .forInit := by
  intro beautify forced indent
  have value : (Node.declaration tag nodes).braced = Node.declaration tag (nodes.map braced) := by
    rw [braced_eq]
    cases tag <;> rfl
  rw [value, asForInit, isDeclaration, if_pos rfl, emit_declaration tag hne, ending,
    if_neg Bool.false_ne_true, List.append_nil]
  exact .ofDeclaration (readAsDeclaration_emit hkind h hne beautify forced indent true)

/-- So is an expression in the head of a loop. -/
theorem readsBack_init_expression (hkind : node.kind.isExpression = true)
    (h : node.ReadsExpression n) : node.ReadsBack n .forInit := by
  intro beautify forced indent
  have plain : node.isDeclaration = false := by
    cases node with
    | declaration tag definitions => cases tag <;> cases hkind
    | _ => rfl
  rw [asForInit, plain]
  exact .ofExpression (h.fit beautify forced indent (Nat.zero_le 18) true)

/-- An `if` without `else` is read back. -/
theorem ReadsStatement.ifOnly (htest : test.ReadsExpression n) (hyes : yes.ReadsStatement n)
    (hkind : yes.kind.isStatement = true) : (Node.ifElse test yes none).ReadsStatement (n + 1) := by
  intro beautify forced indent ended hended
  rw [braced_eq, emit]
  have body := (hyes.embody hkind beautify forced indent ended).relax (Nat.le_refl 1) fun _ => rfl
  rw [or_eq_of_imp hended] at body
  simp only [List.cons_append, List.nil_append]
  exact .ifOnly (htest.fit beautify forced indent (Nat.zero_le 18) false) body

/-- The body before an `else`, in braces if it would take the `else`. -/
theorem sentence_before_else (hyes : yes.ReadsStatement n) (hkind : yes.kind.isStatement = true)
    (beautify forced : Bool) (indent : Nat) :
    Sentence beautify n 1 true false
      (if yes.endsWithOpenIf then
        .space :: inBraces indent (yes.placed forced (indent + 1) false)
       else yes.asBody forced true false fun t m => yes.emit forced indent t m)
      (if yes.endsWithOpenIf then Node.block [yes.braced] else yes.braced) := by
  cases hopen : yes.endsWithOpenIf with
  | true =>
    have inside := hyes.place hkind beautify forced (indent + 1) false
    have lines : Lines beautify n (indent + 1) (false || forced)
        (yes.placed forced (indent + 1) false) [yes.braced] :=
      .last (inside.relax (Nat.le_refl 0) fun _ => rfl)
    exact (Sentence.block (.lines lines nofun) true false).spaced
  | false =>
    have body := hyes.embody hkind beautify forced indent true
    rw [hopen, Bool.true_or] at body
    exact body

/-- An `if` with an `else` is read back with the braces that keep the two together. -/
theorem ReadsStatement.ifElse (htest : test.ReadsExpression n) (hyes : yes.ReadsStatement n)
    (hkind : yes.kind.isStatement = true) (hno : no.ReadsStatement n)
    (hkind' : no.kind.isStatement = true) :
    (Node.ifElse test yes (some no)).ReadsStatement (n + 1) := by
  intro beautify forced indent ended hended
  rw [braced_ifElse, emit]
  have other := hno.embody hkind' beautify forced indent ended
  rw [or_eq_of_imp hended] at other
  simp only [List.cons_append, List.nil_append, List.append_assoc]
  exact .ifElse (htest.fit beautify forced indent (Nat.zero_le 18) false)
    (sentence_before_else hyes hkind beautify forced indent) other

/-- A loop is read back with its test first. -/
theorem ReadsStatement.whileLoop (htest : test.ReadsExpression n) (h : repeated.ReadsStatement n)
    (hkind : repeated.kind.isStatement = true) :
    (Node.loop .while_ test repeated).ReadsStatement (n + 1) := by
  intro beautify forced indent ended hended
  rw [braced_eq, emit]
  have body := h.embody hkind beautify forced indent ended
  rw [or_eq_of_imp hended] at body
  simp only [List.cons_append, List.nil_append]
  exact .whileLoop (htest.fit beautify forced indent (Nat.zero_le 18) false) body

/-- So is a loop with its test last, because its body always gets its semicolon. -/
theorem ReadsStatement.doLoop (htest : test.ReadsExpression n) (h : repeated.ReadsStatement n)
    (hkind : repeated.kind.isStatement = true) :
    (Node.loop .do_ test repeated).ReadsStatement (n + 1) := by
  intro beautify forced indent ended _
  rw [braced_eq, emit]
  have body := (h.embody hkind beautify forced indent true).relax (Nat.le_refl 1) fun _ => rfl
  rw [Bool.true_or] at body
  simp only [List.cons_append, List.nil_append, List.append_assoc]
  exact .doLoop (htest.fit beautify forced indent (Nat.zero_le 18) false) body ended _

/-- An optional expression is read back as one. -/
theorem readAsClause_emit {value? : Option Node} (h : ∀ value ∈ value?, value.ReadsExpression n)
    (beautify forced : Bool) (indent : Nat) :
    ReadAsClause beautify n (emitClause forced indent false value?) (value?.map braced) := by
  cases value? with
  | none =>
    rw [emitClause]
    exact .none
  | some value =>
    rw [emitClause]
    exact .some ((h value rfl).fit beautify forced indent (Nat.zero_le 18) false)

/-- So is the optional first part of a loop head. -/
theorem readAsInit_emit {init? : Option Node} (h : ∀ init ∈ init?, init.ReadsBack n .forInit)
    (beautify forced : Bool) (indent : Nat) :
    ReadAsInit? beautify n (emitForInit forced indent init?) (init?.map braced) := by
  cases init? with
  | none =>
    rw [emitForInit]
    exact .none
  | some init =>
    rw [emitForInit]
    exact .some (h init rfl beautify forced indent)

/-- A loop with three parts in its head is read back, whichever of them are there. -/
theorem ReadsStatement.forLoop {init? test? step? : Option Node}
    (hinit : ∀ init ∈ init?, init.ReadsBack n .forInit)
    (htest : ∀ test ∈ test?, test.ReadsExpression n) (hstep : ∀ step ∈ step?, step.ReadsExpression n)
    (h : repeated.ReadsStatement n) (hkind : repeated.kind.isStatement = true) :
    (Node.forLoop init? test? step? repeated).ReadsStatement (n + 1) := by
  intro beautify forced indent ended hended
  rw [braced_eq, emit]
  have body := h.embody hkind beautify forced indent ended
  rw [or_eq_of_imp hended] at body
  simp only [List.cons_append, List.nil_append, List.append_assoc]
  exact .forLoop (readAsInit_emit hinit beautify forced indent)
    (readAsClause_emit htest beautify forced indent) (readAsClause_emit hstep beautify forced indent)
    body

/-- What fits the head of a loop over keys still fits it when it comes back. -/
theorem forInProblem?_braced {init : Node}
    (h : (∃ tag definition, init = Node.declaration tag [definition]) ∨ init.isAssignable = true) :
    forInProblem? init.braced = none := by
  rcases h with ⟨tag, definition, rfl⟩ | h
  · rw [braced_eq]
    cases tag <;> rfl
  · have assignable := (isAssignable_braced init).trans h
    unfold forInProblem?
    split
    · rfl
    · next heq => rw [heq] at assignable; cases assignable
    · rw [if_pos assignable]

/-- A loop over the keys of an object is read back as one. -/
theorem ReadsStatement.forIn {init subject : Node} (hinit : init.ReadsBack n .forInit)
    (hproblem : forInProblem? init.braced = none) (hsubject : subject.ReadsExpression n)
    (h : repeated.ReadsStatement n) (hkind : repeated.kind.isStatement = true) :
    (Node.forIn init subject repeated).ReadsStatement (n + 1) := by
  intro beautify forced indent ended hended
  rw [braced_eq, emit]
  have body := h.embody hkind beautify forced indent ended
  rw [or_eq_of_imp hended] at body
  simp only [List.cons_append, List.nil_append, List.append_assoc]
  exact .forIn (hinit beautify forced indent) hproblem
    (hsubject.fit beautify forced indent (Nat.zero_le 18) false) body

/-- A `return` comes back with or without its value, a `throw` with it. -/
theorem ReadsStatement.exit {value? : Option Node} (tag : ExitTag)
    (h : ∀ value ∈ value?, value.ReadsExpression n) (htag : tag = .throw → value?.isSome = true) :
    (Node.exit tag value?).ReadsStatement (n + 1) := by
  intro beautify forced indent ended _
  have sentence := Sentence.exit (readAsClause_emit h beautify forced indent) tag
    (fun ht => (Option.isSome_map ..).trans (htag ht)) ended (Node.exit tag value?).endsWithOpenIf
  rw [braced_eq]
  cases tag with
  | return_ =>
    rw [emit]
    exact sentence
  | throw =>
    rw [emit]
    exact sentence

/-- A jump comes back with its label, if it has one. -/
theorem ReadsStatement.jump {label : Option String} (tag : JumpTag) (hlabel : ∀ x ∈ label, IsName x) :
    (Node.jump tag label).ReadsStatement (n + 1) := by
  intro beautify forced indent ended _
  have sentence : Sentence beautify (n + 1) 0 ended _ _ _ := Sentence.jump hlabel tag ended
    (Node.jump tag label).endsWithOpenIf
  rw [braced_eq]
  cases tag with
  | break_ =>
    rw [emit]
    exact sentence
  | continue_ =>
    rw [emit]
    exact sentence

/-- A labeled statement comes back with its label. -/
theorem ReadsStatement.labeled {label : String} (hlabel : IsName label) (h : repeated.ReadsStatement n)
    (hkind : repeated.kind.isStatement = true) :
    (Node.labeled label repeated).ReadsStatement (n + 1) := by
  intro beautify forced indent ended hended
  rw [braced_eq, emit]
  have body := (h.place hkind beautify forced indent ended).relax (Nat.zero_le 1) id
  rw [or_eq_of_imp hended] at body
  exact .labeled hlabel body

theorem ReadsStatement.debugger : Node.debugger.ReadsStatement (n + 1) := by
  intro beautify forced indent ended _
  rw [braced_eq, emit]
  exact .debugger ended _

/-! ## Switches, handlers and functions -/

/-- A `case` comes back with its test and its statements. -/
theorem readsBack_case (htest : test.ReadsExpression n)
    (hkind : ∀ node ∈ nodes, node.kind.isStatement = true)
    (h : ∀ node ∈ nodes, node.ReadsStatement n) :
    (case_ test nodes).ReadsBack (n + 1) .switchBranch := by
  intro beautify forced indent terminate
  refine ⟨rfl, ?_⟩
  rw [braced_eq, emit]
  simp only [List.cons_append, List.nil_append, List.append_assoc]
  exact .case (htest.fit beautify forced indent (Nat.zero_le 18) false)
    (branchLines_emit hkind h beautify forced (indent + 1) terminate)

/-- The default branch comes back with its statements. -/
theorem readsBack_default (hkind : ∀ node ∈ nodes, node.kind.isStatement = true)
    (h : ∀ node ∈ nodes, node.ReadsStatement n) :
    (body .defaultBranch nodes).ReadsBack (n + 1) .switchBranch := by
  intro beautify forced indent terminate
  refine ⟨rfl, ?_⟩
  rw [braced_eq, emit]
  exact .default (branchLines_emit hkind h beautify forced (indent + 1) terminate)

/-- Branches, each on a line of its own, are read back. -/
theorem branches_emit (h : ∀ node ∈ nodes, node.ReadsBack n .switchBranch) (hne : nodes ≠ [])
    (beautify forced : Bool) (indent : Nat) :
    Branches beautify n indent (emitBranches forced indent false nodes) (nodes.map braced) := by
  induction nodes with
  | nil => exact absurd rfl hne
  | cons first rest ih =>
    obtain ⟨isBranch, branch⟩ := h first (List.mem_cons_self ..) beautify forced indent (!rest.isEmpty)
    rw [emitBranches, asBranch, if_pos isBranch, List.cons_append]
    cases rest with
    | nil =>
      rw [emitBranches, List.append_nil]
      exact .last branch
    | cons second rest =>
      rw [List.isEmpty_cons, Bool.not_false, Bool.true_or] at branch
      exact .more branch (ih (fun node hmem => h node (List.mem_cons_of_mem _ hmem)) nofun)

/-- A `switch` is read back with all of its branches, of which there may be none. -/
theorem ReadsStatement.switch {subject : Node} (hsubject : subject.ReadsExpression n)
    (h : ∀ node ∈ nodes, node.ReadsBack n .switchBranch) :
    (Node.switch subject nodes).ReadsStatement (n + 1) := by
  intro beautify forced indent ended _
  have braces : SwitchBody beautify n
      (if nodes.isEmpty then [.text "\x7b", .text "\x7d"]
       else .text "\x7b" :: emitBranches forced (indent + 1) false nodes ++
        [.newline indent, .text "\x7d"]) (nodes.map braced) := by
    cases nodes with
    | nil => exact .nil
    | cons first rest => exact .branches (branches_emit h nofun beautify forced (indent + 1))
  rw [braced_eq, emit]
  simp only [List.cons_append, List.nil_append, List.append_assoc]
  exact .switch (hsubject.fit beautify forced indent (Nat.zero_le 18) false) braces ended _

/-- A handler comes back with its parameter. -/
theorem readsBack_catch {parameter : String} (hparameter : IsName parameter)
    (hkind : ∀ node ∈ nodes, node.kind.isStatement = true)
    (h : ∀ node ∈ nodes, node.ReadsStatement n) :
    (catch_ parameter nodes).ReadsBack (n + 1) .catchClause := by
  intro beautify forced indent terminate
  rw [braced_eq, emit]
  exact .intro hparameter (enclosed_emit hkind h beautify forced indent)

/-- The last clause of a `try` comes back with its statements. -/
theorem readsBack_finally (hkind : ∀ node ∈ nodes, node.kind.isStatement = true)
    (h : ∀ node ∈ nodes, node.ReadsStatement n) :
    (body .finallyClause nodes).ReadsBack (n + 1) .finallyClause := by
  intro beautify forced indent terminate
  rw [braced_eq, emit]
  exact .intro (enclosed_emit hkind h beautify forced indent)

/-- An optional clause of a `try`. -/
theorem appended_emit {reads : List Piece → Node → Prop} {clause? : Option Node}
    (hkind : ∀ clause ∈ clause?, clause.kind.isExpression = false) (forced : Bool) (indent : Nat)
    (h : ∀ clause ∈ clause?, ∀ terminate,
      reads (clause.emit forced indent terminate false) clause.braced) :
    Appended reads (emitAppended forced indent false clause?) (clause?.map braced) := by
  cases clause? with
  | none =>
    rw [emitAppended]
    exact .none
  | some clause =>
    rw [emitAppended, asItself, asStatement, hkind clause rfl]
    exact .some (h clause rfl _)

/-- A `try` comes back with whichever clauses it has. -/
theorem ReadsStatement.tryCatch {handler finalizer : Option Node}
    (hkind : ∀ node ∈ nodes, node.kind.isStatement = true)
    (h : ∀ node ∈ nodes, node.ReadsStatement n)
    (hhandler : ∀ clause ∈ handler, clause.kind.isExpression = false ∧
      clause.ReadsBack n .catchClause)
    (hfinalizer : ∀ clause ∈ finalizer, clause.kind.isExpression = false ∧
      clause.ReadsBack n .finallyClause)
    (hsome : handler.isSome = true ∨ finalizer.isSome = true) :
    (Node.try_ nodes handler finalizer).ReadsStatement (n + 1) := by
  intro beautify forced indent ended _
  rw [braced_eq, emit]
  simp only [List.cons_append, List.nil_append, List.append_assoc]
  refine .tryCatch (enclosed_emit hkind h beautify forced indent)
    (appended_emit (fun clause hc => (hhandler clause hc).1) forced indent fun clause hc terminate =>
      (hhandler clause hc).2 beautify forced indent terminate)
    (appended_emit (fun clause hc => (hfinalizer clause hc).1) forced indent
      fun clause hc terminate => (hfinalizer clause hc).2 beautify forced indent terminate) ?_ ended _
  rw [Option.isSome_map, Option.isSome_map]
  exact hsome

/-- A function declaration is read back with its name and its parameters. -/
theorem ReadsStatement.function {name : Option String} {names : List String}
    (hname : ∀ x ∈ name, IsName x) (hsome : name.isSome = true) (hnames : ∀ x ∈ names, IsName x)
    (hkind : ∀ node ∈ nodes, node.kind.isStatement = true)
    (h : ∀ node ∈ nodes, node.ReadsStatement n) :
    (Node.lambda .declaration name names nodes).ReadsStatement (n + 1) := by
  intro beautify forced indent ended _
  rw [braced_eq, emit]
  simp only [List.cons_append, List.nil_append, List.append_assoc]
  exact .function hname hsome hnames (enclosed_emit hkind h beautify forced indent) ended _

/-- A function that is an expression comes back with its name, if it has one. -/
theorem ReadsExpression.function {name : Option String} {names : List String}
    (hname : ∀ x ∈ name, IsName x) (hnames : ∀ x ∈ names, IsName x)
    (hkind : ∀ node ∈ nodes, node.kind.isStatement = true)
    (h : ∀ node ∈ nodes, node.ReadsStatement n) :
    (Node.lambda .expression name names nodes).ReadsExpression (n + 1) := by
  intro beautify forced indent terminate noIn
  rw [braced_eq, emit]
  simp only [List.cons_append, List.nil_append, List.append_assoc]
  exact .function hname hnames (enclosed_emit hkind h beautify forced indent) _ _

end Statements

end Node

end JsPrune
