import JsPrune.Proofs.Compounds
import JsPrune.Proofs.Holding

/-!
# Trees that can be read back

A tree is `Printable` when every child is accepted by its slot and every node is spelled as the
grammar would read it: names are names, numbers are written with the digits that stand for them, a
list of expressions with commas has at least two, and so on. What a name or a number is, is said with
the lexer: its text `LexesAs` one token.

`Node.braced` is what comes back: the tree itself, except that a body that ends in an `if` without
`else` stands in braces of its own where an `else` follows.
-/

namespace JsPrune

open JsPrune.Text JsPrune.Source Grammar

/-! ## Texts that are one token -/

/-- The whole text is one token of this kind. -/
def LexesAs (text : String) (kind : Token.Kind) : Prop :=
  ∃ token finish, tokenize text = [token, finish] ∧ token.kind = kind ∧
    token.span.text text.toList = text.toList

/-- The first token of a text that is not all white space. -/
theorem next_of_solid {blank rest : List Char} {first : Char} (hblank : blank.all isBlank = true)
    (hsolid : isBlank first = false) :
    (Lexer.ofSource (blank ++ first :: rest)).next.1
      = ⟨(Scan.token first rest).1, .between (Position.start.advance blank)
          ((Position.start.advance blank).advance (first :: rest.take (Scan.token first rest).2)),
        blank.any isLineBreak⟩ := by
  rw [(Lexer.ofSource (blank ++ first :: rest)).next_of_rest rfl hblank hsolid, Lexer.ofSource,
    Bool.false_or]

/-- A text that is one token of a kind with content spells it: there is no white space around it. -/
theorem spells_of_lexesAs {text : String} {kind : Token.Kind} (h : LexesAs text kind)
    (hcontent : kind.isContent = true) : spells kind text.toList = true := by
  obtain ⟨token, finish, htokens, rfl, hspan⟩ := h
  have ongoing : (Lexer.ofSource text.toList).next.1.kind ≠ .eof := by
    intro heof
    rw [tokenize, Lexer.tokens, dif_pos heof] at htokens
    cases htokens
  have next : (Lexer.ofSource text.toList).next.1 = token := by
    rw [tokenize, Lexer.tokens, dif_neg ongoing] at htokens
    exact (List.cons.inj htokens).1
  obtain ⟨blank, first, rest, hrest, hblank, hsolid⟩ :=
    (Lexer.ofSource text.toList).exists_solid ongoing
  have parts : text.toList = blank ++ first :: rest := hrest
  rw [parts, next_of_solid hblank hsolid] at next
  -- The token takes all of the text: there is no white space before it and nothing behind it.
  have taken := text_between blank (first :: rest.take (Scan.token first rest).2)
    (rest.drop (Scan.token first rest).2)
  rw [List.cons_append, List.take_append_drop] at taken
  rw [← next, parts, taken] at hspan
  have bound : (Scan.token first rest).2 ≤ rest.length := by
    apply Scan.token_length_le
    rw [← next] at hcontent
    exact hcontent
  have length := congrArg List.length hspan
  simp only [List.length_cons, List.length_take, List.length_append] at length
  have none : blank = [] := List.length_eq_zero_iff.mp (by omega)
  have all : (Scan.token first rest).2 = rest.length := by omega
  rw [parts, none, List.nil_append, spells_cons, ← next]
  refine ⟨hsolid, ?_, ?_⟩
  · rw [← next] at hcontent
    exact hcontent
  · rw [← all]

/-- A text that spells a token by itself is that token, and the end of the text. -/
theorem tokenize_of_spells {text : String} {kind : Token.Kind}
    (h : spells kind text.toList = true) : ∃ token finish, tokenize text = [token, finish] ∧
      token.kind = kind ∧ token.span.text text.toList = text.toList ∧ finish.kind = .eof := by
  have splits : Splits false text.toList [⟨kind, false, text.toList⟩] := by
    have one : Splits false ([] ++ (text.toList ++ [])) _ := .lexeme rfl h nofun (.finish rfl)
    rw [List.nil_append, List.append_nil] at one
    exact one
  obtain ⟨tokens, finish, htokens, hwords, hfinish⟩ :=
    @tokens_of_splits text.toList [] (.ofSource text.toList) _ splits rfl rfl
  obtain ⟨token, rfl, hword⟩ := List.map_eq_singleton_iff.mp hwords
  rw [Token.lexeme, Lexeme.mk.injEq] at hword
  exact ⟨token, finish, htokens, hword.1, hword.2.2, hfinish⟩

/-- A text that spells a token is that token. -/
theorem lexesAs_of_spells {text : String} {kind : Token.Kind}
    (h : spells kind text.toList = true) : LexesAs text kind := by
  obtain ⟨token, finish, htokens, hkind, hspan, _⟩ := tokenize_of_spells h
  exact ⟨token, finish, htokens, hkind, hspan⟩

/-! ## How numbers end -/

/-- The digits of a number are digits to the lexer. -/
theorem isDigit_of_toDigits {n : Nat} {c : Char} (h : c ∈ Nat.toDigits 10 n) : isDigit c = true := by
  have digit := Nat.isDigit_of_mem_toDigits (by omega) (by omega) h
  rw [Char.isDigit, Bool.and_eq_true, decide_eq_true_iff, decide_eq_true_iff] at digit
  rw [isDigit, Bool.and_eq_true, decide_eq_true_iff, decide_eq_true_iff]
  exact digit

/-- What all characters have the last one has. -/
theorem getLast?_of_all {p : Char → Bool} {text : List Char} (h : ∀ c ∈ text, p c = true)
    (hne : text ≠ []) : text.getLast?.any p = true := by
  rw [List.getLast?_eq_some_getLast hne]
  exact h _ (List.getLast_mem hne)

/-- Digits end in a digit. -/
theorem getLast?_of_digits {text : List Char} (h : ∀ c ∈ text, isDigit c = true) (hne : text ≠ []) :
    text.getLast?.any isWordChar = true :=
  getLast?_of_all (fun c hc => isWordChar_of_isDigit (h c hc)) hne

/-- The last character of two texts is that of the second. -/
theorem getLast?_append_any {p : Char → Bool} (first : List Char) {second : List Char}
    (h : second.getLast?.any p = true) : (first ++ second).getLast?.any p = true := by
  rw [List.getLast?_append]
  cases hs : second.getLast? with
  | none => rw [hs] at h; cases h
  | some c => rw [hs] at h; exact h

/-- The shortest digits of a number are digits. -/
theorem isDigit_shortest (tie : Binary64.Tie) (x : Binary64) :
    ∀ c ∈ (x.shortest tie).text, isDigit c = true := by
  intro c hc
  unfold Binary64.shortest at hc
  split at hc
  · rw [List.mem_singleton.mp hc]
    rfl
  · rw [List.mem_reverse] at hc
    have digit := (List.dropWhile_sublist _).subset hc
    rw [List.mem_reverse] at digit
    exact isDigit_of_toDigits digit

theorem isDigit_replicate (count : Nat) : ∀ c ∈ List.replicate count '0', isDigit c = true := by
  intro c hc
  rw [List.eq_of_mem_replicate hc]
  rfl

/-- Digits with a point among them are digits on both sides of it. -/
theorem isDigit_places {digits : Binary64.Digits} (h : ∀ c ∈ digits.text, isDigit c = true) :
    (∀ c ∈ digits.places.1, isDigit c = true) ∧ ∀ c ∈ digits.places.2, isDigit c = true := by
  have zero : ∀ c ∈ ['0'], isDigit c = true := isDigit_replicate 1
  unfold Binary64.Digits.places
  split
  · split
    · exact ⟨zero, h⟩
    · split
      · exact ⟨List.forall_mem_append.mpr ⟨h, isDigit_replicate _⟩, nofun⟩
      · exact ⟨fun c hc => h c (List.mem_of_mem_take hc), fun c hc => h c (List.mem_of_mem_drop hc)⟩
  · exact ⟨zero, List.forall_mem_append.mpr ⟨isDigit_replicate _, h⟩⟩

/-- A number written out ends in a digit. -/
theorem getLast?_positional {digits : Binary64.Digits} (h : ∀ c ∈ digits.text, isDigit c = true)
    (hne : digits.positional [] ≠ []) : (digits.positional []).getLast?.any isWordChar = true := by
  obtain ⟨whole, fraction⟩ := isDigit_places h
  unfold Binary64.Digits.positional at hne ⊢
  cases hf : digits.places.2 with
  | nil =>
    simp only [hf, List.isEmpty_nil, if_true, List.append_nil] at hne ⊢
    exact getLast?_of_digits whole hne
  | cons first rest =>
    simp only [hf, List.isEmpty_cons]
    refine getLast?_append_any _ (getLast?_append_any ['.'] ?_)
    exact getLast?_of_digits (hf ▸ fraction) (List.cons_ne_nil _ _)

/-- A number with an exponent ends in a digit. -/
theorem getLast?_scientific (digits : Binary64.Digits) :
    (digits.scientific []).getLast?.any isWordChar = true := by
  have power : ∀ n : Nat, (Nat.toDigits 10 n).getLast?.any isWordChar = true := fun n =>
    getLast?_of_digits (fun c hc => isDigit_of_toDigits hc) Nat.toDigits_ne_nil
  unfold Binary64.Digits.scientific
  refine getLast?_append_any _ (getLast?_append_any ['e'] ?_)
  split
  · exact power _
  · exact getLast?_append_any ['-'] (power _)

/-- A number is never written with a point at its end. -/
theorem getLast?_numberText {x : Binary64} (h : (numberText x).toList ≠ [])
    (hsign : (numberText x).toList ≠ ['-']) : (numberText x).toList.getLast?.any isWordChar = true := by
  unfold numberText at h hsign ⊢
  split
  · decide
  · next hnan =>
    rw [if_neg hnan, String.toList_ofList] at h hsign
    rw [String.toList_ofList]
    apply getLast?_append_any
    split
    · decide
    · next hinfinite =>
      simp only [if_neg hinfinite] at h hsign
      split
      · exact getLast?_scientific _
      · next hsmall =>
        refine getLast?_positional (isDigit_shortest _ x) ?_
        intro hnil
        simp only [if_neg hsmall, hnil, List.append_nil] at h hsign
        split at h
        · next hneg => exact hsign (by rw [if_pos hneg])
        · exact h rfl

/-! ## Texts that can be written -/

/-- Only numbers mind a point behind them. -/
theorem after_eq_number {kind : Token.Kind} (h : Edge.after kind = .number) :
    ∃ value, kind = .number value := by
  unfold Edge.after at h
  split at h
  · exact ⟨_, rfl⟩
  · cases h
  · split at h <;> cases h
  · cases h

/-- A text that spells anything but a number is written well. -/
theorem Written.ofSpells {kind : Token.Kind} {text : String} (h : spells kind text.toList = true)
    (hnumber : ∀ value, kind ≠ .number value) : Written kind text := by
  refine ⟨h, fun hafter => ?_⟩
  obtain ⟨value, hk⟩ := after_eq_number hafter
  exact absurd hk (hnumber value)

/-- A punctuator is written well. -/
theorem Written.mark (symbol : Punctuator) : Written (.punctuator symbol) symbol.text :=
  .ofSpells (spells_mark symbol) nofun

/-- A reserved word is written well. -/
theorem Written.word (word : Keyword) : Written (.keyword word) word.text :=
  .ofSpells (spells_word word) nofun

/-- A number is written well if it is read back as one. -/
theorem Written.numberText {x value : Binary64}
    (h : spells (.number value) (numberText x).toList = true) :
    Written (.number value) (numberText x) := by
  refine ⟨h, fun _ => getLast?_numberText ?_ ?_⟩
  · intro hnil
    rw [hnil] at h
    cases h
  · intro hsign
    rw [hsign] at h
    cases h

/-- Whatever token a key is written as, it does not run into the colon. -/
theorem Written.keyText {kind : Token.Kind} {key : String}
    (h : spells kind (keyText key).toList = true) : Written kind (keyText key) := by
  refine ⟨h, fun hafter => ?_⟩
  obtain ⟨value, rfl⟩ := after_eq_number hafter
  rcases keyText_cases key with ⟨first, rest, hchars, hfirst, hrest⟩ | ⟨x, hnumber⟩ | hquoted
  · rw [hchars]
    refine getLast?_of_all (List.forall_mem_cons.mpr ?_) (List.cons_ne_nil _ _)
    exact ⟨isWordChar_of_isNameStart hfirst, List.all_eq_true.mp hrest⟩
  · rw [hnumber] at h ⊢
    exact (Written.numberText h).2 hafter
  · rw [hquoted] at h
    have kinds := (kindOf_of_spells h).symm.trans (kindOf_of_spells (spells_quote key))
    cases kinds

/-! ## Printable trees -/

namespace Node

/-- A name that the lexer takes for one. -/
def IsNameToken (name : String) : Prop := LexesAs name (.identifier name)

/-- A name or a reserved word. -/
def IsMemberToken (name : String) : Prop :=
  IsNameToken name ∨ ∃ word : Keyword, LexesAs name (.keyword word) ∧ word.text = name

/-- What the literals of a node and the number of its children have to be like, so that the grammar
reads the node back. -/
def Spelled : Node → Prop
  | identifier name => IsNameToken name
  | number value => value.isNaN = false ∧ value.isInfinite = false ∧ value.isNegative = false ∧
    LexesAs (numberText value) (.number value)
  | property key _ => ∃ kind, LexesAs (keyText key) kind ∧ keyName? kind (keyText key) = some key
  | dot _ name => IsMemberToken name
  | varDef name _ => IsNameToken name
  | labeled label _ => IsNameToken label
  | jump _ label => ∀ name ∈ label, IsNameToken name
  | catch_ parameter _ => IsNameToken parameter
  | lambda tag name parameters _ => (tag = .declaration → name.isSome = true) ∧
    (∀ x ∈ name, IsNameToken x) ∧ ∀ x ∈ parameters, IsNameToken x
  | sequence expressions => 2 ≤ expressions.length
  | declaration _ definitions => 1 ≤ definitions.length
  | exit tag value => tag = .throw → value.isSome = true
  | try_ _ handler finalizer => handler.isSome = true ∨ finalizer.isSome = true
  | binary .combine _ operator _ => operator.isAssignment = false
  | binary .assign left operator _ => operator.isAssignment = true ∧ left.isAssignable = true
  | unary .before operator operand => operator.isStep = true → operand.isAssignable = true
  | unary .after operator operand => operator.isStep = true ∧ operand.isAssignable = true
  | forIn init _ _ => (∃ tag definition, init = declaration tag [definition]) ∨
    init.isAssignable = true
  | _ => True

/-- Every child, at every depth, is accepted by its slot, and every node is spelled well. -/
inductive Printable : Node → Prop
  | intro {node : Node} (slots : node.slotsAccept = true) (spelled : node.Spelled)
      (below : ∀ child ∈ node.children, Printable child) : Printable node

namespace Printable

variable {node : Node}

/-- The children of a printable node stand where they may. -/
theorem slots (h : node.Printable) : node.slotsAccept = true := by
  cases h
  assumption

/-- A printable node is spelled well. -/
theorem spelled (h : node.Printable) : node.Spelled := by
  cases h
  assumption

/-- The children of a printable node are printable. -/
theorem children (h : node.Printable) : ∀ child ∈ node.children, child.Printable := by
  cases h
  assumption

end Printable

/-- Where an induction over printable trees has come to: the node is printable, and all that it holds
is good for the slot it stands in. -/
structure MadeOf (good : Slot → Node → Prop) (node : Node) : Prop where
  /-- The node itself, with all below it. -/
  printable : node.Printable
  /-- What the induction has shown of the children. -/
  held : ∀ {slot : Slot} {child : Node}, node.Holds slot child → good slot child

namespace MadeOf

variable {good : Slot → Node → Prop} {node child : Node}

theorem spelled (h : node.MadeOf good) : node.Spelled :=
  h.printable.spelled

/-- What stands in the place of an expression is one. -/
theorem isExpression (h : node.MadeOf good) (held : node.Holds .expression child) :
    child.kind.isExpression = true :=
  held.accepts h.printable.slots

/-- What stands in the place of a statement is one. -/
theorem isStatement (h : node.MadeOf good) (held : node.Holds .statement child) :
    child.kind.isStatement = true :=
  held.accepts h.printable.slots

end MadeOf

/-! ## The tree that comes back -/

/-- Where a body that ends in an `if` without `else` stands before an `else`, it gets braces. `old`
is the node before its children were replaced. -/
def withBraces (old new : Node) : Node :=
  match old, new with
  | ifElse _ inner (some _), ifElse test yes no =>
    if inner.endsWithOpenIf then ifElse test (block [yes]) no else new
  | _, _ => new

/-- The tree with braces around every body that an `else` would be taken from. -/
def braced (node : Node) : Node :=
  node.withBraces (node.withParts (node.parts.attach.map fun part =>
    part.val.mapMem fun child _ => braced child))
termination_by node
decreasing_by exact sizeOf_lt_of_mem_children (mem_children_of_mem_nodes part.property (by assumption))

/-- Braces are put into the children first, and then around the body if it needs them. -/
theorem braced_eq (node : Node) : node.braced = node.withBraces (node.mapChildren braced) := by
  rw [braced, mapChildren]
  simp only [Part.mapMem_eq_map]
  exact congrArg (fun parts => node.withBraces (node.withParts parts)) List.attach_map_val

/-- No other node gets braces than an `if` with an `else`. -/
theorem braced_of_ne_ifElse {node : Node} (h : ∀ test yes no, node ≠ ifElse test yes (some no)) :
    node.braced = node.mapChildren braced := by
  rw [braced_eq, withBraces]
  intro test yes no _ _ _ heq
  exact absurd heq (h test yes no)

/-- The body of an `if` gets braces if the `else` would be taken away from it. -/
theorem braced_ifElse (test yes no : Node) : (ifElse test yes (some no)).braced
    = ifElse test.braced (if yes.endsWithOpenIf then block [yes.braced] else yes.braced)
      (some no.braced) := by
  rw [braced_eq]
  show (if yes.endsWithOpenIf then ifElse test.braced (block [yes.braced]) (some no.braced)
    else ifElse test.braced yes.braced (some no.braced)) = _
  split <;> rfl

/-- What can be assigned to stays so. -/
theorem isAssignable_braced (node : Node) : node.braced.isAssignable = node.isAssignable := by
  by_cases h : ∃ test yes no, node = ifElse test yes (some no)
  · obtain ⟨test, yes, no, rfl⟩ := h
    rw [braced_ifElse]
    rfl
  · rw [braced_of_ne_ifElse fun test yes no heq => h ⟨test, yes, no, heq⟩]
    fun_cases Node.kind node <;> rfl

end Node

end JsPrune
