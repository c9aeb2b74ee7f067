import JsPrune.Node.Printer
import JsPrune.Parser.Grammar
import JsPrune.Proofs.Reading

/-!
# Pieces that are read as an expression

The grammar reads an expression at one of several strengths: a chain of member accesses, an operand
with its operators before and after, operands joined by operators, a choice, an assignment, a list
with commas. `Phrase` says of a list of pieces that it is read as a certain expression at every
strength up to a level, whatever comes after, as long as that does not go on with the phrase.

Main results: `Phrase.ofChain` and its siblings. Pieces that are read at one strength are read at all
weaker ones. In a chain and in a row of operands the phrase is only the beginning of what the grammar
goes on to read; there the statement is about the loop, with the phrase as the value so far.
-/

namespace JsPrune

open ParseM Grammar

/-! ## Room -/

/-- How much deeper than its own level the parser gets in a tree of `n` levels, at most. -/
def weight : Nat → Nat
  | 0 => 0
  | n + 1 => weight n + n + 4

/-- There is room for a tree of `n` levels, and for `slack` levels more, with `levels` levels of
grammar left at `depth`. -/
def Room (n slack levels depth : Nat) : Prop :=
  2 * n + slack ≤ levels ∧ depth + weight n + slack ≤ maxTreeDepth

/-- Room for more is room for less. -/
theorem Room.mono {n slack less levels depth : Nat} (h : Room n slack levels depth)
    (hle : less ≤ slack) : Room n less levels depth := by
  obtain ⟨hlevels, hdepth⟩ := h
  exact ⟨by omega, by omega⟩

/-- Further in there is one level less and the depth is one more. -/
theorem Room.inner {n slack levels depth : Nat} (h : Room n (slack + 1) (levels + 1) depth) :
    Room n slack levels (depth + 1) := by
  obtain ⟨hlevels, hdepth⟩ := h
  exact ⟨by omega, by omega⟩

/-- A child has room at any link of a chain, in parentheses and one level further in. -/
theorem Room.child {n levels depth j : Nat} (h : Room (n + 1) 0 levels depth) (hj : j ≤ n) :
    Room n 2 levels (depth + j + 1) := by
  obtain ⟨hlevels, hdepth⟩ := h
  rw [weight] at hdepth
  exact ⟨by omega, by omega⟩

/-- A child has room where its parent stands. -/
theorem Room.step {n levels depth : Nat} (h : Room (n + 1) 0 levels depth) :
    Room n 2 levels depth := by
  obtain ⟨hlevels, hdepth⟩ := h
  rw [weight] at hdepth
  exact ⟨by omega, by omega⟩

/-! ## One level further in -/

section Inner

variable {room : Prop} {levels depth n slack : Nat} {words rest : List Lexeme} {value : Node}

/-- A construct on the level inside is read if its body is. Where there is room there is a level
left, and the body has one less. -/
theorem reads_inner (step body : Level → ParseM Node)
    (hbottom : step .bottom = ParseM.refuse .nestingTooDeep)
    (haround : ∀ inner : Level, step inner.around = ParseM.nested (body inner))
    (hroom : room → Room n (slack + 1) levels depth)
    (h : ∀ further, (room → Room n slack further (depth + 1)) →
      Reads room (body (.ofNat further)) ⟨words, depth + 1⟩ value ⟨rest, depth + 1⟩) :
    Reads room (step (.ofNat levels)) ⟨words, depth⟩ value ⟨rest, depth⟩ := by
  cases levels with
  | zero =>
    rw [Level.ofNat, hbottom]
    refine .refuse fun hr => ?_
    have := (hroom hr).1
    omega
  | succ further =>
    rw [Level.ofNat, haround]
    refine .nested (fun hr => ?_) (h further fun hr => (hroom hr).inner)
    have := (hroom hr).2
    omega

end Inner

/-! ## Counting texts -/

/-- The number of texts among some pieces. -/
def textCount : List Piece → Nat
  | [] => 0
  | .text _ :: rest => textCount rest + 1
  | .space :: rest => textCount rest
  | .newline _ :: rest => textCount rest

@[simp] theorem textCount_nil : textCount [] = 0 := rfl

@[simp] theorem textCount_text (content : String) (rest : List Piece) :
    textCount (.text content :: rest) = textCount rest + 1 := rfl

@[simp] theorem textCount_space (rest : List Piece) :
    textCount (.space :: rest) = textCount rest := rfl

@[simp] theorem textCount_newline (level : Nat) (rest : List Piece) :
    textCount (.newline level :: rest) = textCount rest := rfl

@[simp] theorem textCount_append (first second : List Piece) :
    textCount (first ++ second) = textCount first + textCount second := by
  induction first with
  | nil => exact (Nat.zero_add _).symm
  | cons piece rest ih =>
    cases piece with
    | text content =>
      rw [List.cons_append, textCount_text, ih, textCount_text]
      omega
    | space => exact ih
    | newline level => exact ih

@[simp] theorem length_lexemes (beautify newline : Bool) (pieces : List Piece) :
    (lexemes beautify newline pieces).length = textCount pieces := by
  induction pieces generalizing newline with
  | nil => rfl
  | cons piece rest ih =>
    cases piece with
    | text content => rw [lexemes_text, List.length_cons, ih, textCount_text]
    | space => exact ih newline
    | newline level => exact ih _

/-! ## What ends a phrase -/

/-- The kind of the first text of some pieces. -/
def upcoming : List Piece → Token.Kind
  | [] => .eof
  | .text content :: _ => kindOf content
  | .space :: rest => upcoming rest
  | .newline _ :: rest => upcoming rest

/-- The first token of some pieces is that of the first text. -/
@[simp] theorem nextKind_lexemes (beautify newline : Bool) (pieces : List Piece) :
    nextKind (lexemes beautify newline pieces) = upcoming pieces := by
  induction pieces generalizing newline with
  | nil => rfl
  | cons piece rest ih =>
    cases piece with
    | text content => rfl
    | space => exact ih newline
    | newline level => exact ih _

@[simp] theorem upcoming_nil : upcoming [] = .eof := rfl

@[simp] theorem upcoming_text (content : String) (rest : List Piece) :
    upcoming (.text content :: rest) = kindOf content := rfl

@[simp] theorem upcoming_space (rest : List Piece) : upcoming (.space :: rest) = upcoming rest := rfl

@[simp] theorem upcoming_newline (level : Nat) (rest : List Piece) :
    upcoming (.newline level :: rest) = upcoming rest := rfl

/-- What comes first in neither part does not come first in both. -/
theorem upcoming_append_ne {kind : Token.Kind} {first second : List Piece}
    (hf : upcoming first ≠ kind) (hs : upcoming second ≠ kind) :
    upcoming (first ++ second) ≠ kind := by
  induction first with
  | nil => exact hs
  | cons piece rest ih =>
    cases piece with
    | text content => exact hf
    | space => exact ih hf
    | newline level => exact ih hf

/-- Whether a chain ends before a token of this kind. -/
def endsChain (allowCall : Bool) (kind : Token.Kind) : Bool :=
  kind != .punctuator .dot && kind != .punctuator .bracketOpen &&
    !(allowCall && kind == .punctuator .parenOpen)

/-- Whether an operand ends before a token of this kind. -/
def endsOperand (kind : Token.Kind) : Bool :=
  endsChain true kind && kind != .punctuator .increment && kind != .punctuator .decrement

/-- Whether a row of operands ends before a token of this kind. -/
def endsRow (noIn : Bool) (kind : Token.Kind) : Bool :=
  endsOperand kind && (combining? noIn kind).isNone

/-- Whether a choice ends before a token of this kind. -/
def endsChoice (noIn : Bool) (kind : Token.Kind) : Bool :=
  endsRow noIn kind && kind != .punctuator .question

/-- Whether an assignment ends before a token of this kind. -/
def endsAssignment (noIn : Bool) (kind : Token.Kind) : Bool :=
  endsChoice noIn kind && (assigning? kind).isNone

/-- Whether an expression ends before a token of this kind. -/
def endsExpression (noIn : Bool) (kind : Token.Kind) : Bool :=
  endsAssignment noIn kind && kind != .punctuator .comma

/-- The kinds of tokens that close the place of an expression. -/
def closesExpression : Token.Kind → Bool
  | .punctuator .parenClose => true
  | .punctuator .bracketClose => true
  | .punctuator .braceClose => true
  | .punctuator .colon => true
  | .punctuator .semicolon => true
  | .eof => true
  | _ => false

/-- What closes an expression ends it, in the head of a loop or not. -/
theorem endsExpression_of_closes (head : Bool) {kind : Token.Kind}
    (h : closesExpression kind = true) : endsExpression head kind = true := by
  unfold closesExpression at h
  split at h
  case h_7 => cases h
  all_goals cases head <;> rfl

/-- What ends a row of expressions ends the last of them. -/
theorem endsAssignment_of_endsExpression {head : Bool} {kind : Token.Kind}
    (h : endsExpression head kind = true) : endsAssignment head kind = true := by
  rw [endsExpression, Bool.and_eq_true] at h
  exact h.1

/-- A comma ends an expression within a row. -/
theorem endsAssignment_comma (head : Bool) : endsAssignment head (.punctuator .comma) = true := by
  cases head <;> rfl

/-- Whether an expression can start with a token of this kind. -/
def opensExpression : Token.Kind → Bool
  | .identifier _ => true
  | .number _ => true
  | .string _ => true
  | .keyword .trueKw => true
  | .keyword .falseKw => true
  | .keyword .nullKw => true
  | .keyword .thisKw => true
  | .keyword .functionKw => true
  | .keyword .newKw => true
  | .punctuator .parenOpen => true
  | .punctuator .bracketOpen => true
  | .punctuator .braceOpen => true
  | kind => (prefixOperator? kind).isSome

/-! ## The forms of a phrase -/

section Forms

variable (beautify : Bool) (n slack : Nat)

/-- After the pieces the loop of a chain goes on with `value`, at some link. -/
def ReadAsChain (calls : Bool) (pieces : List Piece) (value : Node) : Prop :=
  ∀ (room : Prop) (levels depth : Nat), (room → Room n slack levels depth) →
  ∀ (allowCall newline : Bool) (rest : List Piece) (last : Node) (after : List Lexeme),
    (calls = true → allowCall = true) →
    (∀ j ≤ n, ∀ count, textCount rest < count →
      Finishes room (extend (chainStep (.ofNat levels) allowCall) count value)
        ⟨lexemes beautify false rest, depth + j⟩ last after) →
    Finishes room (do
        let head ← chainHead (.ofNat levels)
        extend (chainStep (.ofNat levels) allowCall) (← rounds) head)
      ⟨lexemes beautify newline (pieces ++ rest), depth⟩ last after

/-- The pieces are read as an operand. -/
def ReadAsOperand (pieces : List Piece) (value : Node) : Prop :=
  ∀ (room : Prop) (levels depth : Nat), (room → Room n slack levels depth) →
  ∀ (newline : Bool) (rest : List Piece), endsOperand (upcoming rest) = true →
    Reads room (unary (.ofNat levels)) ⟨lexemes beautify newline (pieces ++ rest), depth⟩ value
      ⟨lexemes beautify false rest, depth⟩

/-- The right operand of an operator that binds at `level`. -/
def rightOperand (operand : ParseM Node) (noIn : Bool) (least level : Nat) : ParseM Node :=
  if least ≤ level ∧ level ≤ tightest then climb operand noIn (level + 1) else operand

/-- One more operator and operand in a row. -/
def climbStep (operand : ParseM Node) (noIn : Bool) (least : Nat) (left : Node) :
    ParseM (Option Node) := do
  match combining? noIn (← token).kind with
  | none => return none
  | some operator =>
    if operator.precedence < least then return none
    else
      advance
      chainLink
      return some (.binary .combine left operator
        (← rightOperand operand noIn least operator.precedence))

/-- Climbing is a chain: an operand, and then turn by turn an operator and its right operand. -/
theorem climb_eq (operand : ParseM Node) (noIn : Bool) (least : Nat) :
    climb operand noIn least = chained (do
      let first ← operand
      extend (climbStep operand noIn least) (← rounds) first) := by
  rw [climb]
  simp only [dite_eq_ite]
  rfl

/-- After the pieces the loop of a row goes on with `value`. `noIn` says that the pieces have no bare
`in` test, so they are read alike in the head of a loop. -/
def ReadAsRow (level : Nat) (noIn : Bool) (pieces : List Piece) (value : Node) : Prop :=
  ∀ (room : Prop) (levels depth : Nat), (room → Room n slack levels depth) →
  ∀ (head newline : Bool) (least : Nat) (rest : List Piece) (last : Node)
    (after : List Lexeme), (head = true → noIn = true) → least ≤ level → endsOperand (upcoming rest) = true →
    (∀ operator ∈ combining? head (upcoming rest), operator.precedence ≤ level) →
    (∀ j ≤ n, ∀ count, textCount rest < count →
      Finishes room (extend (climbStep (unary (.ofNat levels)) head least) count value)
        ⟨lexemes beautify false rest, depth + j⟩ last after) →
    Finishes room (do
        let first ← unary (.ofNat levels)
        extend (climbStep (unary (.ofNat levels)) head least) (← rounds) first)
      ⟨lexemes beautify newline (pieces ++ rest), depth⟩ last after

/-- The pieces are read as a choice, an assignment or an expression, by a step that may stop only
where `ends` allows. -/
def ReadAs (step : Level → Bool → ParseM Node) (ends : Bool → Token.Kind → Bool) (noIn : Bool)
    (pieces : List Piece) (value : Node) : Prop :=
  ∀ (room : Prop) (levels depth : Nat), (room → Room n slack levels depth) →
  ∀ (head newline : Bool) (rest : List Piece), (head = true → noIn = true) →
    ends head (upcoming rest) = true →
    Reads room (step (.ofNat levels) head) ⟨lexemes beautify newline (pieces ++ rest), depth⟩ value
      ⟨lexemes beautify false rest, depth⟩

end Forms

/-- The pieces start with a text that an expression can start with; what binds tightly starts with no
operator, and a name at the start is no label. -/
structure Opens (level : Nat) (pieces : List Piece) : Prop where
  starts : ∃ content tail, pieces = .text content :: tail ∧ opensExpression (kindOf content) = true ∧
    (15 ≤ level → prefixOperator? (kindOf content) = none) ∧
    (∀ name, kindOf content = .identifier name → upcoming tail ≠ .punctuator .colon)

namespace Opens

variable {level less : Nat} {pieces : List Piece}

/-- A text that starts an expression and is neither operator nor name opens a phrase of any
tightness. -/
theorem ofText {content : String} (tail : List Piece) (hopens : opensExpression (kindOf content) = true)
    (hsign : prefixOperator? (kindOf content) = none)
    (hname : ∀ name, kindOf content ≠ .identifier name) : Opens level (.text content :: tail) :=
  ⟨content, tail, rfl, hopens, fun _ => hsign, fun name hk => absurd hk (hname name)⟩

/-- What a phrase starts with does not depend on what follows, except that a colon may not. -/
theorem append (h : Opens level pieces) (hl : less ≤ level) {more : List Piece}
    (hmore : upcoming more ≠ .punctuator .colon) : Opens less (pieces ++ more) := by
  obtain ⟨content, tail, rfl, hopens, hsign, hname⟩ := h
  exact ⟨content, tail ++ more, rfl, hopens, fun hle => hsign (by omega),
    fun name hk => upcoming_append_ne (hname name hk) hmore⟩

/-- What starts a tight phrase starts a loose one. -/
theorem relax (h : Opens level pieces) (hl : less ≤ level) : Opens less pieces := by
  obtain ⟨content, tail, hpieces, hopens, hsign, hname⟩ := h
  exact ⟨content, tail, hpieces, hopens, fun hle => hsign (by omega), hname⟩

/-- A phrase starts as expressions do. -/
theorem upcoming (h : Opens level pieces) (rest : List Piece) :
    opensExpression (upcoming (pieces ++ rest)) = true := by
  obtain ⟨content, tail, rfl, hopens, _⟩ := h
  exact hopens

/-- A phrase that binds tighter than prefix operators does not start with one. -/
theorem no_operator (h : Opens level pieces) (hl : 15 ≤ level) (rest : List Piece) :
    prefixOperator? (JsPrune.upcoming (pieces ++ rest)) = none := by
  obtain ⟨content, tail, rfl, _, hsign, _⟩ := h
  exact hsign hl

end Opens

/-- The pieces are read as `value` at every strength up to `level`. -/
structure Phrase (beautify : Bool) (n slack level : Nat) (noIn calls : Bool) (pieces : List Piece)
    (value : Node) : Prop where
  opens : Opens level pieces
  chain : 17 ≤ level → ReadAsChain beautify n slack calls pieces value
  operand : 14 ≤ level → ReadAsOperand beautify n slack pieces value
  row : 4 ≤ level → ReadAsRow beautify n slack level noIn pieces value
  choice : 4 ≤ level → ReadAs beautify n slack conditional endsChoice noIn pieces value
  assignment : 2 ≤ level → ReadAs beautify n slack Grammar.assignment endsAssignment noIn pieces value
  whole : ReadAs beautify n (slack + 1) Grammar.expression endsExpression noIn pieces value

/-! ## From one strength to the next -/

section Lift

variable {beautify : Bool} {n slack level : Nat} {noIn calls : Bool} {pieces : List Piece}
variable {value : Node} {room : Prop} {levels depth : Nat} {words : List Lexeme}

variable {inner : Level} {rest : List Lexeme}

/-- A chain stops where no link follows. -/
theorem chainStep_stop {allowCall : Bool} (owner : Node)
    (h : endsChain allowCall (nextKind words) = true) :
    Reads room (chainStep inner allowCall owner) ⟨words, depth⟩ none ⟨words, depth⟩ := by
  rw [endsChain, Bool.and_eq_true, Bool.and_eq_true, bne_iff_ne, bne_iff_ne,
    Bool.not_eq_true'] at h
  refine .misses h.1.1 (.misses h.1.2 ?_)
  cases allowCall with
  | false => exact .seesMark_bind (.pure _ _)
  | true => exact .misses (beq_eq_false_iff_ne.mp h.2) (.pure _ _)

/-- An operand ends where its chain does, if no stepping operator follows. -/
theorem endsOperand_iff {kind : Token.Kind} : endsOperand kind = true ↔
    endsChain true kind = true ∧ kind ≠ .punctuator .increment ∧ kind ≠ .punctuator .decrement := by
  rw [endsOperand, Bool.and_eq_true, Bool.and_eq_true, bne_iff_ne, bne_iff_ne, and_assoc]

/-- A chain with no operator before or after it is an operand. -/
theorem reads_unary (h : Reads room (chain inner true) ⟨words, depth⟩ value ⟨rest, depth⟩)
    (hstart : prefixOperator? (nextKind words) = none) (hends : endsOperand (nextKind rest) = true) :
    Reads room (unary inner) ⟨words, depth⟩ value ⟨rest, depth⟩ := by
  obtain ⟨_, increment, decrement⟩ := endsOperand_iff.mp hends
  refine .token_bind fun token hk => ?_
  rw [hk, hstart]
  refine h.bind (.token_bind fun next hnext => ?_)
  have operator : stepOperator? next = none := by
    unfold stepOperator?
    split
    · rfl
    · split
      · next hi => exact absurd (hnext.symm.trans hi) increment
      · next hd => exact absurd (hnext.symm.trans hd) decrement
      · rfl
  rw [operator]
  exact .pure _ _

/-- Climbing stops at an operator that is too loose, or at none. -/
theorem climbStep_stop {operand : ParseM Node} {head : Bool} {least : Nat} (left : Node)
    (h : ∀ operator ∈ combining? head (nextKind words), operator.precedence < least) :
    Reads room (climbStep operand head least left) ⟨words, depth⟩ none ⟨words, depth⟩ := by
  refine .token_bind fun token hk => ?_
  rw [hk]
  cases hc : combining? head (nextKind words) with
  | none => exact .pure _ _
  | some operator =>
    simp only [if_pos (h operator hc)]
    exact .pure _ _

/-- A row without a question mark after it is a choice. -/
theorem reads_conditional {head : Bool}
    (h : Reads room (binary inner head) ⟨words, depth⟩ value ⟨rest, depth⟩)
    (hends : nextKind rest ≠ .punctuator .question) :
    Reads room (conditional inner head) ⟨words, depth⟩ value ⟨rest, depth⟩ :=
  h.bind (.misses hends (.pure _ _))

/-- A choice without an assigning operator after it is an assignment. -/
theorem reads_assignment {head : Bool}
    (h : Reads room (conditional inner head) ⟨words, depth⟩ value ⟨rest, depth⟩)
    (hends : assigning? (nextKind rest) = none) :
    Reads room (Grammar.assignment inner head) ⟨words, depth⟩ value ⟨rest, depth⟩ := by
  refine .token_bind fun _ _ => h.bind (.token_bind fun token hk => ?_)
  rw [hk, hends]
  exact .pure _ _

/-- An assignment without a comma after it is an expression. -/
theorem reads_expression {head : Bool}
    (h : Reads room (inner.assignment head) ⟨words, depth⟩ value ⟨rest, depth⟩)
    (hends : nextKind rest ≠ .punctuator .comma) :
    Reads room (Grammar.expression inner head) ⟨words, depth⟩ value ⟨rest, depth⟩ := by
  have series : Series room (fun _ => True) _ _ [value] _ := .last trivial h hends
  exact .rounds_bind fun count hcount =>
    (series.separated (Nat.one_le_of_lt hcount)).bind (.pure _ _)

/-- An expression in parentheses is the head of a chain. -/
theorem reads_parens {first last : Lexeme} (hfirst : first.kind = .punctuator .parenOpen)
    (h : Reads room (Grammar.expression inner false) ⟨words, depth⟩ value ⟨last :: rest, depth⟩)
    (hlast : last.kind = .punctuator .parenClose) :
    Reads room (chainHead inner) ⟨first :: words, depth⟩ value ⟨rest, depth⟩ := by
  refine .missesWord (by rw [nextKind_cons, hfirst]; nofun) (.token_bind fun token hk => ?_)
  rw [nextKind_cons, hfirst] at hk
  rw [hk]
  exact (Reads.expect hfirst).bind (h.bind ((Reads.expect hlast).bind (.pure _ _)))

/-- A whole chain. -/
theorem ReadAsChain.chain (h : ReadAsChain beautify n slack calls pieces value)
    (hroom : room → Room n slack levels depth) {allowCall : Bool} (newline : Bool)
    (rest : List Piece) (hcalls : calls = true → allowCall = true)
    (hends : endsChain allowCall (upcoming rest) = true) :
    Reads room (Grammar.chain (.ofNat levels) allowCall)
      ⟨lexemes beautify newline (pieces ++ rest), depth⟩ value
      ⟨lexemes beautify false rest, depth⟩ := by
  rw [← nextKind_lexemes beautify false] at hends
  exact Finishes.chained (h room levels depth hroom allowCall newline rest value _ hcalls
    fun _ _ count _ => Finishes.extend_stop (chainStep_stop value hends) count)

/-- A chain is an operand. -/
theorem ReadAsChain.operand (h : ReadAsChain beautify n slack calls pieces value)
    (hlevel : 15 ≤ level) (hopens : Opens level pieces) : ReadAsOperand beautify n slack pieces value := by
  intro room levels depth hroom newline rest hends
  refine reads_unary (h.chain hroom newline rest (fun _ => rfl) (endsOperand_iff.mp hends).1) ?_ ?_
  · rw [nextKind_lexemes]
    exact hopens.no_operator hlevel rest
  · rw [nextKind_lexemes]
    exact hends

/-- An operand starts a row. -/
theorem ReadAsOperand.row (h : ReadAsOperand beautify n slack pieces value) (level : Nat)
    (noIn : Bool) : ReadAsRow beautify n slack level noIn pieces value := by
  intro room levels depth hroom head newline least rest last after _ _ hends _ hloop
  refine .after_reads (h room levels depth hroom newline rest hends) (.rounds_bind fun count hcount => ?_)
  exact hloop 0 (Nat.zero_le n) count (by rwa [length_lexemes] at hcount)

/-- A whole row of operands. -/
theorem ReadAsRow.climb (h : ReadAsRow beautify n slack level noIn pieces value)
    (hroom : room → Room n slack levels depth) {head : Bool} (newline : Bool) {least : Nat}
    (rest : List Piece) (hhead : head = true → noIn = true) (hleast : least ≤ level)
    (hends : endsOperand (upcoming rest) = true)
    (hstop : ∀ operator ∈ combining? head (upcoming rest), operator.precedence < least) :
    Reads room (Grammar.climb (unary (.ofNat levels)) head least)
      ⟨lexemes beautify newline (pieces ++ rest), depth⟩ value
      ⟨lexemes beautify false rest, depth⟩ := by
  rw [climb_eq]
  refine Finishes.chained (h room levels depth hroom head newline least rest value _ hhead hleast
    hends (fun operator ho => by have := hstop operator ho; omega) ?_)
  intro _ _ count _
  rw [← nextKind_lexemes beautify false] at hstop
  exact Finishes.extend_stop (climbStep_stop value hstop) count

/-- A row of operands is a choice. -/
theorem ReadAsRow.choice (h : ReadAsRow beautify n slack level noIn pieces value)
    (hlevel : 4 ≤ level) : ReadAs beautify n slack conditional endsChoice noIn pieces value := by
  intro room levels depth hroom head newline rest hhead hends
  rw [endsChoice, endsRow, Bool.and_eq_true, Bool.and_eq_true, Option.isNone_iff_eq_none,
    bne_iff_ne] at hends
  obtain ⟨⟨operand, row⟩, question⟩ := hends
  refine reads_conditional (h.climb hroom newline rest hhead hlevel operand ?_) ?_
  · intro operator ho
    rw [row] at ho
    cases ho
  · rw [nextKind_lexemes]
    exact question

/-- A choice is an assignment. -/
theorem ReadAs.assignment (h : ReadAs beautify n slack conditional endsChoice noIn pieces value) :
    ReadAs beautify n slack Grammar.assignment endsAssignment noIn pieces value := by
  intro room levels depth hroom head newline rest hhead hends
  rw [endsAssignment, Bool.and_eq_true, Option.isNone_iff_eq_none] at hends
  refine reads_assignment (h room levels depth hroom head newline rest hhead hends.1) ?_
  rw [nextKind_lexemes]
  exact hends.2

/-- An assignment one level further in. -/
theorem ReadAs.inner_assignment
    (h : ReadAs beautify n slack Grammar.assignment endsAssignment noIn pieces value)
    (hroom : room → Room n (slack + 1) levels depth) (head newline : Bool) (rest : List Piece)
    (hhead : head = true → noIn = true)
    (hends : endsAssignment head (upcoming rest) = true) :
    Reads room ((Level.ofNat levels).assignment head)
      ⟨lexemes beautify newline (pieces ++ rest), depth⟩ value
      ⟨lexemes beautify false rest, depth⟩ :=
  reads_inner (fun inner => inner.assignment head) (fun inner => Grammar.assignment inner head) rfl
    (fun _ => rfl) hroom fun further hfurther =>
      h room further (depth + 1) hfurther head newline rest hhead hends

/-- An assignment is an expression. -/
theorem ReadAs.expression
    (h : ReadAs beautify n slack Grammar.assignment endsAssignment noIn pieces value) :
    ReadAs beautify n (slack + 1) Grammar.expression endsExpression noIn pieces value := by
  intro room levels depth hroom head newline rest hhead hends
  rw [endsExpression, Bool.and_eq_true, bne_iff_ne] at hends
  refine reads_expression (h.inner_assignment hroom head newline rest hhead hends.1) ?_
  rw [nextKind_lexemes]
  exact hends.2

/-- What is read as the head of a chain starts the loop of the chain. -/
theorem ReadAsChain.ofHead (calls : Bool)
    (h : ∀ (room : Prop) (levels depth : Nat), (room → Room n slack levels depth) →
      ∀ (newline : Bool) (rest : List Piece), Reads room (chainHead (.ofNat levels))
        ⟨lexemes beautify newline (pieces ++ rest), depth⟩ value
        ⟨lexemes beautify false rest, depth⟩) :
    ReadAsChain beautify n slack calls pieces value := by
  intro room levels depth hroom allowCall newline rest last after _ hloop
  refine .after_reads (h room levels depth hroom newline rest) (.rounds_bind fun count hcount => ?_)
  exact hloop 0 (Nat.zero_le n) count (by rwa [length_lexemes] at hcount)

namespace Phrase

/-- A row of expressions is a phrase for the loosest places only. -/
theorem ofExpression (ho : Opens level pieces) (hl : level ≤ 1)
    (h : ReadAs beautify n (slack + 1) Grammar.expression endsExpression noIn pieces value) :
    Phrase beautify n slack level noIn calls pieces value where
  opens := ho
  chain hle := absurd hle (by omega)
  operand hle := absurd hle (by omega)
  row hle := absurd hle (by omega)
  choice hle := absurd hle (by omega)
  assignment hle := absurd hle (by omega)
  whole := h

/-- An assignment or a conditional is a phrase for all places but the operands of operators. -/
theorem ofAssignment (ho : Opens level pieces) (hl : level ≤ 3)
    (h : ReadAs beautify n slack Grammar.assignment endsAssignment noIn pieces value) :
    Phrase beautify n slack level noIn calls pieces value where
  opens := ho
  chain hle := absurd hle (by omega)
  operand hle := absurd hle (by omega)
  row hle := absurd hle (by omega)
  choice hle := absurd hle (by omega)
  assignment _ := h
  whole := h.expression

/-- Operands joined by operators are a phrase as tight as the loosest of the operators. -/
theorem ofRow (ho : Opens level pieces) (hlow : 4 ≤ level) (hl : level ≤ 13)
    (h : ReadAsRow beautify n slack level noIn pieces value) :
    Phrase beautify n slack level noIn calls pieces value where
  opens := ho
  chain hle := absurd hle (by omega)
  operand hle := absurd hle (by omega)
  row _ := h
  choice _ := h.choice hlow
  assignment _ := (h.choice hlow).assignment
  whole := (h.choice hlow).assignment.expression

/-- An operand with its operators is a phrase for the operands of all operators. -/
theorem ofOperand (ho : Opens level pieces) (hlow : 14 ≤ level) (hl : level ≤ 16)
    (h : ReadAsOperand beautify n slack pieces value) :
    Phrase beautify n slack level noIn calls pieces value where
  opens := ho
  chain hle := absurd hle (by omega)
  operand _ := h
  row _ := h.row level noIn
  choice _ := (h.row level noIn).choice (by omega)
  assignment _ := ((h.row level noIn).choice (by omega)).assignment
  whole := ((h.row level noIn).choice (by omega)).assignment.expression

/-- A chain is a phrase for the tightest places. -/
theorem ofChain (ho : Opens level pieces) (hlow : 17 ≤ level)
    (h : ReadAsChain beautify n slack calls pieces value) :
    Phrase beautify n slack level noIn calls pieces value :=
  have operand := h.operand (by omega) ho
  have choice := (operand.row level noIn).choice (by omega)
  { opens := ho
    chain := fun _ => h
    operand := fun _ => operand
    row := fun _ => operand.row level noIn
    choice := fun _ => choice
    assignment := fun _ => choice.assignment
    whole := choice.assignment.expression }

/-- A phrase is also one of less strength, with more slack. -/
theorem relax {less more : Nat} {calls' : Bool}
    (h : Phrase beautify n slack level noIn calls pieces value) (hl : less ≤ level)
    (hs : slack ≤ more) (hc : calls = true → calls' = true) :
    Phrase beautify n more less noIn calls' pieces value where
  opens := h.opens.relax hl
  chain hle room levels depth hroom allowCall newline rest last after hcalls :=
    h.chain (by omega) room levels depth (fun hr => (hroom hr).mono hs) allowCall newline rest last
      after fun hcall => hcalls (hc hcall)
  operand hle room levels depth hroom :=
    h.operand (by omega) room levels depth fun hr => (hroom hr).mono hs
  row hle room levels depth hroom head newline least rest last after hhead hleast hends hops :=
    h.row (by omega) room levels depth (fun hr => (hroom hr).mono hs) head newline least rest last
      after hhead (by omega) hends fun operator ho => Nat.le_trans (hops operator ho) hl
  choice hle room levels depth hroom :=
    h.choice (by omega) room levels depth fun hr => (hroom hr).mono hs
  assignment hle room levels depth hroom :=
    h.assignment (by omega) room levels depth fun hr => (hroom hr).mono hs
  whole room levels depth hroom :=
    h.whole room levels depth fun hr => (hroom hr).mono (Nat.succ_le_succ hs)

/-- Whatever is read as an expression is in parentheses the head of a chain. -/
theorem parens (h : ReadAs beautify n (slack + 1) Grammar.expression endsExpression noIn pieces value)
    (noIn' calls : Bool) :
    Phrase beautify n (slack + 1) 18 noIn' calls (Node.inParens pieces) value := by
  refine ofChain (.ofText _ (by simp [opensExpression]) (by simp [prefixOperator?]) (by simp))
    (by omega) (.ofHead calls ?_)
  intro room levels depth hroom newline rest
  have inside := h room levels depth hroom false false (.text ")" :: rest)
    nofun (endsExpression_of_closes _ (by simp [closesExpression]))
  simp only [Node.inParens, List.cons_append, List.append_assoc, List.nil_append,
    lexemes_text] at inside ⊢
  exact reads_parens (by simp) inside (by simp)

end Phrase

end Lift

end JsPrune
