import JsPrune.Node.Basic
import JsPrune.Parser.State

/-!
# The grammar

One function per construct. Whenever a construct contains another of unbounded size, the inner one
is parsed one nesting level deeper, and the levels are limited. So the grammar needs no recursion of
its own: each function is given, as a `Level`, the parsers of what may stand inside, and
`Level.ofNat` stacks the levels up. At the bottom nothing may stand inside any more.

Operators with two operands are read by climbing: after an operand, each operator that binds tightly
enough takes as its right operand everything that binds tighter than itself.

Notes on the form, next to a parser whose functions call each other:
- The limit on nesting is the number of `Level`s, not a comparison with the count in the state.
  Both say the same: the count goes up in `ParseM.nested`, which is where a `Level` is used up, and
  `Level.bottom` refuses with the complaint that `ParseM.nested` has for a tree that is too deep.
- The four fields of `Level` are the four places where a parser would call itself one level deeper.
  All other calls stay on their level and are ordinary calls.
- A loop over statements, items or links is `many`, `listed`, `separated` or `extend` for at most
  `rounds` turns. Each turn takes a token and there are fewer tokens than that, so the bound says
  nothing about the text; it only makes the recursion visible.
- The links of a chain are paid for while it is read and given back when it is complete, so the
  parentheses, arguments and operands around a complete chain start from the count before it.
- Faults are reported in the order of reading. Where a construct is checked after it was read, as
  the operand of `++` is, a fault inside it comes first.
-/

namespace JsPrune

open JsPrune.Source

/-- The parsers of what may stand inside a construct, one nesting level further in. -/
structure Level where
  /-- A statement. -/
  statement : ParseM Node
  /-- An expression without a comma; the flag keeps a bare `in` for the loop head around it. -/
  assignment : Bool → ParseM Node
  /-- The operand of a prefix operator. -/
  unary : ParseM Node
  /-- What `new` is applied to. -/
  callee : ParseM Node

namespace Grammar

open JsPrune.ParseM

variable (inner : Level)

/-! ## Expressions -/

/-- One expression, or several with commas between them. -/
def expression (noIn : Bool) : ParseM Node := do
  match ← separated (inner.assignment noIn) (← rounds) with
  | [single] => return single
  | several => return .sequence several

/-- An expression in parentheses. -/
def parenthesized : ParseM Node := do
  expect .parenOpen
  let value ← expression inner false
  expect .parenClose
  return value

/-- The next statement of the block that opened at `start`, if there is one. -/
def blockStatement? (start : Span) : ParseM (Option Node) := do
  if ← seesMark .braceClose then return none
  -- The complaint points to the opening brace, not to the end of the text.
  else if (← get).atEnd? then refuseAt start .unterminatedBlock
  else return some (← inner.statement)

/-- Statements in braces. -/
def block : ParseM (List Node) := do
  let start := (← token).span
  expect .braceOpen
  let statements ← many (blockStatement? inner start) (← rounds)
  advance
  return statements

/-- The name of a function; a declaration needs one. -/
def functionName? (tag : LambdaTag) : ParseM (Option String) := do
  match (← token).kind with
  | .identifier name => advance; return some name
  | _ => if tag = .declaration then refuse .expectedFunctionName else return none

/-- The parameters of a function. -/
def parameters : ParseM (List String) := do
  expect .parenOpen
  let names ← listed .parenClose identifier (← rounds)
  expect .parenClose
  return names

/-- A function from its name on. -/
def lambda (tag : LambdaTag) : ParseM Node := do
  let name ← functionName? tag
  let names ← parameters
  return .lambda tag name names (← block inner)

/-- An array literal. -/
def array : ParseM Node := do
  let start := (← token).span
  expect .bracketOpen
  let element : ParseM Node := do
    if (← get).atEnd? then refuseAt start .unterminatedArray
    -- A comma where an element belongs would leave a hole.
    else if ← seesMark .comma then refuse .arrayHole
    else inner.assignment false
  let elements ← listed .bracketClose element (← rounds)
  expect .bracketClose
  return .array elements

/-- The key of an entry: a name, a reserved word, a string, or a number as it is spelled. -/
def key (start : Span) : ParseM String := do
  let found ← token
  match found.kind with
  | .identifier name => advance; return name
  | .string value => advance; return value
  | .keyword word => advance; return word.text
  | .number _ =>
    -- A number keeps its spelling: `0x10` and `16` are different keys.
    let source := (← get).source
    advance
    return String.ofList (found.span.text source)
  | .eof => refuseAt start .unterminatedObject
  | _ => refuse .expectedKey

/-- One entry of the object that opened at `start`. -/
def entry (start : Span) : ParseM Node := do
  let name ← key start
  expect .colon
  return .property name (← inner.assignment false)

/-- An object literal. -/
def object : ParseM Node := do
  let start := (← token).span
  expect .braceOpen
  let entries ← listed .braceClose (entry inner start) (← rounds)
  expect .braceClose
  return .object entries

/-- An expression that no operator is needed for. -/
def primary : ParseM Node := do
  match (← token).kind with
  | .identifier name => advance; return .identifier name
  | .number value => advance; return .number value
  | .string value => advance; return .string value
  | .keyword .trueKw => advance; return .boolean true
  | .keyword .falseKw => advance; return .boolean false
  | .keyword .nullKw => advance; return .null
  | .keyword .thisKw => advance; return .this
  | .keyword .functionKw => advance; lambda inner .expression
  | .punctuator .parenOpen => parenthesized inner
  | .punctuator .bracketOpen => array inner
  | .punctuator .braceOpen => object inner
  | _ => unexpected

/-- Arguments in parentheses. -/
def arguments : ParseM (List Node) := do
  expect .parenOpen
  let values ← listed .parenClose (inner.assignment false) (← rounds)
  expect .parenClose
  return values

/-- The head of a chain of member accesses: a constructor call or a primary expression. -/
def chainHead : ParseM Node := do
  if ← seesWord .newKw then
    advance
    let callee ← inner.callee
    -- The callee takes no calls, so these parentheses belong to the constructor.
    let values ← if ← seesMark .parenOpen then arguments inner else pure []
    return .call .new callee values
  else primary inner

/-- One more link of a chain: a member by name, a computed member or, where allowed, a call. -/
def chainStep (allowCall : Bool) (owner : Node) : ParseM (Option Node) := do
  if ← seesMark .dot then
    chainLink
    advance
    match (← token).kind with
    | .identifier name => advance; return some (.dot owner name)
    | .keyword word => advance; return some (.dot owner word.text)
    | _ => refuse .expectedMemberName
  else if ← seesMark .bracketOpen then
    chainLink
    advance
    let index ← expression inner false
    expect .bracketClose
    return some (.sub owner index)
  else if allowCall && (← seesMark .parenOpen) then
    chainLink
    return some (.call .plain owner (← arguments inner))
  else return none

/-- A chain of member accesses and, where allowed, calls. -/
def chain (allowCall : Bool) : ParseM Node :=
  chained do
    let head ← chainHead inner
    extend (chainStep inner allowCall) (← rounds) head

/-- The stepping operator that a token after an operand stands for. -/
def stepOperator? (found : Token) : Option UnaryOp :=
  -- On the next line the operator starts a statement of its own.
  if found.newlineBefore then none
  else match found.kind with
    | .punctuator .increment => some .increment
    | .punctuator .decrement => some .decrement
    | _ => none

/-- A chain and a stepping operator after it, on the same line. -/
def postfixed : ParseM Node := do
  let operand ← chain inner true
  match stepOperator? (← token) with
  | none => return operand
  | some operator =>
    if operand.isAssignable then
      advance
      return .unary .after operator operand
    else refuse .invalidStepOperand

/-- The prefix operator that a token stands for. -/
def prefixOperator? : Token.Kind → Option UnaryOp
  | .punctuator .bang => some .not
  | .punctuator .tilde => some .bitNot
  | .punctuator .minus => some .neg
  | .punctuator .plus => some .plus
  | .punctuator .increment => some .increment
  | .punctuator .decrement => some .decrement
  | .keyword .typeofKw => some .typeOf
  | .keyword .voidKw => some .void
  | .keyword .deleteKw => some .delete
  | _ => none

/-- An operand with the operators before and after it. -/
def unary : ParseM Node := do
  let found ← token
  match prefixOperator? found.kind with
  | none => postfixed inner
  | some operator =>
    advance
    let operand ← inner.unary
    -- The operand is read first, so its own faults are reported first.
    if operator.isStep && !operand.isAssignable then refuseAt found.span .invalidStepOperand
    else return .unary .before operator operand

/-- The operator that a token stands for between two operands. -/
def operator? : Token.Kind → Option BinaryOp
  | .punctuator symbol => BinaryOp.ofSymbol? symbol.text
  | .keyword .inKw => some .in_
  | .keyword .instanceofKw => some .instanceOf
  | _ => none

/-- The combining operator that a token stands for, unless it is an `in` kept for a loop head. -/
def combining? (noIn : Bool) (kind : Token.Kind) : Option BinaryOp :=
  if noIn && kind == .keyword .inKw then none
  else (operator? kind).filter fun operator => !operator.isAssignment

/-- The assigning operator that a token stands for. -/
def assigning? (kind : Token.Kind) : Option BinaryOp :=
  match kind with
  | .punctuator symbol => (BinaryOp.ofSymbol? symbol.text).filter BinaryOp.isAssignment
  | _ => none

/-- The level of the operators that bind tightest; beyond it operands stand alone. -/
def tightest : Nat := 13

/-- Operands joined by operators that bind at least as tightly as `least`. The right operand of an
operator takes only operators that bind tighter, so chains of one operator lean to the left. -/
def climb (operand : ParseM Node) (noIn : Bool) (least : Nat) : ParseM Node :=
  chained do
    let rightOf (level : Nat) : ParseM Node :=
      -- The bounds hold for every operator that `step?` passes on; they make the recursion visible.
      if _ : least ≤ level ∧ level ≤ tightest then climb operand noIn (level + 1) else operand
    let step? (left : Node) : ParseM (Option Node) := do
      match combining? noIn (← token).kind with
      | none => return none
      | some operator =>
        if operator.precedence < least then return none
        else
          advance
          chainLink
          return some (.binary .combine left operator (← rightOf operator.precedence))
    let first ← operand
    extend step? (← rounds) first
termination_by tightest + 1 - least
decreasing_by omega

/-- Operands joined by any combining operators. -/
def binary (noIn : Bool) : ParseM Node := climb (unary inner) noIn BinaryOp.or.precedence

/-- A choice between two expressions, or no choice. -/
def conditional (noIn : Bool) : ParseM Node := do
  let test ← binary inner noIn
  if ← seesMark .question then
    advance
    -- Between the two marks an `in` can not be taken for the one of a loop head.
    let yes ← inner.assignment false
    expect .colon
    return .conditional test yes (← inner.assignment noIn)
  else return test

/-- An assignment, or an expression that binds tighter. -/
def assignment (noIn : Bool) : ParseM Node := do
  let start := (← token).span
  let left ← conditional inner noIn
  match assigning? (← token).kind with
  | none => return left
  | some operator =>
    if left.isAssignable then
      advance
      return .binary .assign left operator (← inner.assignment noIn)
    else refuseAt start .invalidAssignmentTarget

/-! ## Statements -/

/-- One binding of a declaration. -/
def definition (noIn : Bool) : ParseM Node := do
  let name ← identifier
  if ← seesMark .assign then
    advance
    return .varDef name (some (← inner.assignment noIn))
  else return .varDef name none

/-- The bindings of a declaration, from its opening word on. -/
def declaration (tag : DeclarationTag) (noIn : Bool) : ParseM Node := do
  advance
  return .declaration tag (← separated (definition inner noIn) (← rounds))

/-- The declaration that a word opens. -/
def declarationTag? : Token.Kind → Option DeclarationTag
  | .keyword .varKw => some .var
  | .keyword .letKw => some .let_
  | .keyword .constKw => some .const
  | _ => none

/-- An `if` statement. -/
def ifElse : ParseM Node := do
  advance
  let test ← parenthesized inner
  let yes ← inner.statement
  if ← seesWord .elseKw then
    advance
    return .ifElse test yes (some (← inner.statement))
  else return .ifElse test yes none

/-- A `while` loop. -/
def whileLoop : ParseM Node := do
  advance
  let test ← parenthesized inner
  return .loop .while_ test (← inner.statement)

/-- A `do` loop; the semicolon after it may be left out anywhere. -/
def doLoop : ParseM Node := do
  advance
  let repeated ← inner.statement
  if ← seesWord .whileKw then
    advance
    let test ← parenthesized inner
    -- No line break is needed where this semicolon is missing.
    if ← seesMark .semicolon then advance
    return .loop .do_ test repeated
  else refuse (.expectedWhile (← token).kind)

/-- An expression, unless the mark that ends its place stands here already. -/
def optionalExpression (close : Punctuator) : ParseM (Option Node) := do
  if ← seesMark close then return none
  else return some (← expression inner false)

/-- What a loop over names can bind: one declared name, or a place to store into. -/
def forInProblem? : Node → Option Complaint
  | .declaration _ [_] => none
  | .declaration _ _ => some .severalForInBindings
  | target => if target.isAssignable then none else some .invalidForInTarget

/-- A loop over names, after its binding. -/
def forIn (init : Node) : ParseM Node := do
  match forInProblem? init with
  | some complaint => refuse complaint
  | none =>
    advance
    let subject ← expression inner false
    expect .parenClose
    return .forIn init subject (← inner.statement)

/-- What stands first in the head of a loop, if anything does. -/
def forInit? : ParseM (Option Node) := do
  if ← seesMark .semicolon then return none
  else match declarationTag? (← token).kind with
    | some tag => return some (← declaration inner tag true)
    | none => return some (← expression inner true)

/-- Either kind of `for` loop. -/
def forLoop : ParseM Node := do
  advance
  expect .parenOpen
  let init ← forInit? inner
  -- The head was read without `in` tests, so an `in` here belongs to the loop.
  match init, ← seesWord .inKw with
  | some target, true => forIn inner target
  | _, _ =>
    expect .semicolon
    let test ← optionalExpression inner .semicolon
    expect .semicolon
    let step ← optionalExpression inner .parenClose
    expect .parenClose
    return .forLoop init test step (← inner.statement)

/-- The value of a `return` or `throw`; only the first may go without one. -/
def exitValue? (tag : ExitTag) : ParseM (Option Node) := do
  if (← get).atStatementEnd? then
    if tag = .throw then refuse .expectedThrownValue else return none
  else return some (← expression inner false)

/-- A `return` or `throw`. -/
def exit (tag : ExitTag) : ParseM Node := do
  advance
  let value ← exitValue? inner tag
  semicolon
  return .exit tag value

/-- The label of a jump, if one follows on the same line. -/
def jumpLabel? : ParseM (Option String) := do
  let found ← token
  match found.kind, found.newlineBefore with
  | .identifier name, false => advance; return some name
  | _, _ => return none

/-- A `break` or `continue`. -/
def jump (tag : JumpTag) : ParseM Node := do
  advance
  let label ← jumpLabel?
  semicolon
  return .jump tag label

/-- A statement with a label. -/
def labeled : ParseM Node := do
  let label ← identifier
  expect .colon
  return .labeled label (← inner.statement)

/-- The next statement of a branch, which goes on to the next branch or the end of the switch. -/
def branchStatement? : ParseM (Option Node) := do
  match (← token).kind with
  | .punctuator .braceClose => return none
  | .keyword .caseKw => return none
  | .keyword .defaultKw => return none
  | .eof => return none
  | _ => return some (← inner.statement)

/-- The statements of a branch. -/
def branchBody : ParseM (List Node) := do
  many (branchStatement? inner) (← rounds)

/-- One branch of a switch that opened at `start`. -/
def branch? (start : Span) : ParseM (Option Node) := do
  match (← token).kind with
  | .punctuator .braceClose => return none
  | .keyword .caseKw =>
    advance
    let test ← expression inner false
    expect .colon
    return some (.case_ test (← branchBody inner))
  | .keyword .defaultKw =>
    advance
    expect .colon
    return some (.body .defaultBranch (← branchBody inner))
  | .eof => refuseAt start .unterminatedSwitch
  | _ => unexpected

/-- A `switch` statement. -/
def switch : ParseM Node := do
  advance
  let subject ← parenthesized inner
  -- An unterminated switch is reported at its brace.
  let start := (← token).span
  expect .braceOpen
  let branches ← many (branch? inner start) (← rounds)
  advance
  return .switch subject branches

/-- The handler of a `try`, if there is one. -/
def handler? : ParseM (Option Node) := do
  if ← seesWord .catchKw then
    advance
    expect .parenOpen
    let parameter ← identifier
    expect .parenClose
    return some (.catch_ parameter (← block inner))
  else return none

/-- The finally clause of a `try`, if there is one. -/
def finalizer? : ParseM (Option Node) := do
  if ← seesWord .finallyKw then
    advance
    return some (.body .finallyClause (← block inner))
  else return none

/-- A `try` statement, which needs a handler or a finally clause. -/
def tryCatch : ParseM Node := do
  advance
  let statements ← block inner
  let handler ← handler? inner
  let finalizer ← finalizer? inner
  if handler.isNone && finalizer.isNone then refuse .expectedHandler
  else return .try_ statements handler finalizer

/-- An expression used as a statement. -/
def simple : ParseM Node := do
  let value ← expression inner false
  semicolon
  return .simple value

/-- The statement that a reserved word opens; most words open an expression. -/
def wordStatement : Keyword → ParseM Node
  | .varKw => do
    let declared ← declaration inner .var false
    semicolon
    return declared
  | .letKw => do
    let declared ← declaration inner .let_ false
    semicolon
    return declared
  | .constKw => do
    let declared ← declaration inner .const false
    semicolon
    return declared
  | .ifKw => ifElse inner
  | .whileKw => whileLoop inner
  | .doKw => doLoop inner
  | .forKw => forLoop inner
  | .returnKw => exit inner .return_
  | .throwKw => exit inner .throw
  | .breakKw => jump .break_
  | .continueKw => jump .continue_
  | .switchKw => switch inner
  | .tryKw => tryCatch inner
  | .functionKw => do
    advance
    lambda inner .declaration
  | .debuggerKw => do
    advance
    semicolon
    return .debugger
  | _ => simple inner

/-- Whether a label stands here: an identifier and then a colon. -/
def seesLabel : ParseM Bool := do
  match (← token).kind with
  | .identifier _ => return (← peek).kind == .punctuator .colon
  | _ => return false

/-- A statement. -/
def statement : ParseM Node := do
  if ← seesLabel then labeled inner
  else match (← token).kind with
    | .punctuator .braceOpen => return .body .block (← block inner)
    | .punctuator .semicolon => advance; return .empty
    | .keyword word => wordStatement inner word
    | _ => simple inner

end Grammar

namespace Level

/-- Where nothing may stand inside any more. -/
def bottom : Level where
  statement := ParseM.refuse .nestingTooDeep
  assignment _ := ParseM.refuse .nestingTooDeep
  unary := ParseM.refuse .nestingTooDeep
  callee := ParseM.refuse .nestingTooDeep

/-- The level around `inner`. -/
def around (inner : Level) : Level where
  statement := ParseM.nested (Grammar.statement inner)
  assignment noIn := ParseM.nested (Grammar.assignment inner noIn)
  unary := ParseM.nested (Grammar.unary inner)
  callee := ParseM.nested (Grammar.chain inner false)

/-- `count` levels on top of the bottom. -/
def ofNat : Nat → Level
  | 0 => bottom
  | count + 1 => (ofNat count).around

end Level

/-- How deep statements and expressions may be nested in each other. -/
def maxNesting : Nat := 48

namespace Parser

/-- The next statement of a program, if there is one. -/
def statement? : ParseM (Option Node) := do
  if (← get).atEnd? then return none
  else return some (← (Level.ofNat maxNesting).statement)

/-- A program: statements up to the end of the text. -/
def programM : ParseM Node := do
  return .toplevel (← ParseM.many statement? (← ParseM.rounds))

/-- A single expression that takes up the whole text. -/
def expressionM : ParseM Node := do
  let value ← Grammar.expression (Level.ofNat maxNesting) false
  if (← get).atEnd? then return value else ParseM.unexpected

/-- Runs a step; a refusal becomes an error that quotes the text. -/
def run {α : Type} (parser : Parser) (step : ParseM α) : Except Error α × Parser :=
  match step parser with
  | .ok value after => (.ok value, after)
  | .error refusal after => (.error (refusal.toError after.source), after)

/-- Reads a program from where the parser stands. -/
def program (parser : Parser) : Except Error Node × Parser := parser.run programM

/-- Reads a single expression from where the parser stands. -/
def singleExpression (parser : Parser) : Except Error Node × Parser := parser.run expressionM

end Parser

/-- The tree of a program. -/
def parse (source : String) : Except Error Node := (Parser.ofSource source).program.1

/-- The tree of an expression. -/
def parseExpression (source : String) : Except Error Node :=
  (Parser.ofSource source).singleExpression.1

end JsPrune
