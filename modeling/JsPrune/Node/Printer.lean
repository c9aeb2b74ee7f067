import JsPrune.Node.Basic
import JsPrune.Node.Layout
import JsPrune.Text.Literal

/-!
# From trees to text

`Node.emit` lists the pieces of a node by itself; how a node is fitted into its surroundings is said
by the functions before it, which are given the node and its pieces. A child in the place of an
expression gets parentheses if it binds less tightly than the place asks for, or if it is an `in`
test inside the head of a `for` loop. A child in the place of a statement gets a semicolon unless it
is the last of its list and the layout lets it go.

Two shapes would be read back differently and are guarded: an expression statement that begins with
an object or a function gets parentheses, and a body that ends in an `if` without `else` gets
braces if an `else` follows.

Any tree can be printed, also one that is no program. A statement in the place of an expression is
printed as the statement, and the other way round.

Notes on the form, next to a printer that writes as it goes:
- Nothing is written here. The pieces are listed first and `Layout.render` makes the text of them;
  what a layout does to spaces, line breaks and tokens that would run together is said there.
- The level of indentation and the mark of a loop head, which a writing printer sets and puts back,
  are arguments. Parentheses and the braces of a function clear the mark for what is inside.
- A place gets the child and, as a function, the child's pieces. So the places need no recursion,
  `emit` and the lists beside it recur on the tree only, and each has one equation for each kind.
- `forced` comes from the layout and `terminate` from the place. A statement is ended if either asks
  for it. Before the word `while` the place always does, and before `else` unless there are braces.
-/

namespace JsPrune

open JsPrune.Text

/-- The word that opens a declaration. -/
def DeclarationTag.word : DeclarationTag → String
  | var => "var"
  | let_ => "let"
  | const => "const"

namespace Node

/-! ## What the surroundings need to know of a node -/

/-- How tightly an expression binds. A negative number literal starts with a sign, so it binds like
a prefix operator. -/
def precedence : Node → Nat
  | sequence _ => 1
  | binary .assign _ _ _ => 2
  | conditional _ _ _ => 3
  | binary .combine _ operator _ => operator.precedence
  | unary .before _ _ => 14
  | number value => if value.isNegative && !value.isNaN then 14 else 18
  | unary .after _ _ => 15
  | call _ _ _ => 17
  | dot _ _ => 17
  | sub _ _ => 17
  | _ => 18

/-- Whether this is an `in` test. -/
def isInTest : Node → Bool
  | binary .combine _ .in_ _ => true
  | _ => false

/-- Whether this is a number literal. -/
def isNumber : Node → Bool
  | number _ => true
  | _ => false

/-- Whether this is a declaration. -/
def isDeclaration : Node → Bool
  | declaration _ _ => true
  | _ => false

/-- Whether this is a branch of a switch. -/
def isBranch : Node → Bool
  | case_ _ _ => true
  | body .defaultBranch _ => true
  | _ => false

/-- Whether the text of an expression begins with a brace or the word `function`. -/
def startsAmbiguously : Node → Bool
  | object _ => true
  | lambda .expression _ _ _ => true
  | binary _ left _ _ => startsAmbiguously left
  | call .plain callee _ => startsAmbiguously callee
  | dot owner _ => startsAmbiguously owner
  | sub owner _ => startsAmbiguously owner
  | unary .after _ operand => startsAmbiguously operand
  | conditional test _ _ => startsAmbiguously test
  | sequence (first :: _) => startsAmbiguously first
  | _ => false

/-- Whether a statement ends in an `if` that a following `else` would join. -/
def endsWithOpenIf : Node → Bool
  | ifElse _ _ none => true
  | ifElse _ _ (some other) => endsWithOpenIf other
  | loop .while_ _ repeated => endsWithOpenIf repeated
  | forLoop _ _ _ repeated => endsWithOpenIf repeated
  | forIn _ _ repeated => endsWithOpenIf repeated
  | labeled _ statement => endsWithOpenIf statement
  | _ => false

/-- Whether the member chain of an expression goes through a call. -/
def containsCall : Node → Bool
  | call .plain _ _ => true
  | dot owner _ => containsCall owner
  | sub owner _ => containsCall owner
  | _ => false

/-! ## Fitting a node into its place

`bare` gives the pieces of the node itself. Its first argument says whether an optional semicolon
is written (for a branch: after its last statement), its second whether an `in` test needs
parentheses. -/

/-- The mark that ends a statement. -/
def ending (terminate : Bool) : List Piece := if terminate then [.text ";"] else []

/-- A comma between two items. -/
def comma : List Piece := [.text ",", .space]

/-- Pieces in parentheses. -/
def inParens (pieces : List Piece) : List Piece := .text "(" :: pieces ++ [.text ")"]

/-- Whether a node in some place writes its optional semicolon. A branch of a switch that stands
where no branch belongs leaves the last one out. -/
def endsHere (forced terminate : Bool) (node : Node) : Bool :=
  !node.isBranch && (terminate || forced)

/-- A node where an expression that binds at least as tightly as `least` belongs. -/
def asExpression (forced : Bool) (least : Nat) (noIn : Bool) (node : Node)
    (bare : Bool → Bool → List Piece) : List Piece :=
  if node.precedence < least || (noIn && node.isInTest) then
    -- Inside parentheses an `in` test is safe again.
    inParens (bare (endsHere forced false node) false)
  else bare (endsHere forced false node) noIn

/-- A node where a statement belongs. -/
def asStatement (forced terminate noIn : Bool) (node : Node) (bare : Bool → Bool → List Piece) :
    List Piece :=
  if node.kind.isExpression then
    asExpression forced 0 noIn node bare ++ ending (terminate || forced)
  else bare (endsHere forced terminate node) noIn

/-- A node by itself, or where only one particular kind belongs. -/
def asItself (forced noIn : Bool) (node : Node) (bare : Bool → Bool → List Piece) : List Piece :=
  if node.kind.isExpression then asExpression forced 0 noIn node bare
  else asStatement forced false noIn node bare

/-- A node where a branch of a switch belongs. -/
def asBranch (forced terminate noIn : Bool) (node : Node) (bare : Bool → Bool → List Piece) :
    List Piece :=
  if node.isBranch then bare terminate noIn else asStatement forced terminate noIn node bare

/-- The body of a compound statement. -/
def asBody (forced terminate noIn : Bool) (node : Node) (bare : Bool → Bool → List Piece) :
    List Piece :=
  (if node.isEmpty then [] else [.space]) ++ asStatement forced terminate noIn node bare

/-- The binding in the head of a loop, where an `in` test needs parentheses. -/
def asForInit (forced : Bool) (node : Node) (bare : Bool → Bool → List Piece) : List Piece :=
  if node.isDeclaration then bare false true else asExpression forced 0 true node bare

/-- Pieces in braces, on lines of their own. -/
def inBraces (level : Nat) (pieces : List Piece) : List Piece :=
  .text "\x7b" :: .newline (level + 1) :: pieces ++ [.newline level, .text "\x7d"]

/-- A list in braces, which stay together around nothing. -/
def bracesOf (level : Nat) (nodes : List Node) (pieces : List Piece) : List Piece :=
  if nodes.isEmpty then [.text "\x7b", .text "\x7d"] else inBraces level pieces

/-- Names with commas between them. -/
def nameList : List String → List Piece
  | [] => []
  | [name] => [.text name]
  | name :: rest => .text name :: comma ++ nameList rest

/-! ## The pieces of a node -/

mutual
/-- The pieces of a node by itself, at an indentation level. `forced` says that the layout ends all
statements, `terminate` that this place does. -/
def emit (forced : Bool) (level : Nat) (terminate noIn : Bool) : Node → List Piece
  | .body .toplevel statements => emitStatements forced level false noIn statements
  | .body .block statements =>
    bracesOf level statements (emitStatements forced (level + 1) false noIn statements)
  | .body .defaultBranch statements =>
    [.text "default", .text ":"] ++
      (if statements.isEmpty then []
       else .newline (level + 1) :: emitStatements forced (level + 1) terminate noIn statements)
  | .body .finallyClause statements =>
    [.text "finally", .space] ++
      bracesOf level statements (emitStatements forced (level + 1) false noIn statements)
  | .empty => [.text ";"]
  | .simple value =>
    let pieces := asExpression forced 0 noIn value fun t n => emit forced level t n value
    -- Otherwise the statement would be read as a block or a declaration.
    (if value.startsAmbiguously then inParens pieces else pieces) ++ ending terminate
  | .declaration tag definitions =>
    .text tag.word :: (if definitions.isEmpty then [] else [.space])
      ++ emitFragments forced level noIn definitions ++ ending terminate
  | .varDef name none => [.text name]
  | .varDef name (some value) =>
    [.text name, .space, .text "=", .space] ++
      asExpression forced 2 noIn value fun t n => emit forced level t n value
  | .ifElse test yes none =>
    [.text "if", .space] ++
      inParens (asExpression forced 0 noIn test fun t n => emit forced level t n test) ++
      asBody forced terminate noIn yes fun t n => emit forced level t n yes
  | .ifElse test yes (some no) =>
    [.text "if", .space] ++
      inParens (asExpression forced 0 noIn test fun t n => emit forced level t n test) ++
      -- Braces keep the `else` away from the inner `if`.
      (if yes.endsWithOpenIf then
        .space :: inBraces level
          (asStatement forced false noIn yes fun t n => emit forced (level + 1) t n yes)
       else asBody forced true noIn yes fun t n => emit forced level t n yes) ++
      [.space, .text "else"] ++
      asBody forced terminate noIn no fun t n => emit forced level t n no
  | .loop .while_ test repeated =>
    [.text "while", .space] ++
      inParens (asExpression forced 0 noIn test fun t n => emit forced level t n test) ++
      asBody forced terminate noIn repeated fun t n => emit forced level t n repeated
  | .loop .do_ test repeated =>
    -- A statement before the word `while` needs its semicolon in every layout.
    .text "do" :: (asBody forced true noIn repeated fun t n => emit forced level t n repeated) ++
      [.space, .text "while", .space] ++
      inParens (asExpression forced 0 noIn test fun t n => emit forced level t n test) ++
      ending terminate
  | .forLoop init test step repeated =>
    [.text "for", .space, .text "("] ++
      emitForInit forced level init ++ [.text ";"] ++
      emitClause forced level noIn test ++ [.text ";"] ++
      emitClause forced level noIn step ++ [.text ")"] ++
      asBody forced terminate noIn repeated fun t n => emit forced level t n repeated
  | .forIn init subject repeated =>
    [.text "for", .space, .text "("] ++
      (asForInit forced init fun t n => emit forced level t n init) ++
      [.text "in", .space] ++
      (asExpression forced 0 noIn subject fun t n => emit forced level t n subject) ++
      [.text ")"] ++
      asBody forced terminate noIn repeated fun t n => emit forced level t n repeated
  | .exit tag value =>
    .text (match tag with | .return_ => "return" | .throw => "throw")
      :: emitClause forced level noIn value ++ ending terminate
  | .jump tag label =>
    .text (match tag with | .break_ => "break" | .continue_ => "continue")
      :: label.toList.map .text ++ ending terminate
  | .labeled label statement =>
    [.text label, .text ":", .space] ++
      asStatement forced terminate noIn statement fun t n => emit forced level t n statement
  | .switch subject branches =>
    [.text "switch", .space] ++
      inParens (asExpression forced 0 noIn subject fun t n => emit forced level t n subject) ++
      [.space] ++
      (if branches.isEmpty then [.text "\x7b", .text "\x7d"]
       else .text "\x7b" :: emitBranches forced (level + 1) noIn branches ++
        [.newline level, .text "\x7d"])
  | .case_ test statements =>
    [.text "case", .space] ++
      (asExpression forced 0 noIn test fun t n => emit forced level t n test) ++ [.text ":"] ++
      (if statements.isEmpty then []
       else .newline (level + 1) :: emitStatements forced (level + 1) terminate noIn statements)
  | .try_ statements handler finalizer =>
    [.text "try", .space] ++
      bracesOf level statements (emitStatements forced (level + 1) false noIn statements) ++
      emitAppended forced level noIn handler ++ emitAppended forced level noIn finalizer
  | .catch_ parameter statements =>
    [.text "catch", .space, .text "(", .text parameter, .text ")", .space] ++
      bracesOf level statements (emitStatements forced (level + 1) false noIn statements)
  | .debugger => .text "debugger" :: ending terminate
  | .lambda _ name parameters statements =>
    .text "function" :: name.toList.map .text ++ inParens (nameList parameters) ++ [.space] ++
      -- The braces of a function end the reach of a loop head.
      bracesOf level statements (emitStatements forced (level + 1) false false statements)
  | .call .plain callee arguments =>
    (asExpression forced 17 noIn callee fun t n => emit forced level t n callee) ++
      inParens (emitList forced level noIn arguments)
  | .call .new callee arguments =>
    .text "new" ::
      -- Without parentheses the call would take the place of the constructor's own.
      (if callee.containsCall then
        inParens (asExpression forced 0 noIn callee fun t n => emit forced level t n callee)
       else asExpression forced 17 noIn callee fun t n => emit forced level t n callee) ++
      inParens (emitList forced level noIn arguments)
  | .sequence expressions => emitList forced level noIn expressions
  | .dot owner name =>
    -- A point right after digits would belong to the number.
    (if owner.isNumber then
      inParens (asExpression forced 0 noIn owner fun t n => emit forced level t n owner)
     else asExpression forced 17 noIn owner fun t n => emit forced level t n owner) ++
      [.text ".", .text name]
  | .sub owner index =>
    (asExpression forced 17 noIn owner fun t n => emit forced level t n owner) ++
      [.text "["] ++
      (asExpression forced 0 noIn index fun t n => emit forced level t n index) ++ [.text "]"]
  | .unary .before operator operand =>
    .text operator.symbol ::
      asExpression forced 14 noIn operand fun t n => emit forced level t n operand
  | .unary .after operator operand =>
    (asExpression forced 16 noIn operand fun t n => emit forced level t n operand) ++
      [.text operator.symbol]
  | .binary .combine left operator right =>
    (asExpression forced operator.precedence noIn left fun t n => emit forced level t n left) ++
      [.space, .text operator.symbol, .space] ++
      asExpression forced (operator.precedence + 1) noIn right
        fun t n => emit forced level t n right
  | .binary .assign left operator right =>
    (asExpression forced 16 noIn left fun t n => emit forced level t n left) ++
      [.space, .text operator.symbol, .space] ++
      asExpression forced 2 noIn right fun t n => emit forced level t n right
  | .conditional test yes no =>
    (asExpression forced 4 noIn test fun t n => emit forced level t n test) ++
      [.space, .text "?", .space] ++
      (asExpression forced 2 noIn yes fun t n => emit forced level t n yes) ++
      [.space, .text ":", .space] ++
      asExpression forced 2 noIn no fun t n => emit forced level t n no
  | .array elements => .text "[" :: emitList forced level noIn elements ++ [.text "]"]
  | .object properties =>
    .text "\x7b" :: emitFragments forced level noIn properties ++ [.text "\x7d"]
  | .property key value =>
    [.text (keyText key), .text ":", .space] ++
      asExpression forced 2 noIn value fun t n => emit forced level t n value
  | .identifier name => [.text name]
  | .number value => [.text (numberText value)]
  | .string value => [.text (quote value)]
  | .boolean true => [.text "true"]
  | .boolean false => [.text "false"]
  | .null => [.text "null"]
  | .this => [.text "this"]
termination_by structural node => node

/-- Statements, each on a line of its own. -/
def emitStatements (forced : Bool) (level : Nat) (terminate noIn : Bool) : List Node → List Piece
  | [] => []
  | statement :: rest =>
    (asStatement forced (!rest.isEmpty || terminate) noIn statement
      fun t n => emit forced level t n statement) ++
      (if rest.isEmpty then [] else [.newline level]) ++
      emitStatements forced level terminate noIn rest
termination_by structural nodes => nodes

/-- Branches of a switch, each starting a line. -/
def emitBranches (forced : Bool) (level : Nat) (noIn : Bool) : List Node → List Piece
  | [] => []
  | branch :: rest =>
    .newline level ::
      (asBranch forced (!rest.isEmpty) noIn branch fun t n => emit forced level t n branch) ++
      emitBranches forced level noIn rest
termination_by structural nodes => nodes

/-- Expressions with commas between them. -/
def emitList (forced : Bool) (level : Nat) (noIn : Bool) : List Node → List Piece
  | [] => []
  | item :: rest =>
    (asExpression forced 2 noIn item fun t n => emit forced level t n item) ++
      (if rest.isEmpty then [] else comma) ++ emitList forced level noIn rest
termination_by structural nodes => nodes

/-- Bindings or entries with commas between them. -/
def emitFragments (forced : Bool) (level : Nat) (noIn : Bool) : List Node → List Piece
  | [] => []
  | item :: rest =>
    (asItself forced noIn item fun t n => emit forced level t n item) ++
      (if rest.isEmpty then [] else comma) ++ emitFragments forced level noIn rest
termination_by structural nodes => nodes

/-- An optional expression with a space before it. -/
def emitClause (forced : Bool) (level : Nat) (noIn : Bool) : Option Node → List Piece
  | none => []
  | some value =>
    .space :: asExpression forced 0 noIn value fun t n => emit forced level t n value
termination_by structural node => node

/-- The optional binding in the head of a loop. -/
def emitForInit (forced : Bool) (level : Nat) : Option Node → List Piece
  | none => []
  | some init => asForInit forced init fun t n => emit forced level t n init
termination_by structural node => node

/-- An optional clause of a `try`, with a space before it. -/
def emitAppended (forced : Bool) (level : Nat) (noIn : Bool) : Option Node → List Piece
  | none => []
  | some clause =>
    .space :: asItself forced noIn clause fun t n => emit forced level t n clause
termination_by structural node => node
end

/-- A name is printed as it is. -/
theorem emit_identifier (forced : Bool) (level : Nat) (terminate noIn : Bool) (name : String) :
    (identifier name).emit forced level terminate noIn = [.text name] := by
  -- The equations of `emit` are derived here, so that every module after this one finds them.
  rw [emit]

/-- The pieces of a tree. -/
def pieces (forced : Bool) (node : Node) : List Piece :=
  asItself forced false node fun t n => emit forced 0 t n node

/-- The text of a tree in a layout. -/
def print (layout : Layout) (node : Node) : String := layout.render (node.pieces layout.terminates)

/-- The smallest text of a tree. -/
def compactText (node : Node) : String := node.print .compact

end Node

end JsPrune
