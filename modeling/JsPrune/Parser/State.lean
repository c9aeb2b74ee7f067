import JsPrune.Parser.Complaint
import JsPrune.Token.Lexer

/-!
# The state of a parser

A parser looks at one token and takes further ones from the lexer as it goes on, comments left out.
Where it has to know the token after the current one it reads that token ahead and keeps it. The
lexer reads the end of the text again and again, so there always is a current token.

The parser also counts. `nesting` says how many constructs the current token is inside of.
`treeDepth` says how many levels of the tree under construction are around it: each construct inside
another is a level, and so is each link of a chain of operators or member accesses, because every
link nests the chain so far one level deeper. `nested` and `chainLink` charge for a level and refuse
to go beyond `maxTreeDepth`. Both counts change in `setDepth` only, which keeps the highest they have
been.

A refusal keeps the state it was reached in. A parser can be asked again after one.
-/

namespace JsPrune

open JsPrune.Source

/-- The most levels, chain links included, of a tree under construction. -/
def maxTreeDepth : Nat := 256

/-- A text on its way to becoming a tree. -/
structure Parser where
  /-- The whole text. -/
  source : List Char
  /-- What is left to read. -/
  lexer : Lexer
  /-- The token that is looked at, never a comment. -/
  current : Token
  /-- The token after it, if it was read ahead. -/
  peeked : Option Token
  /-- Constructs around the current token. -/
  nesting : Nat
  /-- Levels of the tree around the current token. -/
  treeDepth : Nat
  /-- The highest that `nesting` has been. -/
  mostNesting : Nat
  /-- The highest that `treeDepth` has been. -/
  mostTreeDepth : Nat

/-- A step of parsing: a result or a refusal, and in both cases the state after it. -/
abbrev ParseM := EStateM Refusal Parser

namespace Parser

/-- The parser at the beginning of `source`. -/
def ofSource (source : String) : Parser :=
  let (first, lexer) := (Lexer.ofSource source.toList).nextSignificant
  { source := source.toList
    lexer := lexer
    current := first
    peeked := none
    nesting := 0
    treeDepth := 0
    mostNesting := 0
    mostTreeDepth := 0 }

/-- The parser at the next token. -/
def advance (parser : Parser) : Parser :=
  match parser.peeked with
  | some token => { parser with current := token, peeked := none }
  | none =>
    let (token, lexer) := parser.lexer.nextSignificant
    { parser with current := token, lexer := lexer }

/-- The token after the current one, and the parser that has read it ahead. -/
def peek (parser : Parser) : Token × Parser :=
  match parser.peeked with
  | some token => (token, parser)
  | none =>
    let (token, lexer) := parser.lexer.nextSignificant
    (token, { parser with peeked := some token, lexer := lexer })

/-- The parser with other counts. -/
def setDepth (parser : Parser) (nesting treeDepth : Nat) : Parser :=
  { parser with
    nesting := nesting
    treeDepth := treeDepth
    mostNesting := max parser.mostNesting nesting
    mostTreeDepth := max parser.mostTreeDepth treeDepth }

/-- Tokens are no concern of the text and of the counts. -/
theorem advance_frame (parser : Parser) : ∃ lexer current peeked, parser.advance
    = { parser with lexer := lexer, current := current, peeked := peeked } := by
  rw [advance]
  split
  · exact ⟨_, _, _, rfl⟩
  · exact ⟨_, _, _, rfl⟩

theorem peek_frame (parser : Parser) : ∃ lexer peeked, parser.peek.2
    = { parser with lexer := lexer, peeked := peeked } := by
  rw [peek]
  split
  · exact ⟨_, _, rfl⟩
  · exact ⟨_, _, rfl⟩

/-- Whether the current token is this punctuator. -/
def at? (parser : Parser) (symbol : Punctuator) : Bool :=
  parser.current.kind == .punctuator symbol

/-- Whether the current token is this reserved word. -/
def atWord? (parser : Parser) (word : Keyword) : Bool := parser.current.kind == .keyword word

/-- Whether the text ends here. -/
def atEnd? (parser : Parser) : Bool := parser.current.kind == .eof

/-- Whether a statement may end here without a semicolon: before a closing brace, at the end of the
text, or after a line break. A semicolon ends it too. -/
def atStatementEnd? (parser : Parser) : Bool :=
  parser.current.newlineBefore || parser.at? .semicolon || parser.at? .braceClose || parser.atEnd?

end Parser

namespace ParseM

/-- The current token. -/
def token : ParseM Token := return (← get).current

/-- Whether the current token is this punctuator. -/
def seesMark (symbol : Punctuator) : ParseM Bool := return (← get).at? symbol

/-- Whether the current token is this reserved word. -/
def seesWord (word : Keyword) : ParseM Bool := return (← get).atWord? word

/-- Goes on to the next token. -/
def advance : ParseM Unit := modify Parser.advance

/-- The token after the current one. -/
def peek : ParseM Token := modifyGet Parser.peek

/-- Refuses the text because of what stands at `span`. -/
def refuseAt {α : Type} (span : Span) (complaint : Complaint) : ParseM α := throw ⟨complaint, span⟩

/-- Refuses the text because of the current token. -/
def refuse {α : Type} (complaint : Complaint) : ParseM α := do
  refuseAt (← token).span complaint

/-- Refuses the current token, which nothing expects. -/
def unexpected {α : Type} : ParseM α := do
  refuse (.unexpected (← token).kind)

/-- Steps over a punctuator that has to stand here. -/
def expect (symbol : Punctuator) : ParseM Unit := do
  if ← seesMark symbol then advance
  else refuse (.expectedPunctuator symbol (← token).kind)

/-- Steps over an identifier that has to stand here and answers its name. -/
def identifier : ParseM String := do
  match (← token).kind with
  | .identifier name => advance; return name
  | found => refuse (.expectedIdentifier found)

/-- Steps over a semicolon, or over nothing where a statement may end without one. -/
def semicolon : ParseM Unit := do
  if ← seesMark .semicolon then advance
  else if (← get).atStatementEnd? then return ()
  else refuse (.expectedPunctuator .semicolon (← token).kind)

/-- Runs `body` one level deeper, and comes back to this level however it ends. -/
def nested {α : Type} (body : ParseM α) : ParseM α := fun parser =>
  if maxTreeDepth ≤ parser.treeDepth then refuse .nestingTooDeep parser
  else
    match body (parser.setDepth (parser.nesting + 1) (parser.treeDepth + 1)) with
    | .ok value after => .ok value (after.setDepth (after.nesting - 1) parser.treeDepth)
    -- A refusal keeps the tokens read so far, so that reading can go on behind them.
    | .error refusal after => .error refusal (after.setDepth (after.nesting - 1) parser.treeDepth)

/-- Charges for one more link of a chain. -/
def chainLink : ParseM Unit := do
  if maxTreeDepth ≤ (← get).treeDepth then refuse .nestingTooDeep
  else modify fun parser => parser.setDepth parser.nesting (parser.treeDepth + 1)

/-- Runs `chain`, whose links count as levels, and gives the levels back once it is complete. -/
def chained {α : Type} (chain : ParseM α) : ParseM α := do
  let base := (← get).treeDepth
  let value ← chain
  modify fun parser => parser.setDepth parser.nesting base
  return value

/-! ## Repetition

Every round of a repetition takes at least one token, except that the last one finds nothing to do.
The lexer has at most one token more to read than there are characters left, and two may have been
read already; `rounds` allows for all of these. -/

/-- A bound on the rounds of a repetition that starts here. -/
def rounds : ParseM Nat := return (← get).lexer.rest.length + 4

/-- The items that `item?` finds, up to the first time it finds none. -/
def many {α : Type} (item? : ParseM (Option α)) : Nat → ParseM (List α)
  | 0 => return []
  | count + 1 => do
    match ← item? with
    | none => return []
    | some first => return first :: (← many item? count)

/-- Carries a value through `step?`, up to the first time it has nothing to add. -/
def extend {α : Type} (step? : α → ParseM (Option α)) : Nat → α → ParseM α
  | 0, value => return value
  | count + 1, value => do
    match ← step? value with
    | none => return value
    | some next => extend step? count next

/-- One or more items with commas between them. -/
def separated {α : Type} (item : ParseM α) : Nat → ParseM (List α)
  | 0 => return []
  | count + 1 => do
    let first ← item
    if ← seesMark .comma then
      advance
      return first :: (← separated item count)
    else return [first]

/-- Items with commas between them, or after the last, up to the mark that closes the list. The
mark itself is left to the caller. -/
def listed {α : Type} (close : Punctuator) (item : ParseM α) : Nat → ParseM (List α)
  | 0 => return []
  | count + 1 => do
    if ← seesMark close then return []
    else
      let first ← item
      if ← seesMark .comma then
        advance
        return first :: (← listed close item count)
      else return [first]

end ParseM

end JsPrune
