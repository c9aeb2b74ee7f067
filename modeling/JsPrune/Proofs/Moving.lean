import JsPrune.Proofs.Phrases

/-!
# How a parser moves

A step of parsing leaves a parser behind whether it answers or refuses. `Keeps` relates that parser
to the one the step began with, and asks nothing of the answer. So it covers the refusals that leave
from the middle of a construct. A refusal puts the blame on a span, and that is the span of a token
which was the current one somewhere on the way, though perhaps long before the refusal; `Meets` says
so, and is part of what is kept.

The parser moves in few ways: it goes on to the next token, reads one ahead, charges for a link of a
chain, and gives the links of a finished chain back. A relation that holds across each of these moves
(`Steady`, `Charging`) is kept by every function of the grammar, if the parsers of the level inside
keep it. The functions are taken one by one over an arbitrary inner level, in `Level.Honours`. What
entering and leaving a level does to a relation is left to the relation.
-/

namespace JsPrune

open ParseM Grammar
open Source (Span)

variable {α β : Type}

/-- The parser that a step leaves behind, whether it answers or refuses. -/
def ParseM.leaves (step : ParseM α) (parser : Parser) : Parser :=
  match step parser with
  | .ok _ after => after
  | .error _ after => after

/-- A step that answers leaves the parser of its answer. -/
theorem ParseM.leaves_of_ok {step : ParseM α} {parser after : Parser} {value : α}
    (h : step parser = .ok value after) : step.leaves parser = after := by
  rw [leaves, h]

/-- A step that refuses leaves the parser of its refusal. -/
theorem ParseM.leaves_of_error {step : ParseM α} {parser after : Parser} {refusal : Refusal}
    (h : step parser = .error refusal after) : step.leaves parser = after := by
  rw [leaves, h]

/-- The span that a step refuses the text for, if it refuses. -/
def ParseM.blames (step : ParseM α) (parser : Parser) : Option Span :=
  match step parser with
  | .ok _ _ => none
  | .error refusal _ => some refusal.span

/-- A step that answers blames nothing. -/
theorem ParseM.blames_of_ok {step : ParseM α} {parser after : Parser} {value : α}
    (h : step parser = .ok value after) : step.blames parser = none := by
  rw [blames, h]

/-- A step that refuses blames the span of its refusal. -/
theorem ParseM.blames_of_error {step : ParseM α} {parser after : Parser} {refusal : Refusal}
    (h : step parser = .error refusal after) : step.blames parser = some refusal.span := by
  rw [blames, h]

/-- A level is left the way it was entered, whatever happens on it. -/
theorem ParseM.leaves_nested (body : ParseM α) (parser : Parser) : (nested body).leaves parser =
    if maxTreeDepth ≤ parser.treeDepth then parser
    else
      let last := body.leaves (parser.setDepth (parser.nesting + 1) (parser.treeDepth + 1))
      last.setDepth (last.nesting - 1) parser.treeDepth := by
  rw [leaves, nested]
  by_cases full : maxTreeDepth ≤ parser.treeDepth
  · rw [if_pos full, if_pos full]
    rfl
  · rw [if_neg full, if_neg full, leaves]
    cases body (parser.setDepth (parser.nesting + 1) (parser.treeDepth + 1)) <;> rfl

/-- A level puts the blame where its body does, unless there is no room for it. -/
theorem ParseM.blames_nested (body : ParseM α) (parser : Parser) : (nested body).blames parser =
    if maxTreeDepth ≤ parser.treeDepth then some parser.current.span
    else body.blames (parser.setDepth (parser.nesting + 1) (parser.treeDepth + 1)) := by
  rw [blames, nested]
  by_cases full : maxTreeDepth ≤ parser.treeDepth
  · rw [if_pos full, if_pos full]
    rfl
  · rw [if_neg full, if_neg full, blames]
    cases body (parser.setDepth (parser.nesting + 1) (parser.treeDepth + 1)) <;> rfl

/-- A run leaves the parser that its step leaves. -/
theorem Parser.run_snd (parser : Parser) (step : ParseM α) : (parser.run step).2 = step.leaves parser := by
  rw [Parser.run, leaves]
  cases step parser <;> rfl

/-- The error of a run is about the span that is blamed. -/
theorem Parser.error_of_run {parser : Parser} {step : ParseM α} {error : Error}
    (h : (parser.run step).1 = .error error) : ∃ complaint, ∃ span ∈ step.blames parser,
      error = Refusal.toError ⟨complaint, span⟩ (step.leaves parser).source := by
  rw [Parser.run] at h
  cases hstep : step parser with
  | ok value after =>
    rw [hstep] at h
    cases h
  | error refusal after =>
    rw [hstep] at h
    cases h
    rw [blames_of_error hstep, leaves_of_error hstep]
    exact ⟨refusal.complaint, refusal.span, rfl, rfl⟩

/-- A relation between a parser and a later one that holds across moves from token to token. -/
class Steady (R : Parser → Parser → Prop) : Prop where
  refl : ∀ parser, R parser parser
  trans : ∀ {first second third}, R first second → R second third → R first third
  advance : ∀ parser, R parser parser.advance
  peek : ∀ parser, R parser parser.peek.2

/-- Such a relation that also holds across the links of a chain, and when they are given back. -/
class Charging (R : Parser → Parser → Prop) : Prop extends Steady R where
  link : ∀ parser, parser.treeDepth < maxTreeDepth →
    R parser (parser.setDepth parser.nesting (parser.treeDepth + 1))
  settle : ∀ {first last}, R first last → R first (last.setDepth last.nesting first.treeDepth)

/-- Some parser that `base` can get to has its current token there. -/
def Meets (R : Parser → Parser → Prop) (base : Parser) (span : Span) : Prop :=
  ∃ met, R base met ∧ met.current.span = span

/-- What can be met from somewhere on the way can be met from the start. -/
theorem Meets.back {R : Parser → Parser → Prop} [Steady R] {base parser : Parser} {span : Span}
    (hbase : R base parser) : Meets R parser span → Meets R base span
  | ⟨met, hmet, hspan⟩ => ⟨met, Steady.trans hbase hmet, hspan⟩

/-- Taken anywhere that `base` can get to, the step leads to a parser that `base` can get to, whatever
becomes of it, and blames only what `base` can meet. -/
def Keeps (R : Parser → Parser → Prop) (base : Parser) (step : ParseM α) : Prop :=
  ∀ parser, R base parser →
    R base (step.leaves parser) ∧ ∀ span ∈ step.blames parser, Meets R base span

namespace Keeps

variable {R : Parser → Parser → Prop} {base : Parser}

/-- A step that is one of two keeps what both keep. -/
theorem ite {test : Prop} [Decidable test] {yes no : ParseM α}
    (hyes : Keeps R base yes) (hno : Keeps R base no) : Keeps R base (if test then yes else no) := by
  split
  · exact hyes
  · exact hno

/-- A step that only moves. -/
theorem of_ok {step : ParseM α} {value : Parser → α} {move : Parser → Parser}
    (hstep : ∀ parser, step parser = .ok (value parser) (move parser))
    (h : ∀ parser, R base parser → R base (move parser)) : Keeps R base step := by
  intro parser hbase
  rw [leaves_of_ok (hstep parser), blames_of_ok (hstep parser)]
  exact ⟨h parser hbase, nofun⟩

/-! ## Putting steps together -/

/-- An answer alone changes nothing. -/
theorem pure (value : α) : Keeps R base (Pure.pure value : ParseM α) :=
  of_ok (fun _ => rfl) fun _ => id

/-- A refusal of the first step is one of both; after an answer it is for the next step to keep the
relation. -/
theorem bind {step : ParseM α} {next : α → ParseM β} (h : Keeps R base step)
    (hnext : ∀ a, Keeps R base (next a)) : Keeps R base (step >>= next) := by
  intro parser hbase
  have first := h parser hbase
  cases hstep : step parser with
  | ok a middle =>
    rw [leaves_of_ok hstep] at first
    rw [leaves, blames, bind_of_ok hstep]
    exact hnext a middle first.1
  | error refusal middle =>
    rw [leaves_of_error hstep, blames_of_error hstep] at first
    rw [leaves_of_error (bind_of_error hstep), blames_of_error (bind_of_error hstep)]
    exact first

/-- A refusal may blame any span that can be met. -/
theorem refuseAt {span : Span} (h : Meets R base span) (complaint : Complaint) :
    Keeps R base (ParseM.refuseAt span complaint : ParseM α) := by
  intro parser hbase
  refine ⟨hbase, fun blamed hblamed => ?_⟩
  cases hblamed
  exact h

/-- A refusal of the current token is always allowed, since the parser meets itself. -/
theorem refuse (complaint : Complaint) : Keeps R base (ParseM.refuse complaint : ParseM α) := by
  intro parser hbase
  refine ⟨hbase, fun blamed hblamed => ?_⟩
  cases hblamed
  exact ⟨parser, hbase, rfl⟩

/-- So is one that names the current token. -/
theorem unexpected : Keeps R base (ParseM.unexpected : ParseM α) :=
  fun parser => refuse (α := α) (.unexpected parser.current.kind) parser

/-! ## Looking and moving -/

theorem get : Keeps R base (MonadState.get : ParseM Parser) := of_ok (fun _ => rfl) fun _ => id

theorem token : Keeps R base ParseM.token := of_ok (fun _ => rfl) fun _ => id

/-- The current token, which may be blamed later. -/
theorem token_bind {next : Token → ParseM β}
    (h : ∀ found, Meets R base found.span → Keeps R base (next found)) :
    Keeps R base (ParseM.token >>= next) :=
  fun parser hbase => h parser.current ⟨parser, hbase, rfl⟩ parser hbase

/-- Looking for a mark moves nothing. -/
theorem seesMark (symbol : Punctuator) : Keeps R base (ParseM.seesMark symbol) :=
  of_ok (fun _ => rfl) fun _ => id

/-- Looking for a word moves nothing. -/
theorem seesWord (word : Keyword) : Keeps R base (ParseM.seesWord word) :=
  of_ok (fun _ => rfl) fun _ => id

theorem rounds : Keeps R base ParseM.rounds := of_ok (fun _ => rfl) fun _ => id

/-! ## Repetition -/

/-- A loop keeps what each of its turns keeps. -/
theorem many {item? : ParseM (Option α)} (h : Keeps R base item?) :
    (count : Nat) → Keeps R base (ParseM.many item? count)
  | 0 => pure _
  | count + 1 => by
    refine h.bind fun found => ?_
    cases found with
    | none => exact pure _
    | some first => exact (many h count).bind fun _ => pure _

/-- So does a loop that carries a value along. -/
theorem extend {step? : α → ParseM (Option α)} (h : ∀ value, Keeps R base (step? value)) :
    (count : Nat) → (value : α) → Keeps R base (ParseM.extend step? count value)
  | 0, value => pure _
  | count + 1, value => by
    refine (h value).bind fun found => ?_
    cases found with
    | none => exact pure _
    | some next => exact extend h count next

section Moves

variable [Steady R]

/-- Going on is one of the moves that a steady relation holds across. -/
theorem advance : Keeps R base ParseM.advance :=
  of_ok (fun _ => rfl) fun parser hbase => Steady.trans hbase (Steady.advance parser)

/-- So is reading ahead. -/
theorem peek : Keeps R base ParseM.peek :=
  of_ok (fun _ => rfl) fun parser hbase => Steady.trans hbase (Steady.peek parser)

/-- A mark that is missing is blamed on the token in its place. -/
theorem expect (symbol : Punctuator) : Keeps R base (ParseM.expect symbol) :=
  (seesMark symbol).bind fun _ => ite advance (token.bind fun _ => refuse _)

/-- A name that is missing is blamed on the token in its place. -/
theorem identifier : Keeps R base ParseM.identifier := by
  refine token.bind fun found => ?_
  split
  · exact advance.bind fun _ => pure _
  · exact refuse _

/-- A semicolon that is missing is blamed on the token in its place. -/
theorem semicolon : Keeps R base ParseM.semicolon :=
  (seesMark .semicolon).bind fun _ => ite advance
    (get.bind fun _ => ite (pure _) (token.bind fun _ => refuse _))

/-- Items with commas keep what each of them keeps. -/
theorem separated {item : ParseM α} (h : Keeps R base item) :
    (count : Nat) → Keeps R base (ParseM.separated item count)
  | 0 => pure _
  | count + 1 => h.bind fun _ => (seesMark .comma).bind fun _ =>
    ite (advance.bind fun _ => (separated h count).bind fun _ => pure _) (pure _)

/-- So do items up to a closing mark. -/
theorem listed {close : Punctuator} {item : ParseM α} (h : Keeps R base item) :
    (count : Nat) → Keeps R base (ParseM.listed close item count)
  | 0 => pure _
  | count + 1 => (seesMark close).bind fun _ => ite (pure _) (h.bind fun _ =>
    (seesMark .comma).bind fun _ =>
      ite (advance.bind fun _ => (listed h count).bind fun _ => pure _) (pure _))

end Moves

/-! ## Chains -/

section Chains

variable [Charging R]

/-- A link is refused at the current token, or charged. -/
theorem chainLink : Keeps R base ParseM.chainLink := by
  intro parser hbase
  have run : ParseM.chainLink parser = (if maxTreeDepth ≤ parser.treeDepth then
      ParseM.refuse .nestingTooDeep
    else modify fun parser => parser.setDepth parser.nesting (parser.treeDepth + 1) :
      ParseM Unit) parser := rfl
  by_cases full : maxTreeDepth ≤ parser.treeDepth
  · rw [if_pos full] at run
    rw [leaves_of_error run, blames_of_error run]
    exact refuse (α := Unit) .nestingTooDeep parser hbase
  · rw [if_neg full] at run
    rw [leaves_of_ok run, blames_of_ok run]
    exact ⟨Steady.trans hbase (Charging.link parser (Nat.not_le.mp full)), nofun⟩

/-- A chain that is complete gives its links back. One that is refused leaves them charged, with no
harm to the relation. -/
theorem chained {chain : ParseM α} (h : ∀ {start}, Keeps R start chain) :
    Keeps R base (ParseM.chained chain) := by
  intro parser hbase
  obtain ⟨links, blame⟩ := h parser (Steady.refl parser)
  cases hchain : chain parser with
  | ok value last =>
    rw [leaves_of_ok hchain] at links
    rw [leaves_of_ok (chained_of_ok hchain), blames_of_ok (chained_of_ok hchain)]
    exact ⟨Steady.trans hbase (Charging.settle links), nofun⟩
  | error refusal last =>
    -- The links stay charged; the level around the chain gives them back.
    rw [leaves_of_error hchain] at links
    rw [blames_of_error hchain] at blame
    rw [leaves_of_error (chained_of_error hchain), blames_of_error (chained_of_error hchain)]
    exact ⟨Steady.trans hbase links, fun span hspan => (blame span hspan).back hbase⟩

end Chains

end Keeps

/-! ## The grammar -/

/-- The parsers of an inner level keep a relation. -/
structure Level.Honours (R : Parser → Parser → Prop) (inner : Level) : Prop where
  statement : ∀ {base}, Keeps R base inner.statement
  assignment : ∀ noIn {base}, Keeps R base (inner.assignment noIn)
  unary : ∀ {base}, Keeps R base inner.unary
  callee : ∀ {base}, Keeps R base inner.callee

namespace Level.Honours

variable {R : Parser → Parser → Prop} {inner : Level} {base : Parser}

section Moves

variable [Steady R]

/-- Expressions with commas between them. -/
theorem expression (h : inner.Honours R) (noIn : Bool) : Keeps R base (Grammar.expression inner noIn) := by
  refine Keeps.rounds.bind fun count => (Keeps.separated (h.assignment noIn) count).bind fun _ => ?_
  split
  · exact .pure _
  · exact .pure _

/-- An expression in parentheses. -/
theorem parenthesized (h : inner.Honours R) : Keeps R base (Grammar.parenthesized inner) :=
  (Keeps.expect .parenOpen).bind fun _ => (h.expression false).bind fun _ =>
    (Keeps.expect .parenClose).bind fun _ => .pure _

/-- A block that the text breaks off in is blamed on its opening brace, which was met at its start.
-/
theorem block (h : inner.Honours R) : Keeps R base (Grammar.block inner) := by
  refine Keeps.token_bind fun start hstart => (Keeps.expect .braceOpen).bind fun _ =>
    Keeps.rounds.bind fun count => (Keeps.many ?_ count).bind fun _ =>
      Keeps.advance.bind fun _ => .pure _
  exact (Keeps.seesMark .braceClose).bind fun _ => .ite (.pure _) (Keeps.get.bind fun _ =>
    .ite (.refuseAt hstart _) (h.statement.bind fun _ => .pure _))

/-- A name that a declaration is missing is blamed on the token in its place. -/
theorem functionName? (tag : LambdaTag) : Keeps R base (Grammar.functionName? tag) := by
  refine Keeps.token.bind fun found => ?_
  split
  · exact Keeps.advance.bind fun _ => .pure _
  · exact .ite (.refuse _) (.pure _)

theorem parameters : Keeps R base Grammar.parameters :=
  (Keeps.expect .parenOpen).bind fun _ => Keeps.rounds.bind fun count =>
    (Keeps.listed Keeps.identifier count).bind fun _ => (Keeps.expect .parenClose).bind fun _ => .pure _

theorem lambda (h : inner.Honours R) (tag : LambdaTag) : Keeps R base (Grammar.lambda inner tag) :=
  (functionName? tag).bind fun _ => parameters.bind fun _ => h.block.bind fun _ => .pure _

/-- An array that the text breaks off in is blamed on its opening bracket. -/
theorem array (h : inner.Honours R) : Keeps R base (Grammar.array inner) := by
  refine Keeps.token_bind fun start hstart => (Keeps.expect .bracketOpen).bind fun _ =>
    Keeps.rounds.bind fun count => (Keeps.listed ?_ count).bind fun _ =>
      (Keeps.expect .bracketClose).bind fun _ => .pure _
  exact Keeps.get.bind fun _ => .ite (.refuseAt hstart _) ((Keeps.seesMark .comma).bind fun _ =>
    .ite (.refuse _) (h.assignment false))

/-- A key that is cut off is blamed on the start of the object, which has to have been met. -/
theorem key {start : Span} (hstart : Meets R base start) : Keeps R base (Grammar.key start) := by
  refine Keeps.token.bind fun found => ?_
  split
  · exact Keeps.advance.bind fun _ => .pure _
  · exact Keeps.advance.bind fun _ => .pure _
  · exact Keeps.advance.bind fun _ => .pure _
  · exact Keeps.get.bind fun _ => Keeps.advance.bind fun _ => .pure _
  · exact .refuseAt hstart _
  · exact .refuse _

/-- An entry may blame the start of the object it stands in. -/
theorem entry (h : inner.Honours R) {start : Span} (hstart : Meets R base start) :
    Keeps R base (Grammar.entry inner start) :=
  (key hstart).bind fun _ => (Keeps.expect .colon).bind fun _ =>
    (h.assignment false).bind fun _ => .pure _

/-- An object that the text breaks off in is blamed on its opening brace. -/
theorem object (h : inner.Honours R) : Keeps R base (Grammar.object inner) :=
  Keeps.token_bind fun _ hstart => (Keeps.expect .braceOpen).bind fun _ =>
    Keeps.rounds.bind fun count => (Keeps.listed (h.entry hstart) count).bind fun _ =>
      (Keeps.expect .braceClose).bind fun _ => .pure _

/-- A leaf after its token. -/
theorem leaf (node : Node) : Keeps R base (do
    ParseM.advance
    return node : ParseM Node) :=
  Keeps.advance.bind fun _ => .pure _

/-- Whatever needs no operator keeps the relation. -/
theorem primary (h : inner.Honours R) : Keeps R base (Grammar.primary inner) := by
  refine Keeps.token.bind fun found => ?_
  split
  · exact leaf _
  · exact leaf _
  · exact leaf _
  · exact leaf _
  · exact leaf _
  · exact leaf _
  · exact leaf _
  · exact Keeps.advance.bind fun _ => h.lambda .expression
  · exact h.parenthesized
  · exact h.array
  · exact h.object
  · exact .unexpected

theorem arguments (h : inner.Honours R) : Keeps R base (Grammar.arguments inner) :=
  (Keeps.expect .parenOpen).bind fun _ => Keeps.rounds.bind fun count =>
    (Keeps.listed (h.assignment false) count).bind fun _ =>
      (Keeps.expect .parenClose).bind fun _ => .pure _

/-- What a chain starts with charges for no link yet. -/
theorem chainHead (h : inner.Honours R) : Keeps R base (Grammar.chainHead inner) := by
  refine (Keeps.seesWord .newKw).bind fun _ => .ite ?_ h.primary
  exact Keeps.advance.bind fun _ => h.callee.bind fun _ => (Keeps.seesMark .parenOpen).bind fun _ =>
    .ite (h.arguments.bind fun _ => .pure _) (.pure _)

end Moves

section Chains

variable [Charging R]

/-- Every link is charged for before it is read. -/
theorem chainStep (h : inner.Honours R) (allowCall : Bool) (owner : Node) :
    Keeps R base (Grammar.chainStep inner allowCall owner) := by
  refine (Keeps.seesMark .dot).bind fun _ => .ite (Keeps.chainLink.bind fun _ => ?_) ?_
  · refine Keeps.advance.bind fun _ => Keeps.token.bind fun found => ?_
    split
    · exact Keeps.advance.bind fun _ => .pure _
    · exact Keeps.advance.bind fun _ => .pure _
    · exact .refuse _
  refine (Keeps.seesMark .bracketOpen).bind fun _ => .ite (Keeps.chainLink.bind fun _ => ?_) ?_
  · exact Keeps.advance.bind fun _ => (h.expression false).bind fun _ =>
      (Keeps.expect .bracketClose).bind fun _ => .pure _
  refine (Keeps.seesMark .parenOpen).bind fun _ => .ite (Keeps.chainLink.bind fun _ => ?_) (.pure _)
  exact h.arguments.bind fun _ => .pure _

/-- A chain gives back the links it was charged for. -/
theorem chain (h : inner.Honours R) (allowCall : Bool) : Keeps R base (Grammar.chain inner allowCall) :=
  .chained (h.chainHead.bind fun _ => Keeps.rounds.bind fun count =>
    .extend (h.chainStep allowCall) count _)

/-- A stepping operator after something that can not be assigned to is blamed on itself. -/
theorem postfixed (h : inner.Honours R) : Keeps R base (Grammar.postfixed inner) := by
  refine (h.chain true).bind fun _ => Keeps.token.bind fun found => ?_
  split
  · exact .pure _
  · exact .ite (Keeps.advance.bind fun _ => .pure _) (.refuse _)

/-- A stepping operator before something that can not be assigned to is blamed on itself, when its
operand has been read. -/
theorem operand (h : inner.Honours R) : Keeps R base (Grammar.unary inner) := by
  refine Keeps.token_bind fun found hfound => ?_
  split
  · exact h.postfixed
  · exact Keeps.advance.bind fun _ => h.unary.bind fun _ => .ite (.refuseAt hfound _) (.pure _)

end Chains

end Level.Honours

/-- Operators of all levels, by recursion on the levels that bind tighter. -/
theorem Keeps.climb {R : Parser → Parser → Prop} [Charging R] {base : Parser} {operand : ParseM Node}
    (h : ∀ {start}, Keeps R start operand) (noIn : Bool) (least : Nat) :
    Keeps R base (Grammar.climb operand noIn least) := by
  have right (level : Nat) {start : Parser} :
      Keeps R start (rightOperand operand noIn least level) := by
    unfold rightOperand
    split
    · exact Keeps.climb h noIn (level + 1)
    · exact h
  have step (left : Node) {start : Parser} : Keeps R start (climbStep operand noIn least left) := by
    refine Keeps.token.bind fun found => ?_
    split
    · exact .pure _
    · exact .ite (.pure _) (Keeps.advance.bind fun _ => Keeps.chainLink.bind fun _ =>
        (right _).bind fun _ => .pure _)
  rw [climb_eq]
  exact .chained (h.bind fun _ => Keeps.rounds.bind fun count => .extend (fun left => step left) count _)
termination_by tightest + 1 - least
decreasing_by omega

namespace Level.Honours

variable {R : Parser → Parser → Prop} [Charging R] {inner : Level} {base : Parser}

/-- A conditional takes its parts from the level inside. -/
theorem conditional (h : inner.Honours R) (noIn : Bool) : Keeps R base (Grammar.conditional inner noIn) :=
  (Keeps.climb h.operand noIn _).bind fun _ => (Keeps.seesMark .question).bind fun _ =>
    .ite (Keeps.advance.bind fun _ => (h.assignment false).bind fun _ =>
      (Keeps.expect .colon).bind fun _ => (h.assignment noIn).bind fun _ => .pure _) (.pure _)

/-- Where the left side can not be assigned to, its first token is blamed. -/
theorem assigning (h : inner.Honours R) (noIn : Bool) : Keeps R base (Grammar.assignment inner noIn) := by
  refine Keeps.token_bind fun start hstart => (h.conditional noIn).bind fun _ =>
    Keeps.token.bind fun found => ?_
  split
  · exact .pure _
  · exact .ite (Keeps.advance.bind fun _ => (h.assignment noIn).bind fun _ => .pure _)
      (.refuseAt hstart _)

/-! ## Statements -/

/-- A binding and the value it may have. -/
theorem definition (h : inner.Honours R) (noIn : Bool) : Keeps R base (Grammar.definition inner noIn) :=
  Keeps.identifier.bind fun _ => (Keeps.seesMark .assign).bind fun _ =>
    .ite (Keeps.advance.bind fun _ => (h.assignment noIn).bind fun _ => .pure _) (.pure _)

/-- A declaration goes from binding to binding. -/
theorem declaration (h : inner.Honours R) (tag : DeclarationTag) (noIn : Bool) :
    Keeps R base (Grammar.declaration inner tag noIn) :=
  Keeps.advance.bind fun _ => Keeps.rounds.bind fun count =>
    (Keeps.separated (h.definition noIn) count).bind fun _ => .pure _

/-- A choice, with `else` or without. -/
theorem ifElse (h : inner.Honours R) : Keeps R base (Grammar.ifElse inner) :=
  Keeps.advance.bind fun _ => h.parenthesized.bind fun _ => h.statement.bind fun _ =>
    (Keeps.seesWord .elseKw).bind fun _ =>
      .ite (Keeps.advance.bind fun _ => h.statement.bind fun _ => .pure _) (.pure _)

theorem whileLoop (h : inner.Honours R) : Keeps R base (Grammar.whileLoop inner) :=
  Keeps.advance.bind fun _ => h.parenthesized.bind fun _ => h.statement.bind fun _ => .pure _

/-- A `do` without `while` is blamed on the token in its place. -/
theorem doLoop (h : inner.Honours R) : Keeps R base (Grammar.doLoop inner) := by
  refine Keeps.advance.bind fun _ => h.statement.bind fun _ => (Keeps.seesWord .whileKw).bind fun _ =>
    .ite ?_ (Keeps.token.bind fun _ => .refuse _)
  exact Keeps.advance.bind fun _ => h.parenthesized.bind fun _ => (Keeps.seesMark .semicolon).bind
    fun _ => .ite (Keeps.advance.bind fun _ => .pure _) (.pure _)

/-- An expression that may be left out. -/
theorem optionalExpression (h : inner.Honours R) (close : Punctuator) :
    Keeps R base (Grammar.optionalExpression inner close) :=
  (Keeps.seesMark close).bind fun _ => .ite (.pure _) ((h.expression false).bind fun _ => .pure _)

/-- A head that does not fit the keys of an object is blamed on the word `in`. -/
theorem forIn (h : inner.Honours R) (init : Node) : Keeps R base (Grammar.forIn inner init) := by
  unfold Grammar.forIn
  split
  · exact .refuse _
  · exact Keeps.advance.bind fun _ => (h.expression false).bind fun _ =>
      (Keeps.expect .parenClose).bind fun _ => h.statement.bind fun _ => .pure _

/-- What comes first in the head of a loop, if anything does. -/
theorem forInit? (h : inner.Honours R) : Keeps R base (Grammar.forInit? inner) := by
  refine (Keeps.seesMark .semicolon).bind fun _ => .ite (.pure _) (Keeps.token.bind fun found => ?_)
  split
  · exact (h.declaration _ true).bind fun _ => .pure _
  · exact (h.expression true).bind fun _ => .pure _

/-- A loop with a head of several parts, of either form. -/
theorem forLoop (h : inner.Honours R) : Keeps R base (Grammar.forLoop inner) := by
  refine Keeps.advance.bind fun _ => (Keeps.expect .parenOpen).bind fun _ =>
    h.forInit?.bind fun init => (Keeps.seesWord .inKw).bind fun _ => ?_
  split
  · exact h.forIn _
  · exact (Keeps.expect .semicolon).bind fun _ => (h.optionalExpression .semicolon).bind fun _ =>
      (Keeps.expect .semicolon).bind fun _ => (h.optionalExpression .parenClose).bind fun _ =>
        (Keeps.expect .parenClose).bind fun _ => h.statement.bind fun _ => .pure _

/-- A `throw` without its value is blamed on the token in its place. -/
theorem exit (h : inner.Honours R) (tag : ExitTag) : Keeps R base (Grammar.exit inner tag) := by
  have value? : Keeps R base (Grammar.exitValue? inner tag) :=
    Keeps.get.bind fun _ => .ite (.ite (.refuse _) (.pure _)) ((h.expression false).bind fun _ => .pure _)
  exact Keeps.advance.bind fun _ => value?.bind fun _ => Keeps.semicolon.bind fun _ => .pure _

theorem jump (tag : JumpTag) : Keeps R base (Grammar.jump tag) := by
  have label? : Keeps R base Grammar.jumpLabel? := by
    refine Keeps.token.bind fun found => ?_
    split
    · exact Keeps.advance.bind fun _ => .pure _
    · exact .pure _
  exact Keeps.advance.bind fun _ => label?.bind fun _ => Keeps.semicolon.bind fun _ => .pure _

theorem labeled (h : inner.Honours R) : Keeps R base (Grammar.labeled inner) :=
  Keeps.identifier.bind fun _ => (Keeps.expect .colon).bind fun _ => h.statement.bind fun _ => .pure _

omit [Charging R] in
/-- The statements of a branch end at a word that ends the branch. -/
theorem branchBody (h : inner.Honours R) : Keeps R base (Grammar.branchBody inner) := by
  refine Keeps.rounds.bind fun count => Keeps.many (Keeps.token.bind fun found => ?_) count
  split
  · exact .pure _
  · exact .pure _
  · exact .pure _
  · exact .pure _
  · exact h.statement.bind fun _ => .pure _

/-- A switch that is cut off is blamed on its opening brace, which has to have been met. -/
theorem branch? (h : inner.Honours R) {start : Span} (hstart : Meets R base start) :
    Keeps R base (Grammar.branch? inner start) := by
  refine Keeps.token.bind fun found => ?_
  split
  · exact .pure _
  · exact Keeps.advance.bind fun _ => (h.expression false).bind fun _ =>
      (Keeps.expect .colon).bind fun _ => h.branchBody.bind fun _ => .pure _
  · exact Keeps.advance.bind fun _ => (Keeps.expect .colon).bind fun _ =>
      h.branchBody.bind fun _ => .pure _
  · exact .refuseAt hstart _
  · exact .unexpected

/-- The opening brace of a switch is met before its branches are read. -/
theorem switch (h : inner.Honours R) : Keeps R base (Grammar.switch inner) :=
  Keeps.advance.bind fun _ => h.parenthesized.bind fun _ => Keeps.token_bind fun _ hstart =>
    (Keeps.expect .braceOpen).bind fun _ => Keeps.rounds.bind fun count =>
      (Keeps.many (h.branch? hstart) count).bind fun _ => Keeps.advance.bind fun _ => .pure _

theorem handler? (h : inner.Honours R) : Keeps R base (Grammar.handler? inner) :=
  (Keeps.seesWord .catchKw).bind fun _ => .ite (Keeps.advance.bind fun _ =>
    (Keeps.expect .parenOpen).bind fun _ => Keeps.identifier.bind fun _ =>
      (Keeps.expect .parenClose).bind fun _ => h.block.bind fun _ => .pure _) (.pure _)

theorem finalizer? (h : inner.Honours R) : Keeps R base (Grammar.finalizer? inner) :=
  (Keeps.seesWord .finallyKw).bind fun _ =>
    .ite (Keeps.advance.bind fun _ => h.block.bind fun _ => .pure _) (.pure _)

/-- A `try` without any clause is blamed on the token in its place. -/
theorem tryCatch (h : inner.Honours R) : Keeps R base (Grammar.tryCatch inner) :=
  Keeps.advance.bind fun _ => h.block.bind fun _ => h.handler?.bind fun _ => h.finalizer?.bind fun _ =>
    .ite (.refuse _) (.pure _)

theorem simple (h : inner.Honours R) : Keeps R base (Grammar.simple inner) :=
  (h.expression false).bind fun _ => Keeps.semicolon.bind fun _ => .pure _

/-- Whatever statement a reserved word opens keeps the relation. -/
theorem wordStatement (h : inner.Honours R) (word : Keyword) :
    Keeps R base (Grammar.wordStatement inner word) := by
  have declared (tag : DeclarationTag) : Keeps R base (do
      let declared ← Grammar.declaration inner tag false
      ParseM.semicolon
      return declared : ParseM Node) :=
    (h.declaration tag false).bind fun _ => Keeps.semicolon.bind fun _ => .pure _
  unfold Grammar.wordStatement
  split
  · exact declared .var
  · exact declared .let_
  · exact declared .const
  · exact h.ifElse
  · exact h.whileLoop
  · exact h.doLoop
  · exact h.forLoop
  · exact h.exit .return_
  · exact h.exit .throw
  · exact jump .break_
  · exact jump .continue_
  · exact h.switch
  · exact h.tryCatch
  · exact Keeps.advance.bind fun _ => h.lambda .declaration
  · exact Keeps.advance.bind fun _ => Keeps.semicolon.bind fun _ => .pure _
  · exact h.simple

/-- Every statement keeps a relation that the level inside keeps. -/
theorem statement' (h : inner.Honours R) : Keeps R base (Grammar.statement inner) := by
  have label : Keeps R base Grammar.seesLabel := by
    refine Keeps.token.bind fun found => ?_
    split
    · exact Keeps.peek.bind fun _ => .pure _
    · exact .pure _
  refine label.bind fun _ => .ite h.labeled (Keeps.token.bind fun found => ?_)
  split
  · exact h.block.bind fun _ => .pure _
  · exact Keeps.advance.bind fun _ => .pure _
  · exact h.wordStatement _
  · exact h.simple

end Level.Honours

/-! ## Whole texts -/

section Texts

variable {R : Parser → Parser → Prop} {base : Parser}

/-- A whole program keeps what the outermost level keeps. -/
theorem keeps_program (h : (Level.ofNat maxNesting).Honours R) : Keeps R base Parser.programM := by
  have statement? : Keeps R base Parser.statement? :=
    Keeps.get.bind fun _ => .ite (.pure _) (h.statement.bind fun _ => .pure _)
  exact Keeps.rounds.bind fun count => (statement?.many count).bind fun _ => .pure _

/-- So does a single expression, with what is left over blamed on its first token. -/
theorem keeps_expression [Steady R] (h : (Level.ofNat maxNesting).Honours R) :
    Keeps R base Parser.expressionM :=
  (h.expression false).bind fun _ => Keeps.get.bind fun _ => .ite (.pure _) .unexpected

end Texts

end JsPrune
