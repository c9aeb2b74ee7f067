import JsPrune.Proofs.Conformance
import JsPrune.Proofs.Expressions

/-!
# How tall a parsed tree can get

The parser counts levels, but it does not measure the tree. A chain of links gives its levels back
once it is complete, and what the chain started from was never charged for them. So the counter
bounds each chain by itself, and the limit on nesting bounds how many chains can stand inside each
other. Together these do bound the tree, though far above `maxTreeDepth`.

`Builds` says what a step answers when it succeeds, and that the counter is where it was. Every
function of the grammar puts at most a fixed number of levels on top of what its inner level builds.
Main results: `Level.caps_ofNat` and from it `height_le_of_parse`.
-/

namespace JsPrune

open ParseM Grammar

variable {α β : Type}

/-! ## What a step builds -/

/-- When the step succeeds, its value is as `post` says and the parser is at the same level again. -/
def Builds (post : α → Prop) (step : ParseM α) : Prop :=
  ∀ parser value after, step parser = .ok value after →
    post value ∧ after.treeDepth = parser.treeDepth

/-- A step that succeeds stays at its level. -/
abbrev Stays (step : ParseM α) : Prop := Builds (fun _ => True) step

/-- What a sequence of two steps went through. -/
theorem ok_of_bind {step : ParseM α} {next : α → ParseM β} {parser after : Parser} {b : β}
    (h : (step >>= next) parser = .ok b after) :
    ∃ a middle, step parser = .ok a middle ∧ next a middle = .ok b after := by
  cases hstep : step parser with
  | ok a middle =>
    rw [bind_of_ok hstep] at h
    exact ⟨a, middle, rfl, h⟩
  | error refusal middle =>
    rw [bind_of_error hstep] at h
    cases h

namespace Builds

variable {post : α → Prop} {goal : β → Prop}

/-- An answer leaves the counter where it is. -/
theorem pure {value : α} (h : post value) : Builds post (Pure.pure value) := by
  intro parser result after hstep
  cases hstep
  exact ⟨h, rfl⟩

/-- Of two steps the second builds the answer, from what the first one built. -/
theorem bind {step : ParseM α} {next : α → ParseM β} (h : Builds post step)
    (hnext : ∀ a, post a → Builds goal (next a)) : Builds goal (step >>= next) := by
  intro parser b after hrun
  obtain ⟨a, middle, hstep, hrest⟩ := ok_of_bind hrun
  obtain ⟨hpost, hlevel⟩ := h parser a middle hstep
  obtain ⟨hgoal, hlevel'⟩ := hnext a hpost middle b after hrest
  exact ⟨hgoal, hlevel'.trans hlevel⟩

/-- A step whose answer does not matter comes first. -/
theorem after {step : ParseM α} {next : α → ParseM β} (h : Stays step)
    (hnext : ∀ a, Builds goal (next a)) : Builds goal (step >>= next) :=
  h.bind fun a _ => hnext a

/-- What is built well is built well enough. -/
theorem mono {weaker : α → Prop} {step : ParseM α} (h : Builds post step)
    (himp : ∀ a, post a → weaker a) : Builds weaker step := by
  intro parser value after hstep
  obtain ⟨hpost, hlevel⟩ := h parser value after hstep
  exact ⟨himp value hpost, hlevel⟩

/-- A refusal builds nothing, so anything can be said of it. -/
theorem refuseAt (span : Source.Span) (complaint : Complaint) :
    Builds post (ParseM.refuseAt span complaint) := by
  intro parser value after hstep
  cases hstep

theorem refuse (complaint : Complaint) : Builds post (ParseM.refuse complaint) := by
  intro parser value after hstep
  cases hstep

theorem unexpected : Builds post ParseM.unexpected := by
  intro parser value after hstep
  cases hstep

/-- Looking at the state moves no counter. -/
theorem get : Stays (MonadState.get : ParseM Parser) := by
  intro parser value after hstep
  cases hstep
  exact ⟨trivial, rfl⟩

theorem token : Stays ParseM.token := get.after fun _ => pure trivial

theorem seesMark (symbol : Punctuator) : Stays (ParseM.seesMark symbol) :=
  get.after fun _ => pure trivial

theorem seesWord (word : Keyword) : Stays (ParseM.seesWord word) := get.after fun _ => pure trivial

theorem rounds : Stays ParseM.rounds := get.after fun _ => pure trivial

/-- The next token is no level. -/
theorem advance : Stays ParseM.advance := by
  intro parser value after hstep
  cases hstep
  obtain ⟨lexer, current, peeked, frame⟩ := parser.advance_frame
  refine ⟨trivial, ?_⟩
  rw [frame]

/-- A token read ahead is no level. -/
theorem peek : Stays ParseM.peek := by
  intro parser value after hstep
  obtain ⟨lexer, peeked, frame⟩ := parser.peek_frame
  have last : after = parser.peek.2 := by
    cases hstep
    rfl
  refine ⟨trivial, ?_⟩
  rw [last, frame]

/-- Either branch of a test. -/
theorem ite {test : Prop} [Decidable test] {yes no : ParseM α} (hyes : test → Builds post yes)
    (hno : ¬ test → Builds post no) : Builds post (if test then yes else no) := by
  split
  · next h => exact hyes h
  · next h => exact hno h

/-- A mark is no level. -/
theorem expect (symbol : Punctuator) : Stays (ParseM.expect symbol) :=
  (seesMark symbol).after fun _ => ite (fun _ => advance) fun _ => token.after fun _ => refuse _

/-- A name is no level. -/
theorem identifier : Stays ParseM.identifier := by
  refine token.after fun found => ?_
  split
  · exact advance.after fun _ => pure trivial
  · exact refuse _

/-- The end of a statement is no level. -/
theorem semicolon : Stays ParseM.semicolon := by
  refine (seesMark .semicolon).after fun _ => ite (fun _ => advance) fun _ => ?_
  exact get.after fun _ => ite (fun _ => pure trivial) fun _ => token.after fun _ => refuse _

/-- Whatever happens to the counter inside, a nested step gives it back. -/
theorem nested {body : ParseM α} (h : Builds post body) : Builds post (ParseM.nested body) := by
  intro parser value after hstep
  rw [ParseM.nested] at hstep
  split at hstep
  · cases hstep
  · split at hstep
    · next found last hbody =>
      cases hstep
      exact ⟨(h _ _ _ hbody).1, rfl⟩
    · cases hstep

/-! ## Repetition -/

/-- Every item of a loop is as each turn builds it. -/
theorem many {item? : ParseM (Option α)} (h : Builds (∀ value ∈ ·, post value) item?) :
    (count : Nat) → Builds (∀ value ∈ ·, post value) (ParseM.many item? count)
  | 0 => pure nofun
  | count + 1 => by
    refine h.bind fun found hfound => ?_
    cases found with
    | none => exact pure nofun
    | some first =>
      refine (many h count).bind fun rest hrest => pure ?_
      exact List.forall_mem_cons.mpr ⟨hfound first rfl, hrest⟩

/-- Every item of a list with commas is as each of them is built. -/
theorem separated {item : ParseM α} (h : Builds post item) :
    (count : Nat) → Builds (∀ value ∈ ·, post value) (ParseM.separated item count)
  | 0 => pure nofun
  | count + 1 => by
    refine h.bind fun first hfirst => (seesMark .comma).after fun _ => ite (fun _ => ?_) fun _ => ?_
    · refine advance.after fun _ => (separated h count).bind fun rest hrest => pure ?_
      exact List.forall_mem_cons.mpr ⟨hfirst, hrest⟩
    · exact pure (List.forall_mem_singleton.mpr hfirst)

/-- Every item up to a closing mark is as each of them is built. -/
theorem listed {close : Punctuator} {item : ParseM α} (h : Builds post item) :
    (count : Nat) → Builds (∀ value ∈ ·, post value) (ParseM.listed close item count)
  | 0 => pure nofun
  | count + 1 => by
    refine (seesMark close).after fun _ => ite (fun _ => pure nofun) fun _ => ?_
    refine h.bind fun first hfirst => (seesMark .comma).after fun _ => ite (fun _ => ?_) fun _ => ?_
    · refine advance.after fun _ => (listed h count).bind fun rest hrest => pure ?_
      exact List.forall_mem_cons.mpr ⟨hfirst, hrest⟩
    · exact pure (List.forall_mem_singleton.mpr hfirst)

end Builds

/-! ## Chains -/

/-- A round of a chain: nothing more, or a link on top, which is charged for. -/
def Links (post : Node → Prop) (step : ParseM (Option Node)) : Prop :=
  ∀ parser result after, step parser = .ok result after →
    (result = none ∧ after.treeDepth = parser.treeDepth) ∨
    ∃ next, result = some next ∧ post next ∧ parser.treeDepth < maxTreeDepth ∧
      after.treeDepth = parser.treeDepth + 1

namespace Links

variable {post : Node → Prop}

/-- A chain may end at every turn. -/
theorem stop : Links post (pure none) := by
  intro parser result after hstep
  cases hstep
  exact .inl ⟨rfl, rfl⟩

/-- Steps that stay at their level may come before a link. -/
theorem after {step : ParseM α} {next : α → ParseM (Option Node)} (h : Stays step)
    (hnext : ∀ a, Links post (next a)) : Links post (step >>= next) := by
  intro parser result last hrun
  obtain ⟨a, middle, hstep, hrest⟩ := ok_of_bind hrun
  obtain ⟨_, hlevel⟩ := h parser a middle hstep
  have round := hnext a middle result last hrest
  rw [hlevel] at round
  exact round

/-- A turn that is one of two. -/
theorem ite {test : Prop} [Decidable test] {yes no : ParseM (Option Node)} (hyes : Links post yes)
    (hno : Links post no) : Links post (if test then yes else no) := by
  split
  · exact hyes
  · exact hno

/-- A link is charged for, and then the rest of it is read. -/
theorem link {rest : ParseM (Option Node)}
    (h : Builds (fun found => ∃ next, found = some next ∧ post next) rest) :
    Links post (chainLink >>= fun _ => rest) := by
  intro parser result last hrun
  obtain ⟨_, middle, hlink, hrest⟩ := ok_of_bind hrun
  obtain ⟨⟨next, hnext, hpost⟩, hlevel⟩ := h middle result last hrest
  have room : parser.treeDepth < maxTreeDepth ∧ middle.treeDepth = parser.treeDepth + 1 := by
    obtain ⟨state, first, hget, hcharge⟩ := ok_of_bind hlink
    cases hget
    split at hcharge
    · cases hcharge
    · next hroom =>
      cases hcharge
      exact ⟨Nat.not_le.mp hroom, rfl⟩
  exact .inr ⟨next, hnext, hpost, room.1, hlevel.trans room.2⟩

/-- Every link is one level, and there are as many as the counter allows. -/
theorem extend {step? : Node → ParseM (Option Node)} {parts : Nat}
    (h : ∀ owner, Links (fun next => next.height ≤ max owner.height parts + 1) (step? owner))
    (count : Nat) {owner value : Node} {parser last : Parser}
    (hrun : ParseM.extend step? count owner parser = .ok value last) :
    max value.height parts + parser.treeDepth ≤ max owner.height parts + last.treeDepth ∧
      last.treeDepth ≤ max parser.treeDepth maxTreeDepth := by
  induction count generalizing owner parser with
  | zero =>
    cases hrun
    exact ⟨Nat.le_refl _, Nat.le_max_left _ _⟩
  | succ count ih =>
    obtain ⟨found, middle, hstep, hrest⟩ := ok_of_bind hrun
    rcases h owner parser found middle hstep with ⟨rfl, hlevel⟩ | ⟨next, rfl, hnext, hroom, hlevel⟩
    · cases hrest
      rw [hlevel]
      exact ⟨Nat.le_refl _, Nat.le_max_left _ _⟩
    · obtain ⟨htall, hlast⟩ := ih hrest
      omega

end Links

/-- A chain gives its levels back, whatever they were. -/
theorem Builds.chained {post : α → Prop} {chain : ParseM α}
    (h : ∀ parser value after, chain parser = .ok value after → post value) :
    Builds post (ParseM.chained chain) := by
  intro parser value after hrun
  obtain ⟨state, start, hget, hrun⟩ := ok_of_bind hrun
  cases hget
  obtain ⟨found, last, hchain, hrun⟩ := ok_of_bind hrun
  cases hrun
  exact ⟨h _ _ _ hchain, rfl⟩

/-- A whole chain, of which every link counts. -/
theorem Links.chained {head : ParseM Node} {step? : Node → ParseM (Option Node)} {parts : Nat}
    (hhead : Builds (·.height ≤ parts) head)
    (h : ∀ owner, Links (fun next => next.height ≤ max owner.height parts + 1) (step? owner)) :
    Builds (·.height ≤ parts + maxTreeDepth) (ParseM.chained (do
      let first ← head
      ParseM.extend step? (← ParseM.rounds) first)) := by
  refine Builds.chained fun parser value after hrun => ?_
  obtain ⟨first, middle, hfirst, hrun⟩ := ok_of_bind hrun
  obtain ⟨count, start, hrounds, hrun⟩ := ok_of_bind hrun
  -- The counter was low at the start and can not pass its limit, so there are only so many links.
  obtain ⟨hheight, _⟩ := hhead _ _ _ hfirst
  obtain ⟨htall, hlast⟩ := Links.extend h count hrun
  omega

/-! ## Nodes -/

/-- Every child among these contents is at most this tall. -/
def Part.UpTo (bound : Nat) (part : Part) : Prop := ∀ child ∈ part.nodes, child.height ≤ bound

namespace Part.UpTo

variable {bound : Nat}

/-- A literal has no children. -/
theorem literal (datum : Datum) : UpTo bound (.literal datum) := nofun

theorem child {node : Node} (h : node.height ≤ bound) : UpTo bound (.child node) :=
  List.forall_mem_singleton.mpr h

theorem optional {node? : Option Node} (h : ∀ node ∈ node?, node.height ≤ bound) :
    UpTo bound (.optional node?) := fun node hmem => h node (Option.mem_toList.mp hmem)

theorem sequence {nodes : List Node} (h : ∀ node ∈ nodes, node.height ≤ bound) :
    UpTo bound (.sequence nodes) := h

end Part.UpTo

/-- A node is one level on top of its children. -/
theorem Node.height_le {bound : Nat} {node : Node} (h : node.parts.Forall (Part.UpTo bound)) :
    node.height ≤ bound + 1 := by
  have below : tallest (node.children.map height) ≤ bound := by
    apply tallest_le
    intro n hn
    obtain ⟨child, hchild, rfl⟩ := List.mem_map.mp hn
    obtain ⟨part, hpart, hmem⟩ := List.mem_flatMap.mp hchild
    exact List.forall_iff_forall_mem.mp h part hpart child hmem
  rw [height_eq]
  omega

/-! ## Expressions -/

/-- What the parsers of an inner level build is at most this tall. -/
structure Level.Caps (inner : Level) (bound : Nat) : Prop where
  statement : Builds (·.height ≤ bound) inner.statement
  assignment : ∀ noIn, Builds (·.height ≤ bound) (inner.assignment noIn)
  unary : Builds (·.height ≤ bound) inner.unary
  callee : Builds (·.height ≤ bound) inner.callee

namespace Level.Caps

variable {inner : Level} {bound : Nat}

/-- A row of expressions is one level on top of them. -/
theorem expression (h : inner.Caps bound) (noIn : Bool) :
    Builds (·.height ≤ bound + 1) (Grammar.expression inner noIn) := by
  refine Builds.rounds.after fun count => (Builds.separated (h.assignment noIn) count).bind ?_
  intro values hvalues
  split
  · next single =>
    exact .pure (Nat.le_succ_of_le (hvalues single (.head _)))
  · exact .pure (Node.height_le (.sequence hvalues))

/-- Parentheses add no level. -/
theorem parenthesized (h : inner.Caps bound) :
    Builds (·.height ≤ bound + 1) (Grammar.parenthesized inner) :=
  (Builds.expect .parenOpen).after fun _ => (h.expression false).bind fun _ hvalue =>
    (Builds.expect .parenClose).after fun _ => .pure hvalue

/-- The statements of a block stay below it. -/
theorem block (h : inner.Caps bound) : Builds (∀ node ∈ ·, node.height ≤ bound) (Grammar.block inner) := by
  refine Builds.token.after fun start => (Builds.expect .braceOpen).after fun _ =>
    Builds.rounds.after fun count => (Builds.many ?_ count).bind fun values hvalues =>
      Builds.advance.after fun _ => .pure hvalues
  refine (Builds.seesMark .braceClose).after fun _ => .ite (fun _ => .pure nofun) fun _ => ?_
  refine Builds.get.after fun _ => .ite (fun _ => .refuseAt _ _) fun _ => ?_
  exact h.statement.bind fun value hvalue => .pure fun node hmem => Option.mem_some.mp hmem ▸ hvalue

/-- A name is no level. -/
theorem functionName? (tag : LambdaTag) : Stays (Grammar.functionName? tag) := by
  refine Builds.token.after fun found => ?_
  split
  · exact Builds.advance.after fun _ => .pure trivial
  · exact .ite (fun _ => .refuse _) fun _ => .pure trivial

/-- Parameters are no levels. -/
theorem parameters : Stays Grammar.parameters :=
  (Builds.expect .parenOpen).after fun _ => Builds.rounds.after fun count =>
    (Builds.listed Builds.identifier count).bind fun _ _ =>
      (Builds.expect .parenClose).after fun _ => .pure trivial

/-- A function is one level on top of its statements. -/
theorem lambda (h : inner.Caps bound) (tag : LambdaTag) :
    Builds (·.height ≤ bound + 1) (Grammar.lambda inner tag) :=
  (functionName? tag).after fun _ => parameters.after fun _ => h.block.bind fun _ hbody =>
    .pure (Node.height_le ⟨.literal _, .literal _, .sequence hbody⟩)

/-- An array is one level on top of its elements. -/
theorem array (h : inner.Caps bound) : Builds (·.height ≤ bound + 1) (Grammar.array inner) := by
  refine Builds.token.after fun start => (Builds.expect .bracketOpen).after fun _ =>
    Builds.rounds.after fun count => (Builds.listed ?_ count).bind fun values hvalues =>
      (Builds.expect .bracketClose).after fun _ => .pure (Node.height_le (.sequence hvalues))
  refine Builds.get.after fun _ => .ite (fun _ => .refuseAt _ _) fun _ => ?_
  exact (Builds.seesMark .comma).after fun _ => .ite (fun _ => .refuse _) fun _ => h.assignment false

/-- A key is no level. -/
theorem key (start : Source.Span) : Stays (Grammar.key start) := by
  refine Builds.token.after fun found => ?_
  split
  · exact Builds.advance.after fun _ => .pure trivial
  · exact Builds.advance.after fun _ => .pure trivial
  · exact Builds.advance.after fun _ => .pure trivial
  · exact Builds.get.after fun _ => Builds.advance.after fun _ => .pure trivial
  · exact .refuseAt _ _
  · exact .refuse _

/-- An entry is one level on top of its value. -/
theorem entry (h : inner.Caps bound) (start : Source.Span) :
    Builds (·.height ≤ bound + 1) (Grammar.entry inner start) :=
  (key start).after fun _ => (Builds.expect .colon).after fun _ =>
    (h.assignment false).bind fun _ hvalue => .pure (Node.height_le ⟨.literal _, .child hvalue⟩)

/-- An object is two levels on top of its values, with the entries between. -/
theorem object (h : inner.Caps bound) : Builds (·.height ≤ bound + 2) (Grammar.object inner) :=
  Builds.token.after fun start => (Builds.expect .braceOpen).after fun _ =>
    Builds.rounds.after fun count => (Builds.listed (h.entry start.span) count).bind fun _ hvalues =>
      (Builds.expect .braceClose).after fun _ => .pure (Node.height_le (.sequence hvalues))

/-- A leaf after its token. -/
theorem leaf {node : Node} (h : node.children = []) : Builds (·.height ≤ bound + 2) (do
    ParseM.advance
    return node : ParseM Node) := by
  refine Builds.advance.after fun _ => .pure ?_
  rw [Node.height_eq, h]
  exact Nat.le_add_left 1 (bound + 1)

/-- The tallest of these is the object. -/
theorem primary (h : inner.Caps bound) : Builds (·.height ≤ bound + 2) (Grammar.primary inner) := by
  have wider : ∀ {step : ParseM Node}, Builds (·.height ≤ bound + 1) step →
      Builds (·.height ≤ bound + 2) step := fun built => built.mono fun _ hle => Nat.le_succ_of_le hle
  refine Builds.token.after fun found => ?_
  split
  · exact leaf rfl
  · exact leaf rfl
  · exact leaf rfl
  · exact leaf rfl
  · exact leaf rfl
  · exact leaf rfl
  · exact leaf rfl
  · exact Builds.advance.after fun _ => wider (h.lambda .expression)
  · exact wider h.parenthesized
  · exact wider h.array
  · exact h.object
  · exact .unexpected

/-- Arguments stay below their call. -/
theorem arguments (h : inner.Caps bound) :
    Builds (∀ node ∈ ·, node.height ≤ bound) (Grammar.arguments inner) :=
  (Builds.expect .parenOpen).after fun _ => Builds.rounds.after fun count =>
    (Builds.listed (h.assignment false) count).bind fun _ hvalues =>
      (Builds.expect .parenClose).after fun _ => .pure hvalues

/-- A chain starts with a constructor call or something primary. -/
theorem chainHead (h : inner.Caps bound) :
    Builds (·.height ≤ bound + 2) (Grammar.chainHead inner) := by
  refine (Builds.seesWord .newKw).after fun _ => .ite (fun _ => ?_) fun _ => h.primary
  refine Builds.advance.after fun _ => h.callee.bind fun callee hcallee =>
    (Builds.seesMark .parenOpen).after fun _ => .ite (fun _ => ?_) fun _ => ?_
  · refine h.arguments.bind fun values hvalues => .pure ?_
    exact Nat.le_succ_of_le (Node.height_le ⟨.child hcallee, .sequence hvalues⟩)
  · exact .pure (Nat.le_succ_of_le (Node.height_le ⟨.child hcallee, .sequence nofun⟩))

/-- A link is one level on top of the chain so far, or of its own contents. -/
theorem chainStep (h : inner.Caps bound) (allowCall : Bool) (owner : Node) :
    Links (fun next => next.height ≤ max owner.height (bound + 2) + 1)
      (Grammar.chainStep inner allowCall owner) := by
  have first : owner.height ≤ max owner.height (bound + 2) := Nat.le_max_left _ _
  have other : ∀ {n}, n ≤ bound + 2 → n ≤ max owner.height (bound + 2) :=
    fun hle => Nat.le_trans hle (Nat.le_max_right _ _)
  refine .after (Builds.seesMark .dot) fun _ => .ite (.link ?_) ?_
  · refine Builds.advance.after fun _ => Builds.token.after fun found => ?_
    split
    · exact Builds.advance.after fun _ => .pure ⟨_, rfl, Node.height_le ⟨.child first, .literal _⟩⟩
    · exact Builds.advance.after fun _ => .pure ⟨_, rfl, Node.height_le ⟨.child first, .literal _⟩⟩
    · exact .refuse _
  refine .after (Builds.seesMark .bracketOpen) fun _ => .ite (.link ?_) ?_
  · refine Builds.advance.after fun _ => (h.expression false).bind fun index hindex =>
      (Builds.expect .bracketClose).after fun _ => .pure ⟨_, rfl, ?_⟩
    exact Node.height_le ⟨.child first, .child (other (by omega))⟩
  refine .after (Builds.seesMark .parenOpen) fun _ => .ite (.link ?_) .stop
  refine h.arguments.bind fun values hvalues => .pure ⟨_, rfl, ?_⟩
  exact Node.height_le ⟨.child first, .sequence fun node hmem =>
    other (Nat.le_trans (hvalues node hmem) (by omega))⟩

/-- A chain is as tall as all of its links on top of its head, of which there are at most
`maxTreeDepth`. -/
theorem chain (h : inner.Caps bound) (allowCall : Bool) :
    Builds (·.height ≤ bound + maxTreeDepth + 2) (Grammar.chain inner allowCall) :=
  (Links.chained h.chainHead (h.chainStep allowCall)).mono fun _ hle => by omega

/-- A stepping operator is one more level. -/
theorem postfixed (h : inner.Caps bound) :
    Builds (·.height ≤ bound + maxTreeDepth + 3) (Grammar.postfixed inner) := by
  refine (h.chain true).bind fun operand hoperand => Builds.token.after fun found => ?_
  split
  · exact .pure (Nat.le_succ_of_le hoperand)
  · refine .ite (fun _ => Builds.advance.after fun _ => .pure ?_) fun _ => .refuse _
    exact Node.height_le ⟨.literal _, .child hoperand⟩

/-- A prefix operator takes its operand from the level inside. -/
theorem operand (h : inner.Caps bound) :
    Builds (·.height ≤ bound + maxTreeDepth + 3) (Grammar.unary inner) := by
  refine Builds.token.after fun found => ?_
  split
  · exact h.postfixed
  · refine Builds.advance.after fun _ => h.unary.bind fun operand hoperand =>
      .ite (fun _ => .refuseAt _ _) fun _ => .pure ?_
    refine Node.height_le ⟨.literal _, .child ?_⟩
    omega

end Level.Caps

/-- A chain that can not go on is what it started from. -/
theorem Builds.extend_none {step? : Node → ParseM (Option Node)} (owner : Node)
    (h : Builds (· = none) (step? owner)) :
    (count : Nat) → Builds (· = owner) (ParseM.extend step? count owner)
  | 0 => .pure rfl
  | count + 1 => by
    refine h.bind fun found hfound => ?_
    rw [hfound]
    exact .pure rfl

/-- No operator binds tighter than the tightest level. -/
theorem precedence_of_combining? {noIn : Bool} {kind : Token.Kind} {operator : BinaryOp}
    (h : combining? noIn kind = some operator) : operator.precedence ≤ tightest := by
  unfold combining? at h
  split at h
  · cases h
  · obtain ⟨_, hplain⟩ := Option.filter_eq_some_iff.mp h
    exact (BinaryOp.precedence_bounds (Bool.not_eq_true' _ ▸ hplain)).2

/-- Operators at each level may put as many levels on top as the counter allows. -/
theorem Builds.climb {operand : ParseM Node} {bound : Nat} (h : Builds (·.height ≤ bound) operand)
    (noIn : Bool) {least m : Nat} (hm : tightest + 1 - least ≤ m) :
    Builds (·.height ≤ bound + m * maxTreeDepth) (Grammar.climb operand noIn least) := by
  induction m generalizing least with
  | zero =>
    -- No operator binds so tightly.
    have stop : ∀ left, Builds (· = none) (climbStep operand noIn least left) := by
      intro left
      refine Builds.token.after fun found => ?_
      split
      · exact .pure rfl
      · next operator hfound =>
        have tight := precedence_of_combining? hfound
        exact .ite (fun _ => .pure rfl) fun hle => absurd hle (by omega)
    have row := h.bind fun first hfirst => Builds.rounds.after fun count =>
      (Builds.extend_none first (stop first) count).mono fun value hvalue =>
        (hvalue ▸ hfirst : value.height ≤ bound)
    rw [climb_eq, Nat.zero_mul]
    exact .chained fun parser value after hrun => (row parser value after hrun).1
  | succ m ih =>
    have right : ∀ level, least ≤ level →
        Builds (·.height ≤ bound + m * maxTreeDepth) (rightOperand operand noIn least level) := by
      intro level hle
      refine .ite (fun _ => ih (by omega)) fun _ => h.mono fun _ hheight => ?_
      exact Nat.le_trans hheight (Nat.le_add_right _ _)
    have step : ∀ left : Node,
        Links (fun next => next.height ≤ max left.height (bound + m * maxTreeDepth) + 1)
          (climbStep operand noIn least left) := by
      intro left
      refine .after Builds.token fun found => ?_
      split
      · exact .stop
      · next operator hfound =>
        split
        · exact .stop
        · next hle =>
          refine .after Builds.advance fun _ => .link ?_
          refine (right _ (Nat.not_lt.mp hle)).bind fun value hvalue => .pure ⟨_, rfl, ?_⟩
          exact Node.height_le ⟨.child (Nat.le_max_left _ _), .literal _,
            .child (Nat.le_trans hvalue (Nat.le_max_right _ _))⟩
    have first : Builds (·.height ≤ bound + m * maxTreeDepth) operand :=
      h.mono fun _ hheight => Nat.le_trans hheight (Nat.le_add_right _ _)
    rw [climb_eq, Nat.succ_mul, ← Nat.add_assoc]
    exact Links.chained first step

namespace Level.Caps

variable {inner : Level} {bound : Nat}

/-- The operators of each of ten levels, and the links of the member chains inside, may be as many as the
counter allows. -/
theorem binary (h : inner.Caps bound) (noIn : Bool) :
    Builds (·.height ≤ bound + 11 * maxTreeDepth + 3) (Grammar.binary inner noIn) :=
  (Builds.climb h.operand noIn (m := 10) (by decide)).mono fun _ hle => by omega

/-- A conditional is one level on top of its test. -/
theorem conditional (h : inner.Caps bound) (noIn : Bool) :
    Builds (·.height ≤ bound + 11 * maxTreeDepth + 4) (Grammar.conditional inner noIn) := by
  refine (h.binary noIn).bind fun test htest => (Builds.seesMark .question).after fun _ =>
    .ite (fun _ => ?_) fun _ => .pure (Nat.le_succ_of_le htest)
  refine Builds.advance.after fun _ => (h.assignment false).bind fun yes hyes =>
    (Builds.expect .colon).after fun _ => (h.assignment noIn).bind fun no hno => .pure ?_
  exact Node.height_le ⟨.child htest, .child (by omega), .child (by omega)⟩

/-- An assignment is one level on top of its left side. -/
theorem assigning (h : inner.Caps bound) (noIn : Bool) :
    Builds (·.height ≤ bound + 11 * maxTreeDepth + 5) (Grammar.assignment inner noIn) := by
  refine Builds.token.after fun start => (h.conditional noIn).bind fun left hleft =>
    Builds.token.after fun found => ?_
  split
  · exact .pure (Nat.le_succ_of_le hleft)
  · refine .ite (fun _ => ?_) fun _ => .refuseAt _ _
    refine Builds.advance.after fun _ => (h.assignment noIn).bind fun right hright => .pure ?_
    exact Node.height_le ⟨.child hleft, .literal _, .child (by omega)⟩

/-! ## Statements -/

/-- A binding is one level on top of its value. -/
theorem definition (h : inner.Caps bound) (noIn : Bool) :
    Builds (·.height ≤ bound + 1) (Grammar.definition inner noIn) := by
  refine Builds.identifier.after fun name => (Builds.seesMark .assign).after fun _ =>
    .ite (fun _ => ?_) fun _ => .pure (Node.height_le ⟨.literal _, .optional nofun⟩)
  refine Builds.advance.after fun _ => (h.assignment noIn).bind fun value hvalue => .pure ?_
  exact Node.height_le ⟨.literal _, .optional fun node hmem => Option.mem_some.mp hmem ▸ hvalue⟩

/-- A declaration is two levels on top of its values, with the bindings between. -/
theorem declaration (h : inner.Caps bound) (tag : DeclarationTag) (noIn : Bool) :
    Builds (·.height ≤ bound + 2) (Grammar.declaration inner tag noIn) := by
  refine Builds.advance.after fun _ => Builds.rounds.after fun count =>
    (Builds.separated (h.definition noIn) count).bind fun values hvalues => .pure ?_
  cases tag <;> exact Node.height_le (.sequence hvalues)

/-- A choice is one level on top of its test. -/
theorem ifElse (h : inner.Caps bound) : Builds (·.height ≤ bound + 2) (Grammar.ifElse inner) := by
  refine Builds.advance.after fun _ => h.parenthesized.bind fun test htest =>
    h.statement.bind fun yes hyes => (Builds.seesWord .elseKw).after fun _ =>
      .ite (fun _ => Builds.advance.after fun _ => h.statement.bind fun no hno => .pure ?_)
        fun _ => .pure ?_
  · exact Node.height_le ⟨.child htest, .child (Nat.le_succ_of_le hyes),
      .optional fun node hmem => Option.mem_some.mp hmem ▸ Nat.le_succ_of_le hno⟩
  · exact Node.height_le ⟨.child htest, .child (Nat.le_succ_of_le hyes), .optional nofun⟩

/-- A loop is one level on top of its test. -/
theorem whileLoop (h : inner.Caps bound) : Builds (·.height ≤ bound + 2) (Grammar.whileLoop inner) :=
  Builds.advance.after fun _ => h.parenthesized.bind fun _ htest => h.statement.bind fun _ hbody =>
    .pure (Node.height_le ⟨.child htest, .child (Nat.le_succ_of_le hbody)⟩)

/-- So is a loop with its test at the end. -/
theorem doLoop (h : inner.Caps bound) : Builds (·.height ≤ bound + 2) (Grammar.doLoop inner) := by
  refine Builds.advance.after fun _ => h.statement.bind fun repeated hbody =>
    (Builds.seesWord .whileKw).after fun _ => .ite (fun _ => ?_) fun _ =>
      Builds.token.after fun _ => .refuse _
  refine Builds.advance.after fun _ => h.parenthesized.bind fun test htest =>
    (Builds.seesMark .semicolon).after fun _ => .ite (fun _ => ?_) fun _ => ?_
  · exact Builds.advance.after fun _ =>
      .pure (Node.height_le ⟨.child htest, .child (Nat.le_succ_of_le hbody)⟩)
  · exact .pure (Node.height_le ⟨.child htest, .child (Nat.le_succ_of_le hbody)⟩)

/-- An expression, if there is one. -/
theorem optionalExpression (h : inner.Caps bound) (close : Punctuator) :
    Builds (∀ node ∈ ·, node.height ≤ bound + 1) (Grammar.optionalExpression inner close) :=
  (Builds.seesMark close).after fun _ => .ite (fun _ => .pure nofun) fun _ =>
    (h.expression false).bind fun _ hvalue => .pure fun _ hmem => Option.mem_some.mp hmem ▸ hvalue

/-- A loop over the keys of an object is one level on top of its target. -/
theorem forIn (h : inner.Caps bound) {init : Node} (hinit : init.height ≤ bound + 2) :
    Builds (·.height ≤ bound + 3) (Grammar.forIn inner init) := by
  unfold Grammar.forIn
  split
  · exact .refuse _
  · refine Builds.advance.after fun _ => (h.expression false).bind fun subject hsubject =>
      (Builds.expect .parenClose).after fun _ => h.statement.bind fun body hbody => .pure ?_
    exact Node.height_le ⟨.child hinit, .child (by omega), .child (by omega)⟩

/-- The tallest that can stand first in a loop head is a declaration. -/
theorem forInit? (h : inner.Caps bound) :
    Builds (∀ node ∈ ·, node.height ≤ bound + 2) (Grammar.forInit? inner) := by
  refine (Builds.seesMark .semicolon).after fun _ => .ite (fun _ => .pure nofun) fun _ =>
    Builds.token.after fun found => ?_
  split
  · exact (h.declaration _ true).bind fun _ hvalue =>
      .pure fun _ hmem => Option.mem_some.mp hmem ▸ hvalue
  · exact (h.expression true).bind fun _ hvalue =>
      .pure fun _ hmem => Option.mem_some.mp hmem ▸ Nat.le_succ_of_le hvalue

/-- Either kind of loop with a head of several parts is one level on top of that. -/
theorem forLoop (h : inner.Caps bound) : Builds (·.height ≤ bound + 3) (Grammar.forLoop inner) := by
  refine Builds.advance.after fun _ => (Builds.expect .parenOpen).after fun _ =>
    h.forInit?.bind fun init hinit => (Builds.seesWord .inKw).after fun _ => ?_
  split
  · next target => exact h.forIn (hinit target rfl)
  · refine (Builds.expect .semicolon).after fun _ =>
      (h.optionalExpression .semicolon).bind fun test htest => (Builds.expect .semicolon).after fun _ =>
        (h.optionalExpression .parenClose).bind fun step hstep =>
          (Builds.expect .parenClose).after fun _ => h.statement.bind fun body hbody => .pure ?_
    exact Node.height_le ⟨.optional hinit, .optional fun node hmem => Nat.le_succ_of_le (htest node hmem),
      .optional fun node hmem => Nat.le_succ_of_le (hstep node hmem), .child (by omega)⟩

/-- An exit is one level on top of its value. -/
theorem exit (h : inner.Caps bound) (tag : ExitTag) :
    Builds (·.height ≤ bound + 2) (Grammar.exit inner tag) := by
  have value? : Builds (∀ node ∈ ·, node.height ≤ bound + 1) (Grammar.exitValue? inner tag) := by
    refine Builds.get.after fun _ => .ite (fun _ => .ite (fun _ => .refuse _) fun _ => .pure nofun)
      fun _ => (h.expression false).bind fun _ hvalue => .pure fun _ hmem => ?_
    exact Option.mem_some.mp hmem ▸ hvalue
  refine Builds.advance.after fun _ => value?.bind fun found hfound =>
    Builds.semicolon.after fun _ => .pure ?_
  cases tag <;> exact Node.height_le (.optional hfound)

/-- A jump has no children. -/
theorem jump (tag : JumpTag) : Builds (·.height ≤ bound + 1) (Grammar.jump tag) := by
  have label? : Stays Grammar.jumpLabel? := by
    refine Builds.token.after fun found => ?_
    split
    · exact Builds.advance.after fun _ => .pure trivial
    · exact .pure trivial
  refine Builds.advance.after fun _ => label?.after fun _ => Builds.semicolon.after fun _ => .pure ?_
  cases tag <;> exact Node.height_le (.literal _)

/-- A labeled statement is one level on top of the statement. -/
theorem labeled (h : inner.Caps bound) : Builds (·.height ≤ bound + 1) (Grammar.labeled inner) :=
  Builds.identifier.after fun _ => (Builds.expect .colon).after fun _ => h.statement.bind
    fun _ hbody => .pure (Node.height_le ⟨.literal _, .child hbody⟩)

theorem branchBody (h : inner.Caps bound) :
    Builds (∀ node ∈ ·, node.height ≤ bound) (Grammar.branchBody inner) := by
  refine Builds.rounds.after fun count => Builds.many (Builds.token.after fun found => ?_) count
  split
  · exact .pure nofun
  · exact .pure nofun
  · exact .pure nofun
  · exact .pure nofun
  · exact h.statement.bind fun _ hvalue => .pure fun _ hmem => Option.mem_some.mp hmem ▸ hvalue

/-- A branch is one level on top of its test. -/
theorem branch? (h : inner.Caps bound) (start : Source.Span) :
    Builds (∀ node ∈ ·, node.height ≤ bound + 2) (Grammar.branch? inner start) := by
  refine Builds.token.after fun found => ?_
  split
  · exact .pure nofun
  · refine Builds.advance.after fun _ => (h.expression false).bind fun test htest =>
      (Builds.expect .colon).after fun _ => h.branchBody.bind fun body hbody => .pure fun node hmem => ?_
    rw [← Option.mem_some.mp hmem]
    exact Node.height_le ⟨.child htest, .sequence fun node hmem => Nat.le_succ_of_le (hbody node hmem)⟩
  · refine Builds.advance.after fun _ => (Builds.expect .colon).after fun _ =>
      h.branchBody.bind fun body hbody => .pure fun node hmem => ?_
    rw [← Option.mem_some.mp hmem]
    exact Nat.le_succ_of_le (Node.height_le (.sequence hbody))
  · exact .refuseAt _ _
  · exact .unexpected

/-- A switch is one level on top of its branches. -/
theorem switch (h : inner.Caps bound) : Builds (·.height ≤ bound + 3) (Grammar.switch inner) := by
  refine Builds.advance.after fun _ => h.parenthesized.bind fun subject hsubject =>
    Builds.token.after fun start => (Builds.expect .braceOpen).after fun _ =>
      Builds.rounds.after fun count => (Builds.many (h.branch? start.span) count).bind
        fun branches hbranches => Builds.advance.after fun _ => .pure ?_
  exact Node.height_le ⟨.child (Nat.le_succ_of_le hsubject), .sequence hbranches⟩

/-- A handler is one level on top of its statements. -/
theorem handler? (h : inner.Caps bound) :
    Builds (∀ node ∈ ·, node.height ≤ bound + 1) (Grammar.handler? inner) := by
  refine (Builds.seesWord .catchKw).after fun _ => .ite (fun _ => ?_) fun _ => .pure nofun
  refine Builds.advance.after fun _ => (Builds.expect .parenOpen).after fun _ =>
    Builds.identifier.after fun _ => (Builds.expect .parenClose).after fun _ =>
      h.block.bind fun body hbody => .pure fun node hmem => ?_
  rw [← Option.mem_some.mp hmem]
  exact Node.height_le ⟨.literal _, .sequence hbody⟩

/-- So is the last clause of a `try`. -/
theorem finalizer? (h : inner.Caps bound) :
    Builds (∀ node ∈ ·, node.height ≤ bound + 1) (Grammar.finalizer? inner) := by
  refine (Builds.seesWord .finallyKw).after fun _ => .ite (fun _ => ?_) fun _ => .pure nofun
  refine Builds.advance.after fun _ => h.block.bind fun body hbody => .pure fun node hmem => ?_
  rw [← Option.mem_some.mp hmem]
  exact Node.height_le (.sequence hbody)

/-- A `try` is one level on top of its clauses. -/
theorem tryCatch (h : inner.Caps bound) : Builds (·.height ≤ bound + 2) (Grammar.tryCatch inner) := by
  refine Builds.advance.after fun _ => h.block.bind fun body hbody =>
    h.handler?.bind fun handler hhandler => h.finalizer?.bind fun finalizer hfinalizer =>
      .ite (fun _ => .refuse _) fun _ => .pure ?_
  exact Node.height_le ⟨.sequence fun node hmem => Nat.le_succ_of_le (hbody node hmem),
    .optional hhandler, .optional hfinalizer⟩

/-- An expression statement is one level on top of its expression. -/
theorem simple (h : inner.Caps bound) : Builds (·.height ≤ bound + 2) (Grammar.simple inner) :=
  (h.expression false).bind fun _ hvalue => Builds.semicolon.after fun _ =>
    .pure (Node.height_le (.child hvalue))

/-- The tallest statements that a word opens are loops and switches. -/
theorem wordStatement (h : inner.Caps bound) (word : Keyword) :
    Builds (·.height ≤ bound + 3) (Grammar.wordStatement inner word) := by
  have wider : ∀ {n : Nat} {step : ParseM Node}, n ≤ bound + 3 → Builds (·.height ≤ n) step →
      Builds (·.height ≤ bound + 3) step :=
    fun hn built => built.mono fun _ hle => Nat.le_trans hle hn
  have declared : ∀ tag, Builds (·.height ≤ bound + 3) (do
      let declared ← Grammar.declaration inner tag false
      ParseM.semicolon
      return declared : ParseM Node) := fun tag =>
    (h.declaration tag false).bind fun _ hvalue => Builds.semicolon.after fun _ =>
      .pure (Nat.le_succ_of_le hvalue)
  unfold Grammar.wordStatement
  split
  · exact declared .var
  · exact declared .let_
  · exact declared .const
  · exact wider (by omega) h.ifElse
  · exact wider (by omega) h.whileLoop
  · exact wider (by omega) h.doLoop
  · exact h.forLoop
  · exact wider (by omega) (h.exit .return_)
  · exact wider (by omega) (h.exit .throw)
  · exact jump .break_
  · exact jump .continue_
  · exact h.switch
  · exact wider (by omega) h.tryCatch
  · exact Builds.advance.after fun _ => wider (by omega) (h.lambda .declaration)
  · refine Builds.advance.after fun _ => Builds.semicolon.after fun _ => .pure ?_
    exact Node.height_le trivial
  · exact wider (by omega) h.simple

/-- Every statement is at most three levels on top of what the level inside builds. -/
theorem statement' (h : inner.Caps bound) :
    Builds (·.height ≤ bound + 3) (Grammar.statement inner) := by
  have label : Stays Grammar.seesLabel := by
    refine Builds.token.after fun found => ?_
    split
    · exact Builds.peek.after fun _ => .pure trivial
    · exact .pure trivial
  refine label.after fun _ => .ite (fun _ => h.labeled.mono fun _ hle => by omega) fun _ =>
    Builds.token.after fun found => ?_
  split
  · refine h.block.bind fun body hbody => .pure ?_
    have tall : (Node.body .block body).height ≤ bound + 1 := Node.height_le (.sequence hbody)
    omega
  · exact Builds.advance.after fun _ => .pure (Node.height_le trivial)
  · exact h.wordStatement _
  · exact h.simple.mono fun _ hle => by omega

/-- How many levels one level of nesting is worth at most. -/
theorem around (h : inner.Caps bound) : inner.around.Caps (bound + 11 * maxTreeDepth + 5) where
  statement := (Builds.nested h.statement').mono fun _ hle => by omega
  assignment noIn := (h.assigning noIn).nested
  unary := (Builds.nested h.operand).mono fun _ hle => by omega
  callee := (Builds.nested (h.chain false)).mono fun _ hle => by omega

end Level.Caps

/-- What is built with `levels` levels of nesting. -/
theorem Level.caps_ofNat (levels : Nat) :
    (Level.ofNat levels).Caps (levels * (11 * maxTreeDepth + 5)) := by
  induction levels with
  | zero =>
    exact ⟨.refuse _, fun _ => .refuse _, .refuse _, .refuse _⟩
  | succ levels ih =>
    rw [Nat.succ_mul, ← Nat.add_assoc]
    exact ih.around

/-! ## Whole texts -/

/-- More levels than any text can be parsed to. -/
def parsedLevels : Nat := maxNesting * (11 * maxTreeDepth + 5) + 1

/-- A program is built over the outermost level. -/
theorem builds_program : Builds (·.height ≤ parsedLevels) Parser.programM := by
  refine Builds.rounds.after fun count => (Builds.many ?_ count).bind fun values hvalues =>
    .pure (Node.height_le (.sequence hvalues))
  refine Builds.get.after fun _ => .ite (fun _ => .pure nofun) fun _ => ?_
  exact (Level.caps_ofNat maxNesting).statement.bind fun _ hvalue =>
    .pure fun _ hmem => Option.mem_some.mp hmem ▸ hvalue

/-- So is a single expression. -/
theorem builds_expression : Builds (·.height ≤ parsedLevels) Parser.expressionM :=
  ((Level.caps_ofNat maxNesting).expression false).bind fun _ hvalue =>
    Builds.get.after fun _ => .ite (fun _ => .pure hvalue) fun _ => .unexpected

/-- What a run answers is what its step builds. -/
theorem Builds.run {post : Node → Prop} {step : ParseM Node} (h : Builds post step)
    {parser : Parser} {tree : Node} (hrun : (parser.run step).1 = .ok tree) : post tree := by
  rw [Parser.run] at hrun
  cases hstep : step parser with
  | ok value after =>
    rw [hstep] at hrun
    cases hrun
    exact (h parser tree after hstep).1
  | error refusal after =>
    rw [hstep] at hrun
    cases hrun

/-- **Every tree that is parsed has a limited number of levels.** -/
theorem depth_le_of_parse {source : String} {tree : Node}
    (h : parse source = .ok tree ∨ parseExpression source = .ok tree) : tree.depth ≤ parsedLevels := by
  rw [Node.depth_eq]
  rcases h with h | h
  · exact builds_program.run h
  · exact builds_expression.run h

end JsPrune
