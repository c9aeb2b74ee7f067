import JsPrune.Proofs.Phrases
import Mathlib.Data.List.Forall2

/-!
# Expressions read back

For every construct of an expression: if its parts are phrases, so is the whole, with the pieces that
a printer puts around them. The statements are about pieces, not about how they came about.

Chains and rows are built from the left, one link at a time. The lemma for a link says that the loop
can be entered one link earlier.
-/

namespace JsPrune

open ParseM Grammar

variable {beautify : Bool} {n slack : Nat} {noIn calls : Bool} {pieces : List Piece}
variable {value : Node}

/-! ## Leaves -/

/-- The expression that a single token is. -/
def tokenNode? : Token.Kind → Option Node
  | .identifier name => some (.identifier name)
  | .number value => some (.number value)
  | .string value => some (.string value)
  | .keyword .trueKw => some (.boolean true)
  | .keyword .falseKw => some (.boolean false)
  | .keyword .nullKw => some .null
  | .keyword .thisKw => some .this
  | _ => none

/-- A token that is an expression starts one, is no operator, and is no `new`. -/
theorem of_tokenNode? {kind : Token.Kind} (h : tokenNode? kind = some value) :
    opensExpression kind = true ∧ prefixOperator? kind = none ∧ kind ≠ .keyword .newKw := by
  unfold tokenNode? at h
  split at h
  case h_8 => cases h
  all_goals exact ⟨rfl, rfl, by simp⟩

/-- A token that is a node by itself is read as that node. -/
theorem primary_leaf {room : Prop} {inner : Level} {word : Lexeme} {words : List Lexeme}
    {depth : Nat} (h : tokenNode? word.kind = some value) :
    Reads room (primary inner) ⟨word :: words, depth⟩ value ⟨words, depth⟩ := by
  refine .token_bind fun token ht => ?_
  rw [nextKind_cons] at ht
  rw [ht]
  unfold tokenNode? at h
  split at h
  case h_8 => cases h
  all_goals
    next hk =>
      cases h
      rw [hk]
      exact Reads.advance.bind (.pure _ _)

/-- Such a token binds as tightly as anything. -/
theorem Phrase.leaf {content : String} (noIn calls : Bool) (h : tokenNode? (kindOf content) = some value) :
    Phrase beautify n slack 18 noIn calls [.text content] value := by
  obtain ⟨opens, noOperator, noNew⟩ := of_tokenNode? h
  refine .ofChain ⟨content, [], rfl, opens, fun _ => noOperator, nofun⟩ (by omega) (.ofHead calls ?_)
  intro room levels depth _ newline rest
  rw [List.singleton_append, lexemes_text]
  exact .missesWord noNew (primary_leaf h)

/-! ## Links of a chain -/

/-- A name that may stand after a point. -/
def IsMember (name : String) : Prop :=
  kindOf name = .identifier name ∨ ∃ word : Keyword, kindOf name = .keyword word ∧ word.text = name

/-- A link is added where the loop of the chain stands after its owner. -/
theorem ReadAsChain.link {link : List Piece} {whole : Node}
    (h : ReadAsChain beautify n 1 calls pieces value) {more : Bool} (hmore : calls = true → more = true)
    (hlink : ∀ (room : Prop) (levels depth j : Nat) (allowCall : Bool) (rest : List Piece), j ≤ n →
      (room → Room (n + 1) 0 levels depth) → (more = true → allowCall = true) →
      Reads room (chainStep (.ofNat levels) allowCall value)
        ⟨lexemes beautify false (link ++ rest), depth + j⟩ (some whole)
        ⟨lexemes beautify false rest, depth + j + 1⟩)
    (htexts : 0 < textCount link) :
    ReadAsChain beautify (n + 1) 0 more (pieces ++ link) whole := by
  intro room levels depth hroom allowCall newline rest last after hcalls hloop
  rw [List.append_assoc]
  refine h room levels depth (fun hr => (hroom hr).step.mono (by omega)) allowCall newline _ last
    after (fun hc => hcalls (hmore hc)) ?_
  intro j hj count hcount
  obtain ⟨fewer, rfl⟩ : ∃ fewer, count = fewer + 1 := ⟨count - 1, by omega⟩
  rw [textCount_append] at hcount
  exact .extend_step (hlink room levels depth j allowCall rest hj hroom hcalls)
    (hloop (j + 1) (by omega) fewer (by omega))

/-- There is room for one more link. -/
theorem Room.link {n levels depth j : Nat} (h : Room (n + 1) 0 levels depth) (hj : j ≤ n) :
    depth + j < maxTreeDepth := by
  have := (h.child hj).2
  omega

/-- A point and a name make a chain longer by a link. -/
theorem ReadAsChain.dot {name : String} (h : ReadAsChain beautify n 1 calls pieces value)
    (hname : IsMember name) :
    ReadAsChain beautify (n + 1) 0 calls (pieces ++ [.text ".", .text name]) (.dot value name) := by
  refine h.link (fun hc => hc) ?_ (by simp)
  intro room levels depth j allowCall rest hj hroom _
  simp only [List.cons_append, List.nil_append, lexemes_text]
  refine .sees (by simp) ((Reads.chainLink fun hr => (hroom hr).link hj).bind ?_)
  refine Reads.advance.bind (.token_bind fun token ht => ?_)
  rw [nextKind_cons] at ht
  rw [ht]
  rcases hname with hname | ⟨word, hname, rfl⟩
  · rw [hname]
    exact Reads.advance.bind (.pure _ _)
  · rw [hname]
    exact Reads.advance.bind (.pure _ _)

/-- So do brackets with an expression, in which `in` may stand bare. -/
theorem ReadAsChain.sub {inside : List Piece} {index : Node} {indexNoIn : Bool}
    (h : ReadAsChain beautify n 1 calls pieces value)
    (hi : ReadAs beautify n 2 Grammar.expression endsExpression indexNoIn inside index) :
    ReadAsChain beautify (n + 1) 0 calls (pieces ++ (.text "[" :: inside ++ [.text "]"]))
      (.sub value index) := by
  refine h.link (fun hc => hc) ?_ (by simp)
  intro room levels depth j allowCall rest hj hroom _
  have read := hi room levels (depth + j + 1) (fun hr => (hroom hr).child hj) false false
    (.text "]" :: rest) (nofun)
    (endsExpression_of_closes _ (by simp [closesExpression]))
  simp only [List.cons_append, List.append_assoc, List.nil_append, lexemes_text] at read ⊢
  refine .misses (by simp) (.sees (by simp) ((Reads.chainLink fun hr => (hroom hr).link hj).bind ?_))
  exact Reads.advance.bind (read.bind ((Reads.expect (by simp)).bind (.pure _ _)))

/-! ## Lists -/

/-- Lists of pieces with commas between them. -/
def commaList : List (List Piece) → List Piece
  | [] => []
  | [last] => last
  | first :: second :: rest => first ++ (Node.comma ++ commaList (second :: rest))

/-- There is a text for each item but one at least, which bounds the turns of the loop that reads
them. -/
theorem length_le_textCount_commaList (items : List (List Piece)) :
    items.length ≤ textCount (commaList items) + 1 := by
  induction items with
  | nil => exact Nat.zero_le _
  | cons first rest ih =>
    cases rest with
    | nil => exact Nat.succ_le_succ (Nat.zero_le _)
    | cons second rest =>
      rw [commaList, textCount_append, textCount_append]
      simp only [List.length_cons, Node.comma, textCount_text, textCount_space,
        textCount_nil] at ih ⊢
      omega

/-- An item of a list is read wherever a comma comes next, or what `stop` allows. It starts as `start`
says. -/
def ReadAsItem {α : Type} (beautify : Bool) (room : Prop) (item : ParseM α)
    (start : Token.Kind → Prop) (stop : Token.Kind → Bool) (depth : Nat) (pieces : List Piece)
    (value : α) : Prop :=
  ∀ (newline : Bool) (rest : List Piece), start (upcoming (pieces ++ rest)) ∧
    (upcoming rest = .punctuator .comma ∨ stop (upcoming rest) = true →
      Reads room item ⟨lexemes beautify newline (pieces ++ rest), depth⟩ value
        ⟨lexemes beautify false rest, depth⟩)

/-- Items with commas between them are read one after the other. -/
theorem series_commaList {α : Type} {room : Prop} {item : ParseM α} {start : Token.Kind → Prop}
    {stop : Token.Kind → Bool} {depth : Nat} {items : List (List Piece)} {values : List α}
    (h : List.Forall₂ (ReadAsItem beautify room item start stop depth) items values)
    (hne : items ≠ []) (newline : Bool) (rest : List Piece) (hstop : stop (upcoming rest) = true)
    (hcomma : upcoming rest ≠ .punctuator .comma) :
    Series room start item ⟨lexemes beautify newline (commaList items ++ rest), depth⟩ values
      ⟨lexemes beautify false rest, depth⟩ := by
  induction h generalizing newline with
  | nil => exact absurd rfl hne
  | @cons first value tail values hfirst htail ih =>
    cases htail with
    | nil =>
      obtain ⟨hstart, hread⟩ := hfirst newline rest
      refine .last ?_ (hread (.inr hstop)) ?_
      · rw [nextKind_lexemes]
        exact hstart
      · rw [nextKind_lexemes]
        exact hcomma
    | @cons second _ tail _ hsecond htail =>
      obtain ⟨hstart, hread⟩ := hfirst newline
        (Node.comma ++ (commaList (second :: tail) ++ rest))
      have read := hread (.inl (by simp [Node.comma]))
      rw [commaList, List.append_assoc, List.append_assoc]
      refine .more ?_ read (by simp) (ih (List.cons_ne_nil _ _) false)
      rw [nextKind_lexemes]
      exact hstart

/-- Phrases that can stand between commas. -/
def ReadAsList (beautify : Bool) (n : Nat) (noIn : Bool) (items : List (List Piece))
    (values : List Node) : Prop :=
  List.Forall₂ (Phrase beautify n 1 2 noIn true) items values

/-- What an expression starts with is no mark that none starts with. -/
theorem opens_ne_mark {kind : Token.Kind} (h : opensExpression kind = true) {symbol : Punctuator}
    (hs : opensExpression (.punctuator symbol) = false) : kind ≠ .punctuator symbol := by
  rintro rfl
  rw [hs] at h
  cases h

/-- A phrase that binds tighter than a comma can be an item of a list. -/
theorem Phrase.item {level : Nat} {room : Prop} {levels depth : Nat}
    (h : Phrase beautify n 1 level noIn calls pieces value) (hlevel : 2 ≤ level)
    (hroom : room → Room n 2 levels depth) (head : Bool) (hhead : head = true → noIn = true) :
    ReadAsItem beautify room ((Level.ofNat levels).assignment head)
      (fun kind => opensExpression kind = true) (endsExpression head) depth pieces value := by
  intro newline rest
  refine ⟨h.opens.upcoming rest, fun hstop => ?_⟩
  refine (h.assignment hlevel).inner_assignment hroom head newline rest hhead ?_
  rcases hstop with hcomma | hends
  · rw [hcomma]
    exact endsAssignment_comma head
  · exact endsAssignment_of_endsExpression hends

/-- A list up to the mark that closes it. -/
theorem reads_listed {α : Type} {room : Prop} {item : ParseM α} {close : Punctuator}
    {stop : Token.Kind → Bool} {depth count : Nat} {items : List (List Piece)} {values : List α}
    (h : List.Forall₂ (ReadAsItem beautify room item (· ≠ .punctuator close) stop depth) items values)
    (hstop : stop (.punctuator close) = true) (hclose : close ≠ .comma) (rest : List Piece)
    (hrest : upcoming rest = .punctuator close) (hcount : textCount (commaList items ++ rest) < count) :
    Reads room (listed close item count) ⟨lexemes beautify false (commaList items ++ rest), depth⟩
      values ⟨lexemes beautify false rest, depth⟩ := by
  by_cases hne : items = []
  · subst hne
    cases h
    exact .listed_nil (by rw [nextKind_lexemes]; exact hrest) count
  · have series := series_commaList h hne false rest (by rw [hrest]; exact hstop)
      (by rw [hrest]; intro hc; cases hc; exact hclose rfl)
    have enough := length_le_textCount_commaList items
    rw [textCount_append] at hcount
    exact series.listed (by rw [← h.length_eq]; omega)

/-- Arguments are read between their parentheses. -/
theorem reads_arguments {room : Prop} {levels depth : Nat} {items : List (List Piece)}
    {values : List Node} (h : ReadAsList beautify n noIn items values)
    (hroom : room → Room n 2 levels depth) (newline : Bool) (rest : List Piece) :
    Reads room (arguments (.ofNat levels))
      ⟨lexemes beautify newline (Node.inParens (commaList items) ++ rest), depth⟩ values
      ⟨lexemes beautify false rest, depth⟩ := by
  have each : List.Forall₂ (ReadAsItem beautify room ((Level.ofNat levels).assignment false)
      (· ≠ .punctuator .parenClose) (endsExpression false) depth) items values := by
    refine h.imp fun pieces value hp => ?_
    intro newline rest
    obtain ⟨hopens, hread⟩ := hp.item (Nat.le_refl 2) hroom false nofun newline rest
    exact ⟨opens_ne_mark hopens rfl, hread⟩
  simp only [Node.inParens, List.cons_append, List.append_assoc, List.nil_append, lexemes_text]
  refine (Reads.expect (by simp)).bind (.rounds_bind fun count hcount => ?_)
  rw [length_lexemes] at hcount
  have inside := reads_listed each rfl (by decide) (.text ")" :: rest) (by simp) hcount
  exact inside.bind ((Reads.expect (by simp)).bind (.pure _ _))

/-- Arguments make a chain longer by a link, where calls are allowed. -/
theorem ReadAsChain.call {items : List (List Piece)} {values : List Node} {itemNoIn : Bool}
    (h : ReadAsChain beautify n 1 calls pieces value)
    (hitems : ReadAsList beautify n itemNoIn items values) :
    ReadAsChain beautify (n + 1) 0 true (pieces ++ Node.inParens (commaList items))
      (.call .plain value values) := by
  refine h.link (fun _ => rfl) ?_ (by simp [Node.inParens])
  intro room levels depth j allowCall rest hj hroom hcalls
  have read := reads_arguments hitems (fun hr => (hroom hr).child hj) false rest
  have opening : upcoming (Node.inParens (commaList items) ++ rest) = .punctuator .parenOpen := by
    simp [Node.inParens]
  refine .misses (by simp [opening]) (.misses (by simp [opening]) (.sees (by simp [opening]) ?_))
  rw [hcalls rfl]
  exact (Reads.chainLink fun hr => (hroom hr).link hj).bind (read.bind (.pure _ _))

/-- What `new` is applied to is a chain without calls. -/
theorem Phrase.new {items : List (List Piece)} {values : List Node} {itemNoIn : Bool}
    (h : ReadAsChain beautify n 1 false pieces value)
    (hitems : ReadAsList beautify n itemNoIn items values) (noIn calls : Bool) :
    Phrase beautify (n + 1) 0 17 noIn calls
      (.text "new" :: (pieces ++ Node.inParens (commaList items))) (.call .new value values) := by
  refine .ofChain (.ofText _ (by simp [opensExpression]) (by simp [prefixOperator?]) (by simp))
    (by omega) (.ofHead calls ?_)
  intro room levels depth hroom newline rest
  have opening : upcoming (Node.inParens (commaList items) ++ rest) = .punctuator .parenOpen := by
    simp [Node.inParens]
  have callee : Reads room (Level.ofNat levels).callee
      ⟨lexemes beautify false (pieces ++ (Node.inParens (commaList items) ++ rest)), depth⟩ value
      ⟨lexemes beautify false (Node.inParens (commaList items) ++ rest), depth⟩ :=
    reads_inner Level.callee (fun inner => Grammar.chain inner false) rfl (fun _ => rfl)
      (fun hr => (hroom hr).step) fun further hfurther =>
        h.chain hfurther false _ (absurd · Bool.false_ne_true) (by rw [opening]; rfl)
  have read := reads_arguments hitems (fun hr => (hroom hr).step) false rest
  rw [List.cons_append, List.append_assoc, lexemes_text]
  refine .seesWord (by simp) (Reads.advance.bind (callee.bind (.sees (by simp [opening]) ?_)))
  exact read.bind (.pure _ _)

/-! ## Literals with parts -/

/-- An array binds as tightly as anything. -/
theorem Phrase.array {items : List (List Piece)} {values : List Node} {itemNoIn : Bool}
    (h : ReadAsList beautify n itemNoIn items values) (noIn calls : Bool) :
    Phrase beautify (n + 1) 0 18 noIn calls (.text "[" :: (commaList items ++ [.text "]"]))
      (.array values) := by
  refine .ofChain (.ofText _ (by simp [opensExpression]) (by simp [prefixOperator?]) (by simp))
    (by omega) (.ofHead calls ?_)
  intro room levels depth hroom newline rest
  simp only [List.cons_append, List.append_assoc, List.nil_append, lexemes_text]
  refine .missesWord (by simp) (.token_bind fun token hk => ?_)
  rw [nextKind_cons] at hk
  simp only [kindOf_marks] at hk
  rw [hk]
  refine .token_bind fun start _ => (Reads.expect (by simp)).bind
    (.rounds_bind fun count hcount => ?_)
  rw [length_lexemes] at hcount
  refine (reads_listed ?_ (rfl : endsExpression false _ = true) (by decide) _ (by simp)
    hcount).bind ((Reads.expect (by simp)).bind (.pure _ _))
  refine h.imp fun pieces value hp => ?_
  intro newline rest
  obtain ⟨hopens, hread⟩ := hp.item (Nat.le_refl 2) (fun hr => (hroom hr).step) false
    (absurd · Bool.false_ne_true) newline rest
  refine ⟨opens_ne_mark hopens rfl, fun hstop => .get_bind fun parser hs => ?_⟩
  have ongoing : parser.atEnd? = false := by
    rw [Parser.atEnd?, hs.kind_current, nextKind_lexemes, beq_eq_false_iff_ne]
    intro heof
    rw [heof] at hopens
    cases hopens
  rw [ongoing]
  exact .misses (by rw [nextKind_lexemes]; exact opens_ne_mark hopens rfl) (hread hstop)

/-- What a token stands for where a key belongs. A number stands for its spelling. -/
def keyName? (kind : Token.Kind) (spelling : String) : Option String :=
  match kind with
  | .identifier name => some name
  | .string value => some value
  | .keyword word => some word.text
  | .number _ => some spelling
  | _ => none

/-- A key is read if it is spelled as one. -/
theorem reads_key {room : Prop} {start : Source.Span} {content name : String} {newline : Bool}
    {words : List Lexeme} {depth : Nat} (h : keyName? (kindOf content) content = some name) :
    Reads room (key start) ⟨⟨kindOf content, newline, content.toList⟩ :: words, depth⟩ name
      ⟨words, depth⟩ := by
  intro parser hs
  have kind : parser.current.kind = kindOf content := hs.kind_current
  have spelling : String.ofList (parser.current.span.text parser.source) = content := by
    rw [hs.text_current, String.ofList_toList]
  refine .inl ⟨parser.advance, ?_, hs.advance⟩
  unfold keyName? at h
  refine (Reads.run_token_bind _ parser).trans ?_
  dsimp only
  rw [kind]
  split at h
  case h_4 hk =>
    cases h
    rw [hk]
    show EStateM.Result.ok (String.ofList (parser.current.span.text parser.source)) _ = _
    rw [spelling]
  case h_5 => cases h
  all_goals
    next hk =>
      cases h
      rw [hk]
      rfl

/-- The pieces are read as an entry of an object. -/
def ReadAsEntry (beautify : Bool) (n : Nat) (pieces : List Piece) (value : Node) : Prop :=
  ∀ (room : Prop) (levels depth : Nat) (start : Source.Span), (room → Room n 0 levels depth) →
    ReadAsItem beautify room (entry (.ofNat levels) start) (· ≠ .punctuator .braceClose)
      (· == .punctuator .braceClose) depth pieces value

/-- A key, a colon and a value are read as an entry. -/
theorem ReadAsEntry.intro {content name : String}
    (hname : keyName? (kindOf content) content = some name)
    (h : Phrase beautify n 1 2 noIn calls pieces value) :
    ReadAsEntry beautify (n + 1) ([.text content, .text ":", .space] ++ pieces)
      (.property name value) := by
  intro room levels depth start hroom newline rest
  refine ⟨?_, fun hstop => ?_⟩
  · intro hclose
    rw [List.cons_append, List.cons_append, upcoming_text] at hclose
    rw [hclose] at hname
    cases hname
  · obtain ⟨_, read⟩ := h.item (Nat.le_refl 2) (fun hr => (hroom hr).step) false nofun false rest
    have value := read (hstop.imp id fun hclose => by rw [beq_iff_eq.mp hclose]; rfl)
    simp only [List.cons_append, List.nil_append, lexemes_text, lexemes_space]
    exact (reads_key hname).bind ((Reads.expect (by simp)).bind (value.bind (.pure _ _)))

/-- An object binds as tightly as anything. -/
theorem Phrase.object {items : List (List Piece)} {values : List Node}
    (h : List.Forall₂ (ReadAsEntry beautify n) items values) (noIn calls : Bool) :
    Phrase beautify (n + 1) 0 18 noIn calls (.text "\x7b" :: (commaList items ++ [.text "\x7d"]))
      (.object values) := by
  refine .ofChain (.ofText _ (by simp [opensExpression]) (by simp [prefixOperator?]) (by simp))
    (by omega) (.ofHead calls ?_)
  intro room levels depth hroom newline rest
  simp only [List.cons_append, List.append_assoc, List.nil_append, lexemes_text]
  refine .missesWord (by simp) (.token_bind fun token hk => ?_)
  rw [nextKind_cons] at hk
  simp only [kindOf_marks] at hk
  rw [hk]
  refine .token_bind fun start _ => (Reads.expect (by simp)).bind
    (.rounds_bind fun count hcount => ?_)
  rw [length_lexemes] at hcount
  have each := h.imp fun pieces value he => he room levels depth start.span fun hr =>
    (hroom hr).step.mono (Nat.zero_le _)
  exact (reads_listed each (beq_self_eq_true _) (by decide) _ (by simp) hcount).bind
    ((Reads.expect (by simp)).bind (.pure _ _))

/-! ## Operators with one operand -/

/-- The symbol of a prefix operator is taken for that operator. -/
theorem prefixOperator?_symbol (operator : UnaryOp) :
    prefixOperator? (kindOf operator.symbol) = some operator := by
  cases operator with
  | not => exact congrArg prefixOperator? (kindOf_mark .bang)
  | bitNot => exact congrArg prefixOperator? (kindOf_mark .tilde)
  | neg => exact congrArg prefixOperator? (kindOf_mark .minus)
  | plus => exact congrArg prefixOperator? (kindOf_mark .plus)
  | typeOf => exact congrArg prefixOperator? (kindOf_word .typeofKw)
  | void => exact congrArg prefixOperator? (kindOf_word .voidKw)
  | delete => exact congrArg prefixOperator? (kindOf_word .deleteKw)
  | increment => exact congrArg prefixOperator? (kindOf_mark .increment)
  | decrement => exact congrArg prefixOperator? (kindOf_mark .decrement)

/-- A prefix operator starts an expression. -/
theorem opensExpression_of_operator {kind : Token.Kind} {operator : UnaryOp}
    (h : prefixOperator? kind = some operator) : opensExpression kind = true := by
  unfold opensExpression
  split
  case h_13 => rw [h]; rfl
  all_goals rfl

/-- A prefix operator takes an operand of its own tightness or more. -/
theorem Phrase.before {operator : UnaryOp} (h : ReadAsOperand beautify n 1 pieces value)
    (hstep : operator.isStep = true → value.isAssignable = true) (noIn calls : Bool) :
    Phrase beautify (n + 1) 0 14 noIn calls (.text operator.symbol :: pieces)
      (.unary .before operator value) := by
  have known := prefixOperator?_symbol operator
  have noName : ∀ name, kindOf operator.symbol ≠ .identifier name := by
    intro name hk
    rw [hk] at known
    cases known
  refine .ofOperand ⟨_, _, rfl, opensExpression_of_operator known, fun hle => by omega,
    fun name hk => absurd hk (noName name)⟩ (Nat.le_refl _) (by omega) ?_
  intro room levels depth hroom newline rest hends
  rw [List.cons_append, lexemes_text]
  refine .token_bind fun token hk => ?_
  rw [nextKind_cons] at hk
  rw [hk, known]
  have operand : Reads room (Level.ofNat levels).unary
      ⟨lexemes beautify false (pieces ++ rest), depth⟩ value ⟨lexemes beautify false rest, depth⟩ :=
    reads_inner Level.unary Grammar.unary rfl (fun _ => rfl) (fun hr => (hroom hr).step)
      fun further hfurther => h room further (depth + 1) hfurther false rest hends
  refine Reads.advance.bind (operand.bind ?_)
  have allowed : (operator.isStep && !value.isAssignable) = false := by
    cases hs : operator.isStep with
    | false => rfl
    | true => rw [hstep hs]; rfl
  rw [allowed]
  exact .pure _ _

/-- The mark of a stepping operator ends a chain and stands for the operator. -/
theorem step_symbol {operator : UnaryOp} (h : operator.isStep = true) :
    endsChain true (kindOf operator.symbol) = true ∧
      ∀ found : Token, found.kind = kindOf operator.symbol → found.newlineBefore = false →
        stepOperator? found = some operator := by
  cases operator with
  | increment =>
    rw [UnaryOp.symbol, show kindOf "++" = _ from kindOf_mark .increment]
    exact ⟨rfl, fun found hk hn => by rw [stepOperator?, hn, hk]; rfl⟩
  | decrement =>
    rw [UnaryOp.symbol, show kindOf "--" = _ from kindOf_mark .decrement]
    exact ⟨rfl, fun found hk hn => by rw [stepOperator?, hn, hk]; rfl⟩
  | _ => cases h

/-- A stepping operator takes a chain, which no prefix operator may start. -/
theorem Phrase.after {operator : UnaryOp} (h : ReadAsChain beautify n 1 calls pieces value)
    (hopens : Opens 17 pieces) (hoperator : operator.isStep = true)
    (hvalue : value.isAssignable = true) (noIn calls' : Bool) :
    Phrase beautify (n + 1) 0 15 noIn calls' (pieces ++ [.text operator.symbol])
      (.unary .after operator value) := by
  obtain ⟨hends, hstep⟩ := step_symbol hoperator
  have noColon : kindOf operator.symbol ≠ .punctuator .colon := by
    intro hk
    have known := prefixOperator?_symbol operator
    rw [hk] at known
    cases known
  refine .ofOperand (hopens.append (by omega) noColon) (by omega) (by omega) ?_
  intro room levels depth hroom newline rest _
  refine .token_bind fun token hk => ?_
  have first : prefixOperator? token.kind = none := by
    rw [hk, nextKind_lexemes, List.append_assoc]
    exact hopens.no_operator (by omega) _
  have operand := h.chain (fun hr => (hroom hr).step.mono (by omega)) newline
    (.text operator.symbol :: rest) (fun _ => rfl) hends
  rw [first, List.append_assoc, List.singleton_append]
  refine operand.bind ?_
  refine .token_newline_bind fun found hkind hnewline => ?_
  rw [hstep found hkind hnewline]
  simp only [hvalue, if_true]
  exact Reads.advance.bind (.pure _ _)

/-! ## Operators with two operands -/

/-- The token of an operator between two operands. -/
def BinaryOp.tokenKind : BinaryOp → Token.Kind
  | or => .punctuator .logicalOr
  | and => .punctuator .logicalAnd
  | bitOr => .punctuator .bar
  | bitXor => .punctuator .caret
  | bitAnd => .punctuator .ampersand
  | eq => .punctuator .eq
  | notEq => .punctuator .notEq
  | strictEq => .punctuator .strictEq
  | strictNotEq => .punctuator .strictNotEq
  | lt => .punctuator .lt
  | gt => .punctuator .gt
  | le => .punctuator .le
  | ge => .punctuator .ge
  | in_ => .keyword .inKw
  | instanceOf => .keyword .instanceofKw
  | shl => .punctuator .shl
  | shr => .punctuator .shr
  | ushr => .punctuator .ushr
  | add => .punctuator .plus
  | sub => .punctuator .minus
  | mul => .punctuator .times
  | div => .punctuator .divide
  | rem => .punctuator .percent
  | assign => .punctuator .assign
  | addAssign => .punctuator .addAssign
  | subAssign => .punctuator .subAssign
  | mulAssign => .punctuator .mulAssign
  | divAssign => .punctuator .divAssign
  | remAssign => .punctuator .remAssign
  | shlAssign => .punctuator .shlAssign
  | shrAssign => .punctuator .shrAssign
  | ushrAssign => .punctuator .ushrAssign
  | bitAndAssign => .punctuator .bitAndAssign
  | bitOrAssign => .punctuator .bitOrAssign
  | bitXorAssign => .punctuator .bitXorAssign

/-- The symbol of an operator is one token. -/
theorem spells_operator (operator : BinaryOp) :
    spells operator.tokenKind operator.symbol.toList = true := by
  cases operator with
  | in_ => exact spells_word .inKw
  | instanceOf => exact spells_word .instanceofKw
  | _ => exact spells_mark _

/-- The kind of that token is known. -/
theorem kindOf_operator (operator : BinaryOp) : kindOf operator.symbol = operator.tokenKind :=
  kindOf_of_spells (spells_operator operator)

/-- The token of an operator is taken for that operator. -/
theorem operator?_tokenKind (operator : BinaryOp) :
    operator? operator.tokenKind = some operator := by
  cases operator <;> rfl

/-- An operator ends the operand before it. -/
theorem endsOperand_tokenKind (operator : BinaryOp) : endsOperand operator.tokenKind = true := by
  cases operator <;> rfl

/-- No operator is taken for the colon of a label. -/
theorem symbol_ne_colon (operator : BinaryOp) : kindOf operator.symbol ≠ .punctuator .colon := by
  rw [kindOf_operator]
  intro hk
  cases operator <;> cases hk

/-- An operator combines unless it assigns, or is an `in` kept for a loop head. -/
theorem combining?_tokenKind {operator : BinaryOp} {head : Bool}
    (h : operator.isAssignment = false) (hin : head = true → operator ≠ .in_) :
    combining? head operator.tokenKind = some operator := by
  have free : (head && operator.tokenKind == .keyword .inKw) = false := by
    cases head with
    | false => rfl
    | true =>
      rw [Bool.true_and, beq_eq_false_iff_ne]
      intro hk
      cases operator with
      | in_ => exact hin rfl rfl
      | _ => cases hk
  rw [combining?, free, operator?_tokenKind]
  simp [Option.filter, h]

/-- An operator that assigns ends whatever was read before it. -/
theorem assigning_tokenKind {operator : BinaryOp} (h : operator.isAssignment = true) (head : Bool) :
    assigning? operator.tokenKind = some operator ∧
      endsChoice head operator.tokenKind = true := by
  cases operator <;> first
    | exact ⟨rfl, by cases head <;> rfl⟩
    | cases h

/-- The levels at which operands are combined. -/
theorem BinaryOp.precedence_bounds {operator : BinaryOp} (h : operator.isAssignment = false) :
    4 ≤ operator.precedence ∧ operator.precedence ≤ tightest := by
  cases operator <;> first
    | exact ⟨by decide, by decide⟩
    | cases h

/-- The pieces of an operation. -/
def infixed (left : List Piece) (symbol : String) (right : List Piece) : List Piece :=
  left ++ .space :: .text symbol :: .space :: right

section Infix

variable {left right : List Piece} {first second : Node} {operator : BinaryOp}

/-- An operator and its right operand, where the loop of a row stands after the left one. -/
theorem Reads.climbStep {room : Prop} {inner : Level} {head newline : Bool} {least depth : Nat}
    {spelling : List Char} {words rest : List Lexeme} (hoperator : operator.isAssignment = false)
    (hin : head = true → operator ≠ .in_) (hleast : least ≤ operator.precedence)
    (hroom : room → depth < maxTreeDepth)
    (hright : Reads room (climb (unary inner) head (operator.precedence + 1)) ⟨words, depth + 1⟩
      second ⟨rest, depth + 1⟩) :
    Reads room (JsPrune.climbStep (unary inner) head least first)
      ⟨⟨operator.tokenKind, newline, spelling⟩ :: words, depth⟩
      (some (.binary .combine first operator second)) ⟨rest, depth + 1⟩ := by
  refine .token_bind fun token hk => ?_
  rw [nextKind_cons] at hk
  rw [hk, combining?_tokenKind hoperator hin]
  have tight : rightOperand (unary inner) head least operator.precedence
      = climb (unary inner) head (operator.precedence + 1) := by
    rw [rightOperand, if_pos ⟨hleast, (BinaryOp.precedence_bounds hoperator).2⟩]
  simp only [if_neg (Nat.not_lt.mpr hleast), tight]
  exact Reads.advance.bind ((Reads.chainLink hroom).bind (hright.bind (.pure _ _)))

/-- One turn of climbing takes an operator and its right operand, if the operator is tight enough
for the place and no tighter one follows. -/
theorem climbStep_infixed {room : Prop} {levels depth j least : Nat} {head : Bool} {rest : List Piece}
    (hright : ReadAsRow beautify n 1 (operator.precedence + 1) noIn right second)
    (hroom : room → Room (n + 1) 0 levels depth) (hj : j ≤ n)
    (hoperator : operator.isAssignment = false) (hin : head = true → operator ≠ .in_)
    (hhead : head = true → noIn = true) (hleast : least ≤ operator.precedence)
    (hends : endsOperand (upcoming rest) = true)
    (hlevel : ∀ next ∈ combining? head (upcoming rest), next.precedence ≤ operator.precedence) :
    Reads room (climbStep (unary (.ofNat levels)) head least first)
      ⟨lexemes beautify false (.space :: .text operator.symbol :: .space :: (right ++ rest)),
        depth + j⟩
      (some (.binary .combine first operator second)) ⟨lexemes beautify false rest, depth + j + 1⟩ := by
  rw [lexemes_space, lexemes_text, lexemes_space, kindOf_operator]
  have operand := hright.climb (fun hr => ((hroom hr).child hj).mono (by omega)) false rest
    hhead (Nat.le_refl _) hends fun next hn => Nat.lt_succ_of_le (hlevel next hn)
  exact .climbStep hoperator hin hleast (fun hr => (hroom hr).link hj) operand

/-- Operands of different tightness join: the left one may bind as the operator does, the right one
has to bind tighter. -/
theorem Phrase.combine (hleft : Phrase beautify n 1 operator.precedence noIn true left first)
    (hright : Phrase beautify n 1 (operator.precedence + 1) noIn true right second)
    (hoperator : operator.isAssignment = false) {noIn' : Bool}
    (hin : noIn' = true → noIn = true ∧ operator ≠ .in_) (calls : Bool) :
    Phrase beautify (n + 1) 0 operator.precedence noIn' calls (infixed left operator.symbol right)
      (.binary .combine first operator second) := by
  obtain ⟨low, high⟩ := BinaryOp.precedence_bounds hoperator
  refine .ofRow (hleft.opens.append (Nat.le_refl _) (symbol_ne_colon operator)) low high ?_
  intro room levels depth hroom head newline least rest last after hhead hleast hends hlevel hloop
  have own : ∀ next ∈ combining? head operator.tokenKind, next.precedence ≤ operator.precedence := by
    intro next hn
    rw [combining?_tokenKind hoperator fun hh => (hin (hhead hh)).2] at hn
    rw [Option.mem_some.mp hn]
  rw [infixed, List.append_assoc]
  refine hleft.row low room levels depth (fun hr => (hroom hr).step.mono (by omega)) head newline
    least _ last after (fun hh => (hin (hhead hh)).1) hleast ?_ ?_ ?_
  · rw [List.cons_append, List.cons_append, upcoming_space, upcoming_text, kindOf_operator]
    exact endsOperand_tokenKind operator
  · rw [List.cons_append, List.cons_append, upcoming_space, upcoming_text, kindOf_operator]
    exact own
  · intro j hj count hcount
    obtain ⟨fewer, rfl⟩ : ∃ fewer, count = fewer + 1 := ⟨count - 1, by omega⟩
    simp only [List.cons_append, textCount_space, textCount_text, textCount_append] at hcount
    exact .extend_step (climbStep_infixed (hright.row (by omega)) hroom hj hoperator
      (fun hh => (hin (hhead hh)).2) (fun hh => (hin (hhead hh)).1) hleast hends hlevel)
      (hloop (j + 1) (by omega) fewer (by omega))

/-- An assignment leans to the right: what it assigns may be an assignment. -/
theorem Phrase.assign (hleft : Phrase beautify n 1 16 noIn calls left first)
    (hright : Phrase beautify n 1 2 noIn true right second)
    (hoperator : operator.isAssignment = true) (hfirst : first.isAssignable = true)
    (calls' : Bool) :
    Phrase beautify (n + 1) 0 2 noIn calls' (infixed left operator.symbol right)
      (.binary .assign first operator second) := by
  refine .ofAssignment (hleft.opens.append (by omega) (symbol_ne_colon operator)) (by omega) ?_
  intro room levels depth hroom head newline rest hhead hends
  obtain ⟨assigning, choice⟩ := assigning_tokenKind hoperator head
  have target := hleft.choice (by omega) room levels depth (fun hr => (hroom hr).step.mono (by omega))
    head newline (.space :: .text operator.symbol :: .space :: (right ++ rest)) hhead
    (by rw [upcoming_space, upcoming_text, kindOf_operator]; exact choice)
  have stored := (hright.assignment (Nat.le_refl 2)).inner_assignment (fun hr => (hroom hr).step)
    head false rest hhead hends
  rw [infixed, List.append_assoc]
  refine .token_bind fun _ _ => target.bind ?_
  rw [lexemes_space, lexemes_text, lexemes_space]
  refine .token_bind fun token hk => ?_
  rw [nextKind_cons, kindOf_operator] at hk
  rw [hk, assigning]
  simp only [hfirst, if_true]
  exact Reads.advance.bind (stored.bind (.pure _ _))

end Infix

section Choice

variable {test yes no : List Piece} {condition consequent alternative : Node}

/-- A conditional is read with its three parts. -/
theorem reads_choice {room : Prop} {levels depth : Nat} {head : Bool} {rest : List Piece}
    (htest : Phrase beautify n 1 4 noIn true test condition)
    (hyes : Phrase beautify n 1 2 noIn true yes consequent)
    (hno : Phrase beautify n 1 2 noIn true no alternative)
    (hroom : room → Room (n + 1) 0 levels depth) (hhead : head = true → noIn = true)
    (hends : endsAssignment head (upcoming rest) = true) (newline : Bool) :
    Reads room (conditional (.ofNat levels) head)
      ⟨lexemes beautify newline (infixed test "?" (infixed yes ":" no) ++ rest), depth⟩
      (.conditional condition consequent alternative) ⟨lexemes beautify false rest, depth⟩ := by
  have question : endsOperand (.punctuator .question) = true ∧
      combining? head (.punctuator .question) = none := ⟨rfl, by cases head <;> rfl⟩
  have colon : endsAssignment false (.punctuator .colon) = true := rfl
  have first := (htest.row (Nat.le_refl 4)).climb (fun hr => (hroom hr).step.mono (by omega))
    newline (.space :: .text "?" :: .space :: (infixed yes ":" no ++ rest)) hhead (Nat.le_refl 4)
    (by simp [question]) (by simp [question])
  have second := (hyes.assignment (Nat.le_refl 2)).inner_assignment (fun hr => (hroom hr).step)
    false false (.space :: .text ":" :: .space :: (no ++ rest)) nofun (by simp [colon])
  have third := (hno.assignment (Nat.le_refl 2)).inner_assignment (fun hr => (hroom hr).step)
    head false rest hhead hends
  rw [infixed, List.append_assoc]
  refine first.bind (.sees (by simp) ?_)
  rw [lexemes_space, lexemes_text, lexemes_space, infixed, List.append_assoc]
  refine Reads.advance.bind (second.bind ?_)
  rw [lexemes_space, lexemes_text, lexemes_space]
  exact (Reads.expect (by simp)).bind (third.bind (.pure _ _))

/-- A conditional is looser than all operators that combine. -/
theorem Phrase.choose (htest : Phrase beautify n 1 4 noIn true test condition)
    (hyes : Phrase beautify n 1 2 noIn true yes consequent)
    (hno : Phrase beautify n 1 2 noIn true no alternative) (calls : Bool) :
    Phrase beautify (n + 1) 0 3 noIn calls (infixed test "?" (infixed yes ":" no))
      (.conditional condition consequent alternative) := by
  refine .ofAssignment (htest.opens.append (by omega) (by simp)) (Nat.le_refl _) ?_
  intro room levels depth hroom head newline rest hhead hends
  have choice := reads_choice htest hyes hno hroom hhead hends newline
  rw [endsAssignment, Bool.and_eq_true, Option.isNone_iff_eq_none] at hends
  refine .token_bind fun _ _ => choice.bind (.token_bind fun token hk => ?_)
  rw [hk, nextKind_lexemes, hends.2]
  exact .pure _ _

end Choice

/-- Two items at least with commas between them are the loosest phrase. -/
theorem Phrase.sequence {items : List (List Piece)} {values : List Node}
    (h : ReadAsList beautify n noIn items values) (hlength : 2 ≤ values.length) (calls : Bool) :
    Phrase beautify (n + 1) 0 1 noIn calls (commaList items) (.sequence values) := by
  obtain ⟨first, second, others, rfl⟩ : ∃ first second others, values = first :: second :: others := by
    match values, hlength with
    | first :: second :: others, _ => exact ⟨first, second, others, rfl⟩
  refine .ofExpression ?_ (Nat.le_refl 1) ?_
  · cases h with
    | cons hfirst hrest =>
      cases hrest with
      | cons hsecond hrest => exact hfirst.opens.append (by omega) (by simp [Node.comma])
  · intro room levels depth hroom head newline rest hhead hends
    have each : List.Forall₂ (ReadAsItem beautify room ((Level.ofNat levels).assignment head)
        (fun kind => opensExpression kind = true) (endsExpression head) depth) items
        (first :: second :: others) :=
      h.imp fun pieces value hp => hp.item (Nat.le_refl 2) (fun hr => ((hroom hr).mono (by omega)).step) head hhead
    have series := series_commaList each (by rintro rfl; cases h) newline rest hends (by
      rw [endsExpression, Bool.and_eq_true, bne_iff_ne] at hends
      exact hends.2)
    have enough := length_le_textCount_commaList items
    rw [h.length_eq] at enough
    refine .rounds_bind fun count hcount => (series.separated ?_).bind (.pure _ _)
    rw [length_lexemes, textCount_append] at hcount
    omega

end JsPrune
