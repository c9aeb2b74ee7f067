import JsPrune.Proofs.Sentences

/-!
# Compound statements read back

Statements that a reserved word opens and that hold other statements or several expressions: choices,
loops, switches, handlers. As for all sentences, the parts are phrases and sentences and the result
is a sentence.

The dangling `else` shows up in one place only: the statement before an `else` has to be a sentence
that an `else` can not join.
-/

namespace JsPrune

open ParseM Grammar

variable {beautify : Bool} {n : Nat} {room : Prop} {levels depth : Nat} {ended opened : Bool}

/-- What the dispatch on a reserved word reads is a sentence that starts with the word. No label can
come first, since the word is no name. -/
theorem Sentence.ofWord (word : Keyword) {content : String} {tail : List Piece} {value : Node}
    (hword : kindOf content = .keyword word) (hopens : opensStatement (.keyword word) = true)
    (h : ∀ (room : Prop) (levels depth : Nat), (room → Room (n + 1) 0 levels depth) →
      ∀ (newline : Bool) (rest : List Piece), EndsStatement ended opened (upcoming rest) →
        Reads room (wordStatement (.ofNat levels) word)
          ⟨⟨kindOf content, newline, content.toList⟩ :: lexemes beautify false (tail ++ rest), depth⟩
          value ⟨lexemes beautify false rest, depth⟩) :
    Sentence beautify (n + 1) 0 ended opened (.text content :: tail) value where
  opens := by rw [upcoming_text, hword]; exact hopens
  reads room levels depth hroom newline rest hends :=
    reads_wordStatement hword (h room levels depth hroom newline rest hends)

/-! ## Statements without parts -/

/-- A `debugger` statement is the word and its ending. -/
theorem Sentence.debugger (ended opened : Bool) :
    Sentence beautify (n + 1) 0 ended opened (.text "debugger" :: Node.ending ended) .debugger := by
  refine .ofWord .debuggerKw (by simp) rfl ?_
  intro room levels depth _ newline rest hends
  exact Reads.advance.bind ((reads_ending hends).bind (.pure _ _))

/-- The word of a jump. -/
def jumpWord : JumpTag → String
  | .break_ => "break"
  | .continue_ => "continue"

/-- The label of a jump is read if it is there; without one, whatever ends the statement is not
taken for one. -/
theorem reads_jumpLabel {label : Option String} (hlabel : ∀ x ∈ label, IsName x)
    {rest : List Piece} (hends : EndsStatement ended opened (upcoming rest)) :
    Reads room jumpLabel?
      ⟨lexemes beautify false (label.toList.map Piece.text ++ (Node.ending ended ++ rest)), depth⟩
      label ⟨lexemes beautify false (Node.ending ended ++ rest), depth⟩ := by
  cases label with
  | none =>
    refine .token_bind fun token hk => ?_
    rw [nextKind_lexemes, Option.toList_none, List.map_nil, List.nil_append] at hk
    rcases upcoming_ending hends with next | next | next
    all_goals
      rw [next] at hk
      rw [hk]
      exact .pure _ _
  | some name =>
    have known : kindOf name = .identifier name := hlabel name rfl
    refine .token_newline_bind fun token hk hn => ?_
    rw [hk, hn, known]
    exact Reads.advance.bind (.pure _ _)

/-- A jump is read with its word, its label and its ending. -/
theorem reads_jump {label : Option String} (hlabel : ∀ x ∈ label, IsName x) (tag : JumpTag)
    {word : Lexeme} {rest : List Piece} (hends : EndsStatement ended opened (upcoming rest)) :
    Reads room (jump tag)
      ⟨word :: lexemes beautify false ((label.toList.map Piece.text ++ Node.ending ended) ++ rest),
        depth⟩
      (.jump tag label) ⟨lexemes beautify false rest, depth⟩ := by
  rw [List.append_assoc]
  exact Reads.advance.bind ((reads_jumpLabel hlabel hends).bind
    ((reads_ending hends).bind (.pure _ _)))

/-- The word of a jump, its label and its ending are a sentence. -/
theorem Sentence.jump {label : Option String} (hlabel : ∀ x ∈ label, IsName x) (tag : JumpTag)
    (ended opened : Bool) :
    Sentence beautify (n + 1) 0 ended opened
      (.text (jumpWord tag) :: (label.toList.map Piece.text ++ Node.ending ended))
      (.jump tag label) := by
  cases tag with
  | break_ =>
    exact .ofWord .breakKw (by simp [jumpWord]) rfl fun _ _ _ _ _ _ hends =>
      reads_jump hlabel .break_ hends
  | continue_ =>
    exact .ofWord .continueKw (by simp [jumpWord]) rfl fun _ _ _ _ _ _ hends =>
      reads_jump hlabel .continue_ hends

/-! ## Statements with an optional value -/

/-- The word of an exit. -/
def exitWord : ExitTag → String
  | .return_ => "return"
  | .throw => "throw"

/-- The optional value of an exit. -/
inductive ReadAsClause (beautify : Bool) (n : Nat) : List Piece → Option Node → Prop
  | none : ReadAsClause beautify n [] none
  | some {pieces value level noIn calls} (h : Phrase beautify n 1 level noIn calls pieces value) :
      ReadAsClause beautify n (.space :: pieces) (some value)

/-- The value of an exit is read if it is there. A `return` without one stops at the end of the
statement, and a `throw` always has one. -/
theorem reads_exitValue {tag : ExitTag} {pieces : List Piece} {value : Option Node}
    (h : ReadAsClause beautify n pieces value) (htag : tag = .throw → value.isSome = true)
    (hroom : room → Room n 2 levels depth) {rest : List Piece}
    (hends : EndsStatement ended opened (upcoming rest)) :
    Reads room (exitValue? (.ofNat levels) tag)
      ⟨lexemes beautify false (pieces ++ (Node.ending ended ++ rest)), depth⟩ value
      ⟨lexemes beautify false (Node.ending ended ++ rest), depth⟩ := by
  refine .get_bind fun parser hs => ?_
  cases h with
  | none =>
    have returned : tag ≠ .throw := fun ht => by cases htag ht
    -- Without a value the statement ends here, in one of three ways.
    have ends : parser.atStatementEnd? = true := by
      rw [Parser.atStatementEnd?, Parser.at?, Parser.at?, Parser.atEnd?, hs.kind_current,
        nextKind_lexemes]
      rcases upcoming_ending hends with next | next | next
      all_goals
        rw [List.nil_append, next]
        simp
    rw [ends]
    simp only [if_true, if_neg returned]
    exact .pure _ _
  | @some pieces value level noIn calls h =>
    have read := h.whole room levels depth hroom false false (Node.ending ended ++ rest)
      (absurd · Bool.false_ne_true) (endsExpression_of_closes _ (closes_ending hends))
    -- With a value it does not end yet: the printer breaks no line here, and no expression starts
    -- with a mark that ends a statement.
    have ongoing : parser.atStatementEnd? = false := by
      obtain ⟨content, tail, rfl, hopens, _, _⟩ := h.opens
      rw [List.cons_append, lexemes_space, List.cons_append, lexemes_text] at hs
      have starts := opensStatement_iff.mp (opensStatement_of_opensExpression hopens)
      have noSemicolon : kindOf content ≠ .punctuator .semicolon := opens_ne_mark hopens rfl
      rw [Parser.atStatementEnd?, Parser.at?, Parser.at?, Parser.atEnd?, hs.kind_current,
        hs.newline_current, nextKind_cons]
      simp [starts.1, starts.2.1, noSemicolon]
    rw [ongoing]
    exact read.bind (.pure _ _)

/-- An exit is read with its word, its value and its ending. -/
theorem reads_exit {tag : ExitTag} {pieces : List Piece} {value : Option Node}
    (h : ReadAsClause beautify n pieces value) (htag : tag = .throw → value.isSome = true)
    (hroom : room → Room n 2 levels depth) {word : Lexeme} {rest : List Piece}
    (hends : EndsStatement ended opened (upcoming rest)) :
    Reads room (exit (.ofNat levels) tag)
      ⟨word :: lexemes beautify false ((pieces ++ Node.ending ended) ++ rest), depth⟩
      (.exit tag value) ⟨lexemes beautify false rest, depth⟩ := by
  rw [List.append_assoc]
  exact Reads.advance.bind ((reads_exitValue h htag hroom hends).bind
    ((reads_ending hends).bind (.pure _ _)))

/-- The word of an exit, its value and its ending are a sentence. -/
theorem Sentence.exit {pieces : List Piece} {value : Option Node}
    (h : ReadAsClause beautify n pieces value) (tag : ExitTag)
    (htag : tag = .throw → value.isSome = true) (ended opened : Bool) :
    Sentence beautify (n + 1) 0 ended opened
      (.text (exitWord tag) :: (pieces ++ Node.ending ended)) (.exit tag value) := by
  cases tag with
  | return_ =>
    exact .ofWord .returnKw (by simp [exitWord]) rfl fun _ _ _ hroom _ _ hends =>
      reads_exit h htag (fun hr => (hroom hr).step) hends
  | throw =>
    exact .ofWord .throwKw (by simp [exitWord]) rfl fun _ _ _ hroom _ _ hends =>
      reads_exit h htag (fun hr => (hroom hr).step) hends

/-! ## Choices and loops -/

section Compound

variable {test body : List Piece} {condition value : Node} {level : Nat} {noIn calls : Bool}

/-- A condition is read between its parentheses, whatever comes after them. -/
theorem reads_parenthesized (h : Phrase beautify n 1 level noIn calls test condition)
    (hroom : room → Room n 2 levels depth) (rest : List Piece) :
    Reads room (parenthesized (.ofNat levels))
      ⟨lexemes beautify false (Node.inParens test ++ rest), depth⟩ condition
      ⟨lexemes beautify false rest, depth⟩ := by
  have inside := h.whole room levels depth hroom false false (.text ")" :: rest) nofun
    (endsExpression_of_closes _ (by simp [closesExpression]))
  simp only [Node.inParens, List.cons_append, List.append_assoc, List.nil_append, lexemes_text]
    at inside ⊢
  exact (Reads.expect (by simp)).bind (inside.bind ((Reads.expect (by simp)).bind (.pure _ _)))

/-- An `if` without `else` is a sentence that an `else` would join, whether or not one would join
its body. -/
theorem Sentence.ifOnly (htest : Phrase beautify n 1 level noIn calls test condition)
    (hbody : Sentence beautify n 1 ended true body value) :
    Sentence beautify (n + 1) 0 ended true
      (.text "if" :: .space :: (Node.inParens test ++ body)) (.ifElse condition value none) := by
  refine .ofWord .ifKw (by simp) rfl ?_
  intro room levels depth hroom newline rest hends
  have second := hbody.inner (fun hr => (hroom hr).step) false rest hends
  rw [List.cons_append, lexemes_space, List.append_assoc]
  refine Reads.advance.bind ((reads_parenthesized htest (fun hr => (hroom hr).step) _).bind ?_)
  refine second.bind (.missesWord ?_ (.pure _ _))
  rw [nextKind_lexemes]
  exact hends.alone rfl

/-- In front of an `else` stands a sentence that the `else` can not join. What may follow is up to
the sentence after the `else`. -/
theorem Sentence.ifElse {other : List Piece} {alternative : Node}
    (htest : Phrase beautify n 1 level noIn calls test condition)
    (hbody : Sentence beautify n 1 true false body value)
    (hother : Sentence beautify n 1 ended opened other alternative) :
    Sentence beautify (n + 1) 0 ended opened
      (.text "if" :: .space :: (Node.inParens test ++ (body ++ .space :: .text "else" :: other)))
      (.ifElse condition value (some alternative)) := by
  refine .ofWord .ifKw (by simp) rfl ?_
  intro room levels depth hroom newline rest hends
  have second := hbody.inner (fun hr => (hroom hr).step) false
    (.space :: .text "else" :: (other ++ rest)) ⟨nofun, nofun, by simp⟩
  have third := hother.inner (fun hr => (hroom hr).step) false rest hends
  simp only [List.cons_append, lexemes_space, List.append_assoc]
  refine Reads.advance.bind ((reads_parenthesized htest (fun hr => (hroom hr).step) _).bind ?_)
  refine second.bind (.seesWord (by simp) ?_)
  rw [lexemes_space, lexemes_text]
  exact Reads.advance.bind (third.bind (.pure _ _))

/-- A `while` loop ends as its body does. -/
theorem Sentence.whileLoop (htest : Phrase beautify n 1 level noIn calls test condition)
    (hbody : Sentence beautify n 1 ended opened body value) :
    Sentence beautify (n + 1) 0 ended opened
      (.text "while" :: .space :: (Node.inParens test ++ body)) (.loop .while_ condition value) := by
  refine .ofWord .whileKw (by simp) rfl ?_
  intro room levels depth hroom newline rest hends
  have second := hbody.inner (fun hr => (hroom hr).step) false rest hends
  rw [List.cons_append, lexemes_space, List.append_assoc]
  refine Reads.advance.bind ((reads_parenthesized htest (fun hr => (hroom hr).step) _).bind ?_)
  exact second.bind (.pure _ _)

/-- The body of a `do` loop has its semicolon, and the loop has an ending of its own behind its
test. -/
theorem Sentence.doLoop (htest : Phrase beautify n 1 level noIn calls test condition)
    (hbody : Sentence beautify n 1 true true body value) (ended opened : Bool) :
    Sentence beautify (n + 1) 0 ended opened
      (.text "do" :: (body ++ .space :: .text "while" :: .space ::
        (Node.inParens test ++ Node.ending ended)))
      (.loop .do_ condition value) := by
  refine .ofWord .doKw (by simp) rfl ?_
  intro room levels depth hroom newline rest hends
  have first := hbody.inner (fun hr => (hroom hr).step) false
    (.space :: .text "while" :: .space :: (Node.inParens test ++ (Node.ending ended ++ rest)))
    ⟨by simp, fun _ => by simp, by simp⟩
  simp only [List.cons_append, List.append_assoc]
  refine Reads.advance.bind (first.bind (.seesWord (by simp) ?_))
  rw [lexemes_space, lexemes_text, lexemes_space]
  refine Reads.advance.bind ((reads_parenthesized htest (fun hr => (hroom hr).step) _).bind ?_)
  cases ended with
  | true => exact .sees (by simp [Node.ending]) (Reads.advance.bind (.pure _ _))
  | false =>
    refine .misses ?_ (.pure _ _)
    rw [nextKind_lexemes]
    rcases hends.closed rfl with next | next
    all_goals
      rw [Node.ending, if_neg Bool.false_ne_true, List.nil_append, next]
      decide

/-- A labeled statement ends as the statement does. The label is told from an expression by the
colon that is read ahead. -/
theorem Sentence.labeled {label : String} (hlabel : IsName label)
    (hbody : Sentence beautify n 1 ended opened body value) :
    Sentence beautify (n + 1) 0 ended opened (.text label :: .text ":" :: .space :: body)
      (.labeled label value) := by
  have known : kindOf label = .identifier label := hlabel
  refine ⟨by rw [upcoming_text, known]; rfl, ?_⟩
  intro room levels depth hroom newline rest hends
  have second := hbody.inner (fun hr => (hroom hr).step) false rest hends
  simp only [List.cons_append, lexemes_text, lexemes_space]
  refine (reads_seesLabel _).bind ?_
  have label : isLabel (⟨kindOf label, newline, label.toList⟩ :: ⟨kindOf ":", false, ":".toList⟩ ::
      lexemes beautify false (body ++ rest)) = true := by
    rw [known]
    simp [isLabel]
  rw [label]
  exact hlabel.reads.bind ((Reads.expect (by simp)).bind (second.bind (.pure _ _)))

end Compound

/-! ## Loops with a head of several parts -/

/-- The pieces are read as what stands first in the head of a loop. -/
def ReadAsInit (beautify : Bool) (n : Nat) (pieces : List Piece) (value : Node) : Prop :=
  ∀ (room : Prop) (levels depth : Nat) (rest : List Piece), (room → Room n 2 levels depth) →
    upcoming rest = .punctuator .semicolon ∨ upcoming rest = .keyword .inKw →
    Reads room (forInit? (.ofNat levels)) ⟨lexemes beautify false (pieces ++ rest), depth⟩ (some value)
      ⟨lexemes beautify false rest, depth⟩

/-- Both marks that may stand behind the first part of a loop head end an expression that keeps a
bare `in` out. -/
theorem endsExpression_init {kind : Token.Kind}
    (h : kind = .punctuator .semicolon ∨ kind = .keyword .inKw) : endsExpression true kind = true := by
  rcases h with rfl | rfl
  · rfl
  · rfl

/-- A declaration that keeps a bare `in` out can stand first in the head of a loop. -/
theorem ReadAsInit.ofDeclaration {tag : DeclarationTag} {tail : List Piece} {value : Node}
    (h : ReadAsDeclaration beautify n true tag (.text tag.word :: tail) value) :
    ReadAsInit beautify n (.text tag.word :: tail) value := by
  intro room levels depth rest hroom hrest
  have tagged := kindOf_word_declaration tag
  have read := h room levels depth true false rest (fun hr => (hroom hr).mono (Nat.zero_le _))
    (fun _ => rfl) (endsExpression_init hrest)
  refine .misses ?_ (.token_bind fun token hk => ?_)
  · rw [nextKind_lexemes, List.cons_append, upcoming_text]
    intro hsemicolon
    rw [hsemicolon] at tagged
    cases tagged
  · rw [List.cons_append, lexemes_text, nextKind_cons] at hk
    rw [hk, tagged]
    exact read.bind (.pure _ _)

/-- No expression starts with the word of a declaration. -/
theorem declarationTag?_of_opens {kind : Token.Kind} (h : opensExpression kind = true) :
    declarationTag? kind = none := by
  unfold declarationTag?
  split
  case h_4 => rfl
  all_goals cases h

/-- An expression that keeps a bare `in` out can stand first in the head of a loop. -/
theorem ReadAsInit.ofExpression {level : Nat} {calls : Bool} {pieces : List Piece} {value : Node}
    (h : Phrase beautify n 1 level true calls pieces value) : ReadAsInit beautify n pieces value := by
  intro room levels depth rest hroom hrest
  have opens := h.opens.upcoming rest
  have read := h.whole room levels depth hroom true false rest (fun _ => rfl)
    (endsExpression_init hrest)
  refine .misses ?_ (.token_bind fun token hk => ?_)
  · rw [nextKind_lexemes]
    exact opens_ne_mark opens rfl
  · rw [nextKind_lexemes] at hk
    rw [hk, declarationTag?_of_opens opens]
    exact read.bind (.pure _ _)

/-- An optional expression is read up to the mark that closes its place, also if there is none. -/
theorem reads_optionalExpression (close : Punctuator) {pieces : List Piece} {value : Option Node}
    (h : ReadAsClause beautify n pieces value) (hroom : room → Room n 2 levels depth)
    (hclose : closesExpression (.punctuator close) = true)
    (hopens : opensExpression (.punctuator close) = false) (rest : List Piece)
    (hrest : upcoming rest = .punctuator close) :
    Reads room (optionalExpression (.ofNat levels) close)
      ⟨lexemes beautify false (pieces ++ rest), depth⟩ value ⟨lexemes beautify false rest, depth⟩ := by
  cases h with
  | none => exact .sees (by rw [nextKind_lexemes]; exact hrest) (.pure _ _)
  | some h =>
    refine .misses ?_ ((h.whole room levels depth hroom false false rest nofun
      (endsExpression_of_closes _ (by rw [hrest]; exact hclose))).bind (.pure _ _))
    rw [nextKind_lexemes]
    exact opens_ne_mark (h.opens.upcoming rest) hopens

section For

variable {init test step body : List Piece} {first condition next : Option Node} {value : Node}

/-- The optional first part of the head of a loop. -/
inductive ReadAsInit? (beautify : Bool) (n : Nat) : List Piece → Option Node → Prop
  | none : ReadAsInit? beautify n [] none
  | some {pieces value} (h : ReadAsInit beautify n pieces value) :
      ReadAsInit? beautify n pieces (some value)

/-- The optional first part of a loop head is read up to the semicolon behind it. -/
theorem reads_forInit (h : ReadAsInit? beautify n init first) (hroom : room → Room n 2 levels depth)
    (rest : List Piece) (hrest : upcoming rest = .punctuator .semicolon) :
    Reads room (forInit? (.ofNat levels)) ⟨lexemes beautify false (init ++ rest), depth⟩ first
      ⟨lexemes beautify false rest, depth⟩ := by
  cases h with
  | none => exact .sees (by rw [nextKind_lexemes]; exact hrest) (.pure _ _)
  | some h => exact h room levels depth rest hroom (.inl hrest)

/-- The three parts of a loop head, each optional, stand between semicolons; the loop ends as its
body does. -/
theorem Sentence.forLoop (hinit : ReadAsInit? beautify n init first)
    (htest : ReadAsClause beautify n test condition) (hstep : ReadAsClause beautify n step next)
    (hbody : Sentence beautify n 1 ended opened body value) :
    Sentence beautify (n + 1) 0 ended opened
      (.text "for" :: .space :: .text "(" :: (init ++ .text ";" :: (test ++ .text ";" ::
        (step ++ .text ")" :: body))))
      (.forLoop first condition next value) := by
  refine .ofWord .forKw (by simp) rfl ?_
  intro room levels depth hroom newline rest hends
  have room' : room → Room n 2 levels depth := fun hr => (hroom hr).step
  have one := reads_forInit hinit room'
    (.text ";" :: (test ++ .text ";" :: (step ++ .text ")" :: (body ++ rest)))) (by simp)
  have two := reads_optionalExpression .semicolon htest room' rfl rfl
    (.text ";" :: (step ++ .text ")" :: (body ++ rest))) (by simp)
  have three := reads_optionalExpression .parenClose hstep room' rfl rfl
    (.text ")" :: (body ++ rest)) (by simp)
  have four := hbody.inner room' false rest hends
  simp only [List.cons_append, List.append_assoc, lexemes_space, lexemes_text] at one two three ⊢
  refine Reads.advance.bind ((Reads.expect (by simp)).bind (one.bind (.missesWord (by simp) ?_)))
  cases first
  all_goals exact (Reads.expect (by simp)).bind (two.bind ((Reads.expect (by simp)).bind
    (three.bind ((Reads.expect (by simp)).bind (four.bind (.pure _ _))))))

/-- A loop over the keys of an object reads as one if its target is fit for it; the loop ends as its
body does. -/
theorem Sentence.forIn {object : List Piece} {target subject : Node} {level : Nat} {noIn calls : Bool}
    (hinit : ReadAsInit beautify n init target) (hproblem : forInProblem? target = none)
    (hobject : Phrase beautify n 1 level noIn calls object subject)
    (hbody : Sentence beautify n 1 ended opened body value) :
    Sentence beautify (n + 1) 0 ended opened
      (.text "for" :: .space :: .text "(" :: (init ++ .text "in" :: .space ::
        (object ++ .text ")" :: body)))
      (.forIn target subject value) := by
  refine .ofWord .forKw (by simp) rfl ?_
  intro room levels depth hroom newline rest hends
  have room' : room → Room n 2 levels depth := fun hr => (hroom hr).step
  have one := hinit room levels depth (.text "in" :: .space :: (object ++ .text ")" :: (body ++ rest)))
    room' (.inr (by simp))
  have two := hobject.whole room levels depth room' false false (.text ")" :: (body ++ rest)) nofun
    (endsExpression_of_closes _ (by simp [closesExpression]))
  have three := hbody.inner room' false rest hends
  simp only [List.cons_append, List.append_assoc, lexemes_space, lexemes_text] at one two ⊢
  refine Reads.advance.bind ((Reads.expect (by simp)).bind (one.bind (.seesWord (by simp) ?_)))
  show Reads room (Grammar.forIn (.ofNat levels) target) _ _ _
  rw [Grammar.forIn, hproblem]
  exact Reads.advance.bind (two.bind ((Reads.expect (by simp)).bind (three.bind (.pure _ _))))

end For

/-! ## Switches -/

/-- What may stand after a branch whose last semicolon is written, or not. -/
def EndsBranch (ended : Bool) (next : Token.Kind) : Prop :=
  next = .punctuator .braceClose ∨
    ended = true ∧ (next = .keyword .caseKw ∨ next = .keyword .defaultKw)

/-- Where a branch may end, its last statement may end. -/
theorem EndsBranch.statement {next : Token.Kind} (h : EndsBranch ended next) :
    EndsStatement ended true next := by
  rcases h with rfl | ⟨rfl, rfl | rfl⟩
  · exact ⟨fun _ => .inl rfl, fun _ => nofun, nofun⟩
  · exact ⟨nofun, fun _ => nofun, nofun⟩
  · exact ⟨nofun, fun _ => nofun, nofun⟩

/-- The statements of a branch stop where the branch may end. -/
theorem EndsBranch.stops {next : Token.Kind} (h : EndsBranch ended next) {words : List Lexeme}
    (hnext : nextKind words = next) :
    Reads room (branchStatement? (.ofNat levels)) ⟨words, depth⟩ none ⟨words, depth⟩ := by
  refine .token_bind fun token hk => ?_
  rw [hk, hnext]
  rcases h with rfl | ⟨_, rfl | rfl⟩
  all_goals exact .pure _ _

/-- In a branch a statement is read where one starts. -/
theorem branchStatement?_reads (words rest : List Lexeme) (value : Node)
    (hopens : opensStatement (nextKind words) = true)
    (h : Reads room (Level.ofNat levels).statement ⟨words, depth⟩ value ⟨rest, depth⟩) :
    Reads room (branchStatement? (.ofNat levels)) ⟨words, depth⟩ (some value) ⟨rest, depth⟩ := by
  obtain ⟨noBrace, noEnd, noCase, noDefault, _, _⟩ := opensStatement_iff.mp hopens
  refine .token_bind fun token hk => ?_
  rw [hk]
  split
  · next hbrace => exact absurd hbrace noBrace
  · next hcase => exact absurd hcase noCase
  · next hdefault => exact absurd hdefault noDefault
  · next hend => exact absurd hend noEnd
  · exact h.bind (.pure _ _)

/-- The statements of a branch, behind its colon. -/
inductive BranchLines (beautify : Bool) (n : Nat) (ended : Bool) : List Piece → List Node → Prop
  | nil : BranchLines beautify n ended [] []
  | lines {level pieces values} (h : Lines beautify n level ended pieces values)
      (hne : values ≠ []) : BranchLines beautify n ended (.newline level :: pieces) values

/-- The statements of a branch are read up to where the branch may end. -/
theorem BranchLines.reads {pieces : List Piece} {values : List Node}
    (h : BranchLines beautify n ended pieces values) (hroom : room → Room n 1 levels depth)
    {rest : List Piece} (hrest : EndsBranch ended (upcoming rest)) :
    Reads room (branchBody (.ofNat levels)) ⟨lexemes beautify false (pieces ++ rest), depth⟩ values
      ⟨lexemes beautify false rest, depth⟩ := by
  have stop : Reads room (branchStatement? (.ofNat levels)) ⟨lexemes beautify false rest, depth⟩ none
      ⟨lexemes beautify false rest, depth⟩ := hrest.stops (nextKind_lexemes _ _ _)
  refine .rounds_bind fun count hcount => ?_
  cases h with
  | nil => exact (Rounds.stop stop).many (Nat.zero_le _)
  | @lines level pieces values h hne =>
    have enough := h.length_le
    have rounds := h.rounds branchStatement?_reads hne hroom (false || beautify) rest stop
      hrest.statement
    refine rounds.many ?_
    rw [length_lexemes, List.cons_append, textCount_newline, textCount_append] at hcount
    omega

/-- The pieces are read as a branch of a switch. -/
structure Branch (beautify : Bool) (n : Nat) (ended : Bool) (pieces : List Piece) (value : Node) :
    Prop where
  opens : upcoming pieces = .keyword .caseKw ∨ upcoming pieces = .keyword .defaultKw
  reads : ∀ (room : Prop) (levels depth : Nat) (start : Source.Span), (room → Room n 0 levels depth) →
    ∀ (newline : Bool) (rest : List Piece), EndsBranch ended (upcoming rest) →
      Reads room (branch? (.ofNat levels) start) ⟨lexemes beautify newline (pieces ++ rest), depth⟩
        (some value) ⟨lexemes beautify false rest, depth⟩

/-- A branch is never empty. -/
theorem Branch.upcoming_ne_eof {pieces : List Piece} {value : Node}
    (h : Branch beautify n ended pieces value) : upcoming pieces ≠ .eof := by
  rcases h.opens with first | first
  all_goals rw [first]; nofun

/-- What a branch starts with does not depend on what follows. -/
theorem Branch.upcoming_append {pieces : List Piece} {value : Node}
    (h : Branch beautify n ended pieces value) (rest : List Piece) :
    upcoming (pieces ++ rest) = upcoming pieces :=
  JsPrune.upcoming_append h.upcoming_ne_eof rest

/-- A `case` with its test and its statements is a branch. -/
theorem Branch.case {test body : List Piece} {condition : Node} {values : List Node} {level : Nat}
    {noIn calls : Bool} (htest : Phrase beautify n 1 level noIn calls test condition)
    (hbody : BranchLines beautify n ended body values) :
    Branch beautify (n + 1) ended (.text "case" :: .space :: (test ++ .text ":" :: body))
      (.case_ condition values) := by
  refine ⟨.inl (by simp), ?_⟩
  intro room levels depth start hroom newline rest hrest
  have one := htest.whole room levels depth (fun hr => (hroom hr).step) false false
    (.text ":" :: (body ++ rest)) nofun (endsExpression_of_closes _ (by simp [closesExpression]))
  have two := hbody.reads (fun hr => (hroom hr).step.mono (by omega)) hrest
  simp only [List.cons_append, List.append_assoc, lexemes_text, lexemes_space] at one ⊢
  refine .token_bind fun token hk => ?_
  rw [nextKind_cons] at hk
  simp only [kindOf_statement_words] at hk
  rw [hk]
  exact Reads.advance.bind (one.bind ((Reads.expect (by simp)).bind (two.bind (.pure _ _))))

/-- The default branch has no test. -/
theorem Branch.default {body : List Piece} {values : List Node}
    (hbody : BranchLines beautify n ended body values) :
    Branch beautify (n + 1) ended (.text "default" :: .text ":" :: body)
      (.body .defaultBranch values) := by
  refine ⟨.inr (by simp), ?_⟩
  intro room levels depth start hroom newline rest hrest
  have one := hbody.reads (fun hr => (hroom hr).step.mono (by omega)) hrest
  simp only [List.cons_append, lexemes_text]
  refine .token_bind fun token hk => ?_
  rw [nextKind_cons] at hk
  simp only [kindOf_statement_words] at hk
  rw [hk]
  exact Reads.advance.bind ((Reads.expect (by simp)).bind (one.bind (.pure _ _)))

/-- Branches, each starting a line. -/
inductive Branches (beautify : Bool) (n level : Nat) : List Piece → List Node → Prop
  | last {ended pieces value} (h : Branch beautify n ended pieces value) :
      Branches beautify n level (.newline level :: pieces) [value]
  | more {pieces rest value values} (h : Branch beautify n true pieces value)
      (hr : Branches beautify n level rest values) :
      Branches beautify n level (.newline level :: (pieces ++ rest)) (value :: values)

namespace Branches

variable {level : Nat} {pieces : List Piece} {values : List Node}

/-- Branches start with `case` or `default`. -/
theorem opens (h : Branches beautify n level pieces values) (rest : List Piece) :
    upcoming (pieces ++ rest) = .keyword .caseKw ∨ upcoming (pieces ++ rest) = .keyword .defaultKw := by
  cases h with
  | last h =>
    rw [List.cons_append, upcoming_newline, h.upcoming_append]
    exact h.opens
  | more h _ =>
    rw [List.cons_append, upcoming_newline, List.append_assoc, h.upcoming_append]
    exact h.opens

/-- There are at least as many texts as branches, which bounds the turns of the loop that reads
them. -/
theorem length_le (h : Branches beautify n level pieces values) :
    values.length ≤ textCount pieces := by
  induction h with
  | last h =>
    rw [textCount_newline]
    exact textCount_pos h.upcoming_ne_eof
  | more h _ ih =>
    have first := textCount_pos h.upcoming_ne_eof
    rw [textCount_newline, textCount_append, List.length_cons]
    omega

/-- Branches are read one after the other up to the closing brace. The reading of each may rely on
the next to start with a word of its own. -/
theorem rounds (h : Branches beautify n level pieces values) (start : Source.Span)
    (hroom : room → Room n 0 levels depth) (newline : Bool) (rest : List Piece)
    (hrest : upcoming rest = .punctuator .braceClose) :
    Rounds room (branch? (.ofNat levels) start) ⟨lexemes beautify newline (pieces ++ rest), depth⟩
      values ⟨lexemes beautify false rest, depth⟩ := by
  have stop : Reads room (branch? (.ofNat levels) start) ⟨lexemes beautify false rest, depth⟩ none
      ⟨lexemes beautify false rest, depth⟩ := by
    refine .token_bind fun token hk => ?_
    rw [nextKind_lexemes, hrest] at hk
    rw [hk]
    exact .pure _ _
  induction h generalizing newline with
  | last h => exact .round (h.reads room levels depth start hroom _ rest (.inl hrest)) (.stop stop)
  | @more pieces others value values h hr ih =>
    rw [List.cons_append, lexemes_newline, List.append_assoc]
    exact .round (h.reads room levels depth start hroom _ (others ++ rest)
      (.inr ⟨rfl, hr.opens rest⟩)) (ih false)

end Branches

/-- The braces of a switch. -/
inductive SwitchBody (beautify : Bool) (n : Nat) : List Piece → List Node → Prop
  | nil : SwitchBody beautify n [.text "\x7b", .text "\x7d"] []
  | branches {level inner pieces values} (h : Branches beautify n inner pieces values) :
      SwitchBody beautify n (.text "\x7b" :: (pieces ++ [.newline level, .text "\x7d"])) values

/-- A `switch` is closed by its brace, so it needs no ending. -/
theorem Sentence.switch {test body : List Piece} {subject : Node} {values : List Node} {level : Nat}
    {noIn calls : Bool} (htest : Phrase beautify n 1 level noIn calls test subject)
    (hbody : SwitchBody beautify n body values) (ended opened : Bool) :
    Sentence beautify (n + 1) 0 ended opened
      (.text "switch" :: .space :: (Node.inParens test ++ .space :: body))
      (.switch subject values) := by
  refine .ofWord .switchKw (by simp) rfl ?_
  intro room levels depth hroom newline rest _
  simp only [List.cons_append, List.append_assoc, lexemes_space]
  refine Reads.advance.bind ((reads_parenthesized htest (fun hr => (hroom hr).step) _).bind ?_)
  refine .token_bind fun start _ => ?_
  cases hbody with
  | nil =>
    simp only [List.cons_append, List.nil_append, lexemes_space, lexemes_text]
    refine (Reads.expect (by simp)).bind (.rounds_bind fun count _ => ?_)
    refine .bind (Rounds.many (.stop (.token_bind fun token hk => ?_)) (Nat.zero_le _))
      (Reads.advance.bind (.pure _ _))
    rw [nextKind_cons] at hk
    simp only [kindOf_marks] at hk
    rw [hk]
    exact .pure _ _
  | @branches outer inner pieces values h =>
    have enough := h.length_le
    have rounds := h.rounds start.span (fun hr => (hroom hr).step.mono (Nat.zero_le _)) false
      (.newline outer :: .text "\x7d" :: rest) (by simp)
    simp only [List.cons_append, List.append_assoc, List.nil_append, lexemes_space, lexemes_text]
    refine (Reads.expect (by simp)).bind
      (.rounds_bind fun count hcount => (rounds.many ?_).bind ?_)
    · rw [length_lexemes, textCount_append] at hcount
      omega
    · rw [lexemes_newline, lexemes_text]
      exact Reads.advance.bind (.pure _ _)

/-! ## Handlers -/

/-- The pieces are read as the handler of a `try`, with anything after them. -/
def ReadAsHandler (beautify : Bool) (n : Nat) (pieces : List Piece) (value : Node) : Prop :=
  ∀ (room : Prop) (levels depth : Nat) (rest : List Piece), (room → Room n 0 levels depth) →
    Reads room (handler? (.ofNat levels)) ⟨lexemes beautify false (pieces ++ rest), depth⟩ (some value)
      ⟨lexemes beautify false rest, depth⟩

/-- A name in parentheses and statements in braces are the handler of a `try`. -/
theorem ReadAsHandler.intro {parameter : String} {body : List Piece} {values : List Node}
    (hparameter : IsName parameter) (hbody : Enclosed beautify n body values) :
    ReadAsHandler beautify (n + 1)
      ([.text "catch", .space, .text "(", .text parameter, .text ")", .space] ++ body)
      (.catch_ parameter values) := by
  intro room levels depth rest hroom
  have statements := hbody.reads_block (fun hr => (hroom hr).step.mono (by omega)) false rest
  simp only [List.cons_append, List.nil_append, lexemes_text, lexemes_space]
  refine .seesWord (by simp) (Reads.advance.bind ((Reads.expect (by simp)).bind ?_))
  exact hparameter.reads.bind ((Reads.expect (by simp)).bind (statements.bind (.pure _ _)))

/-- The pieces are read as the finally clause of a `try`, with anything after them. -/
def ReadAsFinalizer (beautify : Bool) (n : Nat) (pieces : List Piece) (value : Node) : Prop :=
  upcoming pieces = .keyword .finallyKw ∧
  ∀ (room : Prop) (levels depth : Nat) (rest : List Piece), (room → Room n 0 levels depth) →
    Reads room (finalizer? (.ofNat levels)) ⟨lexemes beautify false (pieces ++ rest), depth⟩
      (some value) ⟨lexemes beautify false rest, depth⟩

/-- Statements in braces behind `finally` are the last clause of a `try`. -/
theorem ReadAsFinalizer.intro {body : List Piece} {values : List Node}
    (hbody : Enclosed beautify n body values) :
    ReadAsFinalizer beautify (n + 1) ([.text "finally", .space] ++ body)
      (.body .finallyClause values) := by
  refine ⟨by simp, ?_⟩
  intro room levels depth rest hroom
  have statements := hbody.reads_block (fun hr => (hroom hr).step.mono (by omega)) false rest
  simp only [List.cons_append, List.nil_append, lexemes_text, lexemes_space]
  exact .seesWord (by simp) (Reads.advance.bind (statements.bind (.pure _ _)))

/-- An optional clause of a `try`, with a space before it. -/
inductive Appended (reads : List Piece → Node → Prop) : List Piece → Option Node → Prop
  | none : Appended reads [] none
  | some {pieces value} (h : reads pieces value) : Appended reads (.space :: pieces) (some value)

/-- A `try` needs one clause at least. Nothing that ends the statement before it could be taken for
a clause. -/
theorem Sentence.tryCatch {body catching finishing : List Piece} {values : List Node}
    {handler finalizer : Option Node} (hbody : Enclosed beautify n body values)
    (hhandler : Appended (ReadAsHandler beautify n) catching handler)
    (hfinalizer : Appended (ReadAsFinalizer beautify n) finishing finalizer)
    (hsome : handler.isSome = true ∨ finalizer.isSome = true) (ended opened : Bool) :
    Sentence beautify (n + 1) 0 ended opened
      (.text "try" :: .space :: (body ++ (catching ++ finishing)))
      (.try_ values handler finalizer) := by
  refine .ofWord .tryKw (by simp) rfl ?_
  intro room levels depth hroom newline rest hends
  have room' : room → Room n 0 levels depth := fun hr => (hroom hr).step.mono (by omega)
  have statements := hbody.reads_block (fun hr => (hroom hr).step.mono (by omega)) false
    (catching ++ (finishing ++ rest))
  have caught : Reads room (handler? (.ofNat levels))
      ⟨lexemes beautify false (catching ++ (finishing ++ rest)), depth⟩ handler
      ⟨lexemes beautify false (finishing ++ rest), depth⟩ := by
    cases hhandler with
    | some h => exact h room levels depth (finishing ++ rest) room'
    | none =>
      -- Without a handler there is a finally clause, so no `catch` comes next.
      cases hfinalizer with
      | none => rcases hsome with h | h <;> cases h
      | @some pieces value h =>
        refine .missesWord ?_ (.pure _ _)
        rw [nextKind_lexemes, List.nil_append, List.cons_append, upcoming_space,
          JsPrune.upcoming_append (by rw [h.1]; nofun), h.1]
        nofun
  have finished : Reads room (finalizer? (.ofNat levels))
      ⟨lexemes beautify false (finishing ++ rest), depth⟩ finalizer
      ⟨lexemes beautify false rest, depth⟩ := by
    cases hfinalizer with
    | some h => exact h.2 room levels depth rest room'
    | none => exact .missesWord (by rw [nextKind_lexemes]; exact hends.final) (.pure _ _)
  have complete : (handler.isNone && finalizer.isNone) = false := by
    rcases hsome with h | h
    · rw [Option.isSome_iff_exists] at h
      obtain ⟨_, rfl⟩ := h
      rfl
    · rw [Option.isSome_iff_exists] at h
      obtain ⟨_, rfl⟩ := h
      exact Bool.and_false _
  simp only [List.cons_append, List.append_assoc, lexemes_space]
  refine Reads.advance.bind (statements.bind (caught.bind (finished.bind ?_)))
  rw [complete]
  exact .pure _ _

/-! ## Function declarations -/

/-- A function declaration has a name and is closed by its brace. -/
theorem Sentence.function {name : Option String} {names : List String} {body : List Piece}
    {values : List Node} (hname : ∀ x ∈ name, IsName x) (hsome : name.isSome = true)
    (hnames : ∀ parameter ∈ names, IsName parameter) (hbody : Enclosed beautify n body values)
    (ended opened : Bool) :
    Sentence beautify (n + 1) 0 ended opened (.text "function" :: signature name names body)
      (.lambda .declaration name names values) := by
  refine .ofWord .functionKw (by simp) rfl ?_
  intro room levels depth hroom newline rest _
  exact Reads.advance.bind (reads_lambda hname (fun _ => hsome) hnames hbody
    (fun hr => (hroom hr).step.mono (by omega)) rest)

end JsPrune
