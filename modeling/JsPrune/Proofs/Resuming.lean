import JsPrune.Proofs.Moving
import JsPrune.Proofs.Tiling
import Mathlib.Data.Stream.Init
import Mathlib.Order.Monotone.Basic

/-!
# A parser that is asked again

A parser may be asked for a program or an expression, and again, whether it answered or refused.
Between two requests it stands on no level, and it has lost no token: the current token, the one that
was read ahead and those that the lexer still has to read are together what is left of the text,
comments aside.

`Parser.ahead` puts the tokens of a parser together, with the end of the text repeated for ever.
Going on drops the first of them, reading ahead none (`ahead_advance`, `ahead_peek`), so that the
grammar as a whole drops some of them (`Parser.Roams`). The limit on nesting is shown together with
it: with `room` levels below, the count of levels above is `maxNesting - room`.

Main result: `after_consistent`.
-/

namespace JsPrune

open JsPrune.Source

/-! ## The tokens ahead -/

/-- What a token is and where it stands. -/
def Token.look (token : Token) : Token.Kind × Span := (token.kind, token.span)

/-- The end of a text at a place. -/
def endAt (here : Position) : Token.Kind × Span := (.eof, .between here here)

namespace Lexer

/-- What the lexer reads at the end, again and again. -/
def finish (lexer : Lexer) : Token.Kind × Span := endAt (lexer.position.advance lexer.rest)

/-- All that the lexer will still read, comments left out. -/
def ahead (lexer : Lexer) : Stream' (Token.Kind × Span) :=
  lexer.significant.map Token.look ++ₛ Stream'.const lexer.finish

/-- Every token leaves the end of the text where it is. -/
theorem finish_next (lexer : Lexer) : lexer.next.2.finish = lexer.finish := by
  obtain ⟨blank, _, ⟨hrest, _, _, hnext⟩ | ⟨text, _, hrest, _, _, hposition⟩⟩ := lexer.next_cases
  · rw [finish, hnext, finish, hrest]
    rfl
  · have whole : lexer.position.advance lexer.rest
        = (lexer.position.advance (blank ++ text)).advance lexer.next.2.rest := by
      rw [← advance_append, List.append_assoc, ← hrest]
    rw [finish, hposition, finish, whole]

/-- The end is where the text ends, and nothing is left behind it. -/
theorem next_of_eof {lexer : Lexer} (h : lexer.next.1.kind = .eof) :
    lexer.next.1.look = lexer.finish ∧ lexer.next.2.rest = [] := by
  obtain ⟨blank, _, ⟨hrest, _, hspan, hnext⟩ | ⟨_, _, _, hkind, _⟩⟩ := lexer.next_cases
  · refine ⟨?_, by rw [hnext]⟩
    rw [Token.look, h, hspan, finish, hrest]
    rfl
  · exact absurd h hkind

/-- So do the comments that are skipped. -/
theorem finish_nextSignificant (lexer : Lexer) :
    lexer.nextSignificant.2.finish = lexer.finish := by
  fun_induction nextSignificant lexer with
  | case1 lexer _ ih => rw [ih, finish_next]
  | case2 lexer _ => exact finish_next lexer

/-- At the end of the text the last token is read and nothing is left. -/
theorem nextSignificant_of_eof {lexer : Lexer} (h : lexer.nextSignificant.1.kind = .eof) :
    lexer.nextSignificant.1.look = lexer.finish ∧ lexer.nextSignificant.2.rest = [] := by
  fun_induction nextSignificant lexer with
  | case1 lexer _ ih =>
    rw [← finish_next]
    exact ih h
  | case2 lexer _ => exact next_of_eof h

/-- With no text left the same token comes again and again. -/
theorem ahead_of_end {lexer : Lexer} (h : lexer.rest = []) :
    lexer.ahead = Stream'.const lexer.finish := by
  have eof : lexer.next.1.kind = .eof := next_of_blank (by rw [h]; rfl)
  have only : lexer.significant = [lexer.next.1] := by
    rw [significant, tokens, dif_pos eof, List.filter_cons, eof]
    rfl
  rw [ahead, only, List.map_singleton, (next_of_eof eof).1]
  exact (Stream'.const_eq _).symm

/-- **What is ahead is read token by token**, also after the end. -/
theorem ahead_eq (lexer : Lexer) :
    lexer.ahead = Stream'.cons lexer.nextSignificant.1.look lexer.nextSignificant.2.ahead := by
  by_cases eof : lexer.nextSignificant.1.kind = .eof
  · obtain ⟨_, hrest⟩ := nextSignificant_of_eof eof
    rw [ahead, significant_eq, if_pos eof, ahead_of_end hrest, finish_nextSignificant]
    rfl
  · rw [ahead, significant_eq, if_neg eof, ahead, finish_nextSignificant]
    rfl

end Lexer

namespace Parser

/-- All that a parser has before it: the current token, the one that was read ahead, and what the
lexer will still read. -/
def ahead (parser : Parser) : Stream' (Token.Kind × Span) :=
  (parser.current :: parser.peeked.toList).map Token.look ++ₛ parser.lexer.ahead

/-- Going on drops the first token of those ahead. -/
theorem ahead_advance (parser : Parser) : parser.advance.ahead = parser.ahead.drop 1 := by
  rw [advance]
  cases hp : parser.peeked with
  | some token =>
    rw [ahead, ahead, hp]
    rfl
  | none =>
    rw [ahead, ahead, hp, parser.lexer.ahead_eq]
    rfl

/-- Reading ahead changes nothing about them. -/
theorem ahead_peek (parser : Parser) : parser.peek.2.ahead = parser.ahead := by
  rw [peek]
  cases hp : parser.peeked with
  | some token => rfl
  | none =>
    rw [ahead, ahead, hp, parser.lexer.ahead_eq]
    rfl

/-! ## Where a parser may go -/

/-- With `room` levels left, the counts are within their limits and never were beyond. -/
structure Within (room : Nat) (parser : Parser) : Prop where
  nesting : parser.nesting + room = maxNesting
  treeDepth : parser.treeDepth ≤ maxTreeDepth
  mostNesting : parser.mostNesting ≤ maxNesting
  mostTreeDepth : parser.mostTreeDepth ≤ maxTreeDepth

/-- Other counts within the limits. -/
theorem Within.setDepth {room other : Nat} {parser : Parser} (h : parser.Within room)
    {nesting treeDepth : Nat} (hn : nesting + other = maxNesting) (ht : treeDepth ≤ maxTreeDepth) :
    (parser.setDepth nesting treeDepth).Within other where
  nesting := hn
  treeDepth := ht
  mostNesting := Nat.max_le.mpr ⟨h.mostNesting, by omega⟩
  mostTreeDepth := Nat.max_le.mpr ⟨h.mostTreeDepth, ht⟩

/-- The last parser has dropped some of the tokens of the first, and is on the same level of the same
text. -/
structure Roams (room : Nat) (first last : Parser) : Prop where
  source : last.source = first.source
  within : first.Within room → last.Within room
  onward : ∃ taken, last.ahead = first.ahead.drop taken

/-- Both parsers count the same levels of the tree. -/
def SameDepth (first last : Parser) : Prop := last.treeDepth = first.treeDepth

instance (room : Nat) : Charging (Roams room) where
  refl parser := ⟨rfl, id, 0, rfl⟩
  trans {first second third} h h' := by
    obtain ⟨taken, hfirst⟩ := h.onward
    obtain ⟨more, hsecond⟩ := h'.onward
    refine ⟨h'.source.trans h.source, fun hw => h'.within (h.within hw), taken + more, ?_⟩
    rw [hsecond, hfirst, Stream'.drop_drop]
  advance parser := by
    obtain ⟨lexer, current, peeked, frame⟩ := parser.advance_frame
    refine ⟨by rw [frame], fun hw => ?_, 1, parser.ahead_advance⟩
    rw [frame]
    exact ⟨hw.nesting, hw.treeDepth, hw.mostNesting, hw.mostTreeDepth⟩
  peek parser := by
    obtain ⟨lexer, peeked, frame⟩ := parser.peek_frame
    refine ⟨by rw [frame], fun hw => ?_, 0, parser.ahead_peek⟩
    rw [frame]
    exact ⟨hw.nesting, hw.treeDepth, hw.mostNesting, hw.mostTreeDepth⟩
  link parser h := ⟨rfl, fun hw => hw.setDepth hw.nesting h, 0, rfl⟩
  settle {first last} h := by
    obtain ⟨taken, hahead⟩ := h.onward
    exact ⟨h.source, fun hw => (h.within hw).setDepth (h.within hw).nesting hw.treeDepth, taken,
      hahead⟩

instance : Steady SameDepth where
  refl _ := rfl
  trans h h' := h'.trans h
  advance parser := by
    obtain ⟨lexer, current, peeked, frame⟩ := parser.advance_frame
    rw [SameDepth, frame]
  peek parser := by
    obtain ⟨lexer, peeked, frame⟩ := parser.peek_frame
    rw [SameDepth, frame]

/-! ## Levels -/

/-- The parser one level further in. -/
def entered (parser : Parser) : Parser :=
  parser.setDepth (parser.nesting + 1) (parser.treeDepth + 1)

/-- Whatever a parser comes to one level further in, it comes back to its own level. -/
theorem Roams.leave {room : Nat} {parser last : Parser} (hdepth : parser.treeDepth < maxTreeDepth)
    (h : Roams room parser.entered last) :
    Roams (room + 1) parser (last.setDepth (last.nesting - 1) parser.treeDepth) := by
  obtain ⟨taken, hahead⟩ := h.onward
  refine ⟨h.source, fun hw => ?_, taken, hahead⟩
  have entered : parser.entered.Within room := by
    have level := hw.nesting
    exact hw.setDepth (by omega) hdepth
  have last := h.within entered
  -- The count at the end is the one on entry, so taking one off leads back.
  have same := last.nesting.trans entered.nesting.symm
  have level := hw.nesting
  refine last.setDepth ?_ hw.treeDepth
  rw [Nat.add_right_cancel same]
  exact level

/-- One level further out there is room for one level more. -/
theorem keeps_nested {α : Type} {room : Nat} {body : ParseM α} {base : Parser}
    (h : ∀ {start}, Keeps (Roams room) start body) :
    Keeps (Roams (room + 1)) base (ParseM.nested body) := by
  intro parser hbase
  rw [ParseM.leaves_nested, ParseM.blames_nested]
  split
  · refine ⟨hbase, fun span hspan => ?_⟩
    cases hspan
    exact ⟨parser, hbase, rfl⟩
  · next hdepth =>
    obtain ⟨inside, blame⟩ := h parser.entered (Steady.refl parser.entered)
    have back {last : Parser} (hlast : Roams room parser.entered last) :=
      Steady.trans hbase (hlast.leave (Nat.not_le.mp hdepth))
    refine ⟨back inside, fun span hspan => ?_⟩
    obtain ⟨met, hmet, rfl⟩ := blame span hspan
    exact ⟨_, back hmet, rfl⟩

/-- Whatever happens inside, a level comes back to its depth. -/
theorem keeps_nested_sameDepth {α : Type} (body : ParseM α) {base : Parser} :
    Keeps SameDepth base (ParseM.nested body) := by
  intro parser hbase
  rw [ParseM.leaves_nested]
  -- The depth says nothing about tokens, so any of them may be met.
  refine ⟨?_, fun span _ => ⟨{ base with current := ⟨.eof, span, false⟩ }, rfl, rfl⟩⟩
  split
  · exact hbase
  · exact hbase

end Parser

namespace Level

open JsPrune.Parser

/-- The grammar of so many levels roams no further than they allow. -/
theorem honours_roams (levels : Nat) : (Level.ofNat levels).Honours (Roams levels) := by
  induction levels with
  | zero => exact ⟨.refuse _, fun _ => .refuse _, .refuse _, .refuse _⟩
  | succ levels ih =>
    exact ⟨keeps_nested ih.statement', fun noIn => keeps_nested (ih.assigning noIn),
      keeps_nested ih.operand, keeps_nested (ih.chain false)⟩

/-- The grammar gives back all levels it takes. -/
theorem honours_sameDepth (levels : Nat) : (Level.ofNat levels).Honours SameDepth := by
  cases levels with
  | zero => exact ⟨.refuse _, fun _ => .refuse _, .refuse _, .refuse _⟩
  | succ levels =>
    exact ⟨keeps_nested_sameDepth _, fun _ => keeps_nested_sameDepth _, keeps_nested_sameDepth _,
      keeps_nested_sameDepth _⟩

end Level

/-! ## Requests -/

/-- What a parser can be asked for. -/
inductive Request where
  | program
  | expression

namespace Parser

/-- Asks a parser. -/
def answer (parser : Parser) : Request → Except Error Node × Parser
  | .program => parser.program
  | .expression => parser.singleExpression

/-- The parser after it was asked one thing after the other, whatever the answers. -/
def after (parser : Parser) (requests : List Request) : Parser :=
  requests.foldl (fun parser request => (parser.answer request).2) parser

/-- A request keeps what the grammar keeps. -/
theorem keeps_answer {R : Parser → Parser → Prop} [Steady R]
    (h : (Level.ofNat maxNesting).Honours R) (parser : Parser) (request : Request) :
    R parser (parser.answer request).2 := by
  cases request with
  | program =>
    rw [answer, program, run_snd]
    exact (keeps_program h parser (Steady.refl parser)).1
  | expression =>
    rw [answer, singleExpression, run_snd]
    exact (keeps_expression h parser (Steady.refl parser)).1

/-- A relation that one request keeps is kept by all of them. -/
theorem keeps_after {R : Parser → Parser → Prop} [Steady R]
    (h : (Level.ofNat maxNesting).Honours R) (parser : Parser) (requests : List Request) :
    R parser (parser.after requests) := by
  induction requests generalizing parser with
  | nil => exact Steady.refl parser
  | cons request rest ih => exact Steady.trans (keeps_answer h parser request) (ih _)

/-- Requests are answered one after the other. -/
theorem after_append (parser : Parser) (first second : List Request) :
    parser.after (first ++ second) = (parser.after first).after second :=
  List.foldl_append

/-- Parsers that drop tokens one after the other stand at places that do not go back. -/
theorem exists_places (state : Nat → Parser)
    (h : ∀ n, ∃ taken, (state (n + 1)).ahead = (state n).ahead.drop taken) :
    ∃ place : Nat → Nat, Monotone place ∧ ∀ n, (state n).ahead = (state 0).ahead.drop (place n) := by
  choose taken htaken using h
  have next (n : Nat) : ((List.range (n + 1)).map taken).sum
      = ((List.range n).map taken).sum + taken n := by
    rw [List.range_succ, List.map_append, List.sum_append]
    rfl
  refine ⟨fun n => ((List.range n).map taken).sum, monotone_nat_of_le_succ fun n => ?_, fun n => ?_⟩
  · rw [next]
    exact Nat.le_add_right _ _
  · induction n with
    | zero => rfl
    | succ n ih =>
      show _ = (state 0).ahead.drop ((List.range (n + 1)).map taken).sum
      rw [htaken, ih, Stream'.drop_drop, next]

end Parser

/-- The tokens of a text without its comments, and then its end for ever. -/
def significantTokens (source : String) : Stream' (Token.Kind × Span) :=
  ((tokenize source).filter fun token => !token.kind.isTrivia).map Token.look
    ++ₛ Stream'.const (endAt (Position.start.advance source.toList))

/-- At the start all tokens of the text are ahead, comments left out. -/
theorem ahead_ofSource (source : String) :
    (Parser.ofSource source).ahead = significantTokens source :=
  (Lexer.ofSource source.toList).ahead_eq.symm

/-- What holds of some items and of the one that is repeated behind them holds everywhere. -/
theorem get_append_const {α : Type} {items : List α} {last : α} (motive : α → Prop)
    (h : ∀ item ∈ items, motive item) (hlast : motive last) (n : Nat) :
    motive ((items ++ₛ Stream'.const last).get n) := by
  induction items generalizing n with
  | nil => exact hlast
  | cons item rest ih =>
    rw [List.forall_mem_cons] at h
    cases n with
    | zero => exact h.1
    | succ n => exact ih h.2 n

theorem significantTokens_not_trivia (source : String) (n : Nat) :
    ((significantTokens source).get n).1.isTrivia = false := by
  refine get_append_const (fun look : Token.Kind × Span => look.1.isTrivia = false)
    (fun look hmem => ?_) rfl n
  obtain ⟨token, htoken, rfl⟩ := List.mem_map.mp hmem
  exact Bool.not_eq_true' _ ▸ (List.mem_filter.mp htoken).2

/-- **A parser stays consistent**, whatever it was asked for and however that went: between two
requests it is on no level, its current token is no comment, and what it has before it is the text
from some token on, from a place that never goes back. Meanwhile neither count went beyond its
limit. -/
theorem after_consistent (source : String) (requests : List Request) :
    ∃ place : Nat → Nat, Monotone place ∧ ∀ n,
      let parser := (Parser.ofSource source).after (requests.take n)
      parser.nesting = 0 ∧ parser.treeDepth = 0 ∧ parser.current.kind.isTrivia = false ∧
        parser.ahead = (significantTokens source).drop (place n) ∧
        parser.mostNesting ≤ 48 ∧ parser.mostTreeDepth ≤ 256 := by
  have roams := Parser.keeps_after (Level.honours_roams maxNesting)
  have level := Parser.keeps_after (Level.honours_sameDepth maxNesting)
  have step (n : Nat) : ∃ taken, ((Parser.ofSource source).after (requests.take (n + 1))).ahead
      = ((Parser.ofSource source).after (requests.take n)).ahead.drop taken := by
    rw [List.take_add_one, Parser.after_append]
    exact (roams _ _).onward
  obtain ⟨place, hplace, hahead⟩ :=
    Parser.exists_places (fun n => (Parser.ofSource source).after (requests.take n)) step
  refine ⟨place, hplace, fun n => ?_⟩
  have start : (Parser.ofSource source).Within maxNesting :=
    ⟨rfl, Nat.zero_le _, Nat.zero_le _, Nat.zero_le _⟩
  have within := (roams (Parser.ofSource source) (requests.take n)).within start
  have tokens : ((Parser.ofSource source).after (requests.take n)).ahead
      = (significantTokens source).drop (place n) := by
    rw [hahead n, ← ahead_ofSource]
    rfl
  have current : ((Parser.ofSource source).after (requests.take n)).current.look
      = (significantTokens source).get (place n) := by
    rw [← Stream'.head_drop, ← tokens]
    rfl
  refine ⟨?_, level (Parser.ofSource source) (requests.take n), ?_, tokens, within.mostNesting,
    within.mostTreeDepth⟩
  · have none := within.nesting
    omega
  · have plain := significantTokens_not_trivia source (place n)
    rw [← current] at plain
    exact plain

end JsPrune
