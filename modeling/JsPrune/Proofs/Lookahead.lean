import JsPrune.Parser.State

/-!
# What a parser has before it

A parser keeps the current token, perhaps the one behind it, and a lexer for the rest. `pending` puts
the three together: the tokens still to come, without comments, up to the end of the text. Going on
takes the first of them, and reading ahead takes none.
-/

namespace JsPrune

namespace Lexer

/-- All tokens from here on that are not comments, up to the one `eof`. -/
def significant (lexer : Lexer) : List Token :=
  lexer.tokens.filter fun token => !token.kind.isTrivia

/-- The tokens that are not comments are those that are read one by one. -/
theorem significant_eq (lexer : Lexer) : lexer.significant =
    if lexer.nextSignificant.1.kind = .eof then [lexer.nextSignificant.1]
    else lexer.nextSignificant.1 :: lexer.nextSignificant.2.significant := by
  fun_induction nextSignificant lexer with
  | case1 lexer h ih =>
    rw [significant, tokens, dif_neg (Token.Kind.ne_eof_of_isTrivia h), List.filter_cons, h]
    exact ih
  | case2 lexer h =>
    rw [Bool.not_eq_true] at h
    rw [significant, tokens]
    split
    · rw [List.filter_cons, h]
      rfl
    · rw [List.filter_cons, h]
      rfl

/-- Every token but the last takes a character. -/
theorem length_significant_le (lexer : Lexer) :
    lexer.significant.length ≤ lexer.rest.length + 1 := by
  have all : lexer.tokens.length ≤ lexer.rest.length + 1 := by
    fun_induction tokens lexer with
    | case1 lexer _ => exact Nat.succ_le_succ (Nat.zero_le _)
    | case2 lexer h ih =>
      have shorter := length_rest_next_lt h
      rw [List.length_cons]
      omega
  exact Nat.le_trans (List.length_filter_le _ _) all

end Lexer

/-- The tokens before the end of the text. -/
def Token.content (tokens : List Token) : List Token :=
  tokens.takeWhile fun token => token.kind != .eof

theorem Token.content_cons (token : Token) (rest : List Token) :
    content (token :: rest) = if token.kind = .eof then [] else token :: content rest := by
  rw [content, List.takeWhile_cons]
  by_cases h : token.kind = .eof <;> simp [h, content]

/-- Reading a token ahead does not change what is to come. -/
theorem content_nextSignificant (lexer : Lexer) :
    Token.content (lexer.nextSignificant.1 :: lexer.nextSignificant.2.significant)
      = Token.content lexer.significant := by
  rw [lexer.significant_eq]
  split
  · next h => rw [Token.content_cons, if_pos h, Token.content_cons, if_pos h]
  · rfl

namespace Parser

variable {parser : Parser} {token : Token} {rest : List Token}

/-- The tokens still to come, without comments and without the end of the text. -/
def pending (parser : Parser) : List Token :=
  Token.content (parser.current :: (parser.peeked.toList ++ parser.lexer.significant))

/-- `rounds` allows for all of them and one more. -/
theorem length_pending_lt (parser : Parser) :
    parser.pending.length < parser.lexer.rest.length + 4 := by
  have before : parser.pending.length
      ≤ (parser.current :: (parser.peeked.toList ++ parser.lexer.significant)).length :=
    (List.takeWhile_sublist _).length_le
  have ahead : parser.peeked.toList.length ≤ 1 := by cases parser.peeked <;> simp
  have unread := parser.lexer.length_significant_le
  rw [List.length_cons, List.length_append] at before
  omega

theorem current_of_pending (h : parser.pending = token :: rest) : parser.current = token := by
  rw [pending, Token.content_cons] at h
  split at h
  · cases h
  · exact (List.cons.inj h).1

theorem content_of_pending (h : parser.pending = token :: rest) :
    Token.content (parser.peeked.toList ++ parser.lexer.significant) = rest := by
  rw [pending, Token.content_cons] at h
  split at h
  · cases h
  · exact (List.cons.inj h).2

theorem kind_current_of_pending (h : parser.pending = []) : parser.current.kind = .eof := by
  rw [pending, Token.content_cons] at h
  split at h
  · assumption
  · cases h

/-- Going on takes one token. -/
theorem pending_advance (h : parser.pending = token :: rest) : parser.advance.pending = rest := by
  rw [← content_of_pending h, advance]
  cases parser.peeked with
  | some next => rfl
  | none => exact content_nextSignificant parser.lexer

/-- Reading ahead takes none. -/
theorem pending_peek (parser : Parser) : parser.peek.2.pending = parser.pending := by
  rw [peek]
  cases hp : parser.peeked with
  | some next => rfl
  | none =>
    rw [pending, pending, hp, Token.content_cons, Token.content_cons]
    congr 2
    exact content_nextSignificant parser.lexer

/-- The token that was read ahead is the second one, or the end of the text. -/
theorem kind_peek (h : parser.pending = token :: rest) :
    parser.peek.1.kind = (rest.head?.map Token.kind).getD .eof := by
  have head (first : Token) (more : List Token) :
      first.kind = ((Token.content (first :: more)).head?.map Token.kind).getD .eof := by
    rw [Token.content_cons]
    split
    · assumption
    · rfl
  rw [← content_of_pending h, peek]
  cases parser.peeked with
  | some next => exact head next _
  | none =>
    rw [Option.toList_none, List.nil_append, ← content_nextSignificant]
    exact head _ _

end Parser

end JsPrune
