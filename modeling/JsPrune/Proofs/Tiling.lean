import JsPrune.Proofs.Rendering
import Mathlib.Data.List.Chain
import Mathlib.Data.List.Induction

/-!
# The tokens of a text tile it

Whatever the text is, its tokens lie one behind another, and what they leave out is white space.
`Tiles` says this in the order in which the text is read: some white space, the characters of one
token, then the tiles of what is left, up to the one `eof` at the end. `tiles_tokens` shows it along
the recursion of the lexer; order, gaps, lines and columns are then read off the tiles.

Main result: `tokenize_tiles`.
-/

namespace JsPrune

open JsPrune.Source JsPrune.Text

/-! ## Places and the characters before them -/

theorem byteLength_toList (text : String) : byteLength text.toList = text.utf8ByteSize := by
  have chars (chars : List Char) : byteLength chars = (String.ofList chars).utf8ByteSize := by
    induction chars with
    | nil => rfl
    | cons c rest ih =>
      rw [byteLength, ih, String.ofList_cons, String.utf8ByteSize_append,
        String.utf8ByteSize_singleton]
  rw [chars, String.ofList_toList]

theorem byteLength_pos {text : List Char} (h : text ≠ []) : 0 < byteLength text := by
  cases text with
  | nil => exact absurd rfl h
  | cons c rest =>
    have pos := Char.utf8Size_pos c
    rw [byteLength]
    omega

theorem offset_start_advance (before : List Char) :
    (Position.start.advance before).offset = byteLength before := by
  rw [offset_advance]
  exact Nat.zero_add _

/-- The characters after the last line feed. -/
def lastLine (text : List Char) : List Char := (text.reverse.takeWhile (· != '\n')).reverse

theorem lastLine_concat (before : List Char) (c : Char) :
    lastLine (before ++ [c]) = if c = '\n' then [] else lastLine before ++ [c] := by
  rw [lastLine, List.reverse_concat, List.takeWhile_cons]
  by_cases h : c = '\n'
  · simp [h]
  · simp [h, lastLine]

/-- **Lines and columns count characters**: a line for every line feed before the place, a column
for every character since the last of them. -/
theorem line_column_advance (before : List Char) :
    (Position.start.advance before).line = 1 + before.count '\n' ∧
      (Position.start.advance before).column = 1 + (lastLine before).length := by
  induction before using List.reverseRecOn with
  | nil => exact ⟨rfl, rfl⟩
  | append_singleton before c ih =>
    have step : Position.start.advance (before ++ [c]) = (Position.start.advance before).next c :=
      advance_append ..
    rw [step, lastLine_concat, List.count_append, Position.next]
    by_cases h : c = '\n'
    · rw [if_pos h, if_pos h, ih.1, h]
      exact ⟨rfl, rfl⟩
    · have none : [c].count '\n' = 0 := List.count_eq_zero.mpr (by simpa using Ne.symm h)
      rw [if_neg h, if_neg h, ih.1, ih.2, none, List.length_append]
      exact ⟨rfl, rfl⟩

/-- A span marks out `text` in `source`, behind `before`. -/
structure Source.Span.Covers (span : Span) (source before text : List Char) : Prop where
  /-- Both ends are between characters, since the text does stand there. -/
  within : ∃ after, source = before ++ (text ++ after)
  start : span.start = byteLength before
  stop : span.stop = byteLength (before ++ text)
  line : span.line = 1 + before.count '\n'
  column : span.column = 1 + (lastLine before).length

theorem covers_between {source before text after : List Char}
    (h : source = before ++ (text ++ after)) :
    (Span.between (Position.start.advance before) (Position.start.advance (before ++ text))).Covers
      source before text where
  within := ⟨after, h⟩
  start := offset_start_advance before
  stop := offset_start_advance (before ++ text)
  line := (line_column_advance before).1
  column := (line_column_advance before).2

/-- The text of a span is what it covers. -/
theorem Source.Span.Covers.text_eq {span : Span} {source before text : List Char}
    (h : span.Covers source before text) : span.text source = text := by
  obtain ⟨after, hsource⟩ := h.within
  have size : span.size = byteLength text := by
    rw [Span.size, h.start, h.stop, byteLength_append]
    omega
  rw [Span.text, size, h.start, hsource, dropBytes_append, Option.bind_some, takeBytes_append]
  rfl

/-- Between two offsets of `source` there is nothing but white space. -/
def Gap (source : List Char) (start stop : Nat) : Prop :=
  ∃ before blank after, source = before ++ (blank ++ after) ∧ blank.all isBlank = true ∧
    start = byteLength before ∧ stop = byteLength (before ++ blank)

/-! ## One token -/

namespace Scan

theorem token_ne_eof (first : Char) (rest : List Char) : (token first rest).1 ≠ .eof := by
  intro h
  rw [token_eq] at h
  rcases scanner_cases first rest.head? with hs | hs | hs | hs | ⟨_, hs⟩ | hs
  all_goals rw [hs] at h
  · cases h
  · unfold blockComment at h
    split at h <;> cases h
  · obtain ⟨_, hk⟩ | ⟨_, hk⟩ := stringBody_kind first [] 0 rest <;> rw [hk] at h <;> cases h
  · obtain ⟨_, hk⟩ | ⟨_, hk⟩ := number_kind first rest <;> rw [hk] at h <;> cases h
  · unfold word at h
    dsimp only at h
    split at h <;> cases h
  · unfold punctuator at h
    split at h <;> cases h

end Scan

namespace Lexer

/-- **What one reading does**: it crosses white space, and then either stands at the end of the text,
for good, or takes the characters of one token, at least one of them. -/
theorem next_cases (lexer : Lexer) : ∃ blank, blank.all isBlank = true ∧
    ((lexer.rest = blank ∧ lexer.next.1.kind = .eof ∧
        lexer.next.1.span = .between (lexer.position.advance blank) (lexer.position.advance blank) ∧
        lexer.next.2 = ⟨[], lexer.position.advance blank, false⟩) ∨
      ∃ text, text ≠ [] ∧ lexer.rest = blank ++ (text ++ lexer.next.2.rest) ∧
        lexer.next.1.kind ≠ .eof ∧
        lexer.next.1.span = .between (lexer.position.advance blank) lexer.next.2.position ∧
        lexer.next.2.position = lexer.position.advance (blank ++ text)) := by
  have parts := List.takeWhile_append_dropWhile (p := isBlank) (l := lexer.rest)
  refine ⟨lexer.rest.takeWhile isBlank, List.all_takeWhile, ?_⟩
  cases hdrop : lexer.rest.dropWhile isBlank with
  | nil =>
    rw [hdrop, List.append_nil] at parts
    refine .inl ⟨parts.symm, ?_⟩
    unfold next
    simp only [hdrop, and_self]
  | cons first rest =>
    refine .inr ⟨first :: rest.take (Scan.token first rest).2, List.cons_ne_nil _ _, ?_⟩
    unfold next
    simp only [hdrop]
    refine ⟨?_, Scan.token_ne_eof first rest, trivial, (advance_append ..).symm⟩
    rw [List.cons_append, List.take_append_drop, ← hdrop, parts]

/-! ## All tokens -/

/-- After the end of the text the lexer stands still. -/
theorem take_of_end (here : Position) (count : Nat) :
    take ⟨[], here, false⟩ count = List.replicate count ⟨.eof, .between here here, false⟩ := by
  induction count with
  | zero => rfl
  | succ count ih =>
    rw [take, List.replicate_succ]
    exact congrArg _ ih

/-- Reading on after the last token gives the end of the text, in the same place. -/
theorem take_tokens (lexer : Lexer) (extra : Nat) : ∃ finish ∈ lexer.tokens.getLast?,
    lexer.take (lexer.tokens.length + extra)
      = lexer.tokens ++ List.replicate extra ⟨.eof, finish.span, false⟩ := by
  fun_induction tokens lexer with
  | case1 lexer heof =>
    refine ⟨lexer.next.1, rfl, ?_⟩
    obtain ⟨blank, _, ⟨_, _, hspan, hlexer⟩ | ⟨text, _, _, hkind, _⟩⟩ := next_cases lexer
    · rw [List.length_singleton, Nat.add_comm, take, hlexer, take_of_end, hspan]
      rfl
    · exact absurd heof hkind
  | case2 lexer _ ih =>
    obtain ⟨finish, hlast, htake⟩ := ih
    refine ⟨finish, ?_, ?_⟩
    · rw [List.getLast?_cons, hlast]
      rfl
    · rw [List.length_cons, Nat.add_right_comm, take, htake]
      rfl

end Lexer

/-- The tokens that are left of `source` behind `before`: each covers some text after white space,
and after the last white space comes the end. -/
inductive Tiles (source : List Char) : List Char → List Token → Prop
  | finish {before blank : List Char} {token : Token} (hb : blank.all isBlank = true)
      (hkind : token.kind = .eof) (hspan : token.span.Covers source (before ++ blank) [])
      (hsource : source = before ++ blank) : Tiles source before [token]
  | token {before blank text : List Char} {token : Token} {rest : List Token}
      (hb : blank.all isBlank = true) (htext : text ≠ []) (hkind : token.kind ≠ .eof)
      (hspan : token.span.Covers source (before ++ blank) text)
      (hrest : Tiles source (before ++ blank ++ text) rest) : Tiles source before (token :: rest)

/-- **The lexer tiles what it has not read yet.** -/
theorem tiles_tokens {source before : List Char} {lexer : Lexer}
    (hsource : source = before ++ lexer.rest)
    (hposition : lexer.position = Position.start.advance before) :
    Tiles source before lexer.tokens := by
  fun_induction Lexer.tokens lexer generalizing before with
  | case1 lexer heof =>
    obtain ⟨blank, hb, ⟨hrest, hkind, hspan, _⟩ | ⟨text, _, _, hkind, _⟩⟩ := lexer.next_cases
    · have whole : source = (before ++ blank) ++ ([] ++ []) := by
        rw [hsource, hrest, List.append_nil, List.append_nil]
      refine .finish hb hkind ?_ (by rw [hsource, hrest])
      have covers := covers_between whole
      rw [List.append_nil, advance_append, ← hposition, ← hspan] at covers
      exact covers
    · exact absurd heof hkind
  | case2 lexer hne ih =>
    obtain ⟨blank, hb, ⟨_, hkind, _⟩ | ⟨text, htext, hrest, hkind, hspan, hnext⟩⟩ := lexer.next_cases
    · exact absurd hkind hne
    · have whole : source = (before ++ blank) ++ (text ++ lexer.next.2.rest) := by
        rw [hsource, hrest, List.append_assoc]
      have position : lexer.next.2.position = Position.start.advance (before ++ blank ++ text) := by
        rw [hnext, hposition, List.append_assoc, advance_append _ before]
      refine .token hb htext hkind ?_ (ih ?_ position)
      · have covers := covers_between whole
        rw [advance_append, ← hposition, ← position, ← hspan] at covers
        exact covers
      · rw [whole, List.append_assoc _ text]

namespace Tiles

variable {source before : List Char} {tokens : List Token}

/-- The last tile is the end, and the only one. -/
theorem ends (h : Tiles source before tokens) : ∃ body finish, tokens = body ++ [finish] ∧
    finish.kind = .eof ∧ finish.span.Covers source source [] ∧
    ∀ token ∈ body, token.kind ≠ .eof ∧
      ∃ before text, text ≠ [] ∧ token.span.Covers source before text := by
  induction h with
  | @finish before blank token hb hkind hspan hsource =>
    exact ⟨[], token, rfl, hkind, hsource ▸ hspan, nofun⟩
  | @token before blank text token rest hb htext hkind hspan hrest ih =>
    obtain ⟨body, finish, rfl, hfinish, hend, hbody⟩ := ih
    refine ⟨token :: body, finish, rfl, hfinish, hend, ?_⟩
    rw [List.forall_mem_cons]
    exact ⟨⟨hkind, before ++ blank, text, htext, hspan⟩, hbody⟩

/-- The first tile starts after white space. -/
theorem first (h : Tiles source before tokens) :
    ∃ token ∈ tokens.head?, Gap source (byteLength before) token.span.start := by
  cases h with
  | @finish _ blank token hb _ hspan hsource =>
    exact ⟨token, rfl, before, blank, [], by rw [hsource, List.append_nil], hb, rfl, hspan.start⟩
  | @token _ blank text token rest hb _ _ hspan _ =>
    obtain ⟨after, hafter⟩ := hspan.within
    exact ⟨token, rfl, before, blank, text ++ after, by rw [hafter, List.append_assoc], hb, rfl,
      hspan.start⟩

/-- So does every tile behind another. -/
theorem gaps (h : Tiles source before tokens) :
    tokens.IsChain fun first second => Gap source first.span.stop second.span.start := by
  induction h with
  | finish => exact List.isChain_singleton _
  | @token before blank text token rest hb htext hkind hspan hrest ih =>
    obtain ⟨second, hsecond, hgap⟩ := hrest.first
    rw [List.isChain_cons]
    refine ⟨fun next hnext => ?_, ih⟩
    rw [Option.mem_unique hnext hsecond, hspan.stop]
    exact hgap

/-- No tile starts in what was read before. -/
theorem byteLength_le (h : Tiles source before tokens) :
    ∀ token ∈ tokens, byteLength before ≤ token.span.start := by
  induction h with
  | finish hb hkind hspan hsource =>
    intro token hmem
    rw [List.mem_singleton.mp hmem, hspan.start, byteLength_append]
    exact Nat.le_add_right _ _
  | token hb htext hkind hspan hrest ih =>
    rw [List.forall_mem_cons, hspan.start, byteLength_append]
    refine ⟨Nat.le_add_right _ _, fun token hmem => ?_⟩
    have later := ih token hmem
    rw [byteLength_append, byteLength_append] at later
    omega

/-- Tiles do not overlap. -/
theorem ordered (h : Tiles source before tokens) :
    tokens.Pairwise fun first second => first.span.stop ≤ second.span.start := by
  induction h with
  | finish => exact List.pairwise_singleton _ _
  | token hb htext hkind hspan hrest ih =>
    rw [List.pairwise_cons, hspan.stop]
    exact ⟨hrest.byteLength_le, ih⟩

end Tiles

/-- **Tokens tile the text**: all but the last cover some of it and lie apart in their order, with
white space before the first and between neighbours; the last is the end of the text, which is read
again and again from there on. Lines and columns are those of the first character. -/
theorem tokenize_tiles (source : String) : ∃ body finish, tokenize source = body ++ [finish] ∧
    finish.kind = .eof ∧ finish.span.Covers source.toList source.toList [] ∧
    finish.span.start = source.utf8ByteSize ∧ finish.span.stop = source.utf8ByteSize ∧
    (∀ token ∈ body, token.kind ≠ .eof ∧ token.span.start < token.span.stop ∧
      ∃ before text, text ≠ [] ∧ token.span.Covers source.toList before text) ∧
    (tokenize source).Pairwise (fun first second => first.span.stop ≤ second.span.start) ∧
    (∃ first ∈ (tokenize source).head?, Gap source.toList 0 first.span.start) ∧
    (tokenize source).IsChain
      (fun first second => Gap source.toList first.span.stop second.span.start) ∧
    ∀ extra, (Lexer.ofSource source.toList).take ((tokenize source).length + extra)
      = tokenize source ++ List.replicate extra ⟨.eof, finish.span, false⟩ := by
  have tiles : Tiles source.toList [] (tokenize source) := tiles_tokens rfl rfl
  obtain ⟨body, finish, hsplit, hfinish, hend, hbody⟩ := tiles.ends
  have size := byteLength_toList source
  refine ⟨body, finish, hsplit, hfinish, hend, ?_, ?_, fun token hmem => ?_, tiles.ordered,
    tiles.first, tiles.gaps, fun extra => ?_⟩
  · rw [hend.start, size]
  · rw [hend.stop, List.append_nil, size]
  · obtain ⟨hkind, before, text, htext, hcovers⟩ := hbody token hmem
    refine ⟨hkind, ?_, before, text, htext, hcovers⟩
    have pos := byteLength_pos htext
    rw [hcovers.start, hcovers.stop, byteLength_append]
    omega
  · obtain ⟨last, hlast, htake⟩ := (Lexer.ofSource source.toList).take_tokens extra
    have same : last = finish := by
      rw [← tokenize, hsplit, List.getLast?_concat] at hlast
      exact (Option.mem_some.mp hlast).symm
    rw [← same]
    exact htake

end JsPrune
