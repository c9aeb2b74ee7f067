import JsPrune.Proofs.Tiling

/-!
# Line breaks between tokens

The mark for a line break before a token is set in two ways. In white space every character is asked
whether it is a line break. Of a comment only the line of its end is compared with the line of its
start, and for that count a line ends at a line feed and nowhere else. The lexer carries the mark
over a comment, so any number of them may stand between two tokens of the program.

Main result: `newlineBefore_iff`. A token is marked exactly when a line break stands between it and
the token of the program before it, where inside a comment only a line feed counts. So the mark is
never set without a line break, but a carriage return or a separator inside a comment is missed
(`newlineBefore_return`).
-/

namespace JsPrune

open JsPrune.Source JsPrune.Text

/-! ## Characters at a place -/

/-- `c` stands at byte `place` of `source`. -/
def Stands (source : List Char) (place : Nat) (c : Char) : Prop :=
  ∃ before after, source = before ++ c :: after ∧ place = byteLength before

/-- Of two beginnings of a text the one with fewer bytes is a beginning of the other. -/
theorem prefix_of_byteLength_le {first second source : List Char} (hf : first <+: source)
    (hs : second <+: source) (h : byteLength first ≤ byteLength second) : first <+: second := by
  rcases List.prefix_or_prefix_of_prefix hf hs with shorter | ⟨tail, rfl⟩
  · exact shorter
  · have none : tail = [] := by
      by_contra some
      have positive := byteLength_pos some
      rw [byteLength_append] at h
      omega
    exact ⟨[], by rw [none, List.append_nil, List.append_nil]⟩

/-- Between the ends of a stretch of text stand the characters of that stretch. -/
theorem stands_within {before text after : List Char} {place : Nat} {c : Char}
    (hstart : byteLength before ≤ place) (hstop : place < byteLength (before ++ text)) :
    Stands (before ++ (text ++ after)) place c ↔
      ∃ front behind, text = front ++ c :: behind ∧ place = byteLength (before ++ front) := by
  constructor
  · rintro ⟨left, right, hsource, rfl⟩
    have hleft : left <+: before ++ (text ++ after) := ⟨c :: right, hsource.symm⟩
    have hwhole : before ++ text <+: before ++ (text ++ after) :=
      ⟨after, List.append_assoc before text after⟩
    obtain ⟨front, rfl⟩ := prefix_of_byteLength_le (List.prefix_append _ _) hleft hstart
    obtain ⟨tail, htail⟩ := prefix_of_byteLength_le hleft hwhole (Nat.le_of_lt hstop)
    rw [List.append_assoc] at htail
    have cut : front ++ tail = text := List.append_cancel_left htail
    subst cut
    rw [List.append_assoc, List.append_assoc] at hsource
    have rest := List.append_cancel_left (List.append_cancel_left hsource)
    cases tail with
    | nil =>
      rw [List.append_nil] at hstop
      omega
    | cons d behind =>
      rw [List.cons_append] at rest
      exact ⟨front, behind, by rw [(List.cons.inj rest).1], rfl⟩
  · rintro ⟨front, behind, rfl, rfl⟩
    exact ⟨before ++ front, behind ++ after, by simp, rfl⟩

/-- Some character of a stretch of text has a property exactly when one that stands there has it. -/
theorem exists_stands_within (before text after : List Char) (good : Char → Prop) :
    (∃ place c, Stands (before ++ (text ++ after)) place c ∧ byteLength before ≤ place ∧
      place < byteLength (before ++ text) ∧ good c) ↔ ∃ c ∈ text, good c := by
  constructor
  · rintro ⟨place, c, hstands, hstart, hstop, hgood⟩
    obtain ⟨front, behind, rfl, _⟩ := (stands_within hstart hstop).mp hstands
    exact ⟨c, by simp, hgood⟩
  · rintro ⟨c, hmem, hgood⟩
    obtain ⟨front, behind, rfl⟩ := List.append_of_mem hmem
    have positive := Char.utf8Size_pos c
    have start : byteLength before ≤ byteLength (before ++ front) := by
      rw [byteLength_append]
      omega
    have stop : byteLength (before ++ front) < byteLength (before ++ (front ++ c :: behind)) := by
      rw [byteLength_append, byteLength_append, byteLength_append, byteLength]
      omega
    exact ⟨_, c, (stands_within start stop).mpr ⟨front, behind, rfl, rfl⟩, start, stop, hgood⟩

/-! ## Line breaks between two places -/

/-- Between two places of `source` stands a line break. -/
def BreakBetween (source : List Char) (start stop : Nat) : Prop :=
  ∃ place c, Stands source place c ∧ start ≤ place ∧ place < stop ∧ isLineBreak c = true

/-- Whether `place` lies within a token. -/
def Token.Holds (token : Token) (place : Nat) : Prop :=
  token.span.start ≤ place ∧ place < token.span.stop

/-- Between two places of `source` stands a line break that counts: a line feed, or one that is
outside of the comments. -/
def CountedBreak (source : List Char) (comments : List Token) (start stop : Nat) : Prop :=
  ∃ place c, Stands source place c ∧ start ≤ place ∧ place < stop ∧ isLineBreak c = true ∧
    (c = '\n' ∨ ∀ comment ∈ comments, ¬ comment.Holds place)

theorem CountedBreak.between {source : List Char} {comments : List Token} {start stop : Nat}
    (h : CountedBreak source comments start stop) : BreakBetween source start stop := by
  obtain ⟨place, c, hstands, hstart, hstop, hbreak, _⟩ := h
  exact ⟨place, c, hstands, hstart, hstop, hbreak⟩

/-- Without comments every line break counts. -/
theorem countedBreak_blank (before blank after : List Char) :
    CountedBreak (before ++ (blank ++ after)) [] (byteLength before) (byteLength (before ++ blank))
      ↔ blank.any isLineBreak = true := by
  rw [List.any_eq_true, ← exists_stands_within before blank after]
  constructor
  · rintro ⟨place, c, hstands, hstart, hstop, hbreak, _⟩
    exact ⟨place, c, hstands, hstart, hstop, hbreak⟩
  · rintro ⟨place, c, hstands, hstart, hstop, hbreak⟩
    exact ⟨place, c, hstands, hstart, hstop, hbreak, .inr (List.forall_mem_nil _)⟩

/-- Up to the end of the first comment there is white space, where every line break counts, and the
comment, where only a line feed does. -/
theorem countedBreak_cons {before blank text after : List Char} {comment : Token}
    {comments : List Token} {stop : Nat}
    (hcomment : comment.span.Covers (before ++ (blank ++ (text ++ after))) (before ++ blank) text)
    (hlater : ∀ later ∈ comments, byteLength (before ++ blank ++ text) ≤ later.span.start)
    (hstop : byteLength (before ++ blank ++ text) ≤ stop) :
    CountedBreak (before ++ (blank ++ (text ++ after))) (comment :: comments)
        (byteLength before) stop ↔
      blank.any isLineBreak = true ∨ '\n' ∈ text ∨
        CountedBreak (before ++ (blank ++ (text ++ after))) comments
          (byteLength (before ++ blank ++ text)) stop := by
  have hblank : byteLength before ≤ byteLength (before ++ blank) := by
    rw [byteLength_append]
    omega
  have htext : byteLength (before ++ blank) ≤ byteLength (before ++ blank ++ text) := by
    rw [byteLength_append _ text]
    omega
  have regroup : before ++ (blank ++ (text ++ after)) = before ++ blank ++ (text ++ after) := by
    rw [List.append_assoc]
  -- A break that counts stands before the comment, in it, or behind it.
  constructor
  · rintro ⟨place, c, hstands, hfrom, hto, hbreak, hcounts⟩
    by_cases inBlank : place < byteLength (before ++ blank)
    · refine .inl ?_
      rw [List.any_eq_true, ← exists_stands_within before blank (text ++ after)]
      exact ⟨place, c, hstands, hfrom, inBlank, hbreak⟩
    by_cases inText : place < byteLength (before ++ blank ++ text)
    · refine .inr (.inl ?_)
      have held : comment.Holds place :=
        ⟨by rw [hcomment.start]; omega, by rw [hcomment.stop]; exact inText⟩
      rcases hcounts with rfl | outside
      · rw [regroup] at hstands
        obtain ⟨front, behind, rfl, _⟩ := (stands_within (by omega) inText).mp hstands
        simp
      · exact absurd held (outside comment (List.mem_cons_self ..))
    · refine .inr (.inr ⟨place, c, hstands, by omega, hto, hbreak, ?_⟩)
      exact hcounts.imp_right fun outside later hmem => outside later (List.mem_cons_of_mem _ hmem)
  · rintro (inBlank | inText | ⟨place, c, hstands, hfrom, hto, hbreak, hcounts⟩)
    · rw [List.any_eq_true, ← exists_stands_within before blank (text ++ after)]
        at inBlank
      obtain ⟨place, c, hstands, hfrom, hto, hbreak⟩ := inBlank
      refine ⟨place, c, hstands, hfrom, by omega, hbreak, .inr ?_⟩
      rw [List.forall_mem_cons]
      refine ⟨fun held => ?_, fun later hmem held => ?_⟩
      -- No comment starts before the white space ends.
      · have first := held.1
        rw [hcomment.start] at first
        omega
      · have first := held.1
        have behind := hlater later hmem
        omega
    · obtain ⟨place, c, hstands, hfrom, hto, hfeed⟩ :=
        (exists_stands_within (before ++ blank) text after (· = '\n')).mpr
          ⟨_, inText, rfl⟩
      rw [← regroup] at hstands
      subst hfeed
      exact ⟨place, _, hstands, by omega, by omega, rfl, .inl rfl⟩
    · refine ⟨place, c, hstands, by omega, hto, hbreak, hcounts.imp_right fun outside => ?_⟩
      rw [List.forall_mem_cons]
      refine ⟨fun held => ?_, outside⟩
      have last := held.2
      rw [hcomment.stop] at last
      omega

/-! ## The mark of one reading -/

/-- A line starts after every line feed, and nowhere else. -/
theorem line_advance (here : Position) (text : List Char) :
    (here.advance text).line = here.line + text.count '\n' := by
  induction text generalizing here with
  | nil => rfl
  | cons c rest ih =>
    have step : (here.next c).line = here.line + if c = '\n' then 1 else 0 := by
      rw [Position.next]
      split <;> rfl
    rw [Position.advance, List.foldl_cons, ← Position.advance, ih, step, List.count_cons]
    simp only [beq_iff_eq]
    omega

namespace Lexer

/-- One reading crosses `blank` and takes `text`. -/
structure Crosses (lexer : Lexer) (blank text : List Char) : Prop where
  white : blank.all isBlank = true
  rest : lexer.rest = blank ++ (text ++ lexer.next.2.rest)
  span : lexer.next.1.span
    = .between (lexer.position.advance blank) ((lexer.position.advance blank).advance text)
  position : lexer.next.2.position = (lexer.position.advance blank).advance text
  /-- The token is marked for a line break in the white space, or one that was seen before. -/
  newline : lexer.next.1.newlineBefore = (lexer.sawNewline || blank.any isLineBreak)
  /-- A comment hands on its mark, and sets it for a line feed of its own. -/
  handed : lexer.next.2.sawNewline = true ↔ lexer.next.1.kind.isTrivia = true ∧
    (lexer.next.1.newlineBefore = true ∨ '\n' ∈ text)

/-- What a reading does in front of the end of the text. -/
theorem exists_crosses {lexer : Lexer} (h : lexer.next.1.kind ≠ .eof) :
    ∃ blank text, lexer.Crosses blank text := by
  obtain ⟨blank, first, rest, hrest, hb, hsolid⟩ := lexer.exists_solid h
  have step := lexer.next_of_rest hrest hb hsolid
  refine ⟨blank, first :: rest.take (Scan.token first rest).2, hb, ?_, ?_, ?_, ?_, ?_⟩
  · rw [step, List.cons_append, List.take_append_drop, hrest]
  · rw [step]
  · rw [step]
  · rw [step]
  · rw [step]
    simp only [Bool.and_eq_true, Bool.or_eq_true, decide_eq_true_eq, line_advance,
      Nat.lt_add_right_iff_pos, List.count_pos_iff]

/-- A reading at the end of the text crosses what is left of it. -/
theorem next_at_end {lexer : Lexer} (h : lexer.next.1.kind = .eof) :
    lexer.next.1 = ⟨.eof, .between (lexer.position.advance lexer.rest)
      (lexer.position.advance lexer.rest), lexer.sawNewline || lexer.rest.any isLineBreak⟩ := by
  have parts := List.takeWhile_append_dropWhile (p := isBlank) (l := lexer.rest)
  cases hdrop : lexer.rest.dropWhile isBlank with
  | nil =>
    rw [hdrop, List.append_nil] at parts
    unfold next
    simp only [hdrop, parts]
  | cons first rest =>
    unfold next at h
    simp only [hdrop] at h
    exact absurd h (Scan.token_ne_eof first rest)

/-- The tokens of a lexer that go on are those of its next state. -/
theorem tokens_cons {lexer : Lexer} {token : Token} {rest : List Token}
    (h : lexer.tokens = token :: rest) (hrest : rest ≠ []) :
    token = lexer.next.1 ∧ lexer.next.1.kind ≠ .eof ∧ lexer.next.2.tokens = rest := by
  by_cases heof : lexer.next.1.kind = .eof
  · rw [tokens, dif_pos heof] at h
    exact absurd (List.cons.inj h).2.symm hrest
  · rw [tokens, dif_neg heof] at h
    exact ⟨(List.cons.inj h).1.symm, heof, (List.cons.inj h).2⟩

theorem tokens_head {lexer : Lexer} {token : Token} {rest : List Token}
    (h : lexer.tokens = token :: rest) : token = lexer.next.1 := by
  by_cases hrest : rest = []
  · rw [tokens] at h
    split at h <;> exact (List.cons.inj h).1.symm
  · exact (tokens_cons h hrest).1

/-! ## The mark over a run of comments -/

variable {source before : List Char} {lexer : Lexer} {token : Token}

/-- The place of a lexer in its text. -/
structure Stays (lexer : Lexer) (source before : List Char) : Prop where
  source : source = before ++ lexer.rest
  position : lexer.position = Position.start.advance before

theorem Stays.next {blank text : List Char} (h : lexer.Stays source before)
    (hc : lexer.Crosses blank text) : lexer.next.2.Stays source (before ++ blank ++ text) where
  source := by
    rw [h.source, hc.rest, List.append_assoc, List.append_assoc]
  position := by rw [hc.position, h.position, advance_append, advance_append]

/-- The mark of the next token says whether a line break was seen before or stands in front of it. -/
theorem newlineBefore_next (h : lexer.Stays source before) : lexer.next.1.newlineBefore = true ↔
    lexer.sawNewline = true ∨
      CountedBreak source [] (byteLength before) lexer.next.1.span.start := by
  by_cases heof : lexer.next.1.kind = .eof
  · have whole := countedBreak_blank before lexer.rest []
    rw [List.append_nil, ← h.source] at whole
    rw [next_at_end heof, Bool.or_eq_true, ← whole, h.source, Span.between, h.position,
      ← advance_append, offset_start_advance]
  · obtain ⟨blank, text, hc⟩ := exists_crosses heof
    have inBlank := countedBreak_blank before blank (text ++ lexer.next.2.rest)
    rw [← hc.rest, ← h.source] at inBlank
    rw [hc.newline, Bool.or_eq_true, ← inBlank, hc.span, Span.between, h.position,
      ← advance_append, offset_start_advance]

/-- Over a run of comments the mark collects the line breaks that count. -/
theorem newlineBefore_comments {comments behind : List Token} (h : lexer.Stays source before)
    (htokens : lexer.tokens = comments ++ token :: behind)
    (hcomments : ∀ comment ∈ comments, comment.kind.isTrivia = true) :
    token.newlineBefore = true ↔ lexer.sawNewline = true ∨
      CountedBreak source comments (byteLength before) token.span.start := by
  induction comments generalizing lexer before with
  | nil =>
    rw [tokens_head htokens]
    exact newlineBefore_next h
  | cons comment comments ih =>
    obtain ⟨rfl, hne, hrest⟩ := tokens_cons htokens (by simp)
    rw [List.forall_mem_cons] at hcomments
    obtain ⟨blank, text, hc⟩ := exists_crosses hne
    have stays := h.next hc
    have tiles := (tiles_tokens stays.source stays.position).byteLength_le
    rw [hrest] at tiles
    have covers : lexer.next.1.span.Covers (before ++ (blank ++ (text ++ lexer.next.2.rest)))
        (before ++ blank) text := by
      rw [hc.span, h.position, ← advance_append, ← advance_append]
      exact covers_between (List.append_assoc ..).symm
    have counted := countedBreak_cons covers
      (fun later hmem => tiles later (List.mem_append_left _ hmem))
      (tiles token (by simp))
    rw [← hc.rest, ← h.source] at counted
    rw [ih stays hrest hcomments.2, hc.handed, hc.newline, Bool.or_eq_true, counted]
    simp only [hcomments.1, true_and, or_assoc]

/-- Behind a token of the program nothing is marked yet. -/
theorem exists_behind {front rest : List Token} (h : lexer.Stays source before)
    (htokens : lexer.tokens = front ++ rest) (hrest : rest ≠ []) (hfront : front ≠ [])
    (hlast : ∀ last ∈ front.getLast?, last.kind.isTrivia = false) :
    ∃ middle : Lexer, ∃ read, middle.Stays source read ∧ middle.tokens = rest ∧
      middle.sawNewline = false ∧ ∀ last ∈ front.getLast?, last.span.stop = byteLength read := by
  induction front generalizing lexer before with
  | nil => exact absurd rfl hfront
  | cons first front ih =>
    obtain ⟨rfl, hne, hnext⟩ := tokens_cons htokens (by simp [hrest])
    obtain ⟨blank, text, hc⟩ := exists_crosses hne
    have stays := h.next hc
    cases front with
    | nil =>
      have plain := hlast lexer.next.1 rfl
      refine ⟨lexer.next.2, _, stays, hnext, ?_, ?_⟩
      · rw [Bool.eq_false_iff]
        intro marked
        rw [hc.handed, plain] at marked
        cases marked.1
      · intro last hmem
        rw [← Option.mem_some.mp hmem, List.getLast_singleton, hc.span, Span.between,
          ← hc.position, stays.position, offset_start_advance]
    | cons second front => exact ih stays hnext (List.cons_ne_nil _ _) hlast

end Lexer

/-- What stands within a token is a character of its text. -/
theorem mem_text_of_holds {source : String} {token : Token} {place : Nat} {c : Char}
    (hmem : token ∈ tokenize source) (hin : token.Holds place)
    (hstands : Stands source.toList place c) : c ∈ token.span.text source.toList := by
  have tiles : Tiles source.toList [] (tokenize source) := tiles_tokens rfl rfl
  obtain ⟨body, finish, hsplit, _, hend, hbody⟩ := tiles.ends
  rw [hsplit, List.mem_append, List.mem_singleton] at hmem
  rcases hmem with hmem | rfl
  · obtain ⟨_, before, text, _, hcovers⟩ := hbody token hmem
    obtain ⟨after, hsource⟩ := hcovers.within
    have hfrom := hin.1
    have hto := hin.2
    rw [hcovers.start] at hfrom
    rw [hcovers.stop] at hto
    rw [hsource] at hstands
    obtain ⟨front, behind, rfl, _⟩ := (stands_within hfrom hto).mp hstands
    rw [hcovers.text_eq]
    simp
  · have hfrom := hin.1
    have hto := hin.2
    rw [hend.start] at hfrom
    rw [hend.stop, List.append_nil] at hto
    omega

/-- The byte behind the last token of a list, and the start of the text if there is none. -/
def endOf (front : List Token) : Nat := (front.getLast?.map (·.span.stop)).getD 0

/-- **Line breaks belong to the next token of the program**: it is marked exactly when a line break
that counts stands between it and the token of the program before it, however many comments there
are. Without a return or a separator in the comments every line break counts. -/
theorem newlineBefore_iff {source : String} {front comments behind : List Token} {token : Token}
    (htokens : tokenize source = front ++ (comments ++ token :: behind))
    (hfront : ∀ last ∈ front.getLast?, last.kind.isTrivia = false)
    (hcomments : ∀ comment ∈ comments, comment.kind.isTrivia = true) :
    (token.newlineBefore = true ↔
      CountedBreak source.toList comments (endOf front) token.span.start) ∧
    ((∀ comment ∈ comments, ∀ c ∈ comment.span.text source.toList, isLineBreak c = true → c = '\n') →
      (token.newlineBefore = true ↔ BreakBetween source.toList (endOf front) token.span.start)) := by
  -- Where the lexer stood when it had read the token of the program before, if there is one.
  obtain ⟨middle, read, hstays, hrest, hmark, hread⟩ : ∃ middle : Lexer, ∃ read,
      middle.Stays source.toList read ∧ middle.tokens = comments ++ token :: behind ∧
        middle.sawNewline = false ∧ endOf front = byteLength read := by
    have start : (Lexer.ofSource source.toList).Stays source.toList [] := ⟨rfl, rfl⟩
    by_cases hnone : front = []
    · subst hnone
      exact ⟨_, [], start, htokens, rfl, rfl⟩
    · obtain ⟨middle, read, hstays, hrest, hmark, hread⟩ :=
        Lexer.exists_behind start htokens (by simp) hnone hfront
      refine ⟨middle, read, hstays, hrest, hmark, ?_⟩
      rw [endOf, List.getLast?_eq_some_getLast hnone]
      exact hread _ (List.getLast?_eq_some_getLast hnone)
  have counted : token.newlineBefore = true ↔
      CountedBreak source.toList comments (endOf front) token.span.start := by
    rw [hread, Lexer.newlineBefore_comments hstays hrest hcomments, hmark]
    simp only [Bool.false_eq_true, false_or]
  refine ⟨counted, fun hplain => counted.trans ⟨CountedBreak.between, ?_⟩⟩
  rintro ⟨place, c, hstands, hfrom, hto, hbreak⟩
  refine ⟨place, c, hstands, hfrom, hto, hbreak, ?_⟩
  by_cases hheld : ∃ comment ∈ comments, comment.Holds place
  · obtain ⟨comment, hmem, hin⟩ := hheld
    exact .inl (hplain comment hmem c (mem_text_of_holds (by simp [htokens, hmem]) hin hstands) hbreak)
  · exact .inr fun comment hmem hin => hheld ⟨comment, hmem, hin⟩

theorem newlineBefore_iff_feed : ∃ a first second b finish : Token,
    tokenize "a/*\n*//*\r*/b" = [a] ++ ([first, second] ++ b :: [finish]) ∧
      (∀ last ∈ [a].getLast?, last.kind.isTrivia = false) ∧
      (∀ comment ∈ [first, second], comment.kind.isTrivia = true) ∧
      b.newlineBefore = true ∧
      CountedBreak "a/*\n*//*\r*/b".toList [first, second] (endOf [a]) b.span.start := by
  have htokens : tokenize "a/*\n*//*\r*/b"
      = [⟨.identifier "a", ⟨0, 1, 1, 1⟩, false⟩] ++
        ([⟨.comment "/*\n*/", ⟨1, 6, 1, 2⟩, false⟩, ⟨.comment "/*\r*/", ⟨6, 11, 2, 3⟩, true⟩] ++
          ⟨.identifier "b", ⟨11, 12, 2, 8⟩, true⟩ :: [⟨.eof, ⟨12, 12, 2, 9⟩, false⟩]) := by
    decide +kernel
  have hfront : ∀ last ∈ [(⟨.identifier "a", ⟨0, 1, 1, 1⟩, false⟩ : Token)].getLast?,
      last.kind.isTrivia = false := by
    rintro _ ⟨⟩
    rfl
  have hcomments : ∀ comment ∈ [(⟨.comment "/*\n*/", ⟨1, 6, 1, 2⟩, false⟩ : Token),
      ⟨.comment "/*\r*/", ⟨6, 11, 2, 3⟩, true⟩], comment.kind.isTrivia = true := by
    simp [Token.Kind.isTrivia]
  exact ⟨_, _, _, _, _, htokens, hfront, hcomments, rfl,
    (newlineBefore_iff htokens hfront hcomments).1.mp rfl⟩

/-- A return inside a comment separates two tokens, but the second one is not marked. -/
theorem newlineBefore_return : ∃ a comment b finish : Token,
    tokenize "a/*\r*/b" = [a, comment, b, finish] ∧ a.kind = .identifier "a" ∧
      comment.kind = .comment "/*\r*/" ∧ b.kind = .identifier "b" ∧ finish.kind = .eof ∧
      b.newlineBefore = false ∧ BreakBetween "a/*\r*/b".toList a.span.stop b.span.start := by
  refine ⟨⟨.identifier "a", ⟨0, 1, 1, 1⟩, false⟩, ⟨.comment "/*\r*/", ⟨1, 6, 1, 2⟩, false⟩,
    ⟨.identifier "b", ⟨6, 7, 1, 7⟩, false⟩, ⟨.eof, ⟨7, 7, 1, 8⟩, false⟩, by decide +kernel, rfl, rfl,
    rfl, rfl, rfl, ?_⟩
  exact ⟨3, '\r', ⟨['a', '/', '*'], ['*', '/', 'b'], rfl, rfl⟩, by decide, by decide, rfl⟩

end JsPrune
