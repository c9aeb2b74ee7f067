import JsPrune.Proofs.Resuming

/-!
# Where an error points

An error of the parser names a line and a column and quotes the line. Line and column were counted
by the lexer when it made a token, the line is looked for afterwards, from an offset in bytes. All
three belong to one place of the text.

The span that is blamed is that of a token which was the current one at some time (`Meets`), so it is
among the tokens of the text (`Parser.exists_get_of_meets`), and each of these covers a piece of it
(`significantTokens_covers`). `Source.OnLine` cuts a text at a place and at both ends of the line
around it, and `lineAround_append` says that the line which is quoted is that one.

Main result: `error_points`.
-/

namespace JsPrune

open JsPrune.Source JsPrune.Text

/-! ## The line around a place -/

/-- A text cut at a place, between `left` and `right`, and at both ends of the line around it. -/
structure Source.OnLine (source earlier left right later : List Char) : Prop where
  whole : source = earlier ++ (left ++ (right ++ later))
  /-- The line is the first one, or the one before it ends here. -/
  begins : earlier = [] ∨ earlier.getLast? = some '\n'
  inside : '\n' ∉ left ++ right
  /-- The line is the last one, or it ends here. -/
  ends : later = [] ∨ later.head? = some '\n'

/-- Where a list is cut by `takeWhile` it ends, or the test fails. -/
theorem head?_dropWhile_ne (text : List Char) :
    text.dropWhile (· != '\n') = [] ∨ (text.dropWhile (· != '\n')).head? = some '\n' := by
  have stop := List.head?_dropWhile_not (· != '\n') text
  cases h : text.dropWhile (· != '\n') with
  | nil => exact .inl rfl
  | cons c rest =>
    rw [h] at stop
    exact .inr (congrArg some (by simpa using stop))

theorem not_mem_takeWhile_ne (text : List Char) : '\n' ∉ text.takeWhile (· != '\n') := by
  intro hmem
  have fails := List.mem_takeWhile_imp hmem
  exact absurd fails (by decide)

/-- The text before a place is some whole lines and the beginning of one. -/
theorem exists_lastLine (before : List Char) : ∃ earlier, before = earlier ++ lastLine before ∧
    (earlier = [] ∨ earlier.getLast? = some '\n') ∧ '\n' ∉ lastLine before := by
  have parts := List.takeWhile_append_dropWhile (p := (· != '\n')) (l := before.reverse)
  refine ⟨(before.reverse.dropWhile (· != '\n')).reverse, ?_, ?_, ?_⟩
  · rw [lastLine, ← List.reverse_append, parts, List.reverse_reverse]
  · rw [List.reverse_eq_nil_iff, List.getLast?_reverse]
    exact head?_dropWhile_ne _
  · rw [lastLine, List.mem_reverse]
    exact not_mem_takeWhile_ne _

/-- Every place is on a line, which starts where the column starts to count. -/
theorem exists_onLine (before after : List Char) : ∃ earlier later,
    before = earlier ++ lastLine before ∧ after = after.takeWhile (· != '\n') ++ later ∧
      OnLine (before ++ after) earlier (lastLine before) (after.takeWhile (· != '\n')) later := by
  obtain ⟨earlier, hbefore, hbegins, hleft⟩ := exists_lastLine before
  have parts := List.takeWhile_append_dropWhile (p := (· != '\n')) (l := after)
  refine ⟨earlier, after.dropWhile (· != '\n'), hbefore, parts.symm, ?_, hbegins, ?_,
    head?_dropWhile_ne after⟩
  · rw [parts, ← List.append_assoc, ← hbefore]
  · rw [List.mem_append, not_or]
    exact ⟨hleft, not_mem_takeWhile_ne after⟩

/-- The line that is quoted is the one around the place. -/
theorem lineAround_append (before after : List Char) :
    lineAround (before ++ after) (byteLength before)
      = lastLine before ++ after.takeWhile (· != '\n') := by
  rw [lineAround, takeBytes_append, dropBytes_append]
  rfl

/-! ## Tokens cover pieces of the text -/

/-- Every token of a text covers a piece of it. -/
theorem significantTokens_covers (source : String) (n : Nat) : ∃ before text,
    ((significantTokens source).get n).2.Covers source.toList before text := by
  refine get_append_const
    (fun look : Token.Kind × Span => ∃ before text, look.2.Covers source.toList before text)
    (fun look hmem => ?_) ?_ n
  · obtain ⟨token, htoken, rfl⟩ := List.mem_map.mp hmem
    have tiles : Tiles source.toList [] (tokenize source) := tiles_tokens rfl rfl
    obtain ⟨body, finish, hsplit, _, hend, hbody⟩ := tiles.ends
    have listed := (List.mem_filter.mp htoken).1
    rw [hsplit, List.mem_append, List.mem_singleton] at listed
    rcases listed with hmem | rfl
    · obtain ⟨_, before, text, _, hcovers⟩ := hbody token hmem
      exact ⟨before, text, hcovers⟩
    · exact ⟨_, _, hend⟩
  · have whole : source.toList = source.toList ++ ([] ++ []) := (List.append_nil _).symm
    have covers := covers_between whole
    rw [List.append_nil source.toList] at covers
    exact ⟨_, _, covers⟩

namespace Parser

/-- A parser meets no tokens but those of its text. -/
theorem exists_get_of_meets {source : String} {room : Nat} {span : Span}
    (h : Meets (Roams room) (ofSource source) span) :
    ∃ n, span = ((significantTokens source).get n).2 := by
  obtain ⟨met, hmet, rfl⟩ := h
  obtain ⟨taken, hahead⟩ := hmet.onward
  have look : met.current.look = (significantTokens source).get taken := by
    rw [← Stream'.head_drop, ← ahead_ofSource, ← hahead]
    rfl
  exact ⟨taken, congrArg Prod.snd look⟩

/-- The error of a step that blames only what it meets is about a token of the text. -/
theorem exists_covers_of_run {source : String} {step : ParseM Node} {error : Error} {room : Nat}
    (hkeeps : Keeps (Roams room) (ofSource source) step)
    (h : ((ofSource source).run step).1 = .error error) :
    ∃ complaint span before text, span.Covers source.toList before text ∧
      error = Refusal.toError ⟨complaint, span⟩ source.toList := by
  obtain ⟨complaint, span, hspan, rfl⟩ := error_of_run h
  obtain ⟨roams, blame⟩ := hkeeps (ofSource source) (Steady.refl _)
  obtain ⟨n, hn⟩ := exists_get_of_meets (blame span hspan)
  obtain ⟨before, text, hcovers⟩ := significantTokens_covers source n
  rw [roams.source]
  exact ⟨complaint, span, before, text, hn ▸ hcovers, rfl⟩

end Parser

/-! ## What is shown -/

/-- White space is only trimmed behind the last character that is none. -/
theorem trimEnd_append_of_solid (text : List Char) {last : Char} (hlast : isBlank last = false)
    (more : String) :
    trimEnd (String.ofList (text ++ [last]) ++ more)
      = String.ofList (text ++ [last]) ++ trimEnd more := by
  have stop : ((text ++ [last]).reverse).dropWhile isBlank = (text ++ [last]).reverse := by
    rw [List.reverse_concat, List.dropWhile_cons, hlast]
    rfl
  apply String.toList_inj.mp
  rw [trimEnd, trimEnd, String.toList_ofList, String.toList_append, String.toList_append,
    String.toList_ofList, String.toList_ofList, List.reverse_append, List.dropWhile_append]
  split
  · next hempty =>
    rw [List.isEmpty_iff.mp hempty, stop, List.reverse_reverse, List.reverse_nil, List.append_nil]
  · rw [List.reverse_append, List.reverse_reverse]

/-- What is shown of a parse error: the line, and a caret below it, behind as many blanks as there
are characters before the column. What is known of the context follows. -/
theorem Error.report_eq (error : Error) {message excerpt : String} {line column : Nat}
    (h : error.cause = .parse message line column excerpt) :
    error.report = error.message ++ "\n  " ++ excerpt ++ "\n  "
      ++ String.ofList (List.replicate (column - 1) ' ') ++ "^"
      ++ trimEnd (match error.context with
        | some context => "\n" ++ context.render
        | none => "") := by
  have caret : isBlank '^' = false := by decide
  have trimmed := trimEnd_append_of_solid (error.message ++ "\n  " ++ excerpt ++ "\n  "
    ++ String.ofList (List.replicate (column - 1) ' ')).toList caret
  rw [String.ofList_append, String.ofList_toList] at trimmed
  rw [← trimmed, Error.report, h]
  cases error.context <;> simp only [String.append_assoc]

/-- The error is about the place `offset` bytes into the text, which is on the line `left ++ right`,
between the two. -/
structure Error.PointsInto (error : Error) (source : String) (offset : Nat)
    (earlier left right later : List Char) : Prop where
  offset_le : offset ≤ source.utf8ByteSize
  /-- The place is between two characters. -/
  before : takeBytes source.toList offset = some (earlier ++ left)
  behind : dropBytes source.toList offset = some (right ++ later)
  line : OnLine source.toList earlier left right later
  /-- Line and column count the line feeds before the place and the characters behind the last of
  them, and the line is quoted. -/
  told : ∃ message, error = .ofCause (.parse message (1 + (earlier ++ left).count '\n')
    (1 + left.length) (String.ofList (left ++ right)))
  column_le : 1 + left.length ≤ (String.ofList (left ++ right)).length + 1
  /-- The caret stands below the first character of `right`. -/
  shown : error.report = error.message ++ "\n  " ++ String.ofList (left ++ right) ++ "\n  "
    ++ String.ofList (List.replicate left.length ' ') ++ "^"
  /-- Naming the source only adds to what is shown. -/
  named : ∀ name, ∃ more, (error.withSource name).report = error.report ++ more

/-- **Errors point into the text.** Whatever text is refused, the error is a parse error and there is
a place between two characters of the text to which its line and column lead, on the line that is
quoted and above the caret that is shown. -/
theorem error_points {source : String} {error : Error}
    (h : parse source = .error error ∨ parseExpression source = .error error) :
    ∃ offset earlier left right later, error.PointsInto source offset earlier left right later := by
  have honours := Level.honours_roams maxNesting
  obtain ⟨complaint, span, before, text, covers, herror⟩ :
      ∃ complaint span before text, span.Covers source.toList before text ∧
        error = Refusal.toError ⟨complaint, span⟩ source.toList := by
    rcases h with h | h
    · exact Parser.exists_covers_of_run (keeps_program honours) h
    · exact Parser.exists_covers_of_run (keeps_expression honours) h
  obtain ⟨rest, hsource⟩ := covers.within
  obtain ⟨earlier, later, hbefore, hafter, online⟩ := exists_onLine before (text ++ rest)
  have whole : byteLength source.toList = byteLength before + byteLength (text ++ rest) := by
    rw [hsource, byteLength_append]
  have told : error = .ofCause (.parse complaint.message (1 + before.count '\n')
      (1 + (lastLine before).length)
      (String.ofList (lastLine before ++ (text ++ rest).takeWhile (· != '\n')))) := by
    rw [herror, Refusal.toError, covers.line, covers.column, covers.start, hsource,
      lineAround_append]
  have shown := error.report_eq (by rw [told]; rfl)
  refine ⟨byteLength before, earlier, lastLine before, (text ++ rest).takeWhile (· != '\n'), later,
    ?_, ?_, ?_, ?_, ?_, ?_, ?_, fun name => ?_⟩
  · rw [← byteLength_toList, whole]
    exact Nat.le_add_right _ _
  · rw [hsource, ← hbefore]
    exact takeBytes_append before _
  · rw [hsource, ← hafter]
    exact dropBytes_append before _
  · rw [hsource]
    exact online
  · rw [← hbefore]
    exact ⟨_, told⟩
  · rw [String.length_ofList, List.length_append]
    omega
  · rw [shown, told, Nat.add_sub_cancel_left]
    exact String.append_empty
  · have named := (error.withSource name).report_eq (by rw [told]; rfl)
    rw [named, shown, told]
    exact ⟨_, congrArg (· ++ _) String.append_empty.symm⟩

/-- An array is opened on the second of three lines and never closed; the bracket is blamed, though
the text goes on behind it. -/
theorem error_points_unclosed :
    parse "é;\n  é(a, [1,\n" = .error (.ofCause
      (.parse "unterminated array literal" 2 8 "  é(a, [1,")) ∧
    ∃ offset earlier left right later,
      (Error.ofCause (.parse "unterminated array literal" 2 8 "  é(a, [1,")).PointsInto
        "é;\n  é(a, [1,\n" offset earlier left right later := by
  have refused : parse "é;\n  é(a, [1,\n" = .error (.ofCause
      (.parse "unterminated array literal" 2 8 "  é(a, [1,")) := by
    have answer : (match parse "é;\n  é(a, [1,\n" with
        | .error error => some error
        | .ok _ => none) = some (.ofCause
          (.parse "unterminated array literal" 2 8 "  é(a, [1,")) := by decide +kernel
    split at answer
    · next error herror => rw [herror, Option.some.inj answer]
    · cases answer
  exact ⟨refused, error_points (.inl refused)⟩

end JsPrune
