import JsPrune.Proofs.Tiling

/-!
# Quoted strings in front of any text

A quoted string is written on one line: what could break the line or hide in it is escaped
(`quote_plain`). Every escape is a pair or has a fixed width, so the literal also ends by itself,
and no text behind it, not even one that starts with more hexadecimal digits, can change what is
read.

Main result: `Lexer.next_quote`. Wherever the lexer stands, a quoted string is its next token, the
token covers the literal and nothing else, and the lexer goes on right behind it.
-/

namespace JsPrune

open JsPrune.Source JsPrune.Text

/-! ## The characters of a literal -/

/-- A hexadecimal digit breaks no line and hides nowhere. -/
theorem hexDigit_plain :
    ∀ n < 16, isLineBreak (hexDigit n) = false ∧ isControl (hexDigit n) = false := by
  decide

/-- A text without line breaks and control characters. -/
def Plain (text : List Char) : Prop :=
  ∀ c ∈ text, isLineBreak c = false ∧ isControl c = false

theorem plain_of_all {text : List Char}
    (h : text.all (fun c => !isLineBreak c && !isControl c) = true) : Plain text := by
  intro c hc
  have plain := List.all_eq_true.mp h c hc
  rw [Bool.and_eq_true, Bool.not_eq_true', Bool.not_eq_true'] at plain
  exact plain

/-- No character is spelled with a line break or a control character. -/
theorem quoteChar_plain (c : Char) : Plain (quoteChar c) := by
  -- The named escapes are fixed texts.
  refine iteInduction (motive := Plain) (fun _ => plain_of_all rfl) fun _ => ?_
  refine iteInduction (motive := Plain) (fun _ => plain_of_all rfl) fun _ => ?_
  refine iteInduction (motive := Plain) (fun _ => plain_of_all rfl) fun hline => ?_
  refine iteInduction (motive := Plain) (fun _ => plain_of_all rfl) fun hreturn => ?_
  refine iteInduction (motive := Plain) (fun _ => plain_of_all rfl) fun _ => ?_
  refine iteInduction (motive := Plain) (fun _ => plain_of_all rfl) fun _ => ?_
  refine iteInduction (motive := Plain) (fun _ => plain_of_all rfl) fun _ => ?_
  refine iteInduction (motive := Plain) (fun _ => plain_of_all rfl) fun hseparator => ?_
  refine iteInduction (motive := Plain) (fun _ => plain_of_all rfl) fun hparagraph => ?_
  refine iteInduction (motive := Plain) (fun _ => ?_) fun hcontrol => ?_
  · have digits : hexText 2 c.toNat = [hexDigit (c.toNat / 16 % 16), hexDigit (c.toNat % 16)] := rfl
    simp only [Plain, digits, List.forall_mem_cons]
    refine ⟨by decide, by decide, ?_, ?_, nofun⟩
    · exact hexDigit_plain _ (Nat.mod_lt _ (by omega))
    · exact hexDigit_plain _ (Nat.mod_lt _ (by omega))
  · rw [Plain, List.forall_mem_singleton]
    exact ⟨by simp [isLineBreak, hline, hreturn, hseparator, hparagraph],
      Bool.eq_false_iff.mpr hcontrol⟩

/-- **A literal stays on its line**: it holds neither line breaks nor control characters. -/
theorem quote_plain (text : String) : Plain (quote text).toList := by
  intro c hc
  rw [quote, String.toList_ofList, List.mem_cons, List.mem_append, List.mem_flatMap,
    List.mem_singleton] at hc
  rcases hc with rfl | ⟨meant, _, hmeant⟩ | rfl
  · decide
  · exact quoteChar_plain meant c hmeant
  · decide

example : quote "\x01\u2028f\"" = "\"\\x01\\u2028f\\\"\"" := by decide

/-- A text without line feeds only moves along its line. -/
theorem advance_of_not_mem {text : List Char} (h : '\n' ∉ text) (here : Position) :
    here.advance text
      = ⟨here.offset + byteLength text, here.line, here.column + text.length⟩ := by
  induction text generalizing here with
  | nil => rfl
  | cons c rest ih =>
    rw [List.mem_cons, not_or] at h
    have step : here.next c = ⟨here.offset + c.utf8Size, here.line, here.column + 1⟩ := by
      rw [Position.next, if_neg (Ne.symm h.1)]
    rw [Position.advance, List.foldl_cons, ← Position.advance, ih h.2, step, byteLength,
      List.length_cons, Nat.add_assoc, Nat.add_assoc, Nat.add_comm rest.length]

/-! ## Reading a literal -/

namespace Lexer

/-- **A quoted string is read back whatever follows**: it is one token on one line, whose span is the
literal, and reading goes on with the text behind it. -/
theorem next_quote (text : String) (more : List Char) (here : Position) (newline : Bool) :
    let token : Token := ⟨.string text,
      ⟨here.offset, here.offset + (quote text).utf8ByteSize, here.line, here.column⟩, newline⟩
    let behind : Lexer := ⟨more,
      ⟨here.offset + (quote text).utf8ByteSize, here.line, here.column + (quote text).length⟩, false⟩
    (mk ((quote text).toList ++ more) here newline).next = (token, behind) ∧
      (mk ((quote text).toList ++ more) here newline).tokens = token :: behind.tokens ∧
      ∀ c ∈ (quote text).toList, isLineBreak c = false ∧ isControl c = false := by
  intro token behind
  have oneLine : '\n' ∉ (quote text).toList := by
    intro hfeed
    have plain := (quote_plain text _ hfeed).1
    cases plain
  have stop : here.advance (quote text).toList
      = ⟨here.offset + (quote text).utf8ByteSize, here.line, here.column + (quote text).length⟩ := by
    rw [advance_of_not_mem oneLine, byteLength_toList, String.length_toList]
  have step : (mk ((quote text).toList ++ more) here newline).next = (token, behind) := by
    have read := @next_of_spells ⟨(quote text).toList ++ more, here, newline⟩ []
      (quote text).toList more (.string text) (List.nil_append _).symm rfl (spells_quote text)
      (fun _ _ => rfl)
    have start : here.advance [] = here := rfl
    rw [start, stop, List.any_nil, Bool.or_false] at read
    exact read
  refine ⟨step, ?_, quote_plain text⟩
  have ongoing : (mk ((quote text).toList ++ more) here newline).next.1.kind ≠ .eof := by
    rw [step]
    nofun
  rw [tokens, dif_neg ongoing, step]

end Lexer

end JsPrune
