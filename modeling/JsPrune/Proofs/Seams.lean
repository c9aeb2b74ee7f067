import JsPrune.Proofs.Printable

/-!
# Where printed texts meet

A printed program is a row of texts, and the lexer finds its way back to them only if no text runs
into the next one. Three places are delicate: a point after a number, a digit after a point, and a
character after an operator that would make a longer operator.

Almost every text can follow almost every other. `Follows` says that pieces can stand after anything
but a point or an operator, and leave the same freedom behind them; `Runs` says that they can also
stand after an operator. So the pieces of an expression are `Runs`, and whatever comes after one is
`Follows`.
-/

namespace JsPrune

open Text

/-- An edge that only a point must avoid, if anything. -/
def Edge.isSoft : Edge → Bool
  | .free => true
  | .number => true
  | _ => false

/-- The pieces can stand after a soft edge and leave one behind. -/
def Follows (pieces : List Piece) : Prop :=
  ∀ edge : Edge, edge.isSoft = true → ∃ last, last.isSoft = true ∧ Flows edge pieces last

/-- The pieces can also stand after an operator. -/
def Runs (pieces : List Piece) : Prop :=
  ∀ edge : Edge, edge ≠ .member → ∃ last, last.isSoft = true ∧ Flows edge pieces last

variable {pieces first second : List Piece}

theorem Edge.ne_member_of_isSoft {edge : Edge} (h : edge.isSoft = true) : edge ≠ .member := by
  rintro rfl
  cases h

/-- What can stand after an operator can stand after a soft edge. -/
@[grind →] theorem Runs.follows (h : Runs pieces) : Follows pieces :=
  fun edge hsoft => h edge (Edge.ne_member_of_isSoft hsoft)

@[grind .] theorem Follows.nil : Follows [] := fun edge hsoft => ⟨edge, hsoft, .nil⟩

/-- One after the other, pieces go on where the first ones end. -/
@[grind ←] theorem Follows.append (hf : Follows first) (hs : Follows second) : Follows (first ++ second) := by
  intro edge hsoft
  obtain ⟨middle, hmiddle, left⟩ := hf edge hsoft
  obtain ⟨last, hlast, right⟩ := hs middle hmiddle
  exact ⟨last, hlast, left.append right⟩

/-- Only the first pieces have to stand after the operator. -/
theorem Runs.append (hf : Runs first) (hs : Follows second) : Runs (first ++ second) := by
  intro edge hedge
  obtain ⟨middle, hmiddle, left⟩ := hf edge hedge
  obtain ⟨last, hlast, right⟩ := hs middle hmiddle
  exact ⟨last, hlast, left.append right⟩

/-- A space asks for nothing, in whatever layout. -/
@[grind ←] theorem Follows.space (h : Follows pieces) : Follows (.space :: pieces) := by
  intro edge hsoft
  obtain ⟨last, hlast, flows⟩ := h edge hsoft
  exact ⟨last, hlast, .space flows⟩

/-- A line break asks for nothing either. -/
@[grind ←] theorem Follows.newline (h : Follows pieces) (level : Nat) : Follows (.newline level :: pieces) := by
  intro edge hsoft
  obtain ⟨last, hlast, flows⟩ := h edge hsoft
  exact ⟨last, hlast, .newline level flows⟩

theorem Runs.space (h : Runs pieces) : Runs (.space :: pieces) := by
  intro edge hedge
  obtain ⟨last, hlast, flows⟩ := h edge hedge
  exact ⟨last, hlast, .space flows⟩

/-! ## One text -/

/-- Whether a text that starts with `c` can stand after anything but a point. -/
def easyStart (c : Char) : Bool := !(['=', '<', '>', '&', '|', '*', '/', '.'].contains c)

/-- An easy start can stand anywhere but after a point. -/
theorem admits_of_easyStart {edge : Edge} {c : Char} (hedge : edge ≠ .member)
    (hc : easyStart c = true) : edge.admits c = true := by
  cases edge with
  | free => rfl
  | member => exact absurd rfl hedge
  | number => simp [easyStart, Edge.admits] at hc ⊢; simp [hc]
  | operator => simp [easyStart, Edge.admits] at hc ⊢; simp [hc]

/-- Words and digits start easily. -/
theorem easyStart_of_isWordChar {c : Char} (h : isWordChar c = true) : easyStart c = true := by
  cases hc : easyStart c with
  | true => rfl
  | false =>
    simp only [easyStart, Bool.not_eq_false', List.contains_iff_mem] at hc
    have none : (['=', '<', '>', '&', '|', '*', '/', '.'].all fun d => !isWordChar d) = true := by
      decide
    have apart := List.all_eq_true.mp none c hc
    rw [h] at apart
    cases apart

variable {content : String} {kind : Token.Kind}

/-- A text that starts easily can stand after an operator. -/
theorem Runs.text (hw : Written kind content) (hstart : content.toList.head?.all easyStart = true)
    (hsoft : (Edge.after kind).isSoft = true) : Runs [.text content] := by
  intro edge hedge
  refine ⟨_, hsoft, .text hw (fun c hc => admits_of_easyStart hedge ?_) .nil⟩
  rw [hc] at hstart
  exact hstart

/-- An operator in front of its operand. -/
theorem Runs.before (hw : Written kind content) (hstart : content.toList.head?.all easyStart = true)
    (hafter : Edge.after kind ≠ .member) (h : Runs pieces) : Runs (.text content :: pieces) := by
  intro edge hedge
  obtain ⟨last, hlast, flows⟩ := h _ hafter
  refine ⟨last, hlast, .text hw (fun c hc => admits_of_easyStart hedge ?_) flows⟩
  rw [hc] at hstart
  exact hstart

/-- An operator behind its left operand. -/
theorem Follows.between (hw : Written kind content) (hstart : content.toList.head? ≠ some '.')
    (hafter : Edge.after kind ≠ .member) (h : Runs pieces) : Follows (.text content :: pieces) := by
  intro edge hsoft
  obtain ⟨last, hlast, flows⟩ := h _ hafter
  refine ⟨last, hlast, .text hw (fun c hc => ?_) flows⟩
  cases edge with
  | free => rfl
  | number =>
    rw [Edge.admits, bne_iff_ne]
    rintro rfl
    exact hstart hc
  | _ => cases hsoft

theorem Runs.cons {piece : Piece} (hf : Runs [piece]) (hs : Follows pieces) : Runs (piece :: pieces) :=
  hf.append hs

@[grind ←] theorem Follows.cons {piece : Piece} (hf : Follows [piece]) (hs : Follows pieces) :
    Follows (piece :: pieces) :=
  hf.append hs

/-! ## Pieces that end in a mark or a word -/

/-- The pieces can stand after an operator and leave nothing behind that the next text has to
avoid. -/
def Closed (pieces : List Piece) : Prop := ∀ edge : Edge, edge ≠ .member → Flows edge pieces .free

@[grind →] theorem Closed.runs (h : Closed pieces) : Runs pieces :=
  fun edge hedge => ⟨.free, rfl, h edge hedge⟩

/-- A text that starts easily and ends as most do leaves nothing behind. -/
theorem Closed.text (hw : Written kind content) (hstart : content.toList.head?.all easyStart = true)
    (hfree : Edge.after kind = .free) : Closed [.text content] := by
  intro edge hedge
  rw [← hfree]
  refine .text hw (fun c hc => admits_of_easyStart hedge ?_) .nil
  rw [hc] at hstart
  exact hstart

/-- What the last pieces leave behind is what all of them do. -/
theorem Runs.close (hf : Runs first) (hs : Closed second) : Closed (first ++ second) := by
  intro edge hedge
  obtain ⟨middle, hmiddle, left⟩ := hf edge hedge
  exact left.append (hs middle (Edge.ne_member_of_isSoft hmiddle))

/-- A mark leaves nothing behind unless it is an operator or a point. -/
theorem closed_mark (symbol : Punctuator)
    (hstart : symbol.text.toList.head?.all easyStart = true)
    (hfree : Edge.after (.punctuator symbol) = .free) : Closed [.text symbol.text] :=
  .text (.mark symbol) hstart hfree

/-- A reserved word leaves nothing behind. -/
theorem closed_word (word : Keyword) : Closed [.text word.text] :=
  .text (.word word) (by cases word <;> decide) rfl

/-- A name after a point. -/
theorem Closed.dot {name : String} (h : Closed pieces) {kind : Token.Kind} (hw : Written kind name)
    (hstart : name.toList.head?.all (fun c => !isDigit c) = true) (hfree : Edge.after kind = .free) :
    Closed (pieces ++ [.text ".", .text name]) := by
  intro edge hedge
  refine (h edge hedge).append (.text (.mark .dot) (fun _ _ => rfl) ?_)
  rw [← hfree]
  refine .text hw (fun c hc => ?_) .nil
  rw [hc] at hstart
  exact hstart

/-! The marks of the printer that leave nothing behind. -/

theorem closed_parenOpen : Closed [.text "("] := closed_mark .parenOpen rfl rfl

theorem closed_parenClose : Closed [.text ")"] := closed_mark .parenClose rfl rfl

theorem closed_bracketOpen : Closed [.text "["] := closed_mark .bracketOpen rfl rfl

theorem closed_bracketClose : Closed [.text "]"] := closed_mark .bracketClose rfl rfl

theorem closed_braceOpen : Closed [.text "\x7b"] := closed_mark .braceOpen rfl rfl

theorem closed_braceClose : Closed [.text "\x7d"] := closed_mark .braceClose rfl rfl

theorem closed_semicolon : Closed [.text ";"] := closed_mark .semicolon rfl rfl

theorem closed_comma : Closed [.text ","] := closed_mark .comma rfl rfl

theorem closed_colon : Closed [.text ":"] := closed_mark .colon rfl rfl

theorem closed_question : Closed [.text "?"] := closed_mark .question rfl rfl

/-- The equals sign of a binding is an operator to what comes after it. -/
theorem Follows.assign (h : Runs pieces) : Follows (.text "=" :: pieces) :=
  .between (.mark .assign) (by decide) (by decide) h

/-- Parentheses leave nothing behind, whatever is between them. -/
theorem Follows.inParens (h : Follows pieces) : Closed (Node.inParens pieces) :=
  Runs.close (Runs.cons closed_parenOpen.runs h) closed_parenClose

/-- No name starts with a digit. -/
theorem isDigit_eq_false {c : Char} (h : isNameStart c = true) : isDigit c = false := by
  have digits : ∀ k < 58, 48 ≤ k → isNameStart (Char.ofNat k) = false := by decide +kernel
  cases hd : isDigit c with
  | false => rfl
  | true =>
    rw [isDigit, Bool.and_eq_true, decide_eq_true_iff, decide_eq_true_iff] at hd
    have low : 48 ≤ c.toNat := hd.1
    have high : c.toNat ≤ 57 := hd.2
    have none := digits c.toNat (by omega) low
    rw [Char.ofNat_toNat, h] at none
    cases none

/-- Names and reserved words start easily, and not with a digit. -/
theorem head?_of_name (h : spells kind content.toList = true)
    (hk : (∃ name, kind = .identifier name) ∨ ∃ word, kind = .keyword word) :
    content.toList.head?.all easyStart = true ∧
      content.toList.head?.all (fun c => !isDigit c) = true := by
  cases hchars : content.toList with
  | nil => rw [hchars] at h; cases h
  | cons first rest =>
    rw [hchars] at h
    have starts := (name_of_spells h hk).1
    refine ⟨easyStart_of_isWordChar (isWordChar_of_isNameStart starts), ?_⟩
    show (!isDigit first) = true
    rw [isDigit_eq_false starts]
    rfl

/-- A name leaves nothing behind. -/
theorem closed_name {name : String} (h : Node.IsNameToken name) : Closed [.text name] := by
  have spelled := spells_of_lexesAs h rfl
  exact .text (.ofSpells spelled nofun) (head?_of_name spelled (.inl ⟨name, rfl⟩)).1 rfl

/-- A point and a name can stand after what leaves nothing behind. -/
theorem Closed.member {name : String} (h : Closed pieces) (hname : Node.IsMemberToken name) :
    Closed (pieces ++ [.text ".", .text name]) := by
  rcases hname with hname | ⟨word, hname, _⟩
  · have spelled := spells_of_lexesAs hname rfl
    exact h.dot (.ofSpells spelled nofun) (head?_of_name spelled (.inl ⟨name, rfl⟩)).2 rfl
  · have spelled := spells_of_lexesAs hname rfl
    exact h.dot (.ofSpells spelled nofun) (head?_of_name spelled (.inr ⟨word, rfl⟩)).2 rfl

/-- A quoted text leaves nothing behind. -/
theorem closed_quote (text : String) : Closed [.text (quote text)] := by
  refine .text (.ofSpells (spells_quote text) nofun) ?_ rfl
  rw [quote, String.toList_ofList]
  rfl

/-! ## Numbers -/

/-- There is always a digit before the point. -/
theorem places_ne_nil (digits : Binary64.Digits) : digits.places.1 ≠ [] := by
  unfold Binary64.Digits.places
  split
  · split
    · nofun
    · next hcount =>
      split
      · intro hnil
        have length := congrArg List.length hnil
        simp only [List.length_append, List.length_replicate, List.length_nil] at length
        omega
      · intro hnil
        have length := congrArg List.length hnil
        simp only [List.length_take, List.length_nil] at length
        omega
  · nofun

theorem head?_all_of_digits {text rest : List Char} (h : ∀ c ∈ text, isDigit c = true)
    (hne : text ≠ []) : (text ++ rest).head?.all isWordChar = true := by
  cases text with
  | nil => exact absurd rfl hne
  | cons first rest => exact isWordChar_of_isDigit (h first (List.mem_cons_self ..))

/-- A number with an exponent starts with a digit. -/
theorem head?_scientific {digits : Binary64.Digits} (h : ∀ c ∈ digits.text, isDigit c = true) :
    (digits.scientific []).head?.all isWordChar = true := by
  unfold Binary64.Digits.scientific
  split
  · next first second rest htext =>
    exact isWordChar_of_isDigit (h first (by rw [htext]; simp))
  · next htext =>
    cases hd : digits.text with
    | nil => rfl
    | cons first rest => exact isWordChar_of_isDigit (h first (by rw [hd]; simp))

/-- A number is written with a sign or a word character at its start, never with a point. -/
theorem head?_numberText (x : Binary64) :
    x.isNegative = true ∧ (numberText x).toList.head? = some '-' ∨
      (numberText x).toList.head?.all isWordChar = true := by
  unfold numberText
  split
  · exact .inr (by decide)
  · rw [String.toList_ofList]
    split
    · next hsign => exact .inl ⟨hsign, rfl⟩
    · rw [List.nil_append]
      refine .inr ?_
      split
      · decide
      · dsimp only
        split
        · exact head?_scientific (isDigit_shortest _ x)
        · exact head?_all_of_digits (isDigit_places (isDigit_shortest _ x)).1 (places_ne_nil _)

/-- Every number starts easily: with a digit, a sign or a name. -/
theorem easyStart_numberText (x : Binary64) :
    (numberText x).toList.head?.all easyStart = true := by
  rcases head?_numberText x with ⟨_, hsign⟩ | hword
  · rw [hsign]
    rfl
  · cases hhead : (numberText x).toList.head? with
    | none => rfl
    | some c =>
      rw [hhead] at hword
      exact easyStart_of_isWordChar hword

/-- A number can stand after an operator. What it leaves behind is for a point to avoid. -/
theorem runs_number {value : Binary64} (h : LexesAs (numberText value) (.number value)) :
    Runs [.text (numberText value)] :=
  .text (.numberText (spells_of_lexesAs h rfl)) (easyStart_numberText value) rfl

/-- Every key starts easily, as a name, a number or a quoted text. -/
theorem head?_keyText (key : String) : (keyText key).toList.head?.all easyStart = true := by
  rcases keyText_cases key with ⟨first, rest, hchars, hfirst, _⟩ | ⟨x, hnumber⟩ | hquoted
  · rw [hchars]
    exact easyStart_of_isWordChar (isWordChar_of_isNameStart hfirst)
  · rw [hnumber]
    exact easyStart_numberText x
  · rw [hquoted, quote, String.toList_ofList]
    rfl

/-- What is read as a key is a token with content, after which at most a point could not stand. -/
theorem content_of_keyName? {kind : Token.Kind} {spelling key : String}
    (h : keyName? kind spelling = some key) :
    kind.isContent = true ∧ (Edge.after kind).isSoft = true := by
  cases kind with
  | identifier _ => exact ⟨rfl, rfl⟩
  | keyword _ => exact ⟨rfl, rfl⟩
  | number _ => exact ⟨rfl, rfl⟩
  | string _ => exact ⟨rfl, rfl⟩
  | _ => cases h

/-- A key that is read back can stand after an operator. -/
theorem runs_key {key : String} {kind : Token.Kind} (h : LexesAs (keyText key) kind)
    (hkey : keyName? kind (keyText key) = some key) : Runs [.text (keyText key)] := by
  obtain ⟨content, soft⟩ := content_of_keyName? hkey
  exact .text (.keyText (spells_of_lexesAs h content)) (head?_keyText key) soft

/-! ## Operators -/

/-- A prefix operator can stand after an operator: signs that would run together are kept apart by
the layout, and all others start easily. -/
theorem Runs.unary (operator : UnaryOp) (h : Runs pieces) : Runs (.text operator.symbol :: pieces) := by
  cases operator with
  | not => exact .before (.mark .bang) rfl (by decide) h
  | bitNot => exact .before (.mark .tilde) rfl (by decide) h
  | neg => exact .before (.mark .minus) rfl (by decide) h
  | plus => exact .before (.mark .plus) rfl (by decide) h
  | typeOf => exact .before (.word .typeofKw) (by decide) (by decide) h
  | void => exact .before (.word .voidKw) (by decide) (by decide) h
  | delete => exact .before (.word .deleteKw) (by decide) (by decide) h
  | increment => exact .before (.mark .increment) rfl (by decide) h
  | decrement => exact .before (.mark .decrement) rfl (by decide) h

/-- A stepping operator leaves nothing behind. -/
theorem closed_step {operator : UnaryOp} (h : operator.isStep = true) :
    Closed [.text operator.symbol] := by
  cases operator with
  | increment => exact closed_mark .increment rfl rfl
  | decrement => exact closed_mark .decrement rfl rfl
  | _ => cases h

/-- An operator between two operands asks that the right one can stand after an operator. -/
theorem Follows.binary (operator : BinaryOp) (h : Runs pieces) :
    Follows (.text operator.symbol :: pieces) := by
  have written : Written operator.tokenKind operator.symbol :=
    .ofSpells (spells_operator operator) (by cases operator <;> nofun)
  refine .between written ?_ ?_ h
  · cases operator <;> decide
  · cases operator <;> decide

end JsPrune
