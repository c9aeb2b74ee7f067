import JsPrune.Json.Reader
import JsPrune.Json.Writer
import JsPrune.Proofs.Spelling

/-!
# JSON texts read back

What is written for a value is read as that value, in one line or indented, whatever stands behind
it. A number is read digit by digit and then rounded, which need not give back the number that was
written, so the numbers of the value have to be `Rereads` for this. The readers of numerals are
`Local`: where a numeral can not go on they look no further, so a number that is read back from its
own text is read back from any text that starts with it.

Main result: `read?_write`.
-/

namespace JsPrune

open JsPrune.Text

/-- What is dropped from the front of a text ends within it, if the text behind it would end it. -/
theorem dropWhile_append_of_stops {p : Char → Bool} {text more : List Char} (h : Stops p more) :
    (text ++ more).dropWhile p = text.dropWhile p ++ more := by
  induction text with
  | nil =>
    cases more with
    | nil => rfl
    | cons c rest =>
      rw [List.nil_append, List.dropWhile_cons, h c rfl]
      rfl
  | cons c rest ih =>
    rw [List.cons_append, List.dropWhile_cons, List.dropWhile_cons, ih]
    split <;> rfl

namespace Json

/-! ## Where a numeral ends -/

/-- Whether a numeral could go on with this character. -/
def goesOn (c : Char) : Bool :=
  isDigit c || c == '.' || c == 'e' || c == 'E' || c == '+' || c == '-'

/-- No numeral goes on with white space. -/
theorem goesOn_of_isSpace {c : Char} (h : isSpace c = true) : goesOn c = false := by
  simp only [isSpace, Bool.or_eq_true, beq_iff_eq] at h
  rcases h with ((rfl | rfl) | rfl) | rfl <;> rfl

/-- Where no numeral goes on there is no digit. -/
theorem stops_isDigit {more : List Char} (h : Stops goesOn more) : Stops isDigit more :=
  h.mono fun c hc => by simp [goesOn, hc]

/-- What does not go on with a numeral starts with none of its characters. -/
theorem ne_cons_of_stops {more : List Char} (h : Stops goesOn more) {c : Char}
    (hc : goesOn c = true) (rest : List Char) : more ≠ c :: rest := by
  rintro rfl
  rw [h c rfl] at hc
  cases hc

/-- A text does not come to start with such a character because of what stands behind it. -/
theorem append_ne_cons {text more : List Char} (h : Stops goesOn more) {c : Char}
    (hc : goesOn c = true) (ht : ¬ ∃ rest, text = c :: rest) (rest : List Char) :
    text ++ more ≠ c :: rest := by
  cases text with
  | nil => exact ne_cons_of_stops h hc rest
  | cons first text =>
    intro same
    obtain ⟨rfl, _⟩ := List.cons.inj same
    exact ht ⟨text, rfl⟩

/-- A reader that does not mind what comes behind a numeral. -/
def Local {α : Type} (read : Reader α) : Prop :=
  ∀ text more, Stops goesOn more → read (text ++ more) = (read text).map (Prod.map id (· ++ more))

theorem wholePart_of_ne {text : List Char} (h : ∀ rest, text ≠ '0' :: rest) :
    wholePart text = if (text.takeWhile isDigit).isEmpty then none
      else some (text.takeWhile isDigit, text.dropWhile isDigit) := by
  unfold wholePart
  split
  · exact absurd rfl (h _)
  · rfl

/-- The digits before the point end within the numeral. -/
theorem wholePart_local : Local wholePart := by
  intro text more hm
  have digits := stops_isDigit hm
  by_cases hzero : ∃ rest, text = '0' :: rest
  · obtain ⟨rest, rfl⟩ := hzero
    -- A zero is refused where a digit follows; none does in `more`.
    have next : (rest ++ more).head?.any isDigit = rest.head?.any isDigit := by
      cases rest with
      | cons c rest => rfl
      | nil =>
        cases more with
        | nil => rfl
        | cons c rest => exact digits c rfl
    show (if (rest ++ more).head?.any isDigit then none else some (['0'], rest ++ more))
      = (if rest.head?.any isDigit then none else some (['0'], rest)).map _
    rw [next]
    split <;> rfl
  · rw [wholePart_of_ne (append_ne_cons hm rfl hzero), wholePart_of_ne (not_exists.mp hzero),
      takeWhile_append_of_stops digits, dropWhile_append_of_stops digits]
    split <;> rfl

theorem fractionPart_of_ne {text : List Char} (h : ∀ rest, text ≠ '.' :: rest) :
    fractionPart text = some ([], text) := by
  unfold fractionPart
  split
  · exact absurd rfl (h _)
  · rfl

/-- So do the digits behind the point. -/
theorem fractionPart_local : Local fractionPart := by
  intro text more hm
  have digits := stops_isDigit hm
  by_cases hpoint : ∃ rest, text = '.' :: rest
  · obtain ⟨rest, rfl⟩ := hpoint
    show (if ((rest ++ more).takeWhile isDigit).isEmpty then none
        else some ((rest ++ more).takeWhile isDigit, (rest ++ more).dropWhile isDigit))
      = (if (rest.takeWhile isDigit).isEmpty then none
        else some (rest.takeWhile isDigit, rest.dropWhile isDigit)).map _
    rw [takeWhile_append_of_stops digits, dropWhile_append_of_stops digits]
    split <;> rfl
  · rw [fractionPart_of_ne (append_ne_cons hm rfl hpoint), fractionPart_of_ne (not_exists.mp hpoint)]
    rfl

/-- The sign of an exponent and what stands behind it. -/
def signPart : List Char → Int × List Char
  | '+' :: more => (1, more)
  | '-' :: more => (-1, more)
  | more => (1, more)

theorem exponentPart_cons (mark : Char) (rest : List Char) : exponentPart (mark :: rest)
    = if mark != 'e' && mark != 'E' then some (0, mark :: rest)
      else if ((signPart rest).2.takeWhile isDigit).isEmpty then none
      else some ((signPart rest).1 * Int.ofNat (ofDigits ((signPart rest).2.takeWhile isDigit)),
        (signPart rest).2.dropWhile isDigit) := rfl

/-- The sign of an exponent does not depend on what follows. -/
theorem signPart_append {more : List Char} (hm : Stops goesOn more) (text : List Char) :
    signPart (text ++ more) = ((signPart text).1, (signPart text).2 ++ more) := by
  have unsigned {text : List Char} (hplus : ∀ rest, text ≠ '+' :: rest)
      (hminus : ∀ rest, text ≠ '-' :: rest) : signPart text = (1, text) := by
    unfold signPart
    split
    · exact absurd rfl (hplus _)
    · exact absurd rfl (hminus _)
    · rfl
  by_cases hplus : ∃ rest, text = '+' :: rest
  · obtain ⟨rest, rfl⟩ := hplus
    rfl
  by_cases hminus : ∃ rest, text = '-' :: rest
  · obtain ⟨rest, rfl⟩ := hminus
    rfl
  rw [unsigned (append_ne_cons hm rfl hplus) (append_ne_cons hm rfl hminus),
    unsigned (not_exists.mp hplus) (not_exists.mp hminus)]

/-- The exponent ends within the numeral. -/
theorem exponentPart_local : Local exponentPart := by
  intro text more hm
  have digits := stops_isDigit hm
  cases text with
  | nil =>
    cases more with
    | nil => rfl
    | cons c more =>
      have small : c ≠ 'e' := by
        rintro rfl
        exact ne_cons_of_stops hm rfl more rfl
      have large : c ≠ 'E' := by
        rintro rfl
        exact ne_cons_of_stops hm rfl more rfl
      rw [List.nil_append, exponentPart_cons, if_pos (by simp [small, large])]
      rfl
  | cons mark rest =>
    rw [List.cons_append, exponentPart_cons, exponentPart_cons, signPart_append hm,
      takeWhile_append_of_stops digits, dropWhile_append_of_stops digits]
    split
    · rfl
    · split <;> rfl

/-- A numeral without its sign can be read whatever follows. -/
theorem magnitude_local : Local magnitude := by
  intro text more hm
  unfold magnitude
  rw [wholePart_local text more hm]
  rcases wholePart text with _ | ⟨whole, text⟩
  · rfl
  simp only [Option.map_some, Prod.map, Option.bind_eq_bind, Option.bind_some, id]
  rw [fractionPart_local text more hm]
  rcases fractionPart text with _ | ⟨fraction, text⟩
  · rfl
  simp only [Option.map_some, Prod.map, Option.bind_some, id]
  rw [exponentPart_local text more hm]
  rcases exponentPart text with _ | ⟨exponent, text⟩
  · rfl
  simp only [Option.map_some, Prod.map, Option.bind_some, id, Option.pure_def]

theorem numeral_of_ne {text : List Char} (h : ∀ rest, text ≠ '-' :: rest) :
    numeral text = magnitude text := by
  unfold numeral
  split
  · exact absurd rfl (h _)
  · rfl

/-- So can one with its sign. -/
theorem numeral_local : Local numeral := by
  intro text more hm
  by_cases hminus : ∃ rest, text = '-' :: rest
  · obtain ⟨rest, rfl⟩ := hminus
    rw [List.cons_append, numeral, numeral, magnitude_local rest more hm]
    cases magnitude rest <;> rfl
  · rw [numeral_of_ne (append_ne_cons hm rfl hminus), numeral_of_ne (not_exists.mp hminus),
      magnitude_local text more hm]

/-- A natural number can be read whatever follows. -/
theorem natural_local : Local natural := by
  intro text more hm
  unfold natural
  rw [wholePart_local text more hm]
  rcases wholePart text with _ | ⟨digits, rest⟩
  · rfl
  have next : (rest ++ more).head?.any (fun c => c == '.' || c == 'e' || c == 'E')
      = rest.head?.any fun c => c == '.' || c == 'e' || c == 'E' := by
    cases rest with
    | cons c rest => rfl
    | nil =>
      cases more with
      | nil => rfl
      | cons c more =>
        have := hm c rfl
        simp only [goesOn, Bool.or_eq_false_iff] at this
        simp [this]
  simp only [Option.map_some, Prod.map, Option.bind_eq_bind, Option.bind_some, id, next]
  split <;> rfl

/-- A number as a value can be read whatever follows. -/
theorem number_local : Local number := by
  intro text more hm
  unfold number
  rw [natural_local text more hm, numeral_local text more hm]
  rcases natural text with _ | ⟨value, rest⟩
  · rcases numeral text with _ | ⟨value, rest⟩ <;> rfl
  · rfl

/-! ## Strings -/

/-- Four hexadecimal digits are read as the number they were written for. -/
theorem codeUnit_hexText {n : Nat} (h : n < 0x10000) (more : List Char) :
    codeUnit (hexText 4 n ++ more) = some (n, more) := by
  have digit (k : Nat) := hexDigit_spec (n / k % 16) (Nat.mod_lt _ (by omega))
  have text : hexText 4 n = [hexDigit (n / 4096 % 16), hexDigit (n / 256 % 16),
      hexDigit (n / 16 % 16), hexDigit (n / 1 % 16)] := by
    simp only [hexText, Nat.div_div_eq_div_mul, Nat.reduceMul, List.nil_append, List.cons_append,
      Nat.div_one]
  have number : ofHexDigits (hexText 4 n) = n := by
    simp only [text, ofHexDigits, List.foldl_cons, List.foldl_nil, (digit _).2]
    omega
  have length : (hexText 4 n).length = 4 := rfl
  have all : (hexText 4 n).all isHexDigit = true := by
    simp only [text, List.all_cons, List.all_nil, (digit _).1, Bool.and_true]
  rw [codeUnit, List.take_left' length, List.drop_left' length, number, all, length]
  rfl

/-- Each character is read back from the way it is written. -/
theorem stringRest_escapeChar (c : Char) (chars : List Char) (count : Nat) (more : List Char) :
    stringRest (some chars) (count + 1) (escapeChar c ++ more)
      = stringRest (some (c :: chars)) count more := by
  unfold escapeChar
  -- Seven characters have escapes of their own.
  iterate 7
    split
    · next h => subst h; rfl
  split
  · next hsmall =>
    have unit : escaped ('u' :: (hexText 4 c.toNat ++ more)) = some (some c, more) := by
      rw [escaped, escapedUnit, codeUnit_hexText (by omega)]
      simp only [Option.bind_eq_bind, Option.bind_some]
      rw [if_neg (by simp; omega), if_neg (by simp; omega), Char.ofNat_toNat]
      rfl
    rw [List.cons_append, List.cons_append, stringRest, if_neg (by decide), if_neg (by decide),
      if_pos rfl, unit]
    rfl
  · next hquote hslash _ _ _ _ _ hlarge =>
    rw [List.singleton_append, stringRest, if_neg hquote, if_neg hlarge, if_neg hslash]
    rfl

/-- Escaped characters up to the closing quote are read as the characters. Each takes a turn at
least, so the text itself is bound enough. -/
theorem stringRest_escaped (text chars : List Char) {count : Nat} (h : text.length < count)
    (more : List Char) : stringRest (some chars) count (text.flatMap escapeChar ++ '"' :: more)
      = some (some (String.ofList (chars.reverse ++ text)), more) := by
  induction text generalizing chars count with
  | nil =>
    obtain ⟨count, rfl⟩ := Nat.exists_eq_add_one_of_ne_zero (by omega : count ≠ 0)
    rw [List.flatMap_nil, List.nil_append, stringRest, if_pos rfl, List.append_nil]
    rfl
  | cons c text ih =>
    rw [List.length_cons] at h
    obtain ⟨count, rfl⟩ := Nat.exists_eq_add_one_of_ne_zero (by omega : count ≠ 0)
    rw [List.flatMap_cons, List.append_assoc, stringRest_escapeChar, ih (c :: chars) (by omega),
      List.reverse_cons, List.append_assoc]
    rfl

/-- Where every item becomes something, nothing gets shorter. -/
theorem length_le_length_flatMap {α β : Type} {f : α → List β} (h : ∀ a, 1 ≤ (f a).length)
    (items : List α) : items.length ≤ (items.flatMap f).length := by
  induction items with
  | nil => exact Nat.le_refl _
  | cons a rest ih =>
    have := h a
    rw [List.flatMap_cons, List.length_append, List.length_cons]
    omega

/-- Every character is written as something. -/
theorem one_le_length_escapeChar (c : Char) : 1 ≤ (escapeChar c).length := by
  unfold escapeChar
  repeat' split
  all_goals exact Nat.le_add_left ..

/-- The text of a string starts with a quote, and what follows is read as the string. -/
theorem stringBody_stringText (text : String) (more : List Char) :
    ∃ body, (stringText text).toList ++ more = '"' :: body ∧
      stringBody body = some (some text, more) := by
  refine ⟨text.toList.flatMap escapeChar ++ '"' :: more, ?_, ?_⟩
  · rw [stringText, String.toList_ofList, List.cons_append, List.append_assoc]
    rfl
  · have long := length_le_length_flatMap one_le_length_escapeChar text.toList
    have enough : text.toList.length
        < (text.toList.flatMap escapeChar ++ '"' :: more).length + 1 := by
      rw [List.length_append, List.length_cons]
      omega
    rw [stringBody, stringRest_escaped _ _ enough, List.reverse_nil, List.nil_append,
      String.ofList_toList]

/-! ## White space and lists -/

/-- White space in front is skipped whole. -/
theorem skipSpace_append {blank : List Char} (h : blank.all isSpace = true) (text : List Char) :
    skipSpace (blank ++ text) = skipSpace text :=
  List.dropWhile_append_of_pos (List.all_eq_true.mp h)

/-- Nothing is skipped where no white space stands. -/
theorem skipSpace_cons {c : Char} (h : isSpace c = false) (text : List Char) :
    skipSpace (c :: text) = c :: text :=
  List.dropWhile_cons_of_neg (by rw [h]; exact Bool.false_ne_true)

/-- Line breaks and indentation are white space. -/
theorem lineBreak_blank (spacing : Spacing) (level : Nat) :
    (spacing.lineBreak level).toList.all isSpace = true := by
  cases spacing with
  | tight => rfl
  | indented =>
    have blank : (List.replicate (2 * level) ' ').all isSpace = true :=
      List.all_eq_true.mpr fun c hc => by rw [List.eq_of_mem_replicate hc]; rfl
    have text : (String.ofList (List.replicate (2 * level) ' ')).toList
        = List.replicate (2 * level) ' ' := String.toList_ofList
    rw [Spacing.lineBreak, String.toList_append, List.all_append, text, blank]
    rfl

/-- Where white space comes next, or a mark with which no numeral goes on, a numeral ends. -/
theorem stops_blank_append {blank : List Char} (h : blank.all isSpace = true) {mark : Char}
    (hm : goesOn mark = false) (more : List Char) : Stops goesOn (blank ++ mark :: more) := by
  intro c hc
  cases blank with
  | nil =>
    cases hc
    exact hm
  | cons first blank =>
    cases hc
    rw [List.all_cons, Bool.and_eq_true] at h
    exact goesOn_of_isSpace h.1

section
variable {α : Type} {item : Reader α} {text : α → List Char} {before after : List Char}
  {close : Char} {items : List α}

/-- A list read from its first item on. -/
theorem itemsRest_texts (ha : after.all isSpace = true) (hclose : goesOn close = false)
    (hspace : isSpace close = false) (hcomma : close ≠ ',') {first : α} {others : List α}
    (hi : ∀ a ∈ first :: others, ∀ more, Stops goesOn more →
      item (before ++ (text a ++ more)) = some (a, more))
    {count : Nat} (hcount : others.length < count) (more : List Char) :
    itemsRest item close count (before ++ (text first ++
        (others.flatMap (fun a => ',' :: (before ++ text a)) ++ (after ++ close :: more))))
      = some (first :: others, more) := by
  -- The first item is read in this turn; the others are what the next turns see.
  induction others generalizing first count with
  | nil =>
    obtain ⟨count, rfl⟩ := Nat.exists_eq_add_one_of_ne_zero (by omega : count ≠ 0)
    have stops := stops_blank_append ha hclose more
    rw [itemsRest, List.flatMap_nil, List.nil_append, hi first (List.mem_cons_self ..) _ stops]
    simp only [Option.bind_eq_bind, Option.bind_some]
    rw [skipSpace_append ha, skipSpace_cons hspace]
    split
    · next h => exact absurd (List.cons.inj h).1 hcomma
    · next h =>
      obtain ⟨rfl, rfl⟩ := List.cons.inj h
      rw [if_pos rfl]
      rfl
    · next h => cases h
  | cons second others ih =>
    rw [List.length_cons] at hcount
    obtain ⟨count, rfl⟩ := Nat.exists_eq_add_one_of_ne_zero (by omega : count ≠ 0)
    have others := ih (fun a h => hi a (List.mem_cons_of_mem _ h)) (by omega : _ < count)
    have stops (text : List Char) : Stops goesOn (',' :: text) := fun c hc => by cases hc; rfl
    rw [itemsRest, List.flatMap_cons, List.append_assoc, List.cons_append,
      hi first (List.mem_cons_self ..) _ (stops _)]
    simp only [Option.bind_eq_bind, Option.bind_some]
    rw [skipSpace_cons rfl]
    simp only [List.append_assoc]
    rw [others]
    rfl

end

/-- Texts with gaps between them, as characters. -/
theorem toList_intercalate_cons (gap : String) (first : String) (others : List String) :
    (("," ++ gap).intercalate (first :: others)).toList
      = first.toList ++ others.flatMap fun text => ',' :: (gap.toList ++ text.toList) := by
  induction others generalizing first with
  | nil => rw [String.intercalate_singleton, List.flatMap_nil, List.append_nil]
  | cons second others ih =>
    rw [String.intercalate_cons_cons, String.toList_append, String.toList_append, ih,
      String.toList_append, List.flatMap_cons]
    simp only [List.append_assoc, List.cons_append]
    rfl

/-- Texts in brackets, as characters: each on a line of its own if lines are kept. -/
theorem toList_bracketed_cons (spacing : Spacing) (level : Nat) (openMark closeMark first : String)
    (others : List String) :
    (bracketed spacing level openMark closeMark (first :: others)).toList = openMark.toList ++
      ((spacing.lineBreak (level + 1)).toList ++ (first.toList ++
        (others.flatMap (fun text => ',' :: ((spacing.lineBreak (level + 1)).toList ++ text.toList)) ++
          ((spacing.lineBreak level).toList ++ closeMark.toList)))) := by
  rw [bracketed, if_neg (by simp)]
  simp only [String.toList_append, toList_intercalate_cons, List.append_assoc]

/-- The text of a list starts with its opening mark, and what follows is read as the list. -/
theorem items_bracketed {α : Type} (spacing : Spacing) (level : Nat) (item : Reader α)
    (text : α → String) (openMark closeMark : String) (close : Char)
    (hmark : closeMark.toList = [close]) (hclose : goesOn close = false)
    (hspace : isSpace close = false) (hcomma : close ≠ ',') {list : List α}
    (hfirst : ∀ a ∈ list, ∃ c rest, (text a).toList = c :: rest ∧ isSpace c = false ∧ c ≠ close)
    (hi : ∀ a ∈ list, ∀ blank more, blank.all isSpace = true → Stops goesOn more →
      item (blank ++ ((text a).toList ++ more)) = some (a, more)) (more : List Char) :
    ∃ body, (bracketed spacing level openMark closeMark (list.map text)).toList ++ more
        = openMark.toList ++ body ∧ items item close body = some (list, more) := by
  cases list with
  | nil =>
    refine ⟨close :: more, ?_, ?_⟩
    · show (openMark ++ closeMark).toList ++ more = _
      rw [String.toList_append, hmark, List.append_assoc]
      rfl
    · rw [items, skipSpace_cons hspace]
      exact if_pos rfl
  | cons first others =>
    refine ⟨(spacing.lineBreak (level + 1)).toList ++ ((text first).toList ++
      (others.flatMap (fun a => ',' :: ((spacing.lineBreak (level + 1)).toList ++ (text a).toList))
        ++ ((spacing.lineBreak level).toList ++ close :: more))), ?_, ?_⟩
    · rw [List.map_cons, toList_bracketed_cons, hmark, List.flatMap_map]
      simp only [List.append_assoc]
      rfl
    · obtain ⟨c, rest, hc, solid, other⟩ := hfirst first (List.mem_cons_self ..)
      rw [items, skipSpace_append (lineBreak_blank spacing (level + 1)), hc, List.cons_append,
        skipSpace_cons solid]
      -- The first item does not start like the closing mark, so the list is not taken for empty.
      show (if c = close then _ else _) = _
      rw [if_neg other, ← List.cons_append, ← hc]
      refine itemsRest_texts (lineBreak_blank spacing level) hclose hspace hcomma
        (fun a ha more hm => hi a ha _ more (lineBreak_blank spacing (level + 1)) hm) ?_ more
      have long : others.length ≤ (others.flatMap fun a =>
          ',' :: ((spacing.lineBreak (level + 1)).toList ++ (text a).toList)).length :=
        length_le_length_flatMap (fun _ => Nat.le_add_left ..) others
      simp only [List.length_append]
      omega

/-! ## Values -/

/-- The number is read back from the way it is written. -/
def Rereads (x : Binary64) : Prop := number (numberText x).toList = some (.number (some x), [])

/-- A value as a tree is written: strings and keys denote something, and so does every number, which
is moreover a good one. -/
inductive Value.Plain (good : Binary64 → Prop) : Value → Prop
  | null : Plain good .null
  | bool (value : Bool) : Plain good (.bool value)
  | number {x : Binary64} (h : good x) : Plain good (.number (some x))
  | text (value : String) : Plain good (.text value)
  | array {items : List Value} (h : ∀ item ∈ items, Plain good item) : Plain good (.array items)
  | record {entries : List (String × Value)} (h : ∀ entry ∈ entries, Plain good entry.2) :
      Plain good (.record entries)

/-- A list is readable when each item is. -/
theorem Value.allReadable_iff {room : Nat} {items : List Value} :
    Value.allReadable room items = true ↔ ∀ item ∈ items, item.isReadable room = true := by
  induction items with
  | nil => exact iff_of_true rfl (List.forall_mem_nil _)
  | cons item rest ih => rw [Value.allReadable, Bool.and_eq_true, ih, List.forall_mem_cons]

/-- An array takes one level, and its items share what is left. -/
theorem Value.isReadable_array {room : Nat} {items : List Value} :
    (Value.array items).isReadable room = true ↔
      0 < room ∧ ∀ item ∈ items, item.isReadable (room - 1) = true := by
  rw [Value.isReadable, Bool.and_eq_true, decide_eq_true_eq, Value.allReadable_iff]

theorem Value.record_eq (entries : List (String × Value)) :
    Value.record entries = .object (entries.map fun held => (some held.1, held.2)) := rfl

/-- So does a record with its values. -/
theorem Value.isReadable_record {room : Nat} {entries : List (String × Value)} :
    (Value.record entries).isReadable room = true ↔
      0 < room ∧ ∀ entry ∈ entries, entry.2.isReadable (room - 1) = true := by
  have all : Value.entriesReadable (room - 1) (entries.map fun held => (some held.1, held.2))
      = true ↔ ∀ entry ∈ entries, entry.2.isReadable (room - 1) = true := by
    induction entries with
    | nil => exact iff_of_true rfl (List.forall_mem_nil _)
    | cons entry rest ih =>
      rw [List.map_cons, Value.entriesReadable, Value.entryReadable, Bool.and_eq_true,
        Bool.and_eq_true, ih, List.forall_mem_cons]
      exact and_congr_left fun _ => ⟨fun h => h.2, fun h => ⟨rfl, h⟩⟩
  rw [Value.record_eq, Value.isReadable, Bool.and_eq_true, decide_eq_true_eq, all]

/-- Items are written one by one. -/
theorem writeItems_eq (spacing : Spacing) (level : Nat) (items : List Value) :
    writeItems spacing level items = items.map (write spacing level) := by
  induction items with
  | nil => rfl
  | cons item rest ih => rw [writeItems, ih, List.map_cons]

/-- Entries are written one by one. -/
theorem writeEntries_eq (spacing : Spacing) (level : Nat) (entries : List (Option String × Value)) :
    writeEntries spacing level entries = entries.map (writeEntry spacing level) := by
  induction entries with
  | nil => rfl
  | cons entry rest ih => rw [writeEntries, ih, List.map_cons]

/-- A record is written as an object, one entry for each field. -/
theorem write_record (spacing : Spacing) (level : Nat) (entries : List (String × Value)) :
    write spacing level (.record entries) = bracketed spacing level "\x7b" "\x7d"
      (entries.map fun held => writeEntry spacing (level + 1) (some held.1, held.2)) := by
  rw [Value.record_eq, write, writeEntries_eq, List.map_map]
  rfl

/-- Whether a numeral can start with this character. -/
def opensNumeral (c : Char) : Bool := isDigit c || c == '-'

/-- Characters that a numeral can start with are not those that it can not. -/
theorem ne_of_opensNumeral {c other : Char} (h : opensNumeral c = true)
    (ho : opensNumeral other = false) : c ≠ other := by
  rintro rfl
  rw [h] at ho
  cases ho

/-- No numeral starts with white space. -/
theorem isSpace_of_opensNumeral {c : Char} (h : opensNumeral c = true) : isSpace c = false := by
  simp only [isSpace, Bool.or_eq_false_iff, beq_eq_false_iff_ne]
  refine ⟨⟨⟨?_, ?_⟩, ?_⟩, ?_⟩ <;> exact ne_of_opensNumeral h rfl

/-- What is read as a number starts like a numeral. -/
theorem opensNumeral_of_number {text : List Char} {found : Value × List Char}
    (h : number text = some found) : ∃ c rest, text = c :: rest ∧ opensNumeral c = true := by
  cases text with
  | nil => cases h
  | cons c rest =>
    refine ⟨c, rest, rfl, ?_⟩
    by_contra hc
    rw [opensNumeral, Bool.or_eq_true, beq_iff_eq, not_or] at hc
    have zero (rest' : List Char) : c :: rest ≠ '0' :: rest' := by
      intro h
      cases h
      exact hc.1 rfl
    have whole : wholePart (c :: rest) = none := by
      rw [wholePart_of_ne zero, List.takeWhile_cons_of_neg hc.1]
      rfl
    rw [number, natural, numeral_of_ne (fun _ h => hc.2 (List.cons.inj h).1), magnitude, whole] at h
    cases h

/-- Brackets come first, whatever stands in them. -/
theorem bracketed_head (spacing : Spacing) (level : Nat) (openMark closeMark : String)
    (items : List String) : ∃ rest,
      (bracketed spacing level openMark closeMark items).toList = openMark.toList ++ rest := by
  cases items with
  | nil => exact ⟨closeMark.toList, String.toList_append⟩
  | cons first others => exact ⟨_, toList_bracketed_cons ..⟩

/-- Nothing that is written starts with white space or with a closing bracket. -/
theorem write_head {v : Value} (h : v.Plain Rereads) (spacing : Spacing) (level : Nat) :
    ∃ c rest, (write spacing level v).toList = c :: rest ∧ isSpace c = false ∧ c ≠ ']' := by
  cases h with
  | null => exact ⟨'n', ['u', 'l', 'l'], by rw [write]; decide, rfl, by decide⟩
  | bool value =>
    cases value with
    | true => exact ⟨'t', ['r', 'u', 'e'], by rw [write]; decide, rfl, by decide⟩
    | false => exact ⟨'f', ['a', 'l', 's', 'e'], by rw [write]; decide, rfl, by decide⟩
  | number h =>
    obtain ⟨c, rest, htext, hc⟩ := opensNumeral_of_number h
    exact ⟨c, rest, htext, isSpace_of_opensNumeral hc, ne_of_opensNumeral hc rfl⟩
  | text value =>
    obtain ⟨body, hbody, _⟩ := stringBody_stringText value []
    rw [List.append_nil] at hbody
    exact ⟨'"', _, hbody, rfl, by decide⟩
  | array h =>
    obtain ⟨rest, hrest⟩ := bracketed_head spacing level "[" "]" _
    exact ⟨'[', rest, hrest, rfl, by decide⟩
  | record h =>
    obtain ⟨rest, hrest⟩ := bracketed_head spacing level "\x7b" "\x7d" _
    exact ⟨'\x7b', rest, hrest, rfl, by decide⟩

/-- White space before a value does not matter. -/
theorem value_blank {blank : List Char} (hb : blank.all isSpace = true) (nesting : Nat)
    (text : List Char) : value (nesting + 1) (blank ++ text) = value (nesting + 1) text := by
  rw [value, skipSpace_append hb, value]

/-- Where a numeral starts, a number is read. -/
theorem value_of_opensNumeral {c : Char} (h : opensNumeral c = true) (nesting : Nat)
    (rest : List Char) : value (nesting + 1) (c :: rest) = number (c :: rest) := by
  have other {first : Char} (ho : opensNumeral first = false) (text : List Char) :
      c :: rest ≠ first :: text := fun h' => ne_of_opensNumeral h ho (List.cons.inj h').1
  rw [value, skipSpace_cons (isSpace_of_opensNumeral h)]
  split
  · next h' => exact absurd h' (other rfl _)
  · next h' => exact absurd h' (other rfl _)
  · next h' => exact absurd h' (other rfl _)
  · next h' => exact absurd h' (other rfl _)
  · next h' => exact absurd h' (other rfl _)
  · next h' => exact absurd h' (other rfl _)
  · rfl

/-- The three words are values, whatever follows. -/
theorem value_word (nesting : Nat) (more : List Char) :
    value (nesting + 1) ("null".toList ++ more) = some (.null, more) ∧
      value (nesting + 1) ("true".toList ++ more) = some (.bool true, more) ∧
      value (nesting + 1) ("false".toList ++ more) = some (.bool false, more) := by
  have word_append (spelling : List Char) (meaning : Value) :
      word spelling meaning (spelling ++ more) = some (meaning, more) := by
    rw [word, if_pos (List.isPrefixOf_iff_prefix.mpr (List.prefix_append ..)), List.drop_left]
  exact ⟨word_append "null".toList .null, word_append "true".toList (.bool true),
    word_append "false".toList (.bool false)⟩

theorem value_array (nesting : Nat) (body : List Char) : value (nesting + 1) ("[".toList ++ body)
    = (items (value nesting) ']' body).map fun (values, rest) => (.array values, rest) := rfl

theorem value_object (nesting : Nat) (body : List Char) :
    value (nesting + 1) ("\x7b".toList ++ body) = (items (entry (value nesting)) '\x7d' body).map
      fun (entries, rest) => (.object entries, rest) := rfl

theorem value_string (nesting : Nat) (body : List Char) : value (nesting + 1) ('"' :: body)
    = (stringBody body).map fun (content, rest) => (.string content, rest) := rfl

/-- The text of an entry starts with the quote of its key. -/
theorem writeEntry_head (spacing : Spacing) (level : Nat) (key : String) (held : Value) :
    ∃ rest, (writeEntry spacing level (some key, held)).toList = '"' :: rest := by
  obtain ⟨body, hbody, _⟩ :=
    stringBody_stringText key (spacing.colon ++ write spacing level held).toList
  refine ⟨body, ?_⟩
  rw [← hbody, writeEntry, String.append_assoc, String.toList_append]
  rfl

/-- An entry is read when its value is. -/
theorem entry_writeEntry {spacing : Spacing} {level nesting : Nat} {key : String} {held : Value}
    {more : List Char}
    (h : ∀ blank, blank.all isSpace = true → value nesting (blank ++
      ((write spacing level held).toList ++ more)) = some (held, more))
    {blank : List Char} (hb : blank.all isSpace = true) :
    entry (value nesting) (blank ++ ((writeEntry spacing level (some key, held)).toList ++ more))
      = some ((some key, held), more) := by
  have colon : ∃ gap, spacing.colon.toList = ':' :: gap ∧ gap.all isSpace = true := by
    cases spacing with
    | tight => exact ⟨[], rfl, rfl⟩
    | indented => exact ⟨[' '], rfl, rfl⟩
  obtain ⟨gap, hcolon, hgap⟩ := colon
  obtain ⟨body, hbody, hkey⟩ := stringBody_stringText key
    (':' :: (gap ++ ((write spacing level held).toList ++ more)))
  have text : (writeEntry spacing level (some key, held)).toList ++ more = '"' :: body := by
    rw [← hbody, writeEntry, String.toList_append, String.toList_append, hcolon]
    simp only [List.append_assoc, List.cons_append]
    rfl
  rw [entry, text, skipSpace_append hb, skipSpace_cons rfl]
  simp only [Option.bind_eq_bind]
  rw [hkey]
  simp only [Option.bind_some]
  rw [skipSpace_cons rfl]
  simp only
  rw [h gap hgap]
  rfl

/-- **What is written is read back**, whatever stands behind it. -/
theorem value_write {v : Value} (h : v.Plain Rereads) (spacing : Spacing) (level : Nat) {room : Nat}
    (hr : v.isReadable room = true) {more : List Char} (hm : Stops goesOn more) :
    value (room + 1) ((write spacing level v).toList ++ more) = some (v, more) := by
  -- Whatever is inside is written further in, with less room, and before other text.
  induction h generalizing level room more with
  | null => exact (value_word room more).1
  | bool value =>
    cases value with
    | true => exact (value_word room more).2.1
    | false => exact (value_word room more).2.2
  | @number x h =>
    obtain ⟨c, rest, htext, hc⟩ := opensNumeral_of_number h
    have read : number ((numberText x).toList ++ more) = some (.number (some x), more) := by
      rw [number_local _ more hm, h]
      rfl
    rw [write, htext, List.cons_append, value_of_opensNumeral hc, ← List.cons_append, ← htext, read]
  | text value =>
    obtain ⟨body, hbody, hvalue⟩ := stringBody_stringText value more
    show Json.value _ ((stringText value).toList ++ more) = _
    rw [hbody, value_string, hvalue]
    rfl
  | @array values h ih =>
    -- An array takes one level of the room; its items share the rest.
    obtain ⟨hpos, hitems⟩ := Value.isReadable_array.mp hr
    obtain ⟨room, rfl⟩ := Nat.exists_eq_add_one_of_ne_zero (by omega : room ≠ 0)
    obtain ⟨body, hbody, hread⟩ := items_bracketed spacing level (Json.value (room + 1))
      (write spacing (level + 1)) "[" "]" ']' rfl rfl rfl (by decide)
      (fun v hv => write_head (h v hv) spacing (level + 1))
      (fun v hv blank more hb hm => by
        rw [value_blank hb]
        exact ih v hv (level + 1) (hitems v hv) hm) more
    rw [write, writeItems_eq, hbody, value_array, hread]
    rfl
  | @record entries h ih =>
    obtain ⟨hpos, hentries⟩ := Value.isReadable_record.mp hr
    obtain ⟨room, rfl⟩ := Nat.exists_eq_add_one_of_ne_zero (by omega : room ≠ 0)
    have heads : ∀ pair ∈ entries.map (fun held => (some held.1, held.2)), ∃ c rest,
        (writeEntry spacing (level + 1) pair).toList = c :: rest ∧ isSpace c = false ∧ c ≠ '\x7d' := by
      intro pair hpair
      obtain ⟨⟨key, held⟩, _, rfl⟩ := List.mem_map.mp hpair
      obtain ⟨rest, hrest⟩ := writeEntry_head spacing (level + 1) key held
      exact ⟨'"', rest, hrest, rfl, by decide⟩
    have reads : ∀ pair ∈ entries.map (fun held => (some held.1, held.2)), ∀ blank more,
        blank.all isSpace = true → Stops goesOn more → entry (Json.value (room + 1))
          (blank ++ ((writeEntry spacing (level + 1) pair).toList ++ more)) = some (pair, more) := by
      intro pair hpair blank more hb hm
      obtain ⟨⟨key, held⟩, hmem, rfl⟩ := List.mem_map.mp hpair
      refine entry_writeEntry (fun gap hgap => ?_) hb
      rw [value_blank hgap]
      exact ih (key, held) hmem (level + 1) (hentries (key, held) hmem) hm
    obtain ⟨body, hbody, hread⟩ := items_bracketed spacing level (entry (Json.value (room + 1)))
      (writeEntry spacing (level + 1)) "\x7b" "\x7d" '\x7d' rfl rfl rfl (by decide) heads reads more
    rw [Value.record_eq, write, writeEntries_eq, hbody, value_object, hread]
    rfl

/-- Brackets are never nothing. -/
theorem length_bracketed_pos (spacing : Spacing) (level : Nat) {openMark : String}
    (ho : 0 < openMark.toList.length) (closeMark : String) (texts : List String) :
    0 < (bracketed spacing level openMark closeMark texts).toList.length := by
  obtain ⟨rest, hrest⟩ := bracketed_head spacing level openMark closeMark texts
  rw [hrest, List.length_append]
  omega

/-- What stands in brackets is shorter than with them, which bounds the turns of the loop that reads
it. -/
theorem length_lt_bracketed (spacing : Spacing) (level : Nat) {openMark : String}
    (ho : 0 < openMark.toList.length) (closeMark : String) {text : String} {texts : List String}
    (h : text ∈ texts) : text.toList.length
      < (bracketed spacing level openMark closeMark texts).toList.length := by
  cases texts with
  | nil => cases h
  | cons first others =>
    rw [toList_bracketed_cons]
    simp only [List.length_append]
    rcases List.mem_cons.mp h with rfl | h
    · omega
    · obtain ⟨before, after, rfl⟩ := List.append_of_mem h
      simp only [List.flatMap_append, List.flatMap_cons, List.length_append, List.length_cons]
      omega

/-- A text is long enough for all its brackets. -/
theorem isReadable_of_length_le {v : Value} (h : v.Plain Rereads) (spacing : Spacing) (level : Nat)
    {room : Nat} (hr : (write spacing level v).toList.length ≤ room) : v.isReadable room = true := by
  induction h generalizing level room with
  | null => rfl
  | bool value => rfl
  | number h => rfl
  | text value => rfl
  | @array items h ih =>
    rw [write, writeItems_eq] at hr
    have pos := length_bracketed_pos spacing level (by decide : 0 < "[".toList.length) "]"
      (items.map (write spacing (level + 1)))
    refine Value.isReadable_array.mpr ⟨by omega, fun item hitem => ih item hitem (level + 1) ?_⟩
    have shorter := length_lt_bracketed spacing level (by decide : 0 < "[".toList.length) "]"
      (List.mem_map_of_mem (f := write spacing (level + 1)) hitem)
    omega
  | @record entries h ih =>
    rw [write_record] at hr
    have pos := length_bracketed_pos spacing level (by decide : 0 < "\x7b".toList.length) "\x7d"
      (entries.map fun held => writeEntry spacing (level + 1) (some held.1, held.2))
    refine Value.isReadable_record.mpr ⟨by omega, fun held hmem => ih held hmem (level + 1) ?_⟩
    have shorter := length_lt_bracketed spacing level (by decide : 0 < "\x7b".toList.length) "\x7d"
      (List.mem_map_of_mem (f := fun held => writeEntry spacing (level + 1) (some held.1, held.2)) hmem)
    have longer : (write spacing (level + 1) held.2).toList.length
        ≤ (writeEntry spacing (level + 1) (some held.1, held.2)).toList.length := by
      rw [writeEntry, String.toList_append, List.length_append]
      omega
    omega

/-- **JSON texts are read back.** -/
theorem read?_write {v : Value} (h : v.Plain Rereads) (spacing : Spacing) (level : Nat) :
    read? (write spacing level v) = some v := by
  have enough := isReadable_of_length_le h spacing level (Nat.le_refl _)
  have nothing : Stops goesOn [] := nofun
  have whole := value_write h spacing level enough nothing
  rw [List.append_nil] at whole
  rw [read?]
  simp only [Option.bind_eq_bind]
  rw [whole]
  rfl

end Json

end JsPrune
