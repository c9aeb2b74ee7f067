import JsPrune.Proofs.RoundTrip
import Mathlib.Data.List.Induction

/-!
# Rows of names, grouped by climbing

A row is a name, and then again and again an operator and a name. A tree of operations belongs to a
row if it reads like the row from left to right (`InOrder`) and every operation is grouped as the
precedences say (`Grouped`): what it holds on the left binds at least as tightly, what it holds on
the right binds tighter.

Trees grow at the right end, as rows do. `attach` is the one way to add an operator and a name to a
grouped tree: a grouped tree of the longer row is `attach` of a grouped tree of the shorter one
(`InOrder.detach`). So each row has one grouped tree, and no other.

The grammar knows nothing of `attach`. It climbs, and the proof that it arrives at the same tree
follows the tree: the loop that starts at a row goes on behind it with the tree of the row as its
value so far (`finishes_row`).

Main result: `parseExpression_row`.
-/

namespace JsPrune

open ParseM Grammar Text

namespace Node

/-! ## Trees of a row -/

/-- The tree is made of operations and names, and reads from left to right like the name `first` and
then each operator and name of `links`. -/
inductive InOrder : Node → String → List (BinaryOp × String) → Prop
  | name (name : String) : InOrder (identifier name) name []
  | operation {left right : Node} {first next : String} {before behind : List (BinaryOp × String)}
      (operator : BinaryOp) (hleft : InOrder left first before) (hright : InOrder right next behind) :
      InOrder (binary .combine left operator right) first (before ++ (operator, next) :: behind)

/-- The operator of an operation. -/
def operator? : Node → Option BinaryOp
  | binary .combine _ operator _ => some operator
  | _ => none

/-- Every operation holds operations that bind at least as tightly on its left, and only tighter ones
on its right. -/
inductive Grouped : Node → Prop
  | name (name : String) : Grouped (identifier name)
  | operation {left right : Node} {operator : BinaryOp} (hleft : left.Grouped)
      (hright : right.Grouped)
      (loose : ∀ inner ∈ left.operator?, operator.precedence ≤ inner.precedence)
      (tight : ∀ inner ∈ right.operator?, operator.precedence < inner.precedence) :
      Grouped (binary .combine left operator right)

/-- One more operator and name at the right end. The operator takes everything that binds at least as
tightly for its left operand. -/
def attach (operator : BinaryOp) (name : String) : Node → Node
  | binary .combine left outer right =>
    if operator.precedence ≤ outer.precedence then
      binary .combine (binary .combine left outer right) operator (identifier name)
    else binary .combine left outer (attach operator name right)
  | operand => binary .combine operand operator (identifier name)

section Attach

variable {tree other : Node} {first name : String} {links : List (BinaryOp × String)}
variable {operator : BinaryOp}

theorem InOrder.eq_name (h : tree.InOrder first []) : tree = identifier first := by
  generalize hnone : ([] : List (BinaryOp × String)) = none at h
  cases h with
  | name => rfl
  | operation => exact absurd hnone.symm (List.append_ne_nil_of_right_ne_nil _ (List.cons_ne_nil _ _))

/-- The operator of the tree is one of the row. -/
theorem InOrder.mem_links (h : tree.InOrder first links) (ho : operator ∈ tree.operator?) :
    ∃ link ∈ links, link.1 = operator := by
  cases h with
  | name => cases ho
  | operation outer _ _ =>
    cases ho
    exact ⟨_, List.mem_append_right _ (List.mem_cons_self ..), rfl⟩

theorem InOrder.attached (h : tree.InOrder first links) (operator : BinaryOp) (name : String) :
    (tree.attach operator name).InOrder first (links ++ [(operator, name)]) := by
  induction h with
  | name first => exact .operation operator (.name first) (.name name)
  | @operation left right first next before behind outer hleft hright _ ih =>
    rw [attach]
    split
    · exact .operation operator (.operation outer hleft hright) (.name name)
    · rw [List.append_assoc, List.cons_append]
      exact .operation outer hleft ih

/-- The outermost operation is the old one or the new one, whichever binds less tightly. -/
theorem operator?_attach (h : tree.InOrder first links) (operator : BinaryOp) (name : String) :
    ∃ top, (tree.attach operator name).operator? = some top ∧
      top.precedence ≤ operator.precedence ∧
      (∀ inner ∈ tree.operator?, top.precedence ≤ inner.precedence) ∧
      (top = operator ∨ top ∈ tree.operator?) := by
  cases h with
  | name => exact ⟨operator, rfl, Nat.le_refl _, nofun, .inl rfl⟩
  | operation outer _ _ =>
    rw [attach]
    split
    · next hle => exact ⟨operator, rfl, Nat.le_refl _, by rintro _ ⟨⟩; exact hle, .inl rfl⟩
    · next hlt => exact ⟨outer, rfl, by omega, by rintro _ ⟨⟩; exact Nat.le_refl _, .inr rfl⟩

theorem Grouped.attached (h : tree.Grouped) (hrow : tree.InOrder first links) (operator : BinaryOp)
    (name : String) : (tree.attach operator name).Grouped := by
  induction hrow with
  | name first => exact .operation (.name first) (.name name) nofun nofun
  | @operation left right first next before behind outer _ hright _ ih =>
    cases h with
    | operation gleft gright loose tight =>
      rw [attach]
      split
      · next hle =>
        refine .operation (.operation gleft gright loose tight) (.name name) ?_ nofun
        rintro _ ⟨⟩
        exact hle
      · next hlt =>
        refine .operation gleft (ih gright) loose fun inner hinner => ?_
        obtain ⟨top, htop, _, _, hnew | hold⟩ := operator?_attach hright operator name
        · cases htop.symm.trans hinner
          rw [hnew]
          omega
        · cases htop.symm.trans hinner
          exact tight _ hold

/-- **A grouped tree of a longer row comes from one of the shorter row.** -/
theorem InOrder.detach (hrow : tree.InOrder first (links ++ [(operator, name)])) (h : tree.Grouped) :
    ∃ shorter : Node, shorter.InOrder first links ∧ shorter.Grouped ∧
      tree = shorter.attach operator name := by
  generalize hlinks : links ++ [(operator, name)] = whole at hrow
  induction hrow generalizing links with
  | name => exact absurd hlinks (List.append_ne_nil_of_right_ne_nil _ (List.cons_ne_nil _ _))
  | @operation left right first next before behind outer hleft hright _ ih =>
    cases h with
    | operation gleft gright loose tight =>
      -- The last link is the operation itself, or the last link on its right.
      rcases List.eq_nil_or_concat behind with rfl | ⟨fewer, ⟨last, lastName⟩, rfl⟩
      · obtain ⟨rfl, ⟨⟩⟩ := List.append_inj' hlinks rfl
        refine ⟨left, hleft, gleft, ?_⟩
        rw [hright.eq_name]
        cases hleft with
        | name => rfl
        | operation inner _ _ => rw [attach, if_pos (loose inner rfl)]
      · rw [List.concat_eq_append, ← List.cons_append, ← List.append_assoc] at hlinks
        obtain ⟨rfl, ⟨⟩⟩ := List.append_inj' hlinks rfl
        obtain ⟨shorter, hshorter, gshorter, rfl⟩ := ih gright (List.concat_eq_append ..).symm
        obtain ⟨top, htop, hle, hinner, _⟩ := operator?_attach hshorter operator name
        have above := tight top htop
        refine ⟨binary .combine left outer shorter, .operation outer hleft hshorter,
          .operation gleft gshorter loose fun inner hin => ?_, ?_⟩
        · exact Nat.lt_of_lt_of_le above (hinner inner hin)
        · rw [attach, if_neg (by omega)]

/-- Each row has a grouped tree. -/
theorem exists_grouped (first : String) (links : List (BinaryOp × String)) :
    ∃ tree : Node, tree.InOrder first links ∧ tree.Grouped := by
  induction links using List.reverseRecOn with
  | nil => exact ⟨identifier first, .name first, .name first⟩
  | append_singleton links link ih =>
    obtain ⟨tree, hrow, h⟩ := ih
    exact ⟨tree.attach link.1 link.2, hrow.attached _ _, h.attached hrow _ _⟩

/-- No row has two grouped trees. -/
theorem Grouped.eq (h : tree.Grouped) (hrow : tree.InOrder first links) (ho : other.Grouped)
    (horow : other.InOrder first links) : tree = other := by
  induction links using List.reverseRecOn generalizing tree other with
  | nil => rw [hrow.eq_name, horow.eq_name]
  | append_singleton links link ih =>
    obtain ⟨shorter, hshorter, gshorter, rfl⟩ := hrow.detach h
    obtain ⟨short, hshort, gshort, rfl⟩ := horow.detach ho
    rw [ih gshorter hshorter gshort hshort]

end Attach

end Node

/-! ## What a parser sees of a row -/

/-- A row as it is written, with a space between any two texts. -/
def rowText (first : String) : List (BinaryOp × String) → String
  | [] => first
  | (operator, next) :: links => first ++ " " ++ operator.symbol ++ " " ++ rowText next links

/-- The lexemes of a row. -/
def rowWords (first : String) : List (BinaryOp × String) → List Lexeme
  | [] => [⟨.identifier first, false, first.toList⟩]
  | (operator, next) :: links =>
    ⟨.identifier first, false, first.toList⟩ ::
      ⟨operator.tokenKind, false, operator.symbol.toList⟩ :: rowWords next links

theorem rowWords_append (first next : String) (operator : BinaryOp)
    (before behind : List (BinaryOp × String)) :
    rowWords first (before ++ (operator, next) :: behind)
      = rowWords first before ++
        ⟨operator.tokenKind, false, operator.symbol.toList⟩ :: rowWords next behind := by
  induction before generalizing first with
  | nil => rfl
  | cons link before ih => rw [List.cons_append, rowWords, ih, rowWords]; rfl

/-- A lexeme with a space behind it. -/
theorem Splits.spaced {kind : Token.Kind} {text rest : List Char} {words : List Lexeme}
    (hs : spells kind text = true) (hr : Splits false rest words) :
    Splits false (text ++ ' ' :: rest) (⟨kind, false, text⟩ :: words) := by
  have behind : Splits false ([' '] ++ rest) words := .blank_append rfl hr
  refine .lexeme (List.all_nil (f := isBlank)) hs ?_ behind
  rintro _ ⟨⟩
  exact (endsBefore_blank (content_of_spells hs)).1

theorem splits_row {first : String} {links : List (BinaryOp × String)}
    (hfirst : Node.IsNameToken first) (hlinks : ∀ link ∈ links, Node.IsNameToken link.2) :
    Splits false (rowText first links).toList (rowWords first links) := by
  induction links generalizing first with
  | nil =>
    have only : Splits false ([] ++ (first.toList ++ [])) [⟨.identifier first, false, first.toList⟩] :=
      .lexeme rfl (spells_of_lexesAs hfirst rfl) nofun (.finish rfl)
    rwa [List.nil_append, List.append_nil] at only
  | cons link links ih =>
    obtain ⟨operator, next⟩ := link
    obtain ⟨hnext, hrest⟩ := List.forall_mem_cons.mp hlinks
    have row := ((ih hnext hrest).spaced (spells_operator operator)).spaced
      (spells_of_lexesAs hfirst rfl)
    simpa [rowText, rowWords] using row

/-! ## Climbing along a row -/

section Climb

variable {room : Prop} {tree : Node} {first : String} {links : List (BinaryOp × String)}
variable {inner : Level} {depth least : Nat} {words after : List Lexeme} {last : Node}

/-- A name is an operand. -/
theorem reads_name (name : String) {newline : Bool} {spelling : List Char}
    (hends : endsOperand (nextKind words) = true) :
    Reads room (unary inner) ⟨⟨.identifier name, newline, spelling⟩ :: words, depth⟩
      (.identifier name) ⟨words, depth⟩ := by
  have chain : Reads room (Grammar.chain inner true)
      ⟨⟨.identifier name, newline, spelling⟩ :: words, depth⟩ (.identifier name) ⟨words, depth⟩ := by
    refine Finishes.chained (.after_reads (.missesWord nofun (primary_leaf rfl)) (.rounds_bind ?_))
    exact fun count _ => .extend_stop (chainStep_stop _ (endsOperand_iff.mp hends).1) count
  exact reads_unary chain rfl hends

/-- **The loop of a row goes on behind it with its tree.** There is room if every operator of the row
could be a link of one chain. -/
theorem finishes_row (hrow : tree.InOrder first links) (h : tree.Grouped)
    (hlinks : ∀ link ∈ links, link.1.isAssignment = false)
    (hroom : room → depth + links.length ≤ maxTreeDepth)
    (hleast : ∀ top ∈ tree.operator?, least ≤ top.precedence)
    (hends : endsOperand (nextKind words) = true)
    (hstop : ∀ next ∈ combining? false (nextKind words), ∀ top ∈ tree.operator?,
      next.precedence ≤ top.precedence)
    (hloop : ∀ j ≤ links.length, ∀ count, words.length < count →
      Finishes room (extend (climbStep (unary inner) false least) count tree) ⟨words, depth + j⟩
        last after) :
    Finishes room (do
        let first ← unary inner
        extend (climbStep (unary inner) false least) (← rounds) first)
      ⟨rowWords first links ++ words, depth⟩ last after := by
  -- The induction is on the tree; what is left of the row is read by the loop that the tree is in.
  induction hrow generalizing depth least words last after with
  | name name =>
    refine .after_reads (reads_name name hends) (.rounds_bind fun count hcount => ?_)
    exact hloop 0 (Nat.le_refl 0) count hcount
  | @operation left right first next before behind operator hleft hright ihleft ihright =>
    cases h with
    | operation gleft gright loose tight =>
      obtain ⟨hbefore, hbehind⟩ := List.forall_mem_append.mp hlinks
      obtain ⟨hoperator, hbehind⟩ := List.forall_mem_cons.mp hbehind
      have combining : combining? false operator.tokenKind = some operator :=
        combining?_tokenKind hoperator nofun
      rw [List.length_append, List.length_cons] at hroom hloop
      -- The right operand starts a loop of its own, which no operator behind it gets into.
      have operand (j : Nat) (hj : j ≤ before.length) :
          Reads room (climb (unary inner) false (operator.precedence + 1))
            ⟨rowWords next behind ++ words, depth + j + 1⟩ right ⟨words, depth + j + 1⟩ := by
        rw [climb_eq]
        refine Finishes.chained (ihright gright hbehind (fun hr => ?_) tight hends ?_ ?_)
        · have := hroom hr
          omega
        · intro later hlater top htop
          have := hstop later hlater operator rfl
          have := tight top htop
          omega
        · intro _ _ count _
          refine .extend_stop (climbStep_stop right fun later hlater => ?_) count
          exact Nat.lt_succ_of_le (hstop later hlater operator rfl)
      rw [rowWords_append, List.append_assoc, List.cons_append]
      refine ihleft gleft hbefore (fun hr => ?_) (fun top htop => ?_) (endsOperand_tokenKind operator)
        ?_ ?_
      · have := hroom hr
        omega
      · exact Nat.le_trans (hleast operator rfl) (loose top htop)
      · intro own hown
        cases combining.symm.trans hown
        exact loose
      · intro j hj count hcount
        obtain ⟨fewer, rfl⟩ : ∃ fewer, count = fewer + 1 := ⟨count - 1, by omega⟩
        rw [List.length_cons, List.length_append] at hcount
        refine .extend_step (.climbStep hoperator nofun (hleast operator rfl) (fun hr => ?_)
          (operand j hj)) (hloop (j + 1) (by omega) fewer (by omega))
        have := hroom hr
        omega

/-- A row that takes up the whole text is an expression. There is room if its operators are fewer than
the levels that a tree may have. -/
theorem reads_row (hrow : tree.InOrder first links) (h : tree.Grouped)
    (hlinks : ∀ link ∈ links, link.1.isAssignment = false) :
    Reads (links.length < maxTreeDepth) Parser.expressionM ⟨rowWords first links, 0⟩ tree ⟨[], 0⟩ := by
  have least : ∀ top ∈ tree.operator?, BinaryOp.or.precedence ≤ top.precedence := by
    intro top htop
    obtain ⟨link, hmem, rfl⟩ := hrow.mem_links htop
    exact (BinaryOp.precedence_bounds (hlinks link hmem)).1
  have climbed (inner : Level) : Reads (links.length < maxTreeDepth) (binary inner false)
      ⟨rowWords first links, 1⟩ tree ⟨[], 1⟩ := by
    have stop : ∀ operator ∈ combining? false (nextKind []),
        operator.precedence < BinaryOp.or.precedence := nofun
    rw [binary, climb_eq, ← List.append_nil (rowWords first links)]
    exact Finishes.chained (finishes_row hrow h hlinks (fun hr => by omega) least rfl nofun
      fun _ _ count _ => .extend_stop (climbStep_stop tree stop) count)
  have assigned (inner : Level) : Reads (links.length < maxTreeDepth) (Grammar.assignment inner false)
      ⟨rowWords first links, 1⟩ tree ⟨[], 1⟩ :=
    reads_assignment (reads_conditional (climbed inner) nofun) rfl
  have levels : Level.ofNat maxNesting = (Level.ofNat (maxNesting - 1)).around := rfl
  have whole : Reads (links.length < maxTreeDepth) (Grammar.expression (.ofNat maxNesting) false)
      ⟨rowWords first links, 0⟩ tree ⟨[], 0⟩ := by
    refine reads_expression ?_ nofun
    rw [levels]
    exact .nested (fun _ => by decide) (assigned _)
  refine whole.bind (.get_bind fun parser hs => ?_)
  rw [atEnd?_of_shows hs]
  exact .pure _ _

end Climb

/-- **Climbing finds the one grouped tree of a row.** The text of a row is parsed as the tree that
reads like the row and groups every operation as the precedences say; there is no other such tree.
Only a row of at least as many operators as a tree may have levels can be refused, for its nesting. -/
theorem parseExpression_row {first : String} {links : List (BinaryOp × String)}
    (hfirst : Node.IsNameToken first)
    (hlinks : ∀ link ∈ links, link.1.isAssignment = false ∧ Node.IsNameToken link.2) :
    ∃ tree : Node, (∀ other : Node, other.InOrder first links ∧ other.Grouped ↔ other = tree) ∧
      (parseExpression (rowText first links) = .ok tree ∨
        (maxTreeDepth ≤ links.length ∧ IsNestingError (parseExpression (rowText first links)))) := by
  obtain ⟨tree, hrow, h⟩ := Node.exists_grouped first links
  refine ⟨tree, fun other => ⟨fun ⟨horow, ho⟩ => ho.eq horow h hrow, ?_⟩, ?_⟩
  · rintro rfl
    exact ⟨hrow, h⟩
  · have shows := shows_ofSource (splits_row hfirst fun link hmem => (hlinks link hmem).2)
    have reads := reads_row hrow h fun link hmem => (hlinks link hmem).1
    exact (reads.run shows).imp_right fun ⟨hroom, refused⟩ => ⟨Nat.not_lt.mp hroom, refused⟩

/-- Subtraction goes on from the left, multiplication binds tighter and membership less tightly. -/
theorem parseExpression_row_membership : parseExpression "a - b * c - d in e"
    = .ok (.binary .combine
        (.binary .combine
          (.binary .combine (.identifier "a") .sub
            (.binary .combine (.identifier "b") .mul (.identifier "c")))
          .sub (.identifier "d"))
        .in_ (.identifier "e")) := by
  have name : ∀ {name : String}, spells (.identifier name) name.toList = true →
      Node.IsNameToken name := lexesAs_of_spells
  obtain ⟨tree, hgrouped, hparse⟩ :=
    @parseExpression_row "a" [(.sub, "b"), (.mul, "c"), (.sub, "d"), (.in_, "e")] (name (by decide))
      (List.forall_mem_cons.mpr ⟨⟨rfl, name (by decide)⟩, List.forall_mem_cons.mpr
        ⟨⟨rfl, name (by decide)⟩, List.forall_mem_cons.mpr ⟨⟨rfl, name (by decide)⟩,
          List.forall_mem_singleton.mpr ⟨rfl, name (by decide)⟩⟩⟩⟩)
  have same := (hgrouped _).mp ⟨
    .operation .in_ (.operation .sub
      (.operation .sub (.name "a") (.operation .mul (.name "b") (.name "c"))) (.name "d")) (.name "e"),
    .operation (.operation
      (.operation (.name _) (.operation (.name _) (.name _) nofun nofun) nofun (by rintro _ ⟨⟩; decide))
      (.name _) (by rintro _ ⟨⟩; decide) nofun) (.name _) (by rintro _ ⟨⟩; decide) nofun⟩
  rcases hparse with parsed | ⟨deep, _⟩
  · rw [same]
    exact parsed
  · exact absurd deep (by decide)

end JsPrune
