import JsPrune.Filter.FeatureSet
import JsPrune.Proofs.Growth
import JsPrune.Proofs.RoundTrip
import Mathlib.Algebra.GroupWithZero.Nat

/-!
# What the parser's count of levels lets through

In `((x.b.b).b.b).b.b` every pair of parentheses is the head of a longer chain. The head is read
before the links of its chain are counted, and the count of its own links is given back when it is
complete. So the count never passes the length of one chain and the parentheses around it, while the
tree has a level for every link of all the chains: `parse_tower` and `depth_towerProgram`.

Hence trees of any number of levels up to `towerLevels` come out of the parser
(`exists_parse_of_depth`), although the traversals accept no more than `maxDepth`. What is true of
every text is `checkDepth_of_parse`: there is a bound, and the traversals refuse a parsed tree just
when it is deeper than they accept.
-/

namespace JsPrune

open ParseM Grammar

/-! ## Chains that stand by themselves -/

section Chain

variable {room : Prop} {inner : Level} {words rest : List Lexeme} {depth : Nat} {value : Node}

/-- A chain from its head and its links. -/
theorem reads_chain {head : Node} {middle : List Lexeme} {allowCall : Bool}
    (hhead : Reads room (chainHead inner) ⟨words, depth⟩ head ⟨middle, depth⟩)
    (hlinks : ∀ count, middle.length < count →
      Finishes room (extend (chainStep inner allowCall) count head) ⟨middle, depth⟩ value rest) :
    Reads room (chain inner allowCall) ⟨words, depth⟩ value ⟨rest, depth⟩ :=
  Finishes.chained (.after_reads hhead (.rounds_bind hlinks))

/-- A chain before a mark that closes its place is a whole assignment. -/
theorem reads_assignment_of_chain
    (h : Reads room (chain inner true) ⟨words, depth⟩ value ⟨rest, depth⟩)
    (hstart : prefixOperator? (nextKind words) = none)
    (hclose : closesExpression (nextKind rest) = true) (noIn : Bool) :
    Reads room (Grammar.assignment inner noIn) ⟨words, depth⟩ value ⟨rest, depth⟩ := by
  have ends := endsExpression_of_closes noIn hclose
  rw [endsExpression, endsAssignment, endsChoice, endsRow] at ends
  simp only [Bool.and_eq_true, Option.isNone_iff_eq_none, bne_iff_ne] at ends
  obtain ⟨⟨⟨⟨operand, row⟩, question⟩, assigning⟩, _⟩ := ends
  have stop : Reads room (climbStep (unary inner) noIn BinaryOp.or.precedence value)
      ⟨rest, depth⟩ none ⟨rest, depth⟩ := by
    refine climbStep_stop value fun operator hmem => ?_
    rw [row] at hmem
    cases hmem
  have climbed : Reads room (binary inner noIn) ⟨words, depth⟩ value ⟨rest, depth⟩ := by
    rw [binary, climb_eq]
    exact Finishes.chained (.after_reads (reads_unary h hstart operand)
      (.rounds_bind fun count _ => .extend_stop stop count))
  exact reads_assignment (reads_conditional climbed question) assigning

/-- So is it an expression, if there is a level for it. -/
theorem reads_expression_of_chain
    (h : Reads room (chain inner true) ⟨words, depth + 1⟩ value ⟨rest, depth + 1⟩)
    (hstart : prefixOperator? (nextKind words) = none)
    (hclose : closesExpression (nextKind rest) = true) (hroom : depth < maxTreeDepth) (noIn : Bool) :
    Reads room (Grammar.expression inner.around noIn) ⟨words, depth⟩ value ⟨rest, depth⟩ := by
  have ends := endsExpression_of_closes noIn hclose
  rw [endsExpression, Bool.and_eq_true, bne_iff_ne] at ends
  refine reads_expression (.nested (fun _ => hroom) ?_) ends.2
  exact reads_assignment_of_chain h hstart hclose noIn

end Chain

/-! ## Towers -/

/-- A node with some links on top. -/
def linked : Nat → Node → Node
  | 0, node => node
  | links + 1, node => linked links (.dot node "b")

/-- Chains in each other's heads, with these numbers of links, the outermost first. -/
def tower : List Nat → Node
  | [] => .identifier "x"
  | links :: counts => linked links (tower counts)

/-- The pieces of some links. -/
def linkPieces : Nat → List Piece
  | 0 => []
  | links + 1 => .text "." :: .text "b" :: linkPieces links

/-- The pieces of a tower, each head in parentheses. -/
def towerPieces : List Nat → List Piece
  | [] => [.text "x"]
  | links :: counts => Node.inParens (towerPieces counts) ++ linkPieces links

/-- The text of a tower. -/
def towerText (counts : List Nat) : String := Layout.compact.render (towerPieces counts)

/-- Every chain of a tower passes the count of levels by itself, and there are levels of grammar for
all the parentheses. -/
def Fits : Nat → Nat → List Nat → Prop
  | _, _, [] => True
  | 0, _, _ :: _ => False
  | levels + 1, depth, links :: counts =>
    depth < maxTreeDepth ∧ depth + links ≤ maxTreeDepth ∧ Fits levels (depth + 1) counts

theorem kindOf_x : kindOf "x" = .identifier "x" := kindOf_of_spells (by decide)

theorem kindOf_b : kindOf "b" = .identifier "b" := kindOf_of_spells (by decide)

section Reading

variable {levels depth : Nat} {counts : List Nat}

/-- The links are read one after the other, each one level deeper. -/
theorem finishes_links {inner : Level} (links : Nat) (owner : Node) {count : Nat} (rest : List Piece)
    (hroom : depth + links ≤ maxTreeDepth) (hends : endsChain true (upcoming rest) = true)
    (hcount : links ≤ count) :
    Finishes True (extend (chainStep inner true) count owner)
      ⟨lexemes false false (linkPieces links ++ rest), depth⟩ (linked links owner)
      (lexemes false false rest) := by
  induction links generalizing owner depth count with
  | zero =>
    refine .extend_stop (chainStep_stop owner ?_) count
    rw [linkPieces, List.nil_append, nextKind_lexemes]
    exact hends
  | succ links ih =>
    obtain ⟨fewer, rfl⟩ : ∃ fewer, count = fewer + 1 := ⟨count - 1, by omega⟩
    have others := ih (.dot owner "b") (by omega : depth + 1 + links ≤ maxTreeDepth)
      (by omega : links ≤ fewer)
    refine .extend_step ?_ others
    simp only [linkPieces, List.cons_append, lexemes_text]
    refine .sees (by simp) ((Reads.chainLink fun _ => by omega).bind (Reads.advance.bind ?_))
    refine .token_bind fun token hk => ?_
    rw [nextKind_cons, kindOf_b] at hk
    rw [hk]
    exact Reads.advance.bind (.pure _ _)

theorem prefixOperator?_tower (counts : List Nat) (rest : List Piece) :
    prefixOperator? (upcoming (towerPieces counts ++ rest)) = none := by
  cases counts with
  | nil => simp [towerPieces, kindOf_x, prefixOperator?]
  | cons links counts => simp [towerPieces, Node.inParens, prefixOperator?]

theorem textCount_linkPieces (links : Nat) : textCount (linkPieces links) = 2 * links := by
  induction links with
  | zero => rfl
  | succ links ih =>
    rw [linkPieces, textCount_text, textCount_text, ih]
    omega

/-- A tower that fits is read as one chain. -/
theorem reads_tower (h : Fits levels depth counts) (newline : Bool) (rest : List Piece)
    (hends : endsChain true (upcoming rest) = true) :
    Reads True (chain (.ofNat levels) true)
      ⟨lexemes false newline (towerPieces counts ++ rest), depth⟩ (tower counts)
      ⟨lexemes false false rest, depth⟩ := by
  induction counts generalizing levels depth newline rest with
  | nil =>
    rw [← nextKind_lexemes false false] at hends
    refine reads_chain ?_ fun count _ => .extend_stop (chainStep_stop _ hends) count
    simp only [towerPieces, List.singleton_append, lexemes_text]
    refine .missesWord (by simp [kindOf_x]) (primary_leaf ?_)
    rw [kindOf_x]
    rfl
  | cons links counts ih =>
    cases levels with
    | zero => cases h
    | succ levels =>
      obtain ⟨hdepth, hlinks, hinner⟩ := h
      have inside := ih hinner false (.text ")" :: (linkPieces links ++ rest)) (by simp [endsChain])
      have whole := reads_expression_of_chain inside
        (by rw [nextKind_lexemes]; exact prefixOperator?_tower counts _) (by simp [closesExpression])
        hdepth false
      simp only [towerPieces, Node.inParens, List.cons_append, List.append_assoc, List.nil_append,
        lexemes_text] at whole ⊢
      refine reads_chain (reads_parens (by simp) whole (by simp)) fun count hcount =>
        finishes_links links _ rest hlinks hends ?_
      rw [length_lexemes, textCount_append, textCount_linkPieces] at hcount
      omega

/-- The texts of a tower do not run into each other. -/
theorem closed_towerPieces (counts : List Nat) : Closed (towerPieces counts) := by
  have links : ∀ links {pieces : List Piece}, Closed pieces → Closed (pieces ++ linkPieces links) := by
    intro links
    induction links with
    | zero =>
      intro pieces h
      rw [linkPieces, List.append_nil]
      exact h
    | succ links ih =>
      intro pieces h
      have one := h.member (.inl (lexesAs_of_spells (by decide : spells (.identifier "b") _ = true)))
      have all := ih one
      rw [List.append_assoc] at all
      exact all
  induction counts with
  | nil => exact closed_name (lexesAs_of_spells (by decide))
  | cons links' counts ih =>
    exact links links' (Follows.inParens ih.runs.follows)

end Reading

/-- The program that is a tower. -/
def towerProgram (counts : List Nat) : Node := .toplevel [.simple (tower counts)]

/-- **A tower is parsed if each of its chains would be.** A program stands two levels deep before its
first chain. -/
theorem parse_tower {links : Nat} {counts : List Nat} (h : Fits 46 2 (links :: counts)) :
    parse (towerText (links :: counts)) = .ok (towerProgram (links :: counts)) := by
  obtain ⟨_, _, hflows⟩ := (closed_towerPieces (links :: counts)).runs.follows .free rfl
  have shows := shows_render .compact hflows
  have chain := reads_tower h false [] rfl
  have first : upcoming (towerPieces (links :: counts) ++ []) = .punctuator .parenOpen := by
    simp [towerPieces, Node.inParens]
  have value := reads_expression_of_chain chain
    (by rw [nextKind_lexemes]; exact prefixOperator?_tower _ _) rfl (by decide) false
  have statement : Reads True (Level.ofNat maxNesting).statement
      ⟨lexemes false false (towerPieces (links :: counts) ++ []), 0⟩ (.simple (tower (links :: counts)))
      ⟨[], 0⟩ := by
    refine .nested (fun _ => by decide) (reads_statement (isLabel_eq_false ?_) (.token_bind fun token hk => ?_))
    · intro name
      rw [nextKind_lexemes, first]
      intro h
      cases h
    · rw [nextKind_lexemes, first] at hk
      rw [hk]
      exact value.bind ((Reads.no_semicolon (.inr rfl)).bind (.pure _ _))
  have program : Reads True Parser.programM
      ⟨lexemes false false (towerPieces (links :: counts) ++ []), 0⟩ (towerProgram (links :: counts))
      ⟨[], 0⟩ := by
    refine .rounds_bind fun count hcount => (Rounds.many (.round (reads_statement? ?_ statement)
      (.stop reads_statement?_end)) ?_).bind (.pure _ _)
    · rw [nextKind_lexemes, first]
      rfl
    · exact Nat.one_le_of_lt hcount
  rw [List.append_nil] at program
  rcases program.run shows with parsed | ⟨refused, _⟩
  · exact parsed
  · exact absurd trivial refused

/-! ## How many levels a tower has -/

theorem Node.height_of_one {node child : Node} (h : node.children = [child]) :
    node.height = child.height + 1 := by
  rw [height_eq, h]
  show 1 + max child.height 0 = _
  omega

theorem height_linked (links : Nat) (node : Node) : (linked links node).height = node.height + links := by
  induction links generalizing node with
  | zero => rfl
  | succ links ih =>
    rw [linked, ih, (Node.height_of_one rfl : (Node.dot node "b").height = node.height + 1)]
    omega

theorem height_tower (counts : List Nat) : (tower counts).height = counts.sum + 1 := by
  induction counts with
  | nil =>
    rw [tower, Node.height_eq]
    rfl
  | cons links counts ih =>
    rw [tower, height_linked, ih, List.sum_cons]
    omega

/-- There is a level for every link of all the chains. -/
theorem depth_towerProgram (counts : List Nat) : (towerProgram counts).depth = counts.sum + 3 := by
  have outer : (towerProgram counts).height = (Node.simple (tower counts)).height + 1 :=
    Node.height_of_one rfl
  have inner : (Node.simple (tower counts)).height = (tower counts).height + 1 :=
    Node.height_of_one rfl
  rw [Node.depth_eq, outer, inner, height_tower]

/-- The most links that the chains of a tower can have together. -/
def capacity : Nat → Nat → Nat
  | 0, _ => 0
  | levels + 1, depth => (maxTreeDepth - depth) + capacity levels (depth + 1)

/-- Every number of links up to that can be had. -/
theorem exists_fits {levels depth n : Nat} (hlevels : levels + depth ≤ maxTreeDepth)
    (hn : n ≤ capacity levels depth) :
    ∃ counts, counts.length = levels ∧ Fits levels depth counts ∧ counts.sum = n := by
  induction levels generalizing depth n with
  | zero =>
    rw [capacity] at hn
    exact ⟨[], rfl, trivial, (Nat.le_zero.mp hn).symm⟩
  | succ levels ih =>
    rw [capacity] at hn
    -- The outermost chain takes as many links as it can.
    have rest : n - min n (maxTreeDepth - depth) ≤ capacity levels (depth + 1) := by omega
    obtain ⟨counts, hlength, hfits, hsum⟩ := ih (by omega) rest
    refine ⟨min n (maxTreeDepth - depth) :: counts, congrArg (· + 1) hlength, ⟨?_, ?_, hfits⟩, ?_⟩
    · omega
    · omega
    · rw [List.sum_cons, hsum]
      omega

/-- The most levels of a program that is a tower. -/
def towerLevels : Nat := capacity 46 2 + 3

/-- **Trees of every number of levels up to `towerLevels` come out of the parser.** -/
theorem exists_parse_of_depth {n : Nat} (hlow : 3 ≤ n) (hhigh : n ≤ towerLevels) :
    ∃ source tree, parse source = .ok tree ∧ tree.depth = n := by
  rw [towerLevels] at hhigh
  obtain ⟨counts, hlength, hfits, hsum⟩ :=
    exists_fits (by decide : 46 + 2 ≤ maxTreeDepth) (by omega : n - 3 ≤ capacity 46 2)
  cases counts with
  | nil => cases hlength
  | cons links counts =>
    refine ⟨_, _, parse_tower hfits, ?_⟩
    rw [depth_towerProgram, hsum]
    omega

/-! ## What the traversals make of it -/

namespace Filter

variable {σ : Type}

/-- Applies filters to the tree of a program text. -/
def transformText (levels : Nat) (filters : List (Filter σ)) (source : String) : Walk σ Node := do
  transform levels filters (← Walk.ofExcept (parse source))

/-- The traversal refuses the tree of a text for its depth, before any filter has seen it: nothing is
on the trail but that a traversal was to start. -/
def RefusesDepth (levels : Nat) (filters : List (Filter σ)) (source : String) (tree : Node) : Prop :=
  ∀ trail, (transformText levels filters source).run.run trail
    = (.error (Node.tooDeep tree.kind tree.depth),
      { trail with events := trail.events.push (.transforming filters.length tree.kind) })

theorem transformText_eq {source : String} {tree : Node} (h : parse source = .ok tree) (levels : Nat)
    (filters : List (Filter σ)) (trail : Trail σ) :
    (transformText levels filters source).run.run trail = (transform levels filters tree).run.run trail := by
  rw [transformText, h]
  rfl

theorem refusesDepth_of_lt {source : String} {tree : Node} (h : parse source = .ok tree)
    (hdeep : maxDepth < tree.depth) (levels : Nat) {filters : List (Filter σ)} (hne : filters ≠ []) :
    RefusesDepth levels filters source tree := by
  intro trail
  have refused := Node.checkDepth_eq_error_iff.mpr hdeep
  cases filters with
  | nil => exact absurd rfl hne
  | cons filter later =>
    rw [transformText_eq h, transform, if_neg nofun, walk, refused]
    rfl

/-- A filter that settles every node as it is. -/
def asIs : Filter Unit := ⟨"as-is", fun _ node => pure (.settle (.ok (.node node)))⟩

theorem not_refusesDepth_of_le {source : String} {tree : Node} (h : parse source = .ok tree)
    (hle : tree.depth ≤ maxDepth) : ¬ RefusesDepth maxDepth [asIs] source tree := by
  intro refuses
  have run := refuses (.start ())
  rw [transformText_eq h, transform, if_neg nofun, walk, Node.checkDepth_eq_ok_iff.mpr hle] at run
  cases run

end Filter

/-- **What the parser's count of levels is worth.** A parsed tree has at most `parsedLevels` levels.
The passes accept it just when it has at most `maxDepth`; otherwise its text is refused, whatever the
filters, before one of them sees it. -/
theorem checkDepth_of_parse (source : String) (tree : Node)
    (h : parse source = .ok tree ∨ parseExpression source = .ok tree) :
    tree.depth ≤ parsedLevels ∧ (tree.checkDepth = .ok () ↔ tree.depth ≤ maxDepth) ∧
    (parse source = .ok tree →
      ((∀ (σ : Type) (levels : Nat) (filters : List (Filter σ)), filters ≠ [] →
        Filter.RefusesDepth levels filters source tree) ↔ maxDepth < tree.depth)) := by
  refine ⟨depth_le_of_parse h, Node.checkDepth_eq_ok_iff, fun hparse => ⟨fun refuses => ?_, ?_⟩⟩
  · by_contra hle
    exact Filter.not_refusesDepth_of_le hparse (Nat.not_lt.mp hle)
      (refuses Unit maxDepth [Filter.asIs] (List.cons_ne_nil _ _))
  · intro hdeep σ levels filters hne
    exact Filter.refusesDepth_of_lt hparse hdeep levels hne

/-- Two chains of two hundred links are still accepted. -/
theorem checkDepth_two_chains : parse (towerText [200, 200]) = .ok (towerProgram [200, 200]) ∧
    (towerProgram [200, 200]).checkDepth = .ok () := by
  have parsed : parse (towerText [200, 200]) = .ok (towerProgram [200, 200]) :=
    parse_tower ⟨by decide, by decide, by decide, by decide, trivial⟩
  refine ⟨parsed, (checkDepth_of_parse _ _ (.inl parsed)).2.1.mpr ?_⟩
  rw [depth_towerProgram]
  decide

/-- Three chains of two hundred links each make a tree that is parsed and can not be walked. -/
theorem parse_tower_tooDeep :
    parse (towerText [200, 200, 200]) = .ok (towerProgram [200, 200, 200]) ∧
    (towerProgram [200, 200, 200]).depth = 603 ∧
    (towerProgram [200, 200, 200]).checkDepth = .error (Node.tooDeep .toplevel 603) ∧
    Filter.RefusesDepth maxDepth [(FeatureSet.empty.filter : Filter Unit)]
      (towerText [200, 200, 200]) (towerProgram [200, 200, 200]) := by
  have parsed : parse (towerText [200, 200, 200]) = .ok (towerProgram [200, 200, 200]) :=
    parse_tower ⟨by decide, by decide, by decide, by decide, by decide, by decide, trivial⟩
  have levels : (towerProgram [200, 200, 200]).depth = 603 := depth_towerProgram _
  have deep : maxDepth < (towerProgram [200, 200, 200]).depth := by
    rw [levels]
    decide
  refine ⟨parsed, levels, ?_, Filter.refusesDepth_of_lt parsed deep maxDepth (List.cons_ne_nil _ _)⟩
  rw [Node.checkDepth, if_pos deep, levels]
  rfl

end JsPrune
