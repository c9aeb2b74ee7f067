import JsPrune.Proofs.Parsed
import JsPrune.Proofs.Pruning
import JsPrune.Proofs.RoundTrip
import JsPrune.Proofs.Sweeping

/-!
# The stock passes stay inside the grammar

Pruning puts a branch in the place of the conditional around it. The branch is a child, or the lone
semicolon in the place of an absent one, so it brings nothing into the tree that was not there. Only
the `else` needs an argument: where a body that is not open stands before an `else`, what pruning
leaves of it is not open either (`endsWithOpenIf_pruned`), because an `if` whose live branch is open
was open itself or kept an `else` from it.

Minifying keeps the tree grammatical as well, but it may take away an empty `else` and leave the `if`
open.

Main result: `stock_passes_grammatical`. What is parsed is grammatical with every `else` bound; on
such a tree pruning succeeds with another such tree, and minifying with a grammatical one.
-/

namespace JsPrune

namespace Node

theorem elseBound_empty : Node.empty.ElseBound := throughout_iff.mpr ⟨trivial, nofun⟩

theorem eq_ifElse_of_kind {node : Node} (h : node.kind = .if_) :
    ∃ test yes no, node = ifElse test yes no := by
  fun_cases Node.kind node <;> first
    | exact ⟨_, _, _, rfl⟩
    | cases h

theorem keepsElse_of_kind {node : Node} (h : node.kind ≠ .if_) : node.KeepsElse := by
  cases node with
  | ifElse test yes no => exact absurd rfl h
  | _ => trivial

/-- An `else` is kept if no body before one is opened. -/
theorem keepsElse_mapChildren {f : Node → Node} {node : Node} (h : node.KeepsElse)
    (hf : ∀ child ∈ node.children, child.endsWithOpenIf = false →
      (f child).endsWithOpenIf = false) : (node.mapChildren f).KeepsElse := by
  by_cases hkind : node.kind = .if_
  · obtain ⟨test, yes, no?, rfl⟩ := eq_ifElse_of_kind hkind
    cases no? with
    | none => trivial
    | some no => exact hf yes Holds.ifElse_yes.mem_children h
  · apply keepsElse_of_kind
    rw [kind_mapChildren]
    exact hkind

/-- Expressions do not end in an `if`. -/
theorem endsWithOpenIf_of_isExpression {node : Node} (h : node.kind.isExpression = true) :
    node.endsWithOpenIf = false := by
  cases node with
  | ifElse test yes no => cases h
  | loop tag test repeated => cases tag <;> cases h
  | forLoop init test step repeated => cases h
  | forIn init subject repeated => cases h
  | labeled label statement => cases h
  | _ => rfl

/-- Whether a statement is open is decided at its end, by one child or by none. -/
theorem endsWithOpenIf_mapChildren {f : Node → Node} {node : Node}
    (h : node.endsWithOpenIf = false)
    (hf : ∀ child ∈ node.children, child.endsWithOpenIf = false →
      (f child).endsWithOpenIf = false) : (node.mapChildren f).endsWithOpenIf = false := by
  cases node with
  | ifElse test yes no? =>
    cases no? with
    | none => cases h
    | some no => exact hf no (Holds.ifElse_no rfl).mem_children h
  | loop tag test repeated =>
    cases tag with
    | while_ => exact hf repeated (Holds.loop_body .while_).mem_children h
    | do_ => rfl
  | forLoop init test step repeated => exact hf repeated Holds.forLoop_body.mem_children h
  | forIn init subject repeated => exact hf repeated Holds.forIn_body.mem_children h
  | labeled label statement => exact hf statement Holds.labeled.mem_children h
  | body tag statements => cases tag <;> rfl
  | declaration tag definitions => cases tag <;> rfl
  | exit tag value => cases tag <;> rfl
  | jump tag label => cases tag <;> rfl
  | lambda tag name parameters statements => cases tag <;> rfl
  | call tag callee arguments => cases tag <;> rfl
  | unary tag operator operand => cases tag <;> rfl
  | binary tag left operator right => cases tag <;> rfl
  | _ => rfl

end Node

/-! ## Pruning -/

namespace DeadBranch

variable {known : Predicate} {node branch : Node}

/-- What holds of every node of a tree holds of every node of what settling leaves. -/
theorem throughout_settle {good : Node → Prop} (hempty : Node.empty.Throughout good)
    (h : node.Throughout good) : (settle known node).Throughout good := by
  refine settle_induction (fun node branch h hl => ?_) node h
  rcases live?_mem_or_empty hl with hmem | rfl
  · exact (Node.throughout_iff.mp h).2 branch hmem
  · exact hempty

/-- Pruning does to a child what its parent relies on. -/
theorem faithful_pruned (known : Predicate) {child : Node} (h : child.Conforms) :
    Node.Faithful (fun node => .node (pruned known node)) child where
  takes slot haccepts := by
    show slot.accepts (pruned known child).kind = true
    rw [pruned_eq, Node.kind_mapChildren]
    exact (gentle_settle known).accepted h haccepts
  assignable := by
    intro hassignable
    refine ⟨_, rfl, ?_⟩
    rw [pruned_eq]
    cases child with
    | identifier name => rw [settle_of_live?_eq_none rfl]; rfl
    | dot owner name => rw [settle_of_live?_eq_none rfl]; rfl
    | sub owner index => rw [settle_of_live?_eq_none rfl]; rfl
    | _ => cases hassignable
  single := by
    rintro tag definition rfl
    refine ⟨pruned known definition, congrArg Outcome.node ?_⟩
    rw [pruned_eq, settle_of_live?_eq_none rfl]
    cases tag <;> rfl

theorem grammatical_pruned (known : Predicate) {node : Node} (h : node.Grammatical) :
    (pruned known node).Grammatical := by
  induction node using pruned_induction known with
  | step node ih =>
    have settled : (settle known node).Grammatical := throughout_settle Node.grammatical_empty h
    have below := (Node.throughout_iff.mp settled).2
    rw [pruned_eq, ← Node.siftChildren_node]
    refine Node.grammatical_siftChildren settled ?_ ?_
    · intro child hchild
      have grammatical : child.Grammatical := below child hchild
      exact faithful_pruned known grammatical.conforms
    · intro child hchild left hleft
      cases hleft
      exact ih child hchild (below child hchild)

/-- The live branch of a statement that is not open is not open. -/
theorem endsWithOpenIf_live? (hslots : node.slotsAccept = true) (hkeeps : node.KeepsElse)
    (h : node.endsWithOpenIf = false) (hl : live? known node = some branch) :
    branch.endsWithOpenIf = false := by
  obtain ⟨test, no, rfl, _⟩ | ⟨test, yes, no, rfl, _, rfl⟩ | ⟨test, no, rfl, _⟩ |
    ⟨test, yes, rfl, _⟩ := live?_cases hl
  · cases no with
    | none => cases h
    | some other => exact hkeeps
  · cases no with
    | none => cases h
    | some other => exact h
  · exact Node.endsWithOpenIf_of_isExpression (slotsAccept_conditional.mp hslots).2.1
  · exact Node.endsWithOpenIf_of_isExpression (slotsAccept_conditional.mp hslots).2.2

/-- What pruning leaves of a statement that is not open is not open. -/
theorem endsWithOpenIf_pruned (known : Predicate) {node : Node} (hc : node.Conforms)
    (hb : node.ElseBound) (h : node.endsWithOpenIf = false) :
    (pruned known node).endsWithOpenIf = false := by
  induction node using pruned_induction known with
  | step node ih =>
    have settled : (settle known node).Conforms ∧ (settle known node).ElseBound ∧
        (settle known node).endsWithOpenIf = false := by
      refine settle_induction (motive := fun n => n.Conforms ∧ n.ElseBound ∧ n.endsWithOpenIf = false)
        (fun node branch h hl => ?_) node ⟨hc, hb, h⟩
      refine ⟨conforms_live? h.1 hl, ?_, ?_⟩
      · rcases live?_mem_or_empty hl with hmem | rfl
        · exact (Node.throughout_iff.mp h.2.1).2 branch hmem
        · exact Node.elseBound_empty
      · exact endsWithOpenIf_live? h.1.slots (Node.throughout_iff.mp h.2.1).1 h.2.2 hl
    rw [pruned_eq]
    refine Node.endsWithOpenIf_mapChildren settled.2.2 fun child hchild hchild' => ?_
    exact ih child hchild (settled.1.of_mem_children hchild)
      ((Node.throughout_iff.mp settled.2.1).2 child hchild) hchild'

/-- Pruning takes no `else` away from its `if`. -/
theorem elseBound_pruned (known : Predicate) {node : Node} (hc : node.Conforms)
    (hb : node.ElseBound) : (pruned known node).ElseBound := by
  induction node using pruned_induction known with
  | step node ih =>
    have conforms : (settle known node).Conforms := (gentle_settle known).conforms hc
    have bound : (settle known node).ElseBound := throughout_settle Node.elseBound_empty hb
    obtain ⟨keeps, below⟩ := Node.throughout_iff.mp bound
    rw [pruned_eq]
    refine Node.throughout_iff.mpr ⟨Node.keepsElse_mapChildren keeps ?_, ?_⟩
    · intro child hchild
      exact endsWithOpenIf_pruned known (conforms.of_mem_children hchild) (below child hchild)
    · intro child hchild
      rw [Node.children_mapChildren, List.mem_map] at hchild
      obtain ⟨old, hold, rfl⟩ := hchild
      exact ih old hold (conforms.of_mem_children hold) (below old hold)

/-- A program stays a program. -/
theorem kind_pruned_toplevel (known : Predicate) {node : Node} (h : node.kind = .toplevel) :
    (pruned known node).kind = .toplevel := by
  obtain ⟨statements, rfl⟩ := Node.eq_toplevel_of_kind h
  rw [pruned_eq, settle_of_live?_eq_none rfl]
  rfl

end DeadBranch

/-- A program stays a program, whatever is swept out of it. -/
theorem Minify.kind_swept_toplevel {node : Node} (h : node.kind = .toplevel) :
    ((swept node).toOption.getD .empty).kind = .toplevel := by
  rw [swept_of_kind (by rw [h]; nofun) (by rw [h]; nofun)]
  show (node.siftChildren swept).kind = .toplevel
  rw [Node.kind_siftChildren, h]

/-- What is left of a grammatical tree, or the lone semicolon in its place, is grammatical. -/
theorem Minify.grammatical_left {node : Node} (h : node.Grammatical) :
    ((swept node).toOption.getD .empty).Grammatical := by
  cases hswept : swept node with
  | node left => exact grammatical_swept h hswept
  | removed => exact Node.grammatical_empty

/-- **The parser builds grammatical trees and the stock passes keep them so.** Every parsed program
is grammatical, and every `else` in it belongs to the `if` it is printed behind. On a tree like that
of at most `maxDepth` levels, pruning with any predicate succeeds with a tree like that. Minifying a
grammatical tree succeeds with a grammatical tree. A program stays a program. -/
theorem stock_passes_grammatical :
    (∀ (source : String) (tree : Node), parse source = .ok tree →
      tree.kind = .toplevel ∧ tree.Grammatical ∧ tree.ElseBound) ∧
    (∀ tree : Node, tree.Grammatical → tree.ElseBound → tree.depth ≤ maxDepth →
      ∀ (σ : Type) (known : Predicate) (observe : Node → σ → σ) (trail : Trail σ),
        ∃ result after, (Filter.transform maxDepth [DeadBranch.filter known observe] tree).run.run trail
            = (.ok result, after) ∧
          result.Grammatical ∧ result.ElseBound ∧
            (tree.kind = .toplevel → result.kind = .toplevel)) ∧
    (∀ tree : Node, tree.Grammatical → tree.depth ≤ maxDepth → ∀ (σ : Type) (trail : Trail σ),
      ∃ result after, (Minify.minify tree).run.run trail = (.ok result, after) ∧
        result.Grammatical ∧ (tree.kind = .toplevel → result.kind = .toplevel)) := by
  refine ⟨fun source tree h => formed_of_parse h, ?_, ?_⟩
  · intro tree grammatical bound shallow σ known observe trail
    have conforms := grammatical.conforms
    obtain ⟨after, run⟩ :=
      DeadBranch.transform_filter_yields known observe conforms shallow trail
    exact ⟨_, after, run, DeadBranch.grammatical_pruned known grammatical,
      DeadBranch.elseBound_pruned known conforms bound, DeadBranch.kind_pruned_toplevel known⟩
  · intro tree grammatical shallow σ trail
    obtain ⟨after, run⟩ := Minify.minify_yields grammatical.conforms shallow trail
    exact ⟨_, after, run, Minify.grammatical_left grammatical, Minify.kind_swept_toplevel⟩

/-- Where every `else` is bound, a program that is not too deep is read back as it was printed. -/
theorem Node.Printable.parse_print_self {nodes : List Node} (h : (Node.toplevel nodes).Printable)
    (hb : (Node.toplevel nodes).ElseBound) (hd : (Node.toplevel nodes).depth ≤ Node.safeDepth)
    (layout : Layout) : parse ((Node.toplevel nodes).print layout) = .ok (.toplevel nodes) := by
  have reads := h.reads_program layout.beautify layout.terminates
  rw [Node.braced_eq_self hb] at reads
  rcases reads.run (h.shows_print layout) with same | ⟨hroom, _⟩
  · exact same
  · have deep := Node.safeDepth_lt_of_not_room hroom
    rw [Node.depth_eq] at hd
    omega

/-- A program in which pruning puts a branch before an `else`, and minifying takes an `else` away. -/
def nested : Node := .toplevel
  [.ifElse (.identifier "a") (.ifElse (.boolean true) (.simple (.identifier "b")) (some (.block [])))
    (some (.simple (.identifier "c")))]

theorem printable_nested : nested.Printable := by
  have name : ∀ {name : String}, spells (.identifier name) name.toList = true →
      (Node.identifier name).Printable := fun h => .intro rfl (lexesAs_of_spells h) nofun
  have statement : ∀ {name : String}, spells (.identifier name) name.toList = true →
      (Node.simple (.identifier name)).Printable :=
    fun h => .intro rfl trivial (List.forall_mem_singleton.mpr (name h))
  have inner : (Node.ifElse (.boolean true) (.simple (.identifier "b"))
      (some (.block []))).Printable := by
    refine .intro rfl trivial (List.forall_mem_cons.mpr ⟨.intro rfl trivial nofun, ?_⟩)
    exact List.forall_mem_cons.mpr ⟨statement (by decide),
      List.forall_mem_singleton.mpr (.intro rfl trivial nofun)⟩
  refine .intro rfl trivial (List.forall_mem_singleton.mpr (.intro rfl trivial ?_))
  exact List.forall_mem_cons.mpr ⟨name (by decide), List.forall_mem_cons.mpr ⟨inner,
    List.forall_mem_singleton.mpr (statement (by decide))⟩⟩

theorem elseBound_nested : nested.ElseBound := by
  have leaf : ∀ node : Node, node.children = [] → node.kind ≠ .if_ → node.ElseBound := by
    intro node hchildren hkind
    refine Node.throughout_iff.mpr ⟨Node.keepsElse_of_kind hkind, ?_⟩
    rw [hchildren]
    exact nofun
  have statement : ∀ name, (Node.simple (.identifier name)).ElseBound := fun name =>
    Node.throughout_iff.mpr ⟨trivial, List.forall_mem_singleton.mpr (leaf _ rfl nofun)⟩
  have inner : (Node.ifElse (.boolean true) (.simple (.identifier "b"))
      (some (.block []))).ElseBound := by
    refine Node.throughout_iff.mpr ⟨rfl, List.forall_mem_cons.mpr ⟨leaf _ rfl nofun, ?_⟩⟩
    exact List.forall_mem_cons.mpr ⟨statement "b", List.forall_mem_singleton.mpr (leaf _ rfl nofun)⟩
  refine Node.throughout_iff.mpr ⟨trivial, List.forall_mem_singleton.mpr ?_⟩
  refine Node.throughout_iff.mpr ⟨rfl, List.forall_mem_cons.mpr ⟨leaf _ rfl nofun, ?_⟩⟩
  exact List.forall_mem_cons.mpr ⟨inner, List.forall_mem_singleton.mpr (statement "c")⟩

theorem depth_nested : nested.depth ≤ 5 := by
  have within : nested.conformsWithin 5 = true := by decide
  exact Node.depth_le_of_within within

theorem parse_nested : parse "if(a)if(true)b;else\x7b\x7delse c" = .ok nested := by
  have text : nested.print .compact = "if(a)if(true)b;else\x7b\x7delse c" := by decide
  rw [← text]
  exact printable_nested.parse_print_self elseBound_nested (Nat.le_trans depth_nested (by decide)) _

theorem stock_passes_grammatical_nested :
    parse "if(a)if(true)b;else\x7b\x7delse c" = .ok nested ∧
    (nested.kind = .toplevel ∧ nested.Grammatical ∧ nested.ElseBound) ∧
    (∃ result after, (Filter.transform maxDepth
          [DeadBranch.filter (fun _ => .next) fun _ (seen : Unit) => seen] nested).run.run (.start ())
        = (.ok result, after) ∧
      result.Grammatical ∧ result.ElseBound ∧ result.kind = .toplevel) ∧
    ∃ result after, (Minify.minify nested).run.run (.start ()) = (.ok result, after) ∧
      result.Grammatical ∧ result.kind = .toplevel := by
  obtain ⟨parsed, pruning, minifying⟩ := stock_passes_grammatical
  have formed := parsed _ _ parse_nested
  have shallow : nested.depth ≤ maxDepth := Nat.le_trans depth_nested (by decide)
  refine ⟨parse_nested, formed, ?_, ?_⟩
  · obtain ⟨result, after, run, grammatical, bound, kind⟩ :=
      pruning nested formed.2.1 formed.2.2 shallow Unit (fun _ => .next) (fun _ seen => seen) (.start ())
    exact ⟨result, after, run, grammatical, bound, kind formed.1⟩
  · obtain ⟨result, after, run, grammatical, kind⟩ :=
      minifying nested formed.2.1 shallow Unit (.start ())
    exact ⟨result, after, run, grammatical, kind formed.1⟩

/-- Minifying takes the empty `else` of the inner `if`, which would then take that of the outer. -/
example : ∃ left, Minify.swept
      (.ifElse .this (.ifElse .this .debugger (some .empty)) (some .debugger)) = .node left ∧
    ¬ left.KeepsElse := by
  have gone : Minify.swept .empty = .removed := by rw [Minify.swept_eq]; rfl
  have test : Minify.swept .this = .node .this := by rw [Minify.swept_eq]; rfl
  have body : Minify.swept .debugger = .node .debugger := by rw [Minify.swept_eq]; rfl
  have inner : Minify.swept (.ifElse .this .debugger (some .empty))
      = .node (.ifElse .this .debugger none) := by
    rw [Minify.swept_eq]
    simp only [Node.siftChildren, Node.parts, List.map_cons, Part.sift, Option.bind_some, gone, test,
      body]
    rfl
  refine ⟨.ifElse .this (.ifElse .this .debugger none) (some .debugger), ?_, nofun⟩
  rw [Minify.swept_eq]
  simp only [Node.siftChildren, Node.parts, List.map_cons, Part.sift, Option.bind_some, inner, test,
    body]
  rfl

end JsPrune
