import JsPrune.Node.Visit
import JsPrune.Proofs.Conformance

/-!
# All nodes of a tree, in order

`Node.preorder` lists the nodes of a tree, parents before children and children in the order of the
recipe. "Every node at every depth" is membership in this list: `forall_preorder` unfolds it by one
level, and `conforms_iff_preorder` says what conformance is in its terms.

It is also the measure for the readers of trees. A visitor that only looks at the nodes it enters
sees exactly this list (`walk_entering`), so the census of a tree counts it (`total_census`,
`counted_census`); and a visitor that notes where nodes are entered and left gets a properly nested
sequence whose entries are this list (`exists_brackets`).
-/

namespace JsPrune

namespace Node

/-- The nodes of a tree, parents first. -/
def preorder (node : Node) : List Node :=
  node :: node.children.attach.flatMap fun child => preorder child.val
termination_by node
decreasing_by exact sizeOf_lt_of_mem_children child.property

theorem preorder_eq (node : Node) :
    node.preorder = node :: node.children.flatMap preorder := by
  rw [preorder]
  simp only [List.flatMap_subtype, List.unattach_attach]

/-- What holds of all nodes holds of the root and of all nodes below each child. -/
theorem forall_preorder {motive : Node → Prop} {node : Node} :
    (∀ inner ∈ node.preorder, motive inner) ↔
      motive node ∧ ∀ child ∈ node.children, ∀ inner ∈ child.preorder, motive inner := by
  rw [preorder_eq, List.forall_mem_cons]
  simp only [List.mem_flatMap, forall_exists_index, and_imp]
  constructor
  · rintro ⟨here, below⟩
    exact ⟨here, fun child hc inner hi => below inner child hc hi⟩
  · rintro ⟨here, below⟩
    exact ⟨here, fun inner child hc hi => below child hc inner hi⟩

theorem mem_preorder_trans {tree middle inner : Node} (hmiddle : middle ∈ tree.preorder)
    (hinner : inner ∈ middle.preorder) : inner ∈ tree.preorder := by
  induction tree using childInduction with
  | step tree ih =>
    rw [preorder_eq, List.mem_cons] at hmiddle
    rcases hmiddle with rfl | hbelow
    · exact hinner
    · obtain ⟨child, hc, hmiddle⟩ := List.mem_flatMap.mp hbelow
      rw [preorder_eq]
      exact List.mem_cons_of_mem _ (List.mem_flatMap.mpr ⟨child, hc, ih child hc hmiddle⟩)

/-- A tree conforms when the slots of each of its nodes do. -/
theorem conforms_iff_preorder {node : Node} :
    node.Conforms ↔ ∀ inner ∈ node.preorder, inner.slotsAccept = true := by
  induction node using childInduction with
  | step node ih =>
    rw [forall_preorder]
    constructor
    · intro h
      exact ⟨h.slots, fun child hc => (ih child hc).mp (h.of_mem_children hc)⟩
    · rintro ⟨slots, below⟩
      exact .intro slots fun child hc => (ih child hc).mpr (below child hc)

theorem length_flatMap_preorder {nodes : List Node}
    (h : ∀ node ∈ nodes, node.preorder.length = node.size) :
    (nodes.flatMap preorder).length = totalSize nodes := by
  induction nodes with
  | nil => rfl
  | cons node rest ih =>
    rw [List.flatMap_cons, List.length_append, h node (List.mem_cons_self ..),
      ih fun other hmem => h other (List.mem_cons_of_mem _ hmem)]
    rfl

/-- There are as many nodes in the list as in the tree. -/
theorem length_preorder (node : Node) : node.preorder.length = node.size := by
  induction node using childInduction with
  | step node ih =>
    rw [preorder_eq, List.length_cons, length_flatMap_preorder ih, size_eq, Nat.add_comm]

end Node

/-! ## Visitors -/

namespace Visitor

variable {σ : Type}

/-- The visitor that only looks at the nodes it enters. -/
def entering (look : Node → σ → σ) : Visitor σ := { enter := look }

theorem leaf_entering (look : Node → σ → σ) (node : Node) (state : σ) :
    (entering look).leaf node state = state := by
  unfold leaf
  split <;> rfl

/-- Trees that are each seen node by node are seen so one after the other. -/
theorem foldl_walk_entering {look : Node → σ → σ} {nodes : List Node}
    (h : ∀ node ∈ nodes, ∀ start, (entering look).walk node start
      = node.preorder.foldl (fun state inner => look inner state) start) (start : σ) :
    nodes.foldl (fun state node => (entering look).walk node state) start
      = (nodes.flatMap Node.preorder).foldl (fun state inner => look inner state) start := by
  induction nodes generalizing start with
  | nil => rfl
  | cons node rest ih =>
    rw [List.foldl_cons, List.flatMap_cons, List.foldl_append, h node (List.mem_cons_self ..)]
    exact ih (fun other hmem => h other (List.mem_cons_of_mem _ hmem)) _

/-- Such a visitor sees the nodes of the tree one by one, parents first. -/
theorem walk_entering (look : Node → σ → σ) (node : Node) (state : σ) :
    (entering look).walk node state
      = node.preorder.foldl (fun state inner => look inner state) state := by
  induction node using Node.childInduction generalizing state with
  | step node ih =>
    rw [walk_eq, leaf_entering, foldl_walk_entering ih, Node.preorder_eq, List.foldl_cons]
    rfl

end Visitor

/-! ## Counting -/

namespace Census

/-- The counts of the kinds that occur, added up. -/
def counted (census : Census) : Nat :=
  census.byKind.foldr (fun entry sum => entry.2 + sum) 0

/-- Kinds that do not occur add nothing. -/
theorem counted_eq (census : Census) :
    census.counted = Kind.all.foldr (fun kind sum => census.count kind + sum) 0 := by
  unfold counted byKind
  induction Kind.all with
  | nil => rfl
  | cons kind rest ih =>
    rw [List.map_cons, List.foldr_cons, ← ih]
    by_cases h : 0 < census.count kind
    · rw [List.filter_cons, if_pos (decide_eq_true h), List.foldr_cons]
    · have none : census.count kind = 0 := by omega
      rw [List.filter_cons, if_neg (by simp [none]), none, Nat.zero_add]

/-- One more node of a kind is one more in all, if the kind is looked at, and looked at once. -/
theorem foldr_count_add (kind : Kind) (census : Census) {kinds : List Kind}
    (distinct : kinds.Nodup) :
    kinds.foldr (fun other sum => (census.add kind).count other + sum) 0
      = kinds.foldr (fun other sum => census.count other + sum) 0
        + if kind ∈ kinds then 1 else 0 := by
  induction kinds with
  | nil => rfl
  | cons first rest ih =>
    obtain ⟨fresh, distinct⟩ := List.nodup_cons.mp distinct
    rw [List.foldr_cons, List.foldr_cons, ih distinct]
    by_cases h : first = kind
    · subst h
      have one : (census.add first).count first = census.count first + 1 := if_pos rfl
      rw [one, if_neg fresh, if_pos (List.mem_cons_self ..)]
      omega
    · have same : (census.add kind).count first = census.count first := if_neg h
      rw [same, Nat.add_assoc]
      simp only [List.mem_cons, Ne.symm h, false_or]

theorem counted_add (kind : Kind) (census : Census) :
    (census.add kind).counted = census.counted + 1 := by
  have distinct : Kind.all.Nodup := by decide
  have listed : kind ∈ Kind.all := by cases kind <;> decide
  rw [counted_eq, counted_eq, foldr_count_add kind census distinct, if_pos listed]

end Census

namespace Node

/-- The census after reading some nodes. -/
theorem foldl_add_kind (nodes : List Node) (census : Census) :
    (nodes.foldl (fun census node => census.add node.kind) census).total
        = census.total + nodes.length ∧
      (nodes.foldl (fun census node => census.add node.kind) census).counted
        = census.counted + nodes.length := by
  induction nodes generalizing census with
  | nil => exact ⟨rfl, rfl⟩
  | cons node rest ih =>
    obtain ⟨total, counted⟩ := ih (census.add node.kind)
    rw [Census.counted_add] at counted
    rw [List.foldl_cons, total, counted, List.length_cons]
    exact ⟨show census.total + 1 + rest.length = _ by omega, by omega⟩

theorem census_eq (node : Node) :
    node.census = node.preorder.foldl (fun census inner => census.add inner.kind) .empty :=
  Visitor.walk_entering (fun inner (census : Census) => census.add inner.kind) node .empty

/-- The census counts every node once. -/
theorem total_census (node : Node) : node.census.total = node.size := by
  rw [census_eq, (foldl_add_kind node.preorder .empty).1, length_preorder]
  exact Nat.zero_add _

/-- So do its counts by kind. -/
theorem counted_census (node : Node) : node.census.counted = node.size := by
  rw [census_eq, (foldl_add_kind node.preorder .empty).2, length_preorder]
  exact Nat.zero_add _

end Node

/-! ## Entering and leaving -/

/-- Where a node is entered or left. -/
inductive Bracket where
  | enter (node : Node)
  | leave (node : Node)

namespace Bracket

/-- The node that is entered. -/
def entered? : Bracket → Option Node
  | enter node => some node
  | leave _ => none

/-- Every node that is entered is left again, and what is entered in between is left in between. -/
inductive Nested : List Bracket → Prop
  | nil : Nested []
  | node (node : Node) {inner rest : List Bracket} (within : Nested inner) (next : Nested rest) :
      Nested (enter node :: inner ++ leave node :: rest)

end Bracket

/-- The visitor that notes where nodes are entered and left. -/
def Visitor.bracketer : Visitor (List Bracket) where
  enter node seen := seen ++ [.enter node]
  leave node seen := seen ++ [.leave node]

namespace Node

open Visitor

theorem leaf_bracketer (node : Node) (seen : List Bracket) :
    bracketer.leaf node seen = seen := by
  unfold leaf
  split <;> rfl

/-- Between entering and leaving the node `inner` is noted, whatever was noted before: all that is
below it, and properly nested. -/
structure Bracketed (node : Node) (inner : List Bracket) : Prop where
  nested : Bracket.Nested inner
  entered : inner.filterMap Bracket.entered? = node.children.flatMap preorder
  walked : ∀ seen, bracketer.walk node seen = seen ++ (.enter node :: inner ++ [.leave node])

/-- The notes on one tree follow those on the tree before. -/
theorem exists_brackets_list {nodes : List Node}
    (h : ∀ node ∈ nodes, ∃ inner, node.Bracketed inner) :
    ∃ inner, Bracket.Nested inner ∧ inner.filterMap Bracket.entered? = nodes.flatMap preorder ∧
      ∀ seen, nodes.foldl (fun seen node => bracketer.walk node seen) seen = seen ++ inner := by
  induction nodes with
  | nil => exact ⟨[], .nil, rfl, fun seen => (List.append_nil seen).symm⟩
  | cons node rest ih =>
    obtain ⟨inner, here⟩ := h node (List.mem_cons_self ..)
    obtain ⟨others, nested, entered, walked⟩ :=
      ih fun other hmem => h other (List.mem_cons_of_mem _ hmem)
    refine ⟨.enter node :: inner ++ .leave node :: others, .node node here.nested nested, ?_, ?_⟩
    · rw [List.flatMap_cons, preorder_eq node, ← here.entered, ← entered]
      show node :: (inner ++ .leave node :: others).filterMap Bracket.entered? = _
      rw [List.filterMap_append]
      rfl
    · intro seen
      rw [List.foldl_cons, here.walked, walked]
      simp only [List.append_assoc, List.cons_append, List.nil_append]

theorem exists_brackets (node : Node) : ∃ inner, node.Bracketed inner := by
  induction node using childInduction with
  | step node ih =>
    obtain ⟨inner, nested, entered, walked⟩ := exists_brackets_list ih
    refine ⟨inner, nested, entered, fun seen => ?_⟩
    rw [walk_eq, leaf_bracketer, walked]
    show seen ++ [.enter node] ++ inner ++ [.leave node] = _
    simp only [List.append_assoc, List.cons_append, List.nil_append]

end Node

end JsPrune
