import JsPrune.Proofs.Conformance
import Mathlib.Logic.Function.Iterate

/-!
# Depth without recursion

The levels of a tree are counted by a loop over a stack of pending nodes, which meets the nodes in an
order of its own: of several children the last one first, and then everything below it. That the loop
ends, and with the right number, has to be said of the whole stack.

A `Sounding` is the state of the loop, `Sounding.turn` one turn of it. A turn takes one node off the
pending trees (`pendingSize_turn`) and does not change the level that is found in the end
(`deepestLevel_turn`). So the loop makes one turn for each node, neither more nor fewer.

What is found is the height by recursion over the children (`depth_eq`), and this is the length of the
longest path from the root to a leaf (`LeafPath.length_le_height`, `exists_leafPath`).

Main result: `depth_sounded`.
-/

namespace JsPrune.Node

/-! ## The loop -/

/-- How far the measure of a tree has come. -/
structure Sounding where
  /-- The deepest level seen so far. -/
  deepest : Nat
  /-- Nodes still to be looked at, each with its level. -/
  pending : List (Node × Nat)

namespace Sounding

/-- Only the root is pending. -/
def start (tree : Node) : Sounding := ⟨0, [(tree, 1)]⟩

/-- The node on top is looked at and gives way to its children. -/
def turn : Sounding → Sounding
  | ⟨deepest, []⟩ => ⟨deepest, []⟩
  | ⟨deepest, (node, level) :: others⟩ =>
    ⟨max deepest level, node.stackedChildren level ++ others⟩

/-- A turn takes one node off what is pending, until nothing is left. -/
theorem pendingSize_turn (sounding : Sounding) :
    pendingSize sounding.turn.pending = pendingSize sounding.pending - 1 := by
  match sounding with
  | ⟨_, []⟩ => rfl
  | ⟨_, (node, level) :: others⟩ =>
    rw [pendingSize_cons, Nat.add_sub_cancel]
    rfl

/-- The level that will be found in the end is the same after a turn as before it. -/
theorem deepestLevel_turn (sounding : Sounding) :
    deepestLevel sounding.turn.deepest sounding.turn.pending
      = deepestLevel sounding.deepest sounding.pending := by
  match sounding with
  | ⟨_, []⟩ => rfl
  | ⟨deepest, (node, level) :: others⟩ =>
    rw [deepestLevel.eq_def deepest]
    rfl

/-- So many turns take so many nodes off what is pending. -/
theorem pendingSize_iterate (turns : Nat) (sounding : Sounding) :
    pendingSize (turn^[turns] sounding).pending = pendingSize sounding.pending - turns := by
  induction turns generalizing sounding with
  | zero => rfl
  | succ turns ih => rw [Function.iterate_succ_apply, ih, pendingSize_turn, Nat.sub_sub, Nat.add_comm]

theorem deepestLevel_iterate (turns : Nat) (sounding : Sounding) :
    deepestLevel (turn^[turns] sounding).deepest (turn^[turns] sounding).pending
      = deepestLevel sounding.deepest sounding.pending := by
  induction turns generalizing sounding with
  | zero => rfl
  | succ turns ih => rw [Function.iterate_succ_apply, ih, deepestLevel_turn]

theorem pendingSize_eq_zero_iff {pending : List (Node × Nat)} :
    pendingSize pending = 0 ↔ pending = [] := by
  cases pending with
  | nil => exact ⟨fun _ => rfl, fun _ => rfl⟩
  | cons entry others =>
    rw [pendingSize_cons]
    exact ⟨nofun, nofun⟩

/-- In the beginning every node of the tree is still to come. -/
theorem pendingSize_start (tree : Node) : pendingSize (start tree).pending = tree.size :=
  Nat.add_zero _

/-- The stack is empty when every node has had its turn, and not before. -/
theorem pending_eq_nil_iff (tree : Node) (turns : Nat) :
    (turn^[turns] (start tree)).pending = [] ↔ tree.size ≤ turns := by
  rw [← pendingSize_eq_zero_iff, pendingSize_iterate, pendingSize_start]
  omega

/-- With the stack empty, the deepest level seen is the depth. -/
theorem deepest_eq_depth {tree : Node} {turns : Nat} (h : tree.size ≤ turns) :
    (turn^[turns] (start tree)).deepest = tree.depth := by
  have found := deepestLevel_iterate turns (start tree)
  rw [(pending_eq_nil_iff tree turns).mpr h, deepestLevel] at found
  exact found

end Sounding

/-! ## Paths -/

/-- The nodes from a tree's root down to a leaf, each a child of the one before it. -/
inductive LeafPath : Node → List Node → Prop
  | leaf {node : Node} (h : node.children = []) : LeafPath node [node]
  | child {node child : Node} {path : List Node} (hc : child ∈ node.children)
    (h : LeafPath child path) : LeafPath node (node :: path)

/-- No path to a leaf has more nodes than the tree has levels. -/
theorem LeafPath.length_le_height {node : Node} {path : List Node} (h : LeafPath node path) :
    path.length ≤ node.height := by
  induction h with
  | @leaf node _ =>
    rw [height_eq]
    exact Nat.le_add_right 1 _
  | child hc _ ih => exact Nat.lt_of_le_of_lt ih (height_lt_of_mem_children hc)

/-- The largest of some numbers is one of them. -/
theorem tallest_mem {heights : List Nat} (h : heights ≠ []) : tallest heights ∈ heights := by
  induction heights with
  | nil => exact absurd rfl h
  | cons first rest ih =>
    show max first (tallest rest) ∈ first :: rest
    rcases Nat.le_total (tallest rest) first with hle | hle
    · rw [Nat.max_eq_left hle]
      exact List.mem_cons_self ..
    · rw [Nat.max_eq_right hle]
      cases rest with
      | nil => exact Nat.le_zero.mp hle ▸ List.mem_cons_self ..
      | cons second others => exact List.mem_cons_of_mem _ (ih nofun)

/-- From every node a path leads down through all levels below it: it goes to the tallest child. -/
theorem exists_leafPath (node : Node) : ∃ path, LeafPath node path ∧ path.length = node.height := by
  induction node using childInduction with
  | step node ih =>
    by_cases hleaf : node.children = []
    · refine ⟨[node], .leaf hleaf, ?_⟩
      rw [height_eq, hleaf]
      rfl
    · have heights : node.children.map height ≠ [] := fun hnil => hleaf (List.map_eq_nil_iff.mp hnil)
      obtain ⟨child, hc, htall⟩ := List.mem_map.mp (tallest_mem heights)
      obtain ⟨path, hpath, hlength⟩ := ih child hc
      refine ⟨node :: path, .child hc hpath, ?_⟩
      rw [List.length_cons, hlength, htall, height_eq node, Nat.add_comm]

/-- A tree has more than some number of levels when a path in it has. -/
theorem lt_height_iff {levels : Nat} {tree : Node} :
    levels < tree.height ↔ ∃ path, LeafPath tree path ∧ levels < path.length := by
  constructor
  · intro hlt
    obtain ⟨path, hpath, hlength⟩ := exists_leafPath tree
    exact ⟨path, hpath, hlength ▸ hlt⟩
  · rintro ⟨path, hpath, hlt⟩
    exact Nat.lt_of_lt_of_le hlt hpath.length_le_height

/-- **The measure with a stack is the recursive depth.** The loop makes exactly one turn for each node
of the tree, then its stack is empty, and stays so; the deepest level that it has seen by then is the
depth, which is the height by recursion over the children. Hence the passes refuse a tree, with an
error that names its root and its depth, just when some path from the root to a leaf has more than
`maxDepth` nodes, and accept it otherwise. -/
theorem depth_sounded (tree : Node) :
    (∀ turns, (Sounding.turn^[turns] (.start tree)).pending = [] ↔ tree.size ≤ turns) ∧
    Sounding.turn^[tree.size] (.start tree) = ⟨tree.depth, []⟩ ∧
    tree.depth = tree.height ∧
    (tree.checkDepth = .error (tooDeep tree.kind tree.depth) ↔
      ∃ path, LeafPath tree path ∧ maxDepth < path.length) ∧
    (tree.checkDepth = .ok () ↔ ¬ ∃ path, LeafPath tree path ∧ maxDepth < path.length) := by
  have done := (Sounding.pending_eq_nil_iff tree tree.size).mpr (Nat.le_refl _)
  have found := Sounding.deepest_eq_depth (Nat.le_refl tree.size)
  refine ⟨Sounding.pending_eq_nil_iff tree, ?_, depth_eq tree, ?_, ?_⟩
  · rw [← found, ← done]
  · rw [checkDepth_eq_error_iff, depth_eq, lt_height_iff]
  · rw [checkDepth_eq_ok_iff, depth_eq, ← lt_height_iff, Nat.not_lt]

end JsPrune.Node
