import JsPrune.Error
import JsPrune.Node.Parts

/-!
# Size and depth of trees

`Node.depth` counts the levels of a tree with a stack of nodes still to be looked at, each with its
level, so even a tree too deep for the recursive passes can be measured. The passes accept trees of
at most `maxDepth` levels; `Node.checkDepth` is the test.
-/

namespace JsPrune

/-- The most levels that a tree may have to be walked or printed. -/
def maxDepth : Nat := 512

namespace Node

/-- The number of nodes of a tree. -/
def size (node : Node) : Nat :=
  1 + node.children.attach.foldr (fun child total => size child.val + total) 0
termination_by node
decreasing_by exact sizeOf_lt_of_mem_children child.property

/-- The number of nodes of several trees. -/
def totalSize (nodes : List Node) : Nat := nodes.foldr (fun node total => node.size + total) 0

/-- A tree has one node more than its children together. -/
theorem size_eq (node : Node) : node.size = 1 + totalSize node.children := by
  have seen : totalSize node.children
      = node.children.attach.foldr (fun child total => child.val.size + total) 0 := by
    rw [totalSize, ← List.foldr_attach]
  rw [size, seen]

/-- The trees of two lists together. -/
theorem totalSize_append (first second : List Node) :
    totalSize (first ++ second) = totalSize first + totalSize second := by
  induction first with
  | nil => exact (Nat.zero_add _).symm
  | cons node rest ih =>
    show node.size + totalSize (rest ++ second) = node.size + totalSize rest + totalSize second
    rw [ih, Nat.add_assoc]

/-- The order of the trees does not matter. -/
theorem totalSize_reverse (nodes : List Node) : totalSize nodes.reverse = totalSize nodes := by
  induction nodes with
  | nil => rfl
  | cons node rest ih =>
    rw [List.reverse_cons, totalSize_append, ih]
    exact Nat.add_comm _ _

/-- The children of a node at `level`, each with its own level, as a stack: they are put on it one
after the other, so the last child is on top. -/
def stackedChildren (node : Node) (level : Nat) : List (Node × Nat) :=
  (node.children.map fun child => (child, level + 1)).reverse

theorem totalSize_stackedChildren (node : Node) (level : Nat) :
    totalSize ((node.stackedChildren level).map Prod.fst) = totalSize node.children := by
  rw [stackedChildren, List.map_reverse, totalSize_reverse, List.map_map]
  exact congrArg totalSize (List.map_id node.children)

/-- All nodes of the pending trees. -/
def pendingSize (pending : List (Node × Nat)) : Nat := totalSize (pending.map Prod.fst)

/-- A node that gives way to its children leaves one node less. -/
theorem pendingSize_cons (node : Node) (level : Nat) (others : List (Node × Nat)) :
    pendingSize ((node, level) :: others)
      = pendingSize (node.stackedChildren level ++ others) + 1 := by
  have whole : pendingSize ((node, level) :: others) = node.size + pendingSize others := rfl
  rw [whole, size_eq, pendingSize, pendingSize, List.map_append, totalSize_append,
    totalSize_stackedChildren]
  omega

/-- The deepest level among the nodes on a stack and all below them, and `deepest`. -/
def deepestLevel (deepest : Nat) (pending : List (Node × Nat)) : Nat :=
  match pending with
  | [] => deepest
  | (node, level) :: others =>
    deepestLevel (max deepest level) (node.stackedChildren level ++ others)
termination_by pendingSize pending
decreasing_by exact pendingSize_cons node level others ▸ Nat.lt_succ_self _

/-- The number of levels of a tree; a leaf has one. -/
def depth (node : Node) : Nat := deepestLevel 0 [(node, 1)]

/-- The complaint about a tree with too many levels. -/
def tooDeep (kind : Kind) (depth : Nat) : Error :=
  .structural kind.name "depth"
    ("tree is " ++ toString depth ++ " levels deep, limit is " ++ toString maxDepth)

/-- Accepts trees of at most `maxDepth` levels. -/
def checkDepth (node : Node) : Except Error Unit :=
  if maxDepth < node.depth then .error (tooDeep node.kind node.depth) else .ok ()

theorem checkDepth_eq_ok_iff {tree : Node} : tree.checkDepth = .ok () ↔ tree.depth ≤ maxDepth := by
  unfold checkDepth
  split
  · next hdeep => exact ⟨nofun, fun hle => absurd hdeep (Nat.not_lt.mpr hle)⟩
  · next hle => exact ⟨fun _ => Nat.not_lt.mp hle, fun _ => rfl⟩

theorem checkDepth_eq_error_iff {tree : Node} :
    tree.checkDepth = .error (tooDeep tree.kind tree.depth) ↔ maxDepth < tree.depth := by
  unfold checkDepth
  split
  · next hdeep => exact ⟨fun _ => hdeep, fun _ => rfl⟩
  · next hle => exact ⟨nofun, fun hdeep => absurd hdeep hle⟩

end Node

end JsPrune
