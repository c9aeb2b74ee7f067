import JsPrune.Node.Depth
import JsPrune.Node.Descent

/-!
# Trees, their children and their slots

Three things that every proof about a traversal rests on.

A tree is taken apart by its children: `childInduction` is the induction that goes with
`Node.children`, and `siftChildren` is the operation that goes with it, a node with each child
replaced or removed; where every child is replaced it is `mapChildren`. The kind, the literals and
the order of the children stay (`kind_siftChildren`, `parts_siftChildren`, `children_mapChildren`).

A tree `Conforms` when every child, at every depth, is accepted by the slot that the recipe of its
parent gives it. This is what a traversal checks; here it is a property of the tree alone.

A tree is measured by recursion: `height` is one more than the height of the tallest child, and
`depth_eq` says that the measure with a list of pending nodes, `Node.depth`, agrees with it.
-/

namespace JsPrune

/-! ## Parts with other children -/

namespace Part

/-- The part with each child replaced by what `f` makes of it. -/
def map (f : Node → Node) : Part → Part
  | literal datum => literal datum
  | child node => child (f node)
  | optional node => optional (node.map f)
  | sequence nodes => sequence (nodes.map f)

@[simp] theorem nodes_map (f : Node → Node) (part : Part) :
    (part.map f).nodes = part.nodes.map f := by
  cases part with
  | optional node => cases node <;> rfl
  | _ => rfl

/-- Only the children that are there count for a map over them. -/
theorem map_congr {f g : Node → Node} {part : Part} (h : ∀ node ∈ part.nodes, f node = g node) :
    part.map f = part.map g := by
  cases part with
  | literal datum => rfl
  | child node => exact congrArg child (h node (List.mem_singleton.mpr rfl))
  | optional node =>
    cases node with
    | none => rfl
    | some node => exact congrArg (fun x => optional (some x)) (h node (List.mem_singleton.mpr rfl))
  | sequence nodes => exact congrArg sequence (List.map_congr_left h)

@[simp] theorem map_id (part : Part) : part.map (fun node => node) = part := by
  cases part with
  | optional node => cases node <;> rfl
  | sequence nodes => exact congrArg sequence (List.map_id nodes)
  | _ => rfl

/-- The part with each child replaced, where the replacement may use that it is a child. -/
def mapMem : (part : Part) → ((child : Node) → child ∈ part.nodes → Node) → Part
  | .literal datum, _ => .literal datum
  | .child node, f => .child (f node (List.mem_singleton.mpr rfl))
  | .optional none, _ => .optional none
  | .optional (some node), f => .optional (some (f node (List.mem_singleton.mpr rfl)))
  | .sequence nodes, f => .sequence (nodes.attach.map fun child => f child.val child.property)

/-- The recursion that knows its children to be smaller is a plain map. -/
theorem mapMem_eq_map (f : Node → Node) (part : Part) :
    part.mapMem (fun child _ => f child) = part.map f := by
  cases part with
  | optional node => cases node <;> rfl
  | sequence nodes => exact congrArg sequence List.attach_map_val
  | _ => rfl

/-- The part with each child replaced or removed. Where a child has to be, a lone semicolon stands in
for one that is removed. -/
def sift (f : Node → Outcome) : Part → Part
  | literal datum => literal datum
  | child node => child ((f node).toOption.getD .empty)
  | optional node => optional (node.bind fun node => (f node).toOption)
  | sequence nodes => sequence (nodes.filterMap fun node => (f node).toOption)

/-- Sifting where nothing is removed is a map. -/
theorem sift_node (f : Node → Node) (part : Part) :
    part.sift (fun node => .node (f node)) = part.map f := by
  cases part with
  | optional node => cases node <;> rfl
  | sequence nodes => exact congrArg sequence (congrFun List.filterMap_eq_map' nodes)
  | _ => rfl

/-- The part with each child replaced or removed, where this may use that it is a child. -/
def siftMem : (part : Part) → ((child : Node) → child ∈ part.nodes → Outcome) → Part
  | .literal datum, _ => .literal datum
  | .child node, f => .child ((f node (List.mem_singleton.mpr rfl)).toOption.getD .empty)
  | .optional none, _ => .optional none
  | .optional (some node), f => .optional (f node (List.mem_singleton.mpr rfl)).toOption
  | .sequence nodes, f =>
    .sequence (nodes.attach.filterMap fun child => (f child.val child.property).toOption)

/-- The sifting that knows its children to be smaller is a plain one. -/
theorem siftMem_eq_sift (f : Node → Outcome) (part : Part) :
    part.siftMem (fun child _ => f child) = part.sift f := by
  cases part with
  | optional node => cases node <;> rfl
  | sequence nodes =>
    have all : nodes.attach.filterMap (fun child => (f child.val).toOption)
        = nodes.filterMap fun child => (f child).toOption := by
      simp only [List.filterMap_subtype, List.unattach_attach]
    exact congrArg sequence all
  | _ => rfl

end Part

namespace Node

/-! ## Induction and replacement by children -/

/-- What holds of a node whenever it holds of its children holds of every tree. -/
theorem childInduction {motive : Node → Prop}
    (step : ∀ node, (∀ child ∈ node.children, motive child) → motive node) (node : Node) :
    motive node :=
  step node fun child _ => childInduction step child
termination_by node
decreasing_by exact sizeOf_lt_of_mem_children (by assumption)

@[simp] theorem children_ifElse (test yes : Node) (no : Option Node) :
    (ifElse test yes no).children = test :: yes :: no.toList := by
  simp [children, parts, Part.nodes]

@[simp] theorem children_conditional (test yes no : Node) :
    (conditional test yes no).children = [test, yes, no] := rfl

@[simp] theorem children_binary (tag : BinaryTag) (left : Node) (operator : BinaryOp)
    (right : Node) : (binary tag left operator right).children = [left, right] := rfl

@[simp] theorem children_unary (tag : UnaryTag) (operator : UnaryOp) (operand : Node) :
    (unary tag operator operand).children = [operand] := rfl

/-- The node with each child replaced by what `f` makes of it. -/
def mapChildren (f : Node → Node) (node : Node) : Node :=
  node.withParts (node.parts.map (Part.map f))

/-- The node with each child replaced or removed as `f` says. -/
def siftChildren (f : Node → Outcome) (node : Node) : Node :=
  node.withParts (node.parts.map (Part.sift f))

/-- Where no child is removed, each is replaced. -/
theorem siftChildren_node (f : Node → Node) (node : Node) :
    node.siftChildren (fun child => .node (f child)) = node.mapChildren f := by
  unfold siftChildren mapChildren
  rw [List.map_congr_left fun part _ => Part.sift_node f part]

/-- Contents of the same shape can be put in the place of a node's own. -/
theorem ofParts?_sift_parts (f : Node → Outcome) {node : Node} (h : node.kind.recipe? ≠ none) :
    ∃ new, ofParts? node.kind (node.parts.map (Part.sift f)) = some new := by
  fun_cases Node.kind node <;> first
    | exact ⟨_, rfl⟩
    | exact absurd rfl h

/-- A kind without a recipe has no contents. -/
theorem parts_eq_nil_of_recipe?_eq_none {node : Node} (h : node.kind.recipe? = none) :
    node.parts = [] := by
  fun_cases Node.kind node <;> first
    | rfl
    | cases h

/-- A leaf has no children to sift. -/
theorem siftChildren_of_recipe?_eq_none (f : Node → Outcome) {node : Node}
    (h : node.kind.recipe? = none) : node.siftChildren f = node := by
  rw [siftChildren, withParts, ofParts?_eq_none_of_recipe?_eq_none _ h]
  rfl

/-- A leaf has no children to replace. -/
theorem mapChildren_of_recipe?_eq_none (f : Node → Node) {node : Node}
    (h : node.kind.recipe? = none) : node.mapChildren f = node := by
  rw [← siftChildren_node, siftChildren_of_recipe?_eq_none _ h]

/-- Sifted parts still make a node of the same kind. -/
theorem ofParts?_eq_siftChildren (f : Node → Outcome) {node : Node} (h : node.kind.recipe? ≠ none) :
    ofParts? node.kind (node.parts.map (Part.sift f)) = some (node.siftChildren f) := by
  obtain ⟨new, hnew⟩ := ofParts?_sift_parts f h
  rw [siftChildren, withParts, hnew]
  rfl

/-- Sifting the children keeps the kind. -/
@[simp] theorem kind_siftChildren (f : Node → Outcome) (node : Node) :
    (node.siftChildren f).kind = node.kind := by
  by_cases h : node.kind.recipe? = none
  · rw [siftChildren_of_recipe?_eq_none f h]
  · exact (parts_of_ofParts? (ofParts?_eq_siftChildren f h)).1

/-- Replacing the children keeps the kind. -/
@[simp] theorem kind_mapChildren (f : Node → Node) (node : Node) :
    (node.mapChildren f).kind = node.kind := by
  rw [← siftChildren_node, kind_siftChildren]

/-- The parts after sifting are the parts sifted. -/
@[simp] theorem parts_siftChildren (f : Node → Outcome) (node : Node) :
    (node.siftChildren f).parts = node.parts.map (Part.sift f) := by
  by_cases h : node.kind.recipe? = none
  · rw [siftChildren_of_recipe?_eq_none f h, parts_eq_nil_of_recipe?_eq_none h]
    rfl
  · exact (parts_of_ofParts? (ofParts?_eq_siftChildren f h)).2

/-- The parts after replacing are the parts with each child replaced. -/
@[simp] theorem parts_mapChildren (f : Node → Node) (node : Node) :
    (node.mapChildren f).parts = node.parts.map (Part.map f) := by
  rw [← siftChildren_node, parts_siftChildren]
  exact List.map_congr_left fun part _ => Part.sift_node f part

/-- The children after replacing are the children replaced. -/
@[simp] theorem children_mapChildren (f : Node → Node) (node : Node) :
    (node.mapChildren f).children = node.children.map f := by
  rw [children, parts_mapChildren, children, List.flatMap_map, List.map_flatMap]
  simp only [Part.nodes_map]

/-- Two functions that agree on the children make the same node. -/
theorem mapChildren_congr {f g : Node → Node} {node : Node}
    (h : ∀ child ∈ node.children, f child = g child) : node.mapChildren f = node.mapChildren g := by
  have parts : node.parts.map (Part.map f) = node.parts.map (Part.map g) :=
    List.map_congr_left fun part hp =>
      Part.map_congr fun child hc => h child (mem_children_of_mem_nodes hp hc)
  rw [mapChildren, parts, mapChildren]

/-- A node whose children are replaced by themselves is unchanged. -/
theorem mapChildren_eq_self {f : Node → Node} {node : Node}
    (h : ∀ child ∈ node.children, f child = child) : node.mapChildren f = node := by
  have parts : node.parts.map (Part.map fun child => child) = node.parts := by
    rw [List.map_congr_left fun part _ => Part.map_id part]
    exact List.map_id _
  rw [mapChildren_congr (g := fun child => child) h, mapChildren, parts, withParts_parts]

end Node

/-! ## Slots -/

/-- Whether a field accepts all children that stand in it. -/
def Field.accepts (field : Field) (part : Part) : Bool :=
  part.nodes.all fun child => field.role.slot?.any fun slot => slot.accepts child.kind

namespace Node

/-- The fields of the recipe, each with its contents. -/
def fields (node : Node) : List (Field × Part) := (node.kind.recipe?.getD []).zip node.parts

/-- Whether every child of a node, but not what is below, is accepted by its slot. -/
def slotsAccept (node : Node) : Bool := node.fields.all fun (field, part) => field.accepts part

/-- Every child, at every depth, is accepted by its slot. -/
inductive Conforms : Node → Prop
  | intro {node : Node} (slots : node.slotsAccept = true)
      (below : ∀ child ∈ node.children, Conforms child) : Conforms node

/-- The children of a conforming node stand where they may. -/
theorem Conforms.slots {node : Node} : node.Conforms → node.slotsAccept = true
  | ⟨slots, _⟩ => slots

/-- The children of a conforming node conform. -/
theorem Conforms.of_mem_children {node child : Node} (h : node.Conforms)
    (hc : child ∈ node.children) : child.Conforms := by
  cases h with
  | intro _ below => exact below child hc

/-- Whether a tree of at most `levels` levels conforms, as a computation. -/
def conformsWithin : Nat → Node → Bool
  | 0, _ => false
  | levels + 1, node => node.slotsAccept && node.children.all (conformsWithin levels)

/-- What conforms within some levels conforms. -/
theorem Conforms.of_within {levels : Nat} {node : Node} (h : conformsWithin levels node = true) :
    node.Conforms := by
  induction levels generalizing node with
  | zero => cases h
  | succ levels ih =>
    rw [conformsWithin, Bool.and_eq_true, List.all_eq_true] at h
    exact .intro h.1 fun child hc => ih (h.2 child hc)

/-- A child that its slot accepts, read off the parent. -/
theorem slotsAccept_iff {node : Node} :
    node.slotsAccept = true ↔ ∀ field part, (field, part) ∈ node.fields →
      ∀ child ∈ part.nodes, ∃ slot, field.role.slot? = some slot ∧ slot.accepts child.kind = true := by
  simp only [slotsAccept, List.all_eq_true, Prod.forall, Field.accepts, Option.any_eq_true]

/-- Replacing the children keeps the slots satisfied if each new child fits where the old one did. -/
theorem slotsAccept_mapChildren {f : Node → Node} {node : Node} (h : node.slotsAccept = true)
    (hf : ∀ child ∈ node.children, ∀ slot : Slot,
      slot.accepts child.kind = true → slot.accepts (f child).kind = true) :
    (node.mapChildren f).slotsAccept = true := by
  rw [slotsAccept_iff] at h ⊢
  intro field part hmem child hc
  rw [fields, kind_mapChildren, parts_mapChildren, List.zip_map_right, List.mem_map] at hmem
  obtain ⟨⟨field₀, part₀⟩, hmem₀, heq⟩ := hmem
  obtain ⟨rfl, rfl⟩ := Prod.mk.injEq .. ▸ heq
  rw [Part.nodes_map, List.mem_map] at hc
  obtain ⟨child₀, hc₀, rfl⟩ := hc
  obtain ⟨slot, hslot, hacc⟩ := h _ _ hmem₀ child₀ hc₀
  have hchild : child₀ ∈ node.children :=
    mem_children_of_mem_nodes (List.of_mem_zip hmem₀).2 hc₀
  exact ⟨slot, hslot, hf child₀ hchild slot hacc⟩

/-! ## Height -/

/-- The largest of some numbers, at least zero. -/
def tallest (heights : List Nat) : Nat := heights.foldr max 0

/-- No height is above the tallest. -/
theorem le_tallest {heights : List Nat} {n : Nat} (h : n ∈ heights) : n ≤ tallest heights := by
  induction heights with
  | nil => cases h
  | cons first rest ih =>
    rw [tallest, List.foldr_cons]
    rcases List.mem_cons.mp h with rfl | hr
    · exact Nat.le_max_left _ _
    · exact Nat.le_trans (ih hr) (Nat.le_max_right _ _)

/-- The tallest is no higher than a bound for all. -/
theorem tallest_le {heights : List Nat} {n : Nat} (h : ∀ m ∈ heights, m ≤ n) :
    tallest heights ≤ n := by
  induction heights with
  | nil => exact Nat.zero_le n
  | cons first rest ih =>
    rw [tallest, List.foldr_cons]
    exact Nat.max_le.mpr ⟨h first (List.mem_cons_self ..),
      ih fun m hm => h m (List.mem_cons_of_mem _ hm)⟩

/-- Of two lists the taller one counts. -/
theorem tallest_append (first second : List Nat) :
    tallest (first ++ second) = max (tallest first) (tallest second) := by
  induction first with
  | nil => exact (Nat.zero_max _).symm
  | cons n rest ih =>
    rw [tallest] at ih
    rw [List.cons_append, tallest, List.foldr_cons, ih, ← Nat.max_assoc]
    rfl

theorem tallest_reverse (heights : List Nat) : tallest heights.reverse = tallest heights := by
  induction heights with
  | nil => rfl
  | cons first rest ih =>
    rw [List.reverse_cons, tallest_append, ih]
    show max (tallest rest) (max first 0) = max first (tallest rest)
    omega

/-- Heights that all stand on the same base. -/
theorem max_tallest_map_add (n : Nat) (heights : List Nat) :
    max n (tallest (heights.map (n + ·))) = n + tallest heights := by
  induction heights with
  | nil => exact Nat.max_zero n
  | cons first rest ih =>
    simp only [tallest, List.map_cons, List.foldr_cons] at ih ⊢
    omega

/-- The levels of a tree, by recursion: one more than those of the tallest child. -/
def height (node : Node) : Nat :=
  1 + tallest (node.children.attach.map fun child => height child.val)
termination_by node
decreasing_by exact sizeOf_lt_of_mem_children child.property

/-- A node is one level on top of its tallest child. -/
theorem height_eq (node : Node) : node.height = 1 + tallest (node.children.map height) := by
  rw [height]
  congr 2
  exact List.attach_map_val

/-- A child is lower than its parent. -/
theorem height_lt_of_mem_children {node child : Node} (h : child ∈ node.children) :
    child.height < node.height := by
  have hle := le_tallest (List.mem_map_of_mem (f := height) h)
  rw [height_eq node]
  omega

/-- The lowest level among pending trees, each reaching down from its own level. -/
theorem deepestLevel_eq (deepest : Nat) (pending : List (Node × Nat)) :
    deepestLevel deepest pending
      = max deepest (tallest (pending.map fun entry => entry.2 + entry.1.height - 1)) := by
  fun_induction deepestLevel deepest pending with
  | case1 deepest => simp [tallest]
  | case2 deepest node level others ih =>
    have levels : (node.stackedChildren level).map (fun entry => entry.2 + entry.1.height - 1)
        = ((node.children.map height).map (level + ·)).reverse := by
      rw [stackedChildren, List.map_reverse, List.map_map, List.map_map]
      congr 1
      apply List.map_congr_left
      intro child _
      show level + 1 + child.height - 1 = level + child.height
      omega
    have below := max_tallest_map_add level (node.children.map height)
    have whole : level + node.height - 1 = level + tallest (node.children.map height) := by
      rw [height_eq]
      omega
    rw [ih, List.map_append, tallest_append, levels, tallest_reverse, Nat.max_assoc,
      ← Nat.max_assoc level, below, ← whole]
    rfl

/-- The measure that keeps a stack of pending nodes finds the height. -/
theorem depth_eq (node : Node) : node.depth = node.height := by
  have pos : 0 < node.height := by rw [height_eq]; omega
  rw [depth, deepestLevel_eq]
  simp only [List.map_cons, List.map_nil, tallest, List.foldr_cons, List.foldr_nil]
  omega

/-- A tree that conforms within some levels has no more levels than those. -/
theorem depth_le_of_within {levels : Nat} {node : Node} (h : conformsWithin levels node = true) :
    node.depth ≤ levels := by
  rw [depth_eq]
  induction levels generalizing node with
  | zero => cases h
  | succ levels ih =>
    rw [conformsWithin, Bool.and_eq_true, List.all_eq_true] at h
    have below : tallest (node.children.map height) ≤ levels := by
      apply tallest_le
      intro n hn
      obtain ⟨child, hc, rfl⟩ := List.mem_map.mp hn
      exact ih (h.2 child hc)
    rw [height_eq]
    omega

end Node

end JsPrune
