import JsPrune.Proofs.Meaning
import JsPrune.Proofs.Sweeping

/-!
# Minifying yields a normal form

A statement is vacuous when it is a lone semicolon or a block of vacuous statements. Minifying
decides one node at a time, on the way up, by looking at what is left of it. That this finds exactly
the vacuous statements is `swept_eq_removed_iff`.

What is left is `Tidy`: nothing that does nothing stands in a list or in an optional field, and where
a statement has to stand it is at least no empty block. A tidy tree is left alone (`swept_of_tidy`),
so minifying a second time changes nothing. Nothing else is touched: `essence`, the pre-order of the
nodes that are not vacuous, by kind and literals, stays as it was (`essence_left`).

Main result: `minify_normalizes`.
-/

namespace JsPrune

/-! ## What a node is apart from its children -/

/-- The plain data in a field. -/
def Part.datum? : Part → Option Datum
  | .literal datum => some datum
  | _ => none

/-- Sifting children leaves plain data alone. -/
theorem Part.datum?_sift (f : Node → Outcome) (part : Part) : (part.sift f).datum? = part.datum? := by
  cases part <;> rfl

/-- The kind and the literals of a node. -/
structure Label where
  kind : Kind
  leaf : Option Leaf
  data : List Datum

namespace Node

/-- A node without its children. -/
def label (node : Node) : Label := ⟨node.kind, node.leaf?, node.parts.filterMap Part.datum?⟩

/-- Sifting the children of a node keeps its label. -/
theorem label_siftChildren (f : Node → Outcome) (node : Node) :
    (node.siftChildren f).label = node.label := by
  by_cases h : node.kind.recipe? = none
  · rw [siftChildren_of_recipe?_eq_none f h]
  · have same : Part.datum? ∘ Part.sift f = Part.datum? := funext fun part => part.datum?_sift f
    rw [label, label, kind_siftChildren, parts_siftChildren, List.filterMap_map, same,
      leaf?_eq_none h, leaf?_eq_none (kind_siftChildren f node ▸ h)]

/-! ## Statements that do nothing -/

/-- A lone semicolon, or a block that holds nothing but such statements. -/
def isVacuous (node : Node) : Bool :=
  (node.kind == .emptyStatement || node.kind == .block) &&
    node.children.attach.all fun child => isVacuous child.val
termination_by node
decreasing_by exact sizeOf_lt_of_mem_children child.property

/-- What does nothing is an empty statement, or a block of what does nothing. -/
theorem isVacuous_iff {node : Node} : node.isVacuous = true ↔
    (node.kind = .emptyStatement ∨ node.kind = .block) ∧
      ∀ child ∈ node.children, child.isVacuous = true := by
  rw [isVacuous]
  simp

theorem isVacuous_empty : Node.empty.isVacuous = true :=
  isVacuous_iff.mpr ⟨.inl rfl, nofun⟩

/-- A block is vacuous when its statements are. -/
theorem isVacuous_block {statements : List Node} :
    (block statements).isVacuous = true ↔ ∀ child ∈ statements, child.isVacuous = true := by
  have children : (block statements).children = statements := List.append_nil statements
  rw [isVacuous_iff, children]
  exact ⟨fun h => h.2, fun h => ⟨.inr rfl, h⟩⟩

/-- The nodes that are not vacuous, parents first, by kind and literals. -/
def essence (node : Node) : List Label :=
  (node.preorder.filter fun inner => !inner.isVacuous).map label

/-- The essence of a node is its label and the essence of its children, unless it does nothing. -/
theorem essence_eq (node : Node) : node.essence =
    if node.isVacuous then [] else node.label :: node.children.flatMap essence := by
  induction node using childInduction with
  | step node ih =>
    have below : ((node.children.flatMap preorder).filter fun inner => !inner.isVacuous).map label
        = node.children.flatMap essence := by
      rw [List.filter_flatMap, List.map_flatMap]
      rfl
    rw [essence, preorder_eq, List.filter_cons]
    by_cases h : node.isVacuous = true
    · -- A vacuous node is vacuous all the way down.
      have none : node.children.flatMap essence = [] := by
        rw [List.flatMap_eq_nil_iff]
        intro child hchild
        rw [ih child hchild, if_pos ((isVacuous_iff.mp h).2 child hchild)]
      rw [if_pos h, h, Bool.not_true, if_neg Bool.false_ne_true, below, none]
    · rw [if_neg h, Bool.eq_false_iff.mpr h, Bool.not_false, if_pos rfl, List.map_cons, below]

/-- What does nothing has no essence. -/
theorem essence_of_isVacuous {node : Node} (h : node.isVacuous = true) : node.essence = [] := by
  rw [essence_eq, if_pos h]

end Node

namespace Minify

open Node

/-- What is left after a round of the filter does nothing only if it is a lone semicolon or an empty
block. -/
theorem isDroppable_eq_false {node : Node} (hempty : node ≠ .empty) (hblock : node ≠ .block []) :
    isDroppable node = false := by
  unfold isDroppable
  split
  · exact absurd rfl hempty
  · exact absurd rfl hblock
  · rfl

/-- A lone semicolon is swept away. -/
theorem swept_empty : swept .empty = .removed := by
  rw [swept_eq]
  rfl

/-- A block is swept after its statements, and then dropped if nothing is left. -/
theorem swept_block (statements : List Node) : swept (.block statements)
    = drop (.node (.block (statements.filterMap fun child => (swept child).toOption))) := by
  rw [swept_eq]
  rfl

/-- The kinds that can do nothing are these two. -/
theorem eq_empty_or_block {node : Node} (h : node.kind = .emptyStatement ∨ node.kind = .block) :
    node = .empty ∨ ∃ statements, node = .block statements := by
  cases node with
  | empty => exact .inl rfl
  | body tag statements =>
    cases tag with
    | block => exact .inr ⟨statements, rfl⟩
    | _ => rcases h with h | h <;> cases h
  | declaration tag _ | loop tag _ _ | exit tag _ | jump tag _ | lambda tag _ _ _ | call tag _ _
  | unary tag _ _ | binary tag _ _ _ => cases tag <;> rcases h with h | h <;> cases h
  | _ => rcases h with h | h <;> cases h

/-- A block goes when all of its statements do. -/
theorem swept_block_eq_removed_iff {statements : List Node} :
    swept (.block statements) = .removed ↔ ∀ child ∈ statements, swept child = .removed := by
  have gone (outcome : Outcome) : outcome.toOption = none ↔ outcome = .removed := by
    cases outcome <;> simp [Outcome.toOption]
  have none : (statements.filterMap fun child => (swept child).toOption) = [] ↔
      ∀ child ∈ statements, swept child = .removed := by
    simp only [List.filterMap_eq_nil_iff, gone]
  rw [swept_block, ← none, drop]
  cases statements.filterMap fun child => (swept child).toOption with
  | nil => simp [isDroppable]
  | cons first rest => simp [isDroppable]

/-- **Exactly the vacuous statements are removed.** -/
theorem swept_eq_removed_iff (node : Node) : swept node = .removed ↔ node.isVacuous = true := by
  induction node using childInduction with
  | step node ih =>
    by_cases hkind : node.kind = .emptyStatement ∨ node.kind = .block
    · rcases eq_empty_or_block hkind with rfl | ⟨statements, rfl⟩
      · exact iff_of_true swept_empty isVacuous_empty
      · have children : (block statements).children = statements := List.append_nil statements
        rw [children] at ih
        rw [swept_block_eq_removed_iff, isVacuous_block]
        exact forall₂_congr ih
    · have stays := swept_of_kind (fun h => hkind (.inl h)) fun h => hkind (.inr h)
      rw [stays]
      exact iff_of_false nofun fun h => hkind (isVacuous_iff.mp h).1

/-- What is left of a node is the node with its children sifted. -/
theorem eq_siftChildren_of_swept {node left : Node} (h : swept node = .node left) :
    left = node.siftChildren swept := by
  rcases swept_cases node with hswept | ⟨hswept, _⟩
  · rw [hswept] at h
    cases h
    rfl
  · rw [hswept] at h
    cases h

/-- What stays is not vacuous. -/
theorem isVacuous_of_swept {node left : Node} (h : swept node = .node left) :
    left.isVacuous = false := by
  induction node using childInduction generalizing left with
  | step node ih =>
    rw [Bool.eq_false_iff]
    intro hvacuous
    have whole := eq_siftChildren_of_swept h
    -- Sweeping keeps the kind, so the node itself was a lone semicolon or a block.
    have hkind := (isVacuous_iff.mp hvacuous).1
    rw [whole, kind_siftChildren] at hkind
    rcases eq_empty_or_block hkind with rfl | ⟨statements, rfl⟩
    · rw [swept_empty] at h
      cases h
    · -- Some statement of the block stays, and by induction it is not vacuous.
      have stays : ¬ ∀ child ∈ statements, swept child = .removed := by
        rw [← swept_block_eq_removed_iff, h]
        nofun
      refine stays fun child hchild => ?_
      cases hswept : swept child with
      | removed => rfl
      | node new =>
        have kept : new ∈ statements.filterMap fun child => (swept child).toOption :=
          List.mem_filterMap.mpr ⟨child, hchild, by rw [hswept]; rfl⟩
        have below : child ∈ (block statements).children := List.mem_append_left _ hchild
        have solid := ih child below hswept
        subst whole
        rw [isVacuous_block.mp hvacuous new kept] at solid
        cases solid

/-! ## Nothing else is touched -/

/-- Sifting keeps the essence of the children, if sweeping each of them does. -/
theorem flatMap_essence_sift {part : Part}
    (h : ∀ child ∈ part.nodes, (swept child).toOption.toList.flatMap essence = child.essence) :
    (part.sift swept).nodes.flatMap essence = part.nodes.flatMap essence := by
  cases part with
  | literal datum => rfl
  | child node =>
    have left := h node (List.mem_singleton.mpr rfl)
    show [(swept node).toOption.getD .empty].flatMap essence = [node].flatMap essence
    rw [List.flatMap_singleton, List.flatMap_singleton, ← left]
    cases swept node with
    | node new => exact (List.flatMap_singleton ..).symm
    | removed => exact essence_of_isVacuous isVacuous_empty
  | optional node =>
    cases node with
    | none => rfl
    | some node =>
      have left := h node (List.mem_singleton.mpr rfl)
      show _ = [node].flatMap essence
      rw [List.flatMap_singleton]
      exact left
  | sequence nodes =>
    show (nodes.filterMap fun child => (swept child).toOption).flatMap essence = nodes.flatMap essence
    rw [List.filterMap_eq_flatMap_toList, List.flatMap_assoc]
    exact List.flatMap_congr h

/-- The essence of what is left of a node is that of the node. -/
theorem essence_left (node : Node) :
    (swept node).toOption.toList.flatMap essence = node.essence := by
  induction node using childInduction with
  | step node ih =>
    cases hswept : swept node with
    | removed =>
      rw [essence_of_isVacuous ((swept_eq_removed_iff node).mp hswept)]
      rfl
    | node left =>
      have solid : node.isVacuous = false := by
        rw [Bool.eq_false_iff, ne_eq, ← swept_eq_removed_iff, hswept]
        nofun
      have whole := eq_siftChildren_of_swept hswept
      have below : left.children.flatMap essence = node.children.flatMap essence := by
        rw [whole, children, parts_siftChildren, List.flatMap_map, List.flatMap_assoc, children,
          List.flatMap_assoc]
        exact List.flatMap_congr fun part hpart =>
          flatMap_essence_sift fun child hchild => ih child (mem_children_of_mem_nodes hpart hchild)
      show [left].flatMap essence = node.essence
      rw [List.flatMap_singleton, essence_eq, essence_eq node, isVacuous_of_swept hswept, solid, below,
        whole, label_siftChildren]

end Minify

/-! ## The normal form -/

/-- No list and no optional field holds a lone semicolon or an empty block, and no required child is
an empty block. -/
def Part.Tidy : Part → Prop
  | .literal _ => True
  | .child node => node ≠ .block []
  | .optional node => ∀ child ∈ node, child ≠ .empty ∧ child ≠ .block []
  | .sequence nodes => ∀ child ∈ nodes, child ≠ .empty ∧ child ≠ .block []

/-- Every part of every node is tidy. -/
def Node.Tidy (node : Node) : Prop := ∀ inner ∈ node.preorder, ∀ part ∈ inner.parts, part.Tidy

/-- A node is tidy when its parts and its children are. -/
theorem Node.tidy_iff {node : Node} :
    node.Tidy ↔ (∀ part ∈ node.parts, part.Tidy) ∧ ∀ child ∈ node.children, child.Tidy :=
  forall_preorder

theorem Node.tidy_empty : Node.empty.Tidy :=
  tidy_iff.mpr ⟨List.forall_mem_nil _, List.forall_mem_nil _⟩

namespace Minify

open Node

/-- What stays is no lone semicolon and no empty block. -/
theorem ne_of_swept {node left : Node} (h : swept node = .node left) :
    left ≠ .empty ∧ left ≠ .block [] := by
  have solid := isVacuous_of_swept h
  have vacuous : (block []).isVacuous = true := isVacuous_block.mpr (List.forall_mem_nil _)
  constructor <;> rintro rfl
  · rw [isVacuous_empty] at solid
    cases solid
  · rw [vacuous] at solid
    cases solid

/-- A list of children that has been sifted holds nothing that could be dropped. -/
theorem tidy_sift (part : Part) : (part.sift swept).Tidy := by
  have stays {child left : Node} (h : (swept child).toOption = some left) :
      left ≠ .empty ∧ left ≠ .block [] := by
    cases hswept : swept child with
    | removed =>
      rw [hswept] at h
      cases h
    | node new =>
      rw [hswept] at h
      cases h
      exact ne_of_swept hswept
  cases part with
  | literal datum => trivial
  | child node =>
    show (swept node).toOption.getD .empty ≠ .block []
    cases hswept : swept node with
    | removed => nofun
    | node left => exact (ne_of_swept hswept).2
  | optional node =>
    intro left hleft
    obtain ⟨child, _, hchild⟩ := Option.bind_eq_some_iff.mp hleft
    exact stays hchild
  | sequence nodes =>
    intro left hleft
    obtain ⟨child, _, hchild⟩ := List.mem_filterMap.mp hleft
    exact stays hchild

/-- What is left is tidy. -/
theorem tidy_of_swept {node left : Node} (h : swept node = .node left) : left.Tidy := by
  induction node using childInduction generalizing left with
  | step node ih =>
    rw [eq_siftChildren_of_swept h, tidy_iff]
    refine ⟨fun part hpart => ?_, fun child hchild => ?_⟩
    · rw [parts_siftChildren] at hpart
      obtain ⟨old, _, rfl⟩ := List.mem_map.mp hpart
      exact tidy_sift old
    · obtain ⟨old, hold, hswept | ⟨_, rfl⟩⟩ := mem_children_siftChildren hchild
      · exact ih old hold hswept
      · exact tidy_empty

/-- A part whose children stay as they are stays as it is. A required child may be a lone semicolon:
it goes, and another one is put in its place. -/
theorem sift_of_tidy {part : Part} (ht : part.Tidy)
    (h : ∀ child ∈ part.nodes, child ≠ .empty → child ≠ .block [] → swept child = .node child) :
    part.sift swept = part := by
  cases part with
  | literal datum => rfl
  | child node =>
    refine congrArg Part.child ?_
    by_cases hempty : node = .empty
    · rw [hempty, swept_empty]
      rfl
    · rw [h node (List.mem_singleton.mpr rfl) hempty ht]
      rfl
  | optional node =>
    cases node with
    | none => rfl
    | some node =>
      have stays := h node (List.mem_singleton.mpr rfl) (ht node rfl).1 (ht node rfl).2
      show Part.optional (swept node).toOption = _
      rw [stays]
      rfl
  | sequence nodes =>
    have stays : ∀ child ∈ nodes, (swept child).toOption = some child := by
      intro child hchild
      rw [h child hchild (ht child hchild).1 (ht child hchild).2]
      rfl
    show Part.sequence (nodes.filterMap fun child => (swept child).toOption) = _
    rw [List.filterMap_congr stays, List.filterMap_some]

/-- **A tidy tree is left alone.** -/
theorem swept_of_tidy {node : Node} (ht : node.Tidy) (hempty : node ≠ .empty)
    (hblock : node ≠ .block []) : swept node = .node node := by
  induction node using childInduction with
  | step node ih =>
    obtain ⟨parts, below⟩ := tidy_iff.mp ht
    have same : node.parts.map (Part.sift swept) = node.parts := by
      refine (List.map_congr_left fun part hpart => sift_of_tidy (parts part hpart) ?_).trans
        (List.map_id _)
      intro child hchild
      have mem := mem_children_of_mem_nodes hpart hchild
      exact ih child mem (below child mem)
    rw [swept_eq, siftChildren, same, withParts_parts, drop, isDroppable_eq_false hempty hblock]
    rfl

/-! ## Minifying again -/

/-- What is left of a conforming node conforms. -/
theorem conforms_of_swept {node left : Node} (hc : node.Conforms) (h : swept node = .node left) :
    left.Conforms := by
  induction node using childInduction generalizing left with
  | step node ih =>
    rw [eq_siftChildren_of_swept h]
    refine .intro (slotsAccept_siftChildren fun field part hentry child hchild => ?_)
      fun child hchild => ?_
    · obtain ⟨slot, hslot, haccepts⟩ := slotsAccept_iff.mp hc.slots field part hentry child hchild
      exact ⟨slot, hslot, takes_swept haccepts⟩
    · obtain ⟨old, hold, hswept | ⟨_, rfl⟩⟩ := mem_children_siftChildren hchild
      · exact ih old hold (hc.of_mem_children hold) hswept
      · exact .intro rfl nofun

/-- Nothing gets taller by being swept. -/
theorem height_of_swept_le {node left : Node} (h : swept node = .node left) :
    left.height ≤ node.height := by
  induction node using childInduction generalizing left with
  | step node ih =>
    have below : tallest (left.children.map height) ≤ node.height - 1 := by
      refine tallest_le fun n hn => ?_
      obtain ⟨child, hchild, rfl⟩ := List.mem_map.mp hn
      rw [eq_siftChildren_of_swept h] at hchild
      obtain ⟨old, hold, hswept | ⟨_, rfl⟩⟩ := mem_children_siftChildren hchild
      · have shorter := ih old hold hswept
        have lower := height_lt_of_mem_children hold
        omega
      · have lower := height_lt_of_mem_children hold
        have some : 0 < old.height := by rw [height_eq]; omega
        have one : Node.empty.height = 1 := by rw [height_eq]; rfl
        omega
    have some : 0 < node.height := by rw [height_eq]; omega
    rw [height_eq left]
    omega

variable {σ : Type}

/-- **Minifying computes a normal form and touches nothing else.** Minifying a conforming tree of at
most `maxDepth` levels succeeds. The result is tidy, its nodes that are not vacuous are those of the
tree, and minifying it again gives it back. -/
theorem minify_normalizes {tree : Node} (hc : tree.Conforms) (hd : tree.depth ≤ maxDepth) :
    ∃ least, Yields (σ := σ) (minify tree) least ∧ least.Tidy ∧ least.essence = tree.essence ∧
      Yields (σ := σ) (minify least) least := by
  have first : Yields (σ := σ) (minify tree) _ := minify_yields hc hd
  refine ⟨_, first, ?_⟩
  have touched := essence_left tree
  cases hswept : swept tree with
  | removed =>
    -- Nothing is left, and a lone semicolon stands for that. It goes again, and so on.
    have fine : Node.conformsWithin 1 .empty = true := rfl
    have again := minify_yields (σ := σ) (.of_within fine)
      (Nat.le_trans (depth_le_of_within fine) (by decide))
    rw [swept_empty] at again
    rw [hswept] at touched
    refine ⟨tidy_empty, ?_, again⟩
    rw [← touched]
    exact essence_of_isVacuous isVacuous_empty
  | node left =>
    have shallow : left.depth ≤ maxDepth := by
      have shorter := height_of_swept_le hswept
      rw [depth_eq] at hd ⊢
      exact Nat.le_trans shorter hd
    have tidy := tidy_of_swept hswept
    have again := minify_yields (σ := σ) (conforms_of_swept hc hswept) shallow
    rw [swept_of_tidy tidy (ne_of_swept hswept).1 (ne_of_swept hswept).2] at again
    rw [hswept] at touched
    refine ⟨tidy, ?_, again⟩
    rw [← touched]
    exact (List.flatMap_singleton ..).symm

/-- `while (a) { { ; } } if (b) c; else { } { d; { } }` -/
def cluttered : Node := .toplevel
  [.loop .while_ (.identifier "a") (.block [.block [.empty]]),
    .ifElse (.identifier "b") (.simple (.identifier "c")) (some (.block [])),
    .block [.simple (.identifier "d"), .block []]]

theorem minify_normalizes_cluttered : cluttered.Conforms ∧ cluttered.depth ≤ maxDepth ∧
    ∃ least, Yields (σ := Unit) (minify cluttered) least ∧ least.Tidy ∧
      least.essence = cluttered.essence ∧ Yields (σ := Unit) (minify least) least := by
  have fine : Node.conformsWithin 6 cluttered = true := by decide
  have shallow : cluttered.depth ≤ maxDepth :=
    Nat.le_trans (Node.depth_le_of_within fine) (by decide)
  exact ⟨.of_within fine, shallow, minify_normalizes (.of_within fine) shallow⟩

end Minify

end JsPrune
