import JsPrune.Filter.DeadBranch
import JsPrune.Proofs.Traversal

/-!
# What pruning makes of a tree

`DeadBranch.pruned` is the result of pruning without the machinery of traversal: a decided
conditional gives way to its live branch, again and again, and what is left has its children pruned.

Main result: `transform_filter_yields`. On a conforming tree of at most `maxDepth` levels the
dead-branch filter succeeds with `pruned` of the tree, whatever the predicate.
-/

namespace JsPrune

namespace DeadBranch

variable {known : Predicate} {node branch : Node}

/-! ## Live branches -/

/-- The four ways in which a node has a live branch. -/
theorem live?_cases (h : live? known node = some branch) :
    (∃ test no, node = .ifElse test branch no ∧ evalTest known test = .pass) ∨
    (∃ test yes no, node = .ifElse test yes no ∧ evalTest known test = .fail ∧
      branch = no.getD .empty) ∨
    (∃ test no, node = .conditional test branch no ∧ evalTest known test = .pass) ∨
    (∃ test yes, node = .conditional test yes branch ∧ evalTest known test = .fail) := by
  unfold live? at h
  split at h
  · next test yes no hv =>
    cases h
    exact .inl ⟨test, no, rfl, hv⟩
  · next test yes no hv =>
    cases h
    exact .inr (.inl ⟨test, yes, no, rfl, hv, rfl⟩)
  · next test yes no hv =>
    cases h
    exact .inr (.inr (.inl ⟨test, no, rfl, hv⟩))
  · next test yes no hv =>
    cases h
    exact .inr (.inr (.inr ⟨test, yes, rfl, hv⟩))
  · cases h

/-- A live branch is a child, or the lone semicolon in the place of an absent one. -/
theorem live?_mem_or_empty (h : live? known node = some branch) :
    branch ∈ node.children ∨ branch = .empty := by
  obtain ⟨test, no, rfl, _⟩ | ⟨test, yes, no, rfl, _, rfl⟩ | ⟨test, no, rfl, _⟩ |
    ⟨test, yes, rfl, _⟩ := live?_cases h
  · exact .inl (by simp)
  · cases no with
    | none => exact .inr rfl
    | some other => exact .inl (by simp)
  · exact .inl (by simp)
  · exact .inl (by simp)

/-- What passes from a node to its live branch holds of what is left in the end. -/
theorem settle_induction {motive : Node → Prop}
    (step : ∀ node branch, motive node → live? known node = some branch → motive branch) :
    ∀ node, motive node → motive (settle known node) := by
  intro node
  fun_induction settle known node with
  | case1 node hnone => exact id
  | case2 node branch hsome ih => exact fun h => ih (step node branch h hsome)

theorem settle_of_live?_eq_none (h : live? known node = none) : settle known node = node := by
  rw [settle]
  split
  · rfl
  · next hsome => rw [h] at hsome; cases hsome

theorem settle_of_live?_eq_some (h : live? known node = some branch) :
    settle known node = settle known branch := by
  rw [settle]
  split
  · next hnone => rw [h] at hnone; cases hnone
  · next other hsome =>
    rw [h] at hsome
    cases hsome
    rfl

/-- Nothing decided is left on top. -/
theorem live?_settle (known : Predicate) (node : Node) : live? known (settle known node) = none := by
  fun_induction settle known node with
  | case1 node hnone => exact hnone
  | case2 node branch _ ih => exact ih

theorem sizeOf_settle_le (known : Predicate) (node : Node) :
    sizeOf (settle known node) ≤ sizeOf node := by
  fun_induction settle known node with
  | case1 node => exact Nat.le_refl _
  | case2 node branch hsome ih => exact Nat.le_trans ih (Nat.le_of_lt (sizeOf_live?_lt hsome))

/-! ## Settling makes nothing worse -/

theorem conforms_empty : Node.empty.Conforms :=
  .intro rfl fun child h => by simp [Node.children, Node.parts] at h

theorem conforms_live? (h : node.Conforms) (hl : live? known node = some branch) :
    branch.Conforms := by
  rcases live?_mem_or_empty hl with hmem | rfl
  · exact h.of_mem_children hmem
  · exact conforms_empty

theorem height_live?_le (hl : live? known node = some branch) : branch.height ≤ node.height := by
  rcases live?_mem_or_empty hl with hmem | rfl
  · exact Nat.le_of_lt (Node.height_lt_of_mem_children hmem)
  · rw [Node.height_eq node, Node.height_eq .empty]
    simp [Node.children, Node.parts, Node.tallest]

/-- Only statements may stand where an `if` may. -/
theorem accepts_of_accepts_if {slot : Slot} {kind : Kind} (hs : slot.accepts .if_ = true)
    (hk : kind.isStatement = true) : slot.accepts kind = true := by
  cases slot with
  | statement => exact hk
  | _ => cases hs

/-- Any expression may stand where a conditional may. -/
theorem accepts_of_accepts_conditional {slot : Slot} {kind : Kind}
    (hs : slot.accepts .conditional = true) (hk : kind.isExpression = true) :
    slot.accepts kind = true := by
  cases slot with
  | expression => exact hk
  | forInit =>
    rw [Slot.accepts, hk]
    exact Bool.or_true _
  | _ => cases hs

theorem slotsAccept_ifElse {test yes : Node} {no : Option Node} :
    (Node.ifElse test yes no).slotsAccept = true ↔
      test.kind.isExpression = true ∧ yes.kind.isStatement = true ∧
        ∀ other ∈ no, other.kind.isStatement = true := by
  have fields : (Node.ifElse test yes no).fields
      = [(⟨"condition", .child .expression⟩, .child test), (⟨"body", .child .statement⟩, .child yes),
        (⟨"alternative", .optional .statement⟩, .optional no)] := rfl
  rw [Node.slotsAccept, fields]
  simp [Field.accepts, Part.nodes, Role.slot?, Slot.accepts]

theorem slotsAccept_conditional {test yes no : Node} :
    (Node.conditional test yes no).slotsAccept = true ↔
      test.kind.isExpression = true ∧ yes.kind.isExpression = true ∧
        no.kind.isExpression = true := by
  have fields : (Node.conditional test yes no).fields
      = [(⟨"condition", .child .expression⟩, .child test),
        (⟨"consequent", .child .expression⟩, .child yes),
        (⟨"alternative", .child .expression⟩, .child no)] := rfl
  rw [Node.slotsAccept, fields]
  simp [Field.accepts, Part.nodes, Role.slot?, Slot.accepts]

/-- The branches of a statement are statements, and those of an expression are expressions. -/
theorem accepts_live? {slot : Slot} (h : node.Conforms) (hs : slot.accepts node.kind = true)
    (hl : live? known node = some branch) : slot.accepts branch.kind = true := by
  have hslots := h.slots
  obtain ⟨test, no, rfl, _⟩ | ⟨test, yes, no, rfl, _, rfl⟩ | ⟨test, no, rfl, _⟩ |
    ⟨test, yes, rfl, _⟩ := live?_cases hl
  · exact accepts_of_accepts_if hs (slotsAccept_ifElse.mp hslots).2.1
  · cases no with
    | none => exact accepts_of_accepts_if hs rfl
    | some other => exact accepts_of_accepts_if hs ((slotsAccept_ifElse.mp hslots).2.2 other rfl)
  · exact accepts_of_accepts_conditional hs (slotsAccept_conditional.mp hslots).2.1
  · exact accepts_of_accepts_conditional hs (slotsAccept_conditional.mp hslots).2.2

theorem gentle_settle (known : Predicate) : Filter.Gentle (settle known) where
  conforms h := settle_induction (fun _ _ hc hl => conforms_live? hc hl) _ h
  height_le node :=
    settle_induction (motive := fun n => n.height ≤ node.height)
      (fun _ _ hle hl => Nat.le_trans (height_live?_le hl) hle) node (Nat.le_refl _)
  accepted {node slot} hc hs :=
    (settle_induction (motive := fun n => n.Conforms ∧ slot.accepts n.kind = true)
      (fun _ _ h hl => ⟨conforms_live? h.1 hl, accepts_live? h.1 h.2 hl⟩) node ⟨hc, hs⟩).2

/-! ## The pruned tree -/

/-- The tree without its dead branches. -/
def pruned (known : Predicate) (node : Node) : Node :=
  (settle known node).withParts ((settle known node).parts.attach.map fun part =>
    part.val.mapMem fun child _ => pruned known child)
termination_by node
decreasing_by
  exact Nat.lt_of_lt_of_le
    (Node.sizeOf_lt_of_mem_children (Node.mem_children_of_mem_nodes part.property (by assumption)))
    (sizeOf_settle_le known node)

theorem pruned_eq (known : Predicate) (node : Node) :
    pruned known node = (settle known node).mapChildren (pruned known) := by
  rw [pruned, Node.mapChildren]
  simp only [Part.mapMem_eq_map]
  exact congrArg _ List.attach_map_val

/-- Induction along the recursion of `pruned`: from the children of what settling leaves. -/
theorem pruned_induction (known : Predicate) {motive : Node → Prop}
    (step : ∀ node, (∀ child ∈ (settle known node).children, motive child) → motive node)
    (node : Node) : motive node :=
  step node fun child _ => pruned_induction known step child
termination_by node
decreasing_by
  exact Nat.lt_of_lt_of_le (Node.sizeOf_lt_of_mem_children (by assumption))
    (sizeOf_settle_le known node)

/-- The filter goes on with what settling leaves. -/
theorem filter_rewrites {σ : Type} (known : Predicate) (observe : Node → σ → σ) :
    (filter known observe).Rewrites (settle known) := by
  intro later node trail
  cases hl : live? known node with
  | none =>
    refine ⟨false, ?_⟩
    rw [settle_of_live?_eq_none hl, filter]
    simp only [hl]
    exact ⟨_, rfl⟩
  | some branch =>
    refine ⟨true, ?_⟩
    rw [filter]
    simp only [hl]
    exact ⟨_, rfl⟩

/-- A traversal that prunes comes back with the pruned tree. -/
theorem walk_filter_yields {σ : Type} (known : Predicate) (observe : Node → σ → σ)
    {tree : Node} (hc : tree.Conforms) (hd : tree.depth ≤ maxDepth) :
    Yields (Filter.walk maxDepth [filter known observe] tree) (.node (pruned known tree)) :=
  Filter.walk_yields hd (Filter.walkNode_yields (filter_rewrites known observe)
    (gentle_settle known) (pruned_eq known) maxDepth tree hc (Node.depth_eq tree ▸ hd))

/-- **Pruning succeeds**, and its result is the pruned tree. -/
theorem transform_filter_yields {σ : Type} (known : Predicate) (observe : Node → σ → σ)
    {tree : Node} (hc : tree.Conforms) (hd : tree.depth ≤ maxDepth) :
    Yields (Filter.transform maxDepth [filter known observe] tree) (pruned known tree) :=
  Filter.transform_yields (filter_rewrites known observe) (gentle_settle known)
    (pruned_eq known) hc hd

end DeadBranch

end JsPrune
