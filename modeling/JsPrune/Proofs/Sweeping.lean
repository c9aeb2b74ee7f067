import JsPrune.Filter.Minify
import JsPrune.Proofs.Sifting

/-!
# What minifying makes of a tree

`Minify.swept` is the result of minifying without the machinery of traversal: the children of a node
are swept first, and then the node is removed if nothing is left for it to do. Only lone semicolons
and blocks are ever removed, and these stand in statement positions alone, so nothing that a node
needs is lost.

Main results: `minify_yields`, that minifying a conforming tree succeeds with the swept tree, and
`grammatical_swept`, that what is left is grammatical.
-/

namespace JsPrune.Minify

/-- What is left of a tree without statements that do nothing. -/
def swept (node : Node) : Outcome :=
  drop (.node (node.withParts (node.parts.attach.map fun part =>
    part.val.siftMem fun child _ => swept child)))
termination_by node
decreasing_by
  exact Node.sizeOf_lt_of_mem_children
    (Node.mem_children_of_mem_nodes part.property (by assumption))

theorem swept_eq (node : Node) : swept node = drop (.node (node.siftChildren swept)) := by
  rw [swept, Node.siftChildren]
  simp only [Part.siftMem_eq_sift]
  exact congrArg (fun parts => drop (.node (node.withParts parts))) List.attach_map_val

theorem kind_of_isDroppable {node : Node} (h : isDroppable node = true) :
    node.kind = .emptyStatement ∨ node.kind = .block := by
  unfold isDroppable at h
  split at h
  · exact .inl rfl
  · exact .inr rfl
  · cases h

/-- A node stays with its children swept, or it was a lone semicolon or a block and is gone. -/
theorem swept_cases (node : Node) : swept node = .node (node.siftChildren swept) ∨
    (swept node = .removed ∧ (node.kind = .emptyStatement ∨ node.kind = .block)) := by
  rw [swept_eq]
  unfold drop
  by_cases h : isDroppable (node.siftChildren swept) = true
  · have kind := kind_of_isDroppable h
    rw [Node.kind_siftChildren] at kind
    exact .inr ⟨if_pos h, kind⟩
  · exact .inl (if_neg h)

/-- A node that is no lone semicolon and no block stays. -/
theorem swept_of_kind {node : Node} (hempty : node.kind ≠ .emptyStatement)
    (hblock : node.kind ≠ .block) : swept node = .node (node.siftChildren swept) := by
  rcases swept_cases node with hswept | ⟨_, hkind | hkind⟩
  · exact hswept
  · exact absurd hkind hempty
  · exact absurd hkind hblock

/-- Whatever is left fits where the node stood. -/
theorem takes_swept {node : Node} {slot : Slot} (h : slot.accepts node.kind = true) :
    slot.Takes (swept node) := by
  rcases swept_cases node with hswept | ⟨hswept, hkind⟩
  · rw [hswept]
    show slot.accepts (node.siftChildren swept).kind = true
    rw [Node.kind_siftChildren]
    exact h
  · rw [hswept]
    show slot = .statement
    rcases hkind with hkind | hkind <;> rw [hkind] at h <;> cases slot <;> first | rfl | cases h

/-! ## Traversal -/

variable {σ : Type}

/-- The filter looks at a node again after the rest of the chain has dealt with it. -/
theorem runChain_drop {later : List (Filter σ)} {walk : Node → Walk σ Outcome} {node : Node}
    {outcome : Outcome} (h : Yields (Filter.runChain walk later node) outcome) :
    Yields (Filter.runChain walk (filter :: later) node) (drop outcome) := by
  rw [Filter.runChain]
  exact Yields.lift_bind fun trail => ⟨_, trail, rfl, h.mapResult drop⟩

theorem runChain_yields {walk : Node → Walk σ Outcome} {node out : Node}
    (h : Yields (node.descend walk) out) :
    Yields (Filter.runChain walk [filter] node) (drop (.node out)) :=
  runChain_drop (h.map Outcome.node)

theorem walkNode_yields {levels : Nat} {node : Node} (hc : node.Conforms)
    (hle : node.height ≤ levels) : Yields (σ := σ) (Filter.walkNode [filter] levels node) (swept node) := by
  induction levels generalizing node with
  | zero =>
    rw [Node.height_eq] at hle
    omega
  | succ levels ih =>
    have below : ∀ child ∈ node.children,
        Yields (σ := σ) (Filter.walkNode [filter] levels child) (swept child) := by
      intro child hchild
      have hlt := Node.height_lt_of_mem_children hchild
      exact ih (hc.of_mem_children hchild) (by omega)
    have taken : ∀ field part, (field, part) ∈ node.fields → ∀ child ∈ part.nodes,
        ∃ slot, field.role.slot? = some slot ∧ slot.Takes (swept child) := by
      intro field part hentry child hchild
      obtain ⟨slot, hslot, haccepts⟩ :=
        Node.slotsAccept_iff.mp hc.slots field part hentry child hchild
      exact ⟨slot, hslot, takes_swept haccepts⟩
    rw [Filter.walkNode, swept_eq]
    exact (Yields.modify _).bind (runChain_yields (Node.descend_yields_sift below taken))

/-- **Minifying succeeds**, and its result is the swept tree, or a lone semicolon if nothing is
left. -/
theorem minify_yields {tree : Node} (hc : tree.Conforms) (hd : tree.depth ≤ maxDepth) :
    Yields (σ := σ) (minify tree) ((swept tree).toOption.getD .empty) := by
  have walked : Yields (σ := σ) (Filter.walk maxDepth [filter] tree) (swept tree) :=
    Filter.walk_yields hd (walkNode_yields hc (Node.depth_eq tree ▸ hd))
  exact walked.bind (Yields.pure _)

/-! ## Staying inside the grammar -/

theorem faithful_swept {node : Node} (h : node.Grammatical) : Node.Faithful swept node where
  takes _ := takes_swept
  assignable := by
    intro hassignable
    cases node with
    | identifier name => exact ⟨_, swept_of_kind nofun nofun, rfl⟩
    | dot owner name => exact ⟨_, swept_of_kind nofun nofun, rfl⟩
    | sub owner index => exact ⟨_, swept_of_kind nofun nofun, rfl⟩
    | _ => cases hassignable
  single := by
    rintro tag definition rfl
    have holds : (Node.declaration tag [definition]).Holds .definition definition :=
      .declaration tag (.head _)
    have kind : definition.kind = .varDef := eq_of_beq (holds.accepts h.conforms.slots)
    have kept : swept definition = .node (definition.siftChildren swept) :=
      swept_of_kind (by rw [kind]; nofun) (by rw [kind]; nofun)
    have whole : (Node.declaration tag [definition]).siftChildren swept
        = .declaration tag [definition.siftChildren swept] := by
      have parts : [definition].filterMap (fun child => (swept child).toOption)
          = [definition.siftChildren swept] := by
        rw [List.filterMap_cons, kept]
        rfl
      rw [← parts]
      cases tag <;> rfl
    refine ⟨definition.siftChildren swept, ?_⟩
    rw [← whole]
    cases tag <;> exact swept_of_kind nofun nofun

/-- What is left of a grammatical tree is grammatical. -/
theorem grammatical_swept {node left : Node} (h : node.Grammatical) (hleft : swept node = .node left) :
    left.Grammatical := by
  induction node using Node.childInduction generalizing left with
  | step node ih =>
    have below := (Node.throughout_iff.mp h).2
    have whole : (node.siftChildren swept).Grammatical :=
      Node.grammatical_siftChildren h (fun child hchild => faithful_swept (below child hchild))
        fun child hchild left hleft => ih child hchild (below child hchild) hleft
    rcases swept_cases node with hswept | ⟨hswept, _⟩
    · rw [hswept] at hleft
      cases hleft
      exact whole
    · rw [hswept] at hleft
      cases hleft

end JsPrune.Minify
