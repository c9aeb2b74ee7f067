import JsPrune.Proofs.Grammatical

/-!
# Passes that stay inside the grammar

A pass replaces or removes the children of a node. `Faithful` is what it owes to each child so that
the parent stays grammatical: whatever becomes of the child is taken by every slot that accepts the
child, what can be assigned to still can be, and a declaration of one name still declares one name.
That is all that any node asks of its children, so `grammatical_siftChildren` settles all kinds of
nodes for all passes at once.
-/

namespace JsPrune

namespace Part

/-- What a field holds after the children were sifted: what became of them, and perhaps a lone
semicolon. -/
theorem mem_nodes_sift {f : Node → Outcome} {part : Part} {left : Node}
    (h : left ∈ (part.sift f).nodes) :
    ∃ child ∈ part.nodes, f child = .node left ∨ (f child = .removed ∧ left = .empty) := by
  have kept : ∀ {child : Node}, (f child).toOption = some left → f child = .node left := by
    intro child hchild
    cases hf : f child with
    | node new =>
      rw [hf] at hchild
      cases hchild
      rfl
    | removed =>
      rw [hf] at hchild
      cases hchild
  cases part with
  | literal datum => cases h
  | child node =>
    refine ⟨node, List.mem_singleton.mpr rfl, ?_⟩
    have same := List.mem_singleton.mp h
    cases hf : f node with
    | node new =>
      rw [hf] at same
      exact .inl (congrArg Outcome.node same.symm)
    | removed =>
      rw [hf] at same
      exact .inr ⟨rfl, same⟩
  | optional node? =>
    cases node? with
    | none => cases h
    | some node => exact ⟨node, List.mem_singleton.mpr rfl, .inl (kept (Option.mem_toList.mp h))⟩
  | sequence nodes =>
    obtain ⟨child, hchild, hleft⟩ := List.mem_filterMap.mp h
    exact ⟨child, hchild, .inl (kept hleft)⟩

end Part

namespace Node

variable {f : Node → Outcome} {node : Node}

theorem mem_fields_siftChildren {field : Field} {part : Part}
    (h : (field, part) ∈ (node.siftChildren f).fields) :
    ∃ old, (field, old) ∈ node.fields ∧ part = old.sift f := by
  unfold fields at h ⊢
  rw [kind_siftChildren, parts_siftChildren, List.zip_map_right, List.mem_map] at h
  obtain ⟨⟨field', old⟩, hmem, heq⟩ := h
  cases heq
  exact ⟨old, hmem, rfl⟩

/-- Each child of what is left comes from a child of the node, or is an empty statement in the place
of one that is gone. -/
theorem mem_children_siftChildren {left : Node} (h : left ∈ (node.siftChildren f).children) :
    ∃ child ∈ node.children, f child = .node left ∨ (f child = .removed ∧ left = .empty) := by
  obtain ⟨part, hpart, hleft⟩ := List.mem_flatMap.mp h
  rw [parts_siftChildren, List.mem_map] at hpart
  obtain ⟨old, hold, rfl⟩ := hpart
  obtain ⟨child, hchild, outcome⟩ := Part.mem_nodes_sift hleft
  exact ⟨child, mem_children_of_mem_nodes hold hchild, outcome⟩

/-- What the slots take they accept afterwards. -/
theorem slotsAccept_siftChildren
    (ha : ∀ field part, (field, part) ∈ node.fields → ∀ child ∈ part.nodes,
      ∃ slot, field.role.slot? = some slot ∧ slot.Takes (f child)) :
    (node.siftChildren f).slotsAccept = true := by
  rw [slotsAccept_iff]
  intro field part hentry left hleft
  obtain ⟨old, hold, rfl⟩ := mem_fields_siftChildren hentry
  obtain ⟨child, hchild, outcome⟩ := Part.mem_nodes_sift hleft
  obtain ⟨slot, hslot, takes⟩ := ha field old hold child hchild
  refine ⟨slot, hslot, ?_⟩
  rcases outcome with hf | ⟨hf, rfl⟩
  · rw [hf] at takes
    exact takes
  · rw [hf] at takes
    have statement : slot = .statement := takes
    rw [statement]
    rfl

/-! ## What a pass owes to a child -/

/-- Wherever the child may stand, what becomes of it may stand, and it is still the target of an
assignment or of a loop if it was. -/
structure Faithful (f : Node → Outcome) (child : Node) : Prop where
  takes : ∀ slot : Slot, slot.accepts child.kind = true → slot.Takes (f child)
  assignable : child.isAssignable = true →
    ∃ new, f child = .node new ∧ new.isAssignable = true
  single : ∀ tag definition, child = declaration tag [definition] →
    ∃ other, f child = .node (declaration tag [other])

/-- Only statements can be gone. -/
theorem Faithful.isSome {child : Node} (h : Faithful f child) {slot : Slot}
    (hne : slot ≠ .statement) (ha : slot.accepts child.kind = true) :
    (f child).toOption.isSome = true := by
  have takes := h.takes slot ha
  cases hf : f child with
  | node new => rfl
  | removed =>
    rw [hf] at takes
    exact absurd takes hne

/-- An optional child that is no statement is not lost. -/
theorem isSome_sift_optional (slot : Slot) {child? : Option Node} (hne : slot ≠ .statement)
    (hf : ∀ child ∈ child?, Faithful f child ∧ slot.accepts child.kind = true)
    (h : child?.isSome = true) : (child?.bind fun child => (f child).toOption).isSome = true := by
  cases child? with
  | none => cases h
  | some child => exact (hf child rfl).1.isSome hne (hf child rfl).2

/-- A list in a place for other nodes than statements keeps its length. -/
theorem length_sift_sequence (slot : Slot) {nodes : List Node} (hne : slot ≠ .statement)
    (hf : ∀ child ∈ nodes, Faithful f child ∧ slot.accepts child.kind = true) :
    (nodes.filterMap fun child => (f child).toOption).length = nodes.length :=
  List.filterMap_length_eq_length.mpr fun child hmem => (hf child hmem).1.isSome hne (hf child hmem).2

/-- The target of an assignment is still one. -/
theorem isAssignable_sift {child : Node} (hf : Faithful f child) (h : child.isAssignable = true) :
    ((f child).toOption.getD .empty).isAssignable = true := by
  obtain ⟨new, hnew, hassignable⟩ := hf.assignable h
  rw [hnew]
  exact hassignable

/-- A node is shaped well after its children were dealt with faithfully. -/
theorem shaped_siftChildren (hslots : node.slotsAccept = true) (hshaped : node.Shaped)
    (hf : ∀ child ∈ node.children, Faithful f child) : (node.siftChildren f).Shaped := by
  have held : ∀ {slot : Slot} {child : Node}, node.Holds slot child →
      Faithful f child ∧ slot.accepts child.kind = true :=
    fun holds => ⟨hf _ holds.mem_children, holds.accepts hslots⟩
  -- Only statements can be gone, so a list of other nodes stays as long and a value that has to be
  -- there stays there.
  cases node with
  | body tag statements => cases tag <;> trivial
  | loop tag test repeated => cases tag <;> trivial
  | call tag callee arguments => cases tag <;> trivial
  | jump tag label => cases tag <;> exact hshaped
  | lambda tag name parameters body => cases tag <;> exact hshaped
  | sequence expressions =>
    have all : (expressions.filterMap fun child => (f child).toOption).length = expressions.length :=
      length_sift_sequence .expression nofun fun _ hmem => held (.sequence hmem)
    show 2 ≤ (expressions.filterMap fun child => (f child).toOption).length
    rw [all]
    exact hshaped
  | declaration tag definitions =>
    have all : (definitions.filterMap fun child => (f child).toOption).length = definitions.length :=
      length_sift_sequence .definition nofun fun _ hmem => held (.declaration tag hmem)
    have shaped : 1 ≤ (definitions.filterMap fun child => (f child).toOption).length := by
      rw [all]
      exact hshaped
    cases tag <;> exact shaped
  | exit tag value =>
    have shaped : tag = .throw → (value.bind fun child => (f child).toOption).isSome = true :=
      fun htag => isSome_sift_optional .expression nofun (fun _ hmem => held (.exit tag hmem))
        (hshaped htag)
    cases tag <;> exact shaped
  | try_ body handler finalizer =>
    rcases hshaped with hsome | hsome
    · exact .inl (isSome_sift_optional .catchClause nofun
        (fun _ hmem => held (.try_handler hmem)) hsome)
    · exact .inr (isSome_sift_optional .finallyClause nofun
        (fun _ hmem => held (.try_finalizer hmem)) hsome)
  | binary tag left operator right =>
    cases tag with
    | combine => exact hshaped
    | assign =>
      have faithful := hf left (Holds.binary_left .assign).mem_children
      exact ⟨hshaped.1, isAssignable_sift faithful hshaped.2⟩
  | unary tag operator operand =>
    cases tag with
    | before =>
      exact fun hstep => isAssignable_sift (hf operand (Holds.unary .before).mem_children)
        (hshaped hstep)
    | after =>
      exact ⟨hshaped.1, isAssignable_sift (hf operand (Holds.unary .after).mem_children) hshaped.2⟩
  | forIn init subject repeated =>
    have faithful := hf init Holds.forIn_init.mem_children
    rcases hshaped with ⟨tag, definition, hinit⟩ | hassignable
    · obtain ⟨other, hother⟩ := faithful.single tag definition hinit
      refine .inl ⟨tag, other, ?_⟩
      rw [hother]
      rfl
    · exact .inr (isAssignable_sift faithful hassignable)
  | _ => exact hshaped

theorem grammatical_empty : Node.empty.Grammatical :=
  throughout_iff.mpr ⟨⟨rfl, trivial⟩, nofun⟩

/-- A grammatical node stays so when its children are dealt with faithfully and what is left of them
is grammatical. -/
theorem grammatical_siftChildren (h : node.Grammatical)
    (hf : ∀ child ∈ node.children, Faithful f child)
    (below : ∀ child ∈ node.children, ∀ left, f child = .node left → left.Grammatical) :
    (node.siftChildren f).Grammatical := by
  obtain ⟨⟨slots, shaped⟩, _⟩ := throughout_iff.mp h
  refine throughout_iff.mpr ⟨⟨?_, shaped_siftChildren slots shaped hf⟩, ?_⟩
  · refine slotsAccept_siftChildren fun field part hentry child hchild => ?_
    obtain ⟨slot, hslot, haccepts⟩ := slotsAccept_iff.mp slots field part hentry child hchild
    have mem := mem_children_of_mem_nodes (List.of_mem_zip hentry).2 hchild
    exact ⟨slot, hslot, (hf child mem).takes slot haccepts⟩
  · intro left hleft
    obtain ⟨child, hchild, hnode | ⟨_, rfl⟩⟩ := mem_children_siftChildren hleft
    · exact below child hchild left hnode
    · exact grammatical_empty

end Node

end JsPrune
