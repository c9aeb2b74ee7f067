import JsPrune.Filter.Walk
import JsPrune.Proofs.Conformance
import Mathlib.Data.List.Forall2

/-!
# Traversals that can not fail

A traversal leaves a trail and may fail. Many statements are about its result alone: whatever was
on the trail before, it succeeds with a certain value. `Yields` says just that, and it is closed
under the operations that traversals are built from.

Main result: `transform_yields`. Let a filter put `rule node` in the place of every node and
let the rest of the chain go on with it. If `rule` never makes a node taller and never puts a node
where its slot would not take it, then on a conforming tree of at most `maxDepth` levels the filter
succeeds, with the tree that `rule` gives when it is applied from the root downwards.
-/

namespace JsPrune

variable {σ α β : Type}

/-- A change of errors is all that `adapt` does. -/
theorem run_adapt (f : Error → Error) (walk : Walk σ α) (trail : Trail σ) :
    (ExceptT.adapt f walk).run.run trail
      = ((walk.run.run trail).1.mapError f, (walk.run.run trail).2) := rfl

/-- Whatever the trail holds, the computation succeeds with `value`. -/
def Yields (walk : Walk σ α) (value : α) : Prop :=
  ∀ trail, ∃ after, walk.run.run trail = (.ok value, after)

namespace Yields

theorem pure (value : α) : Yields (σ := σ) (Pure.pure value) value :=
  fun trail => ⟨trail, rfl⟩

theorem bind {walk : Walk σ α} {next : α → Walk σ β} {a : α} {b : β} (ha : Yields walk a)
    (hb : Yields (next a) b) : Yields (walk >>= next) b := by
  intro trail
  obtain ⟨after, h⟩ := ha trail
  obtain ⟨last, hl⟩ := hb after
  refine ⟨last, ?_⟩
  rw [← hl, ExceptT.run_bind, StateT.run_bind, h]
  rfl

theorem map {walk : Walk σ α} {a : α} (f : α → β) (ha : Yields walk a) : Yields (f <$> walk) (f a) := by
  rw [map_eq_pure_bind]
  exact ha.bind (pure _)

/-- What is done with the result of a computation is done with its value. -/
theorem mapResult {walk : Walk σ α} {a : α} (f : α → β) (ha : Yields walk a) :
    Yields (ExceptT.mk (do return (← walk.run).map f)) (f a) := by
  intro trail
  obtain ⟨after, h⟩ := ha trail
  refine ⟨after, ?_⟩
  rw [ExceptT.run_mk, StateT.run_bind, h]
  rfl

/-- Frames are only put on errors. -/
theorem adapt {walk : Walk σ α} {a : α} (f : Error → Error) (ha : Yields walk a) :
    Yields (ExceptT.adapt f walk) a := by
  intro trail
  obtain ⟨after, h⟩ := ha trail
  exact ⟨after, by rw [run_adapt, h]; rfl⟩

/-- An effect on the trail comes first; what it answers may depend on the trail. -/
theorem lift_bind {step : TrailM σ α} {next : α → Walk σ β} {b : β}
    (h : ∀ trail, ∃ a after, step.run trail = (a, after) ∧ Yields (next a) b) :
    Yields (ExceptT.lift step >>= next) b := by
  intro trail
  obtain ⟨a, after, hstep, hnext⟩ := h trail
  obtain ⟨last, hlast⟩ := hnext after
  refine ⟨last, ?_⟩
  rw [← hlast, ExceptT.run_bind, ExceptT.run_lift, StateT.run_bind, StateT.run_map, hstep]
  rfl

theorem report (event : Event) : Yields (σ := σ) (Walk.report event) () :=
  fun _ => ⟨_, rfl⟩

theorem modify (change : Trail σ → Trail σ) : Yields (σ := σ) (MonadState.modifyGet fun trail => ((), change trail)) () :=
  fun _ => ⟨_, rfl⟩

end Yields

namespace Node

/-! ## Descending into the children -/

/-- The contents of a node have the shapes that its recipe gives them. -/
theorem parts_fit {node : Node} {recipe : List Field} (h : node.kind.recipe? = some recipe) :
    List.Forall₂ (fun field part => Part.fits field.role part = true) recipe node.parts := by
  fun_cases Node.kind node <;> cases h <;> simp [parts, Part.fits, Datum.sort]

/-- A child stands in a field that has a slot. -/
theorem exists_slot {node child : Node} {field : Field} {part : Part}
    (hentry : (field, part) ∈ node.fields) (hchild : child ∈ part.nodes) :
    ∃ slot, field.role.slot? = some slot := by
  unfold fields at hentry
  cases hrecipe : node.kind.recipe? with
  | none =>
    rw [hrecipe] at hentry
    cases hentry
  | some recipe =>
    rw [hrecipe] at hentry
    have hfit := List.forall₂_zip (parts_fit hrecipe) hentry
    cases part with
    | literal datum => cases hchild
    | _ =>
      cases hrole : field.role with
      | literal sort =>
        rw [hrole] at hfit
        cases hfit
      | _ => exact ⟨_, rfl⟩

theorem exists_field {node : Node} {part : Part} (h : part ∈ node.parts) :
    ∃ field, (field, part) ∈ node.fields := by
  unfold fields
  cases hrecipe : node.kind.recipe? with
  | none =>
    rw [parts_eq_nil_of_recipe?_eq_none hrecipe] at h
    cases h
  | some recipe =>
    obtain ⟨i, hi, rfl⟩ := List.mem_iff_getElem.mp h
    have hlength := (parts_fit hrecipe).length_eq
    refine ⟨recipe[i], List.mem_iff_getElem.mpr ⟨i, ?_, List.getElem_zip⟩⟩
    rw [Option.getD_some, List.length_zip]
    omega

/-- The children, field by field. -/
theorem flatMap_fields (node : Node) :
    (node.fields.flatMap fun entry => entry.2.nodes) = node.children := by
  have contents : node.fields.map Prod.snd = node.parts := by
    unfold fields
    cases hrecipe : node.kind.recipe? with
    | none => rw [parts_eq_nil_of_recipe?_eq_none hrecipe]; rfl
    | some recipe => exact List.map_snd_zip (Nat.le_of_eq (parts_fit hrecipe).length_eq.symm)
  rw [children, ← contents, List.flatMap_map]

end Node

/-- What became of a child may stand where the child stood; only a statement may be gone. -/
def Slot.Takes (slot : Slot) : Outcome → Prop
  | .node new => slot.accepts new.kind = true
  | .removed => slot = .statement

namespace Node

variable {walk : Node → Walk σ Outcome} {f : Node → Outcome} {parent : Kind} {field : Field}

/-- A node that its slot accepts passes. -/
theorem accept_yields {slot : Slot} {node : Node} (h : slot.accepts node.kind = true) :
    Yields (σ := σ) (accept parent field slot node) node := by
  rw [accept, if_pos h]
  exact Yields.pure node

theorem descendList_yields {slot : Slot} {nodes : List Node}
    (hw : ∀ child ∈ nodes, Yields (walk child) (f child))
    (ha : ∀ child ∈ nodes, slot.Takes (f child)) :
    Yields (descendList walk parent field slot nodes)
      (nodes.filterMap fun child => (f child).toOption) := by
  induction nodes with
  | nil => exact Yields.pure []
  | cons child rest ih =>
    have hrest := ih (fun c hc => hw c (List.mem_cons_of_mem _ hc))
      (fun c hc => ha c (List.mem_cons_of_mem _ hc))
    have hchild := ha child (List.mem_cons_self ..)
    refine (hw child (List.mem_cons_self ..)).bind ?_
    rw [List.filterMap_cons]
    cases hf : f child with
    | removed => exact hrest
    | node new =>
      rw [hf] at hchild
      exact (accept_yields hchild).bind (hrest.bind (Yields.pure _))

/-- The new contents of a field whose children are all walked with success. -/
theorem descendPart_yields {part : Part} (hfit : Part.fits field.role part = true)
    (hw : ∀ child ∈ part.nodes, Yields (walk child) (f child))
    (ha : ∀ child ∈ part.nodes, ∃ slot, field.role.slot? = some slot ∧ slot.Takes (f child)) :
    Yields (descendPart walk parent field part) (part.sift f) := by
  -- A part has the shape of its role, so the other shapes go away.
  obtain ⟨name, role⟩ := field
  cases role with
  | literal sort =>
    cases part with
    | literal datum => exact Yields.pure _
    | _ => cases hfit
  | child slot =>
    cases part with
    | child node =>
      have mem : node ∈ (Part.child node).nodes := List.mem_singleton.mpr rfl
      obtain ⟨slot', hslot, htakes⟩ := ha node mem
      cases hslot
      refine (hw node mem).bind ?_
      show Yields _ (Part.child ((f node).toOption.getD .empty))
      cases hf : f node with
      | node new =>
        rw [hf] at htakes
        exact (accept_yields htakes).bind (Yields.pure _)
      | removed =>
        -- Only a statement may be gone from here; a semicolon takes its place.
        have hslot : slot = .statement := by rwa [hf] at htakes
        simp only [hslot, if_true]
        exact Yields.pure _
    | _ => cases hfit
  | optional slot =>
    cases part with
    | optional node =>
      cases node with
      | none => exact Yields.pure _
      | some node =>
        have mem : node ∈ (Part.optional (some node)).nodes := List.mem_singleton.mpr rfl
        obtain ⟨slot', hslot, htakes⟩ := ha node mem
        cases hslot
        refine (hw node mem).bind ?_
        show Yields _ (Part.optional (f node).toOption)
        cases hf : f node with
        | node new =>
          rw [hf] at htakes
          exact (accept_yields htakes).bind (Yields.pure _)
        | removed => exact Yields.pure _
    | _ => cases hfit
  | sequence slot =>
    cases part with
    | sequence nodes =>
      have takes : ∀ child ∈ nodes, slot.Takes (f child) := by
        intro child hc
        obtain ⟨slot', hslot, htakes⟩ := ha child hc
        cases hslot
        exact htakes
      exact (descendList_yields hw takes).bind (Yields.pure _)
    | _ => cases hfit

theorem descendParts_yields {recipe : List Field} {contents : List Part}
    (hfit : List.Forall₂ (fun field part => Part.fits field.role part = true) recipe contents)
    (hw : ∀ part ∈ contents, ∀ child ∈ part.nodes, Yields (walk child) (f child))
    (ha : ∀ field part, (field, part) ∈ recipe.zip contents → ∀ child ∈ part.nodes,
      ∃ slot, field.role.slot? = some slot ∧ slot.Takes (f child)) :
    Yields (descendParts walk parent recipe contents) (contents.map (Part.sift f)) := by
  induction hfit with
  | nil => exact Yields.pure []
  | cons hfirst _ ih =>
    have hrest := ih (fun p hp => hw p (List.mem_cons_of_mem _ hp))
      (fun fd p hp => ha fd p (List.mem_cons_of_mem _ hp))
    refine (Yields.adapt _ (descendPart_yields hfirst ?_ ?_)).bind (hrest.bind (Yields.pure _))
    · exact hw _ (List.mem_cons_self ..)
    · exact ha _ _ (List.mem_cons_self ..)

/-- If every child is walked with success, to something that its slot takes, so is the parent. -/
theorem descend_yields_sift {node : Node}
    (hw : ∀ child ∈ node.children, Yields (walk child) (f child))
    (ha : ∀ field part, (field, part) ∈ node.fields → ∀ child ∈ part.nodes,
      ∃ slot, field.role.slot? = some slot ∧ slot.Takes (f child)) :
    Yields (node.descend walk) (node.siftChildren f) := by
  unfold fields at ha
  rw [descend]
  split
  · next hnone =>
    rw [siftChildren_of_recipe?_eq_none f hnone]
    exact Yields.pure node
  · next recipe hsome =>
    have hfit := parts_fit hsome
    rw [hsome] at ha
    rw [if_pos hfit.length_eq]
    exact (descendParts_yields hfit
      (fun part hp child hc => hw child (mem_children_of_mem_nodes hp hc)) ha).bind (Yields.pure _)

/-- If every child is walked with success, to a node that its slot accepts, so is the parent. -/
theorem descend_yields {f : Node → Node} {node : Node}
    (hw : ∀ child ∈ node.children, Yields (walk child) (.node (f child)))
    (hs : (node.mapChildren f).slotsAccept = true) :
    Yields (node.descend walk) (node.mapChildren f) := by
  rw [← siftChildren_node]
  refine descend_yields_sift hw fun field part hmem child hc => ?_
  rw [slotsAccept_iff, fields, kind_mapChildren, parts_mapChildren, List.zip_map_right] at hs
  exact hs field (part.map f) (List.mem_map.mpr ⟨(field, part), hmem, rfl⟩) (f child)
    (by rw [Part.nodes_map]; exact List.mem_map_of_mem hc)

end Node

/-! ## A filter that puts other nodes in place -/

namespace Filter

/-- Whatever comes later and whatever the trail, the filter lets the chain go on with what `rule`
makes of the node, and leaves the result alone. -/
def Rewrites (filter : Filter σ) (rule : Node → Node) : Prop :=
  ∀ later node trail, ∃ replaced after,
    (filter.step later node).run trail = (.proceed replaced (rule node) Pure.pure, after)

/-- What `rule` may do without ever making a traversal fail. -/
structure Gentle (rule : Node → Node) : Prop where
  conforms : ∀ {node : Node}, node.Conforms → (rule node).Conforms
  height_le : ∀ node, (rule node).height ≤ node.height
  accepted : ∀ {node : Node} {slot : Slot}, node.Conforms → slot.accepts node.kind = true →
    slot.accepts (rule node).kind = true

variable {filter : Filter σ} {rule f : Node → Node}

/-- Behind a rewriting filter the chain goes on with what the rule gives. -/
theorem runChain_rewrites (hr : filter.Rewrites rule) {later : List (Filter σ)}
    {walk : Node → Walk σ Outcome} {node : Node} {outcome : Outcome}
    (h : Yields (runChain walk later (rule node)) outcome) :
    Yields (runChain walk (filter :: later) node) outcome := by
  have last : Yields (ExceptT.mk ((runChain walk later (rule node)).run >>= Pure.pure))
      outcome := by
    rw [bind_pure]
    exact h
  rw [runChain]
  apply Yields.lift_bind
  intro trail
  obtain ⟨replaced, after, hstep⟩ := hr later.length node trail
  refine ⟨_, after, hstep, ?_⟩
  cases replaced with
  | true => exact (Yields.report _).bind last
  | false => exact last

/-- A chain of one rewriting filter descends into what the rule gives. -/
theorem runChain_yields (hr : filter.Rewrites rule) {walk : Node → Walk σ Outcome} {node out : Node}
    (hd : Yields ((rule node).descend walk) out) :
    Yields (runChain walk [filter] node) (.node out) :=
  runChain_rewrites hr (hd.map Outcome.node)

/-- On a conforming tree the traversal applies the rule from the root downwards; `f` is what it
computes, pinned by its recursion equation. -/
theorem walkNode_yields (hr : filter.Rewrites rule) (hg : Gentle rule)
    (hf : ∀ node, f node = (rule node).mapChildren f) :
    ∀ (levels : Nat) (node : Node), node.Conforms → node.height ≤ levels →
      Yields (walkNode [filter] levels node) (.node (f node)) := by
  intro levels
  induction levels with
  | zero =>
    intro node _ hle
    rw [Node.height_eq] at hle
    omega
  | succ levels ih =>
    intro node hc hle
    -- The rule comes first; what it answers conforms and is no higher, so its children are within reach.
    have hrc := hg.conforms hc
    have below : ∀ child ∈ (rule node).children,
        Yields (walkNode [filter] levels child) (.node (f child)) := by
      intro child hchild
      have hlt := Node.height_lt_of_mem_children hchild
      have hle' := hg.height_le node
      exact ih child (hrc.of_mem_children hchild) (by omega)
    have slots : ((rule node).mapChildren f).slotsAccept = true := by
      apply Node.slotsAccept_mapChildren hrc.slots
      intro child hchild slot hacc
      rw [hf child, Node.kind_mapChildren]
      exact hg.accepted (hrc.of_mem_children hchild) hacc
    have hd := Node.descend_yields below slots
    rw [← hf node] at hd
    rw [walkNode]
    exact (Yields.modify _).bind (runChain_yields hr hd)

/-- A traversal of a tree that is not too deep ends as its root does. -/
theorem walk_yields {levels : Nat} {filters : List (Filter σ)} {tree : Node} {outcome : Outcome}
    (hd : tree.depth ≤ maxDepth) (h : Yields (walkNode filters levels tree) outcome) :
    Yields (walk levels filters tree) outcome := by
  have shallow : Yields (σ := σ) (Walk.ofExcept tree.checkDepth) () := by
    rw [Node.checkDepth, if_neg (by omega)]
    exact fun trail => ⟨trail, rfl⟩
  rw [walk]
  refine shallow.bind ((Yields.modify _).bind (h.bind ?_))
  intro trail
  exact ⟨_, rfl⟩

/-- **A gentle rewriting filter never fails.** On a conforming tree of at most `maxDepth` levels
the result is the rule applied from the root downwards. -/
theorem transform_yields (hr : filter.Rewrites rule) (hg : Gentle rule)
    (hf : ∀ node, f node = (rule node).mapChildren f) {tree : Node} (hc : tree.Conforms)
    (hd : tree.depth ≤ maxDepth) : Yields (transform maxDepth [filter] tree) (f tree) := by
  have walked : Yields (walk maxDepth [filter] tree) (.node (f tree)) :=
    walk_yields hd (walkNode_yields hr hg hf maxDepth tree hc (Node.depth_eq tree ▸ hd))
  rw [transform]
  exact (Yields.report _).bind (walked.bind (Yields.pure _))

end Filter

end JsPrune
