import JsPrune.Proofs.Inspection

/-!
# Traversals keep to the recipe

A filter `Continues` when it never answers with a node of its own making: it fails, removes the
node, or lets the chain go on, with any node it likes, and then passes on the result it gets, unless
it fails or removes the node after all. Nothing else is asked of it.

Every node that comes back from such a chain comes from the descent behind the last filter, and the
descent asks the slot of every child after the child has been dealt with. So conformance is not
preserved by a traversal but established by it, and the induction is on the levels that the
traversal goes down, not on a tree.

`Ensures` is the judgement for this: whenever a computation succeeds, its value has a property.

Main result: `walk_followsRecipe`. Whatever tree a traversal by such filters is given, every node of
the tree that comes back follows its recipe.
-/

namespace JsPrune

variable {σ α β : Type}

/-- Whatever the trail, if the computation succeeds then with a value that satisfies `post`. -/
def Ensures (post : α → Prop) (walk : Walk σ α) : Prop :=
  ∀ trail value after, walk.run.run trail = (.ok value, after) → post value

namespace Ensures

variable {post : β → Prop} {mid : α → Prop} {walk : Walk σ α}

theorem pure {value : β} (h : post value) : Ensures (σ := σ) post (Pure.pure value) := by
  rintro trail value' after ⟨⟩
  exact h

/-- Nothing has to be shown of a step whose value is not looked at again. -/
theorem trivial (walk : Walk σ α) : Ensures (fun _ => True) walk := fun _ _ _ _ => True.intro

/-- What fails ensures anything. -/
theorem throw (error : Error) : Ensures (σ := σ) post (MonadExcept.throw error) := by
  rintro trail value after ⟨⟩

/-- A success of two steps is a success of the first and then of the second. -/
theorem bind {next : α → Walk σ β} (hw : Ensures mid walk)
    (hn : ∀ value, mid value → Ensures post (next value)) : Ensures post (walk >>= next) := by
  intro trail value after hrun
  rw [ExceptT.run_bind, StateT.run_bind] at hrun
  rcases hfirst : walk.run.run trail with ⟨result, between⟩
  rw [hfirst] at hrun
  cases result with
  | error error => cases hrun
  | ok first => exact hn first (hw trail first between hfirst) between value after hrun

theorem map {f : α → β} (h : Ensures (fun value => post (f value)) walk) :
    Ensures post (f <$> walk) := by
  rw [map_eq_pure_bind]
  exact h.bind fun _ hvalue => pure hvalue

/-- Adding a frame to an error touches no success. -/
theorem adapt (f : Error → Error) (h : Ensures mid walk) : Ensures mid (ExceptT.adapt f walk) := by
  intro trail value after hrun
  rw [run_adapt] at hrun
  rcases hfirst : walk.run.run trail with ⟨result, between⟩
  rw [hfirst] at hrun
  cases result with
  | error error => cases hrun
  | ok found =>
    cases hrun
    exact h trail _ _ hfirst

/-- An effect on the trail comes first; nothing need be known about it but what it answers. -/
theorem lift_bind {step : TrailM σ α} {next : α → Walk σ β}
    (hn : ∀ trail, Ensures post (next (step.run trail).1)) :
    Ensures post (ExceptT.lift step >>= next) := by
  intro trail value after hrun
  rw [ExceptT.run_bind_lift, StateT.run_bind] at hrun
  exact hn trail _ value after hrun

end Ensures

/-! ## Descending -/

namespace Part

/-- A field accepts its contents if its slot accepts every child. -/
theorem accepts_of_slot? {field : Field} {part : Part} {slot : Slot}
    (hslot : field.role.slot? = some slot) (h : ∀ child ∈ part.nodes, slot.accepts child.kind = true) :
    field.accepts part = true := by
  unfold Field.accepts
  rw [List.all_eq_true]
  intro child hmem
  rw [hslot]
  exact h child hmem

/-- The contents of a field are what its role wants, the slot accepts every child, and every child
conforms. -/
structure Follows (field : Field) (part : Part) : Prop where
  fits : part.fits field.role = true
  accepted : field.accepts part = true
  below : ∀ child ∈ part.nodes, child.Conforms

/-- A part with a slot follows its field if it fits and its slot accepts all that stands in it. -/
theorem Follows.of_slot {field : Field} {part : Part} {slot : Slot}
    (hfit : part.fits field.role = true) (hslot : field.role.slot? = some slot)
    (h : ∀ child ∈ part.nodes, slot.accepts child.kind = true ∧ child.Conforms) :
    part.Follows field :=
  ⟨hfit, accepts_of_slot? hslot fun child hmem => (h child hmem).1, fun child hmem => (h child hmem).2⟩

theorem fits_literal {sort : DataSort} {part : Part} :
    part.fits (.literal sort) = true ↔ ∃ datum, datum.sort = sort ∧ part = .literal datum := by
  cases part <;> simp [fits]

theorem fits_child {slot : Slot} {part : Part} :
    part.fits (.child slot) = true ↔ ∃ node, part = .child node := by
  cases part <;> simp [fits]

theorem fits_optional {slot : Slot} {part : Part} :
    part.fits (.optional slot) = true ↔ ∃ node, part = .optional node := by
  cases part <;> simp [fits]

theorem fits_sequence {slot : Slot} {part : Part} :
    part.fits (.sequence slot) = true ↔ ∃ nodes, part = .sequence nodes := by
  cases part <;> simp [fits]

end Part

namespace Node

/-- Contents that have the shapes of a recipe can be put together. -/
theorem exists_ofParts? {kind : Kind} {recipe : List Field} {contents : List Part}
    (hr : kind.recipe? = some recipe)
    (hfit : List.Forall₂ (fun field part => Part.fits field.role part = true) recipe contents) :
    ∃ node, ofParts? kind contents = some node := by
  have sorts : ∀ datum : Datum, (datum.sort = .text ↔ ∃ value, datum = .text value) ∧
      (datum.sort = .optionalText ↔ ∃ value, datum = .optionalText value) ∧
      (datum.sort = .texts ↔ ∃ values, datum = .texts values) ∧
      (datum.sort = .unaryOp ↔ ∃ operator, datum = .unaryOp operator) ∧
      (datum.sort = .binaryOp ↔ ∃ operator, datum = .binaryOp operator) := by
    intro datum
    cases datum <;> simp [Datum.sort]
  cases kind <;> cases hr
  all_goals simp [List.forall₂_cons_left_iff, Part.fits_literal, Part.fits_child,
    Part.fits_optional, Part.fits_sequence, sorts] at hfit
  all_goals first
    | (obtain ⟨_, rfl⟩ := hfit; exact ⟨_, rfl⟩)
    | (obtain ⟨_, _, rfl⟩ := hfit; exact ⟨_, rfl⟩)
    | (obtain ⟨_, _, _, rfl⟩ := hfit; exact ⟨_, rfl⟩)
    | (obtain ⟨_, _, _, _, rfl⟩ := hfit; exact ⟨_, rfl⟩)

variable {walk : Node → Walk σ Outcome} {parent : Kind} {field : Field}

theorem ensures_accept {slot : Slot} {node : Node} (h : node.Conforms) :
    Ensures (σ := σ) (fun kept => slot.accepts kept.kind = true ∧ kept.Conforms)
      (accept parent field slot node) := by
  unfold accept
  by_cases ha : slot.accepts node.kind = true
  · rw [if_pos ha]
    exact .pure ⟨ha, h⟩
  · rw [if_neg ha]
    exact .throw _

/-- What is left of a walked child conforms. -/
def Sound (outcome : Outcome) : Prop := ∀ node, outcome = .node node → node.Conforms

/-- What is left of a list has been asked about, child by child, after the filters. -/
theorem ensures_descendList (hw : ∀ child, Ensures Sound (walk child)) (slot : Slot)
    (nodes : List Node) :
    Ensures (fun left => ∀ kept ∈ left, slot.accepts kept.kind = true ∧ kept.Conforms)
      (descendList walk parent field slot nodes) := by
  induction nodes with
  | nil => exact .pure fun _ hmem => nomatch hmem
  | cons child rest ih =>
    rw [descendList]
    refine (hw child).bind fun outcome houtcome => ?_
    cases outcome with
    | removed => exact ih
    | node new =>
      refine (ensures_accept (houtcome new rfl)).bind fun kept hkept => ?_
      exact ih.bind fun left hleft => .pure (List.forall_mem_cons.mpr ⟨hkept, hleft⟩)

/-- Whatever children a field held, those it holds after the descent are accepted and conform. -/
theorem ensures_descendPart (hw : ∀ child, Ensures Sound (walk child)) {part : Part}
    (hfit : part.fits field.role = true) :
    Ensures (Part.Follows field) (descendPart walk parent field part) := by
  obtain ⟨name, role⟩ := field
  cases role with
  | literal sort =>
    obtain ⟨datum, hsort, rfl⟩ := Part.fits_literal.mp hfit
    exact .pure ⟨hfit, rfl, fun _ hmem => nomatch hmem⟩
  | child slot =>
    obtain ⟨node, rfl⟩ := Part.fits_child.mp hfit
    refine (hw node).bind fun outcome houtcome => ?_
    cases outcome with
    | node new =>
      refine (ensures_accept (houtcome new rfl)).bind fun kept hkept => .pure ?_
      exact .of_slot rfl rfl (List.forall_mem_singleton.mpr hkept)
    | removed =>
      -- Only where a statement is wanted does something stand in for a removed child.
      by_cases hslot : slot = .statement
      · subst hslot
        refine .pure (.of_slot rfl rfl (List.forall_mem_singleton.mpr ⟨rfl, ?_⟩))
        exact .intro rfl fun _ hmem => nomatch hmem
      · simp only [hslot, if_false]
        exact .throw _
  | optional slot =>
    obtain ⟨node, rfl⟩ := Part.fits_optional.mp hfit
    cases node with
    | none => exact .pure (.of_slot rfl rfl fun _ hmem => nomatch hmem)
    | some node =>
      refine (hw node).bind fun outcome houtcome => ?_
      cases outcome with
      | node new =>
        refine (ensures_accept (houtcome new rfl)).bind fun kept hkept => .pure ?_
        exact .of_slot rfl rfl (List.forall_mem_singleton.mpr hkept)
      | removed => exact .pure (.of_slot rfl rfl fun _ hmem => nomatch hmem)
  | sequence slot =>
    obtain ⟨nodes, rfl⟩ := Part.fits_sequence.mp hfit
    refine (ensures_descendList hw slot nodes).bind fun left hleft => .pure ?_
    exact .of_slot rfl rfl hleft

/-- The parts come back one for each field of the recipe, in its order. -/
theorem ensures_descendParts (hw : ∀ child, Ensures Sound (walk child)) {recipe : List Field}
    {contents : List Part}
    (hfit : List.Forall₂ (fun field part => Part.fits field.role part = true) recipe contents) :
    Ensures (List.Forall₂ Part.Follows recipe) (descendParts walk parent recipe contents) := by
  induction hfit with
  | nil => exact .pure .nil
  | cons hfirst _ ih =>
    refine ((ensures_descendPart hw hfirst).adapt _).bind fun new hnew => ?_
    exact ih.bind fun rest hrest => .pure (.cons hnew hrest)

/-- The contents of a node are what its recipe says: every field holds what its role wants, a
required child among them, and its slot accepts every child in it. -/
def FollowsRecipe (node : Node) : Prop :=
  List.Forall₂ (fun field part => Part.fits field.role part = true ∧ field.accepts part = true)
    (node.kind.recipe?.getD []) node.parts

/-- The parts of a node fit its recipe by their type; only the slots can be wrong. -/
theorem followsRecipe_of_slotsAccept {node : Node} (h : node.slotsAccept = true) :
    node.FollowsRecipe := by
  unfold FollowsRecipe
  unfold slotsAccept fields at h
  cases hrecipe : node.kind.recipe? with
  | none =>
    rw [parts_eq_nil_of_recipe?_eq_none hrecipe]
    exact .nil
  | some recipe =>
    rw [hrecipe, Option.getD_some, List.all_eq_true] at h
    have hfit := parts_fit hrecipe
    refine List.forall₂_iff_zip.mpr ⟨hfit.length_eq, fun {field part} hmem => ?_⟩
    exact ⟨List.forall₂_zip hfit hmem, h (field, part) hmem⟩

/-- A node put together from contents that follow a recipe conforms. -/
theorem conforms_of_follows {kind : Kind} {recipe : List Field} {contents : List Part}
    {node : Node} (hr : kind.recipe? = some recipe) (hf : List.Forall₂ Part.Follows recipe contents)
    (h : ofParts? kind contents = some node) : node.Conforms := by
  obtain ⟨hkind, hparts⟩ := parts_of_ofParts? h
  have followed : ∀ part ∈ contents, ∃ field, part.Follows field := by
    intro part hmem
    obtain ⟨i, hi, rfl⟩ := List.mem_iff_getElem.mp hmem
    have hlt : i < recipe.length := by rw [hf.length_eq]; exact hi
    exact ⟨recipe.get ⟨i, hlt⟩, hf.get hlt hi⟩
  refine .intro ?_ ?_
  · unfold slotsAccept fields
    rw [hkind, hr, hparts, Option.getD_some, List.all_eq_true]
    exact fun entry hmem => (List.forall₂_zip hf hmem).accepted
  · intro child hchild
    rw [children, hparts, List.mem_flatMap] at hchild
    obtain ⟨part, hpart, hchild⟩ := hchild
    obtain ⟨field, hfollows⟩ := followed part hpart
    exact hfollows.below child hchild

/-- Whatever node is taken, what the descent gives conforms. -/
theorem ensures_descend (hw : ∀ child, Ensures Sound (walk child)) (node : Node) :
    Ensures Conforms (node.descend walk) := by
  unfold descend
  split
  · next hnone =>
    have leaf : node.parts = [] := parts_eq_nil_of_recipe?_eq_none hnone
    refine .pure (.intro ?_ ?_)
    · unfold slotsAccept fields
      rw [hnone]
      rfl
    · intro child hchild
      rw [children, leaf] at hchild
      cases hchild
  · next recipe hsome =>
    have hfit := parts_fit hsome
    rw [if_pos hfit.length_eq]
    refine (ensures_descendParts hw hfit).bind fun contents hcontents => .pure ?_
    obtain ⟨new, hnew⟩ := exists_ofParts? hsome (hcontents.imp fun _ _ h => h.fits)
    rw [withParts, hnew]
    exact conforms_of_follows hsome hcontents hnew

end Node

/-! ## Filters that continue -/

/-- The move never answers with a node that the rest of the chain did not answer with. -/
def Move.Continues : Move σ → Prop
  | .settle result => ∀ node, result ≠ .ok (.node node)
  | .proceed _ _ after => ∀ result trail node,
      ((after result).run trail).1 = .ok (.node node) → result = .ok (.node node)

namespace Filter

/-- Whatever comes later, whatever node it is shown and whatever the trail, the filter fails, removes
the node, or lets the chain go on and passes on what comes back. -/
def Continues (filter : Filter σ) : Prop :=
  ∀ later node trail, ((filter.step later node).run trail).1.Continues

variable {filters : List (Filter σ)}

/-- What comes out of a chain of such filters comes out of the descent behind it. -/
theorem ensures_runChain (hf : ∀ filter ∈ filters, filter.Continues)
    {walk : Node → Walk σ Outcome} (hw : ∀ child, Ensures Node.Sound (walk child)) (node : Node) :
    Ensures Node.Sound (runChain walk filters node) := by
  induction filters generalizing node with
  | nil =>
    refine .map fun trail out after hrun left hleft => ?_
    cases hleft
    exact Node.ensures_descend hw node trail out after hrun
  | cons filter later ih =>
    have hlater := ih fun other hmem => hf other (List.mem_cons_of_mem _ hmem)
    refine .lift_bind fun trail => ?_
    -- A filter that continues never settles with a node, and answers with what came back if it goes
    -- on.
    have hmove := hf filter (List.mem_cons_self ..) later.length node trail
    cases hcase : ((filter.step later.length node).run trail).1 with
    | settle result =>
      rw [hcase] at hmove
      intro start outcome after hrun left hleft
      cases hrun
      cases hleft
      exact absurd rfl (hmove left)
    | proceed replaced next last =>
      rw [hcase] at hmove
      have answered : Ensures Node.Sound
          (ExceptT.mk (do last (← (runChain walk later next).run))) := by
        intro start outcome after hrun left hleft
        subst hleft
        rcases hnext : (runChain walk later next).run.run start with ⟨result, between⟩
        have hlast : (last result).run between = (.ok (.node left), after) := by
          have whole := hrun
          rw [ExceptT.run_mk, StateT.run_bind, hnext] at whole
          exact whole
        have same := hmove result between left (congrArg Prod.fst hlast)
        subst same
        exact hlater next start _ between hnext left rfl
      cases replaced with
      | false => exact answered
      | true => exact .lift_bind fun _ => answered

/-- So it is at every level that the traversal goes down to. -/
theorem ensures_walkNode (hf : ∀ filter ∈ filters, filter.Continues) (levels : Nat) (node : Node) :
    Ensures Node.Sound (walkNode filters levels node) := by
  induction levels generalizing node with
  | zero =>
    rintro trail outcome after ⟨⟩
  | succ levels ih =>
    rw [walkNode]
    exact (Ensures.trivial _).bind fun _ _ => ensures_runChain hf ih node

/-- **Filters that continue leave trees that follow their recipes.** Whatever tree a traversal by
such filters is given, whatever they keep in their state and however far down it may go, if it comes
back with a tree then the contents of every node of that tree, at every depth, are what its recipe
says. -/
theorem walk_followsRecipe (hf : ∀ filter ∈ filters, filter.Continues) (levels : Nat)
    {tree out : Node} {trail after : Trail σ}
    (h : (walk levels filters tree).run.run trail = (.ok (.node out), after)) :
    ∀ node ∈ out.preorder, node.FollowsRecipe := by
  have sound : Ensures Node.Sound (walk levels filters tree) := by
    unfold walk
    refine (Ensures.trivial _).bind fun _ _ => (Ensures.trivial _).bind fun _ _ => ?_
    refine (ensures_walkNode hf levels tree).bind fun outcome houtcome => ?_
    refine (Ensures.trivial _).bind fun _ _ => (Ensures.trivial _).bind fun _ _ => ?_
    exact .pure houtcome
  intro node hmem
  have conforms := sound trail _ after h out rfl
  exact Node.followsRecipe_of_slotsAccept (Node.conforms_iff_preorder.mp conforms node hmem)

/-- Puts a use of the name in the place of each binding, and counts the bindings. -/
def unbind : Filter Nat where
  name := "unbind"
  step _ node := do
    match node with
    | .varDef name _ =>
      TrailM.update (· + 1)
      return .replace (.simple (.identifier name))
    | _ => return .keep node

/-- Removes debugger statements, once the rest of the chain is done with them. -/
def undebug : Filter Nat where
  name := "undebug"
  step _ node := return .keepThen node fun outcome =>
    match outcome with
    | .node .debugger => .removed
    | other => other

/-- A tree with a binding in the place of a statement. -/
def loose : Node := .toplevel [.ifElse (.identifier "slow") .debugger none, .varDef "x" none]

/-- What the two filters leave of it. -/
def tight : Node :=
  .toplevel [.ifElse (.identifier "slow") .empty none, .simple (.identifier "x")]

theorem walk_followsRecipe_loose : ∃ after,
    (walk 4 [unbind, undebug] loose).run.run (.start 0) = (.ok (.node tight), after) ∧
      after.state = 1 ∧ ∀ node ∈ tight.preorder, node.FollowsRecipe := by
  have continues : ∀ filter ∈ [unbind, undebug], filter.Continues := by
    intro filter hmem
    rcases List.mem_cons.mp hmem with rfl | hmem
    · intro later node trail
      cases node with
      | varDef name value => exact fun _ _ _ h => h
      | _ => exact fun _ _ _ h => h
    · rw [List.mem_singleton.mp hmem]
      intro later node trail result between left h
      rcases result with error | (new | _)
      · cases h
      · cases new with
        | debugger => cases h
        | _ => exact h
      · cases h
  have shallow : loose.depth ≤ maxDepth := by
    have three : loose.depth = 3 := by cbv
    rw [three]
    decide
  obtain ⟨after, run, counted⟩ : ∃ after,
      (walk 4 [unbind, undebug] loose).run.run (.start 0) = (.ok (.node tight), after) ∧
        after.state = 1 := ⟨_, walk_of_ok shallow rfl, rfl⟩
  exact ⟨after, run, counted, walk_followsRecipe continues 4 run⟩

end Filter

end JsPrune
