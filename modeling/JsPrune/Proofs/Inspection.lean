import JsPrune.Proofs.Preorder
import JsPrune.Proofs.Traversal

/-!
# Traversals that change nothing

A filter `PassesThrough` when it lets the chain go on with the very node it was shown and leaves the
result alone. What it does to the trail is its own affair. A traversal by such filters is an
inspection: at each node the filters have their turn, then each child is inspected and its slot is
asked whether it accepts the child. `walkNode_eq` says that this is all that happens, as an equation
between computations; from there on nothing needs to be known about the descent.

Main result: `walk_passing`. A traversal by filters that let everything pass refuses a tree that is
too deep before any filter sees it, answers with the tree itself if the tree conforms, and otherwise
complains about the first child in post-order that its slot rejects, with the path from there to the
root.
-/

namespace JsPrune

variable {σ α β : Type}

/-- Frames are only put on errors, so what is done with an answer does not matter to them. -/
theorem adapt_map (f : Error → Error) (g : α → β) (walk : Walk σ α) :
    ExceptT.adapt f (g <$> walk) = g <$> ExceptT.adapt f walk := by
  have swap : ∀ result : Except Error α, (result.map g).mapError f = (result.mapError f).map g := by
    intro result
    cases result <;> rfl
  apply ExceptT.ext
  apply StateT.ext
  intro trail
  rw [run_adapt, ExceptT.run_map, ExceptT.run_map, StateT.run_map, StateT.run_map, run_adapt]
  exact congrArg (fun result => (result, (walk.run.run trail).2)) (swap (walk.run.run trail).1)

/-! ## Descending without change -/

namespace Node

/-- Complains about a child that its slot does not accept. -/
def vet (parent : Kind) (field : Field) (child : Node) : Walk σ Unit :=
  match field.role.slot? with
  | some slot =>
    if slot.accepts child.kind then pure () else throw (misplaced parent field slot child.kind)
  | none => pure ()

/-- Looks at a child and then asks its slot. -/
def heed (look : Node → Walk σ Unit) (parent : Kind) (field : Field) (child : Node) :
    Walk σ Unit := do
  look child
  vet parent field child

/-- Looks at each child in a field, in order. -/
def surveyPart (look : Node → Walk σ Unit) (parent : Kind) (field : Field) (part : Part) :
    Walk σ Unit :=
  ExceptT.adapt (fun error : Error => error.withFrame (frame parent field))
    (part.nodes.forM (heed look parent field))

/-- Looks at each child of a node, in order. -/
def survey (look : Node → Walk σ Unit) (node : Node) : Walk σ Unit :=
  node.fields.forM fun entry => surveyPart look node.kind entry.1 entry.2

variable {walk : Node → Walk σ Outcome} {look : Node → Walk σ Unit} {parent : Kind} {field : Field}

/-- Letting a child pass is looking at it, and answering with the child. -/
theorem accept_eq {slot : Slot} (h : field.role.slot? = some slot) (child : Node) :
    accept (m := TrailM σ) parent field slot child = (fun _ => child) <$> vet parent field child := by
  unfold accept vet
  rw [h]
  dsimp only
  split
  · rw [map_pure]
  · rfl

/-- Descending into a list of children that all stay is looking at them in turn. -/
theorem descendList_eq {slot : Slot} (h : field.role.slot? = some slot) {nodes : List Node}
    (hw : ∀ child ∈ nodes, walk child = (fun _ => .node child) <$> look child) :
    descendList walk parent field slot nodes
      = (fun _ => nodes) <$> nodes.forM (heed look parent field) := by
  induction nodes with
  | nil => simp [descendList]
  | cons child rest ih =>
    have hrest := ih fun other hmem => hw other (List.mem_cons_of_mem _ hmem)
    rw [descendList, hw child (List.mem_cons_self ..), hrest]
    simp [accept_eq h, heed]

/-- A field whose children come back as they were keeps its contents. -/
theorem descendPart_eq {part : Part} (hfit : Part.fits field.role part = true)
    (hw : ∀ child ∈ part.nodes, walk child = (fun _ => .node child) <$> look child) :
    descendPart walk parent field part
      = (fun _ => part) <$> part.nodes.forM (heed look parent field) := by
  -- Nothing is removed and nothing replaced, so what is left of each shape is the check of its
  -- slot.
  obtain ⟨name, role⟩ := field
  cases role with
  | literal sort =>
    cases part with
    | literal datum => simp [descendPart, Part.nodes]
    | _ => cases hfit
  | child slot =>
    cases part with
    | child node =>
      have hslot : (Field.mk name (.child slot)).role.slot? = some slot := rfl
      have hnode := hw node (List.mem_singleton.mpr rfl)
      simp [descendPart, Part.nodes, hnode, accept_eq hslot, heed]
    | _ => cases hfit
  | optional slot =>
    cases part with
    | optional node =>
      cases node with
      | none => simp [descendPart, Part.nodes]
      | some node =>
        have hslot : (Field.mk name (.optional slot)).role.slot? = some slot := rfl
        have hnode := hw node (List.mem_singleton.mpr rfl)
        simp [descendPart, Part.nodes, hnode, accept_eq hslot, heed]
    | _ => cases hfit
  | sequence slot =>
    cases part with
    | sequence nodes =>
      have hslot : (Field.mk name (.sequence slot)).role.slot? = some slot := rfl
      have hnodes : descendList walk parent ⟨name, .sequence slot⟩ slot nodes = _ :=
        descendList_eq hslot hw
      simp [descendPart, Part.nodes, hnodes]
    | _ => cases hfit

/-- Descending into all fields is surveying them in turn. -/
theorem descendParts_eq {recipe : List Field} {contents : List Part}
    (hfit : List.Forall₂ (fun field part => Part.fits field.role part = true) recipe contents)
    (hw : ∀ part ∈ contents, ∀ child ∈ part.nodes,
      walk child = (fun _ => .node child) <$> look child) :
    descendParts walk parent recipe contents = (fun _ => contents) <$>
      (recipe.zip contents).forM fun entry => surveyPart look parent entry.1 entry.2 := by
  induction hfit with
  | nil => simp [descendParts]
  | cons hfirst _ ih =>
    have hrest := ih fun part hmem => hw part (List.mem_cons_of_mem _ hmem)
    rw [descendParts, descendPart_eq hfirst (hw _ (List.mem_cons_self ..)), adapt_map, hrest]
    simp [surveyPart]

/-- If every child comes back as it was, so does the parent, and all that was done is to look at the
children and to ask their slots. -/
theorem descend_eq {node : Node}
    (hw : ∀ child ∈ node.children, walk child = (fun _ => .node child) <$> look child) :
    node.descend walk = (fun _ => node) <$> node.survey look := by
  unfold descend survey fields
  split
  · next hnone =>
    rw [hnone]
    simp
  · next recipe hsome =>
    have hfit := parts_fit hsome
    have hparts : descendParts walk node.kind recipe node.parts = _ :=
      descendParts_eq hfit fun part hp child hc => hw child (mem_children_of_mem_nodes hp hc)
    rw [if_pos hfit.length_eq, hparts, hsome]
    simp [withParts_parts]

end Node

/-! ## Filters that let everything pass -/

namespace Filter

/-- Whatever comes later and whatever the trail, the filter lets the chain go on with the node it
was shown, and leaves the result alone. -/
def PassesThrough (filter : Filter σ) : Prop :=
  ∀ later node trail, ((filter.step later node).run trail).1 = .keep node

/-- The filters have their turn at a node, one after the other. -/
def tread : List (Filter σ) → Node → Walk σ Unit
  | [], _ => pure ()
  | filter :: later, node => do
    let _ ← ExceptT.lift (filter.step later.length node)
    tread later node

variable {filters : List (Filter σ)}

/-- An effect whose answer is known in advance. -/
theorem lift_bind_eq {step : TrailM σ α} {a : α} (h : ∀ trail, (step.run trail).1 = a)
    (next : α → Walk σ β) :
    (ExceptT.lift step >>= next) = (ExceptT.lift step >>= fun _ => next a) := by
  apply ExceptT.ext
  apply StateT.ext
  intro trail
  rw [ExceptT.run_bind_lift, ExceptT.run_bind_lift, StateT.run_bind, StateT.run_bind]
  show (next (step.run trail).1).run.run (step.run trail).2 = (next a).run.run (step.run trail).2
  rw [h]

/-- Filters that pass every node through are trodden one after the other, and then the descent
begins. -/
theorem runChain_eq (hp : ∀ filter ∈ filters, filter.PassesThrough) (walk : Node → Walk σ Outcome)
    (node : Node) : runChain walk filters node = (do
      tread filters node
      Outcome.node <$> node.descend walk) := by
  induction filters with
  | nil => simp [runChain, tread]
  | cons filter later ih =>
    have hlater := ih fun other hmem => hp other (List.mem_cons_of_mem _ hmem)
    have hstep := hp filter (List.mem_cons_self ..) later.length node
    rw [tread, bind_assoc, ← hlater]
    exact lift_bind_eq hstep _

/-- The filters have their turn at a node, and then at what is below it, at most `levels` levels
down. -/
def inspect (filters : List (Filter σ)) : Nat → Node → Walk σ Unit
  | 0, _ => do
    modify fun trail => { trail with exhausted := true }
    throw outOfLevels
  | levels + 1, node => do
    modify fun trail => { trail with visited := trail.visited + 1 }
    tread filters node
    node.survey (inspect filters levels)

/-- A traversal by filters that let everything pass is an inspection, and answers with the node. -/
theorem walkNode_eq (hp : ∀ filter ∈ filters, filter.PassesThrough) (levels : Nat) (node : Node) :
    walkNode filters levels node = (fun _ => .node node) <$> inspect filters levels node := by
  induction levels generalizing node with
  | zero =>
    simp only [walkNode, inspect, map_bind]
    rfl
  | succ levels ih =>
    have hdescend : node.descend (walkNode filters levels) = _ :=
      Node.descend_eq fun child _ => ih child
    simp [walkNode, inspect, runChain_eq hp, hdescend]

end Filter

/-! ## Children in their places -/

/-- Frames are added behind those that are there. -/
theorem Error.foldl_withFrame (path : List String) (cause : Cause) (context : Context) :
    path.foldl Error.withFrame ⟨cause, some context⟩
      = ⟨cause, some { context with frames := context.frames ++ path }⟩ := by
  induction path generalizing context with
  | nil => rw [List.append_nil]; rfl
  | cons frame rest ih =>
    show rest.foldl Error.withFrame
      ⟨cause, some { context with frames := context.frames ++ [frame] }⟩ = _
    rw [ih, List.append_assoc, List.singleton_append]

/-- A child in its place: the kind of its parent, the field and the slot it stands in, and the
frames from there outwards. -/
structure Place where
  parent : Kind
  field : Field
  slot : Slot
  child : Node
  /-- Innermost first. -/
  path : List String

namespace Place

/-- Whether the slot accepts the child. -/
def accepted (place : Place) : Bool := place.slot.accepts place.child.kind

/-- The same place, seen from one level further out. -/
def within (frame : String) (place : Place) : Place := { place with path := place.path ++ [frame] }

/-- The complaint about the child, seen from where the path ends. -/
def error (place : Place) : Error :=
  place.path.foldl Error.withFrame
    (Node.misplaced place.parent place.field place.slot place.child.kind)

/-- Seen from one level further out, the error of a place has one frame more. -/
theorem error_within (frame : String) (place : Place) :
    (place.within frame).error = place.error.withFrame frame := List.foldl_append ..

/-- The frames of the complaint are the path. -/
theorem error_eq {place : Place} (h : place.path ≠ []) : place.error
    = ⟨(Node.misplaced place.parent place.field place.slot place.child.kind).cause,
      some ⟨none, place.path⟩⟩ := by
  unfold error
  cases hpath : place.path with
  | nil => exact absurd hpath h
  | cons frame rest => exact Error.foldl_withFrame rest _ ⟨none, [frame]⟩

/-- The first complaint about some places, if there is one. -/
def verdict (places : List Place) : Except Error Unit :=
  match places.find? fun place => !place.accepted with
  | none => .ok ()
  | some place => .error place.error

/-- Of two lists of places, the first that is rejected decides. -/
theorem verdict_append (first second : List Place) :
    verdict (first ++ second) = verdict first >>= fun _ => verdict second := by
  unfold verdict
  rw [List.find?_append]
  cases first.find? fun place => !place.accepted with
  | none => rfl
  | some place => rfl

/-- The verdict on places seen from further out is the verdict on them, with a frame. -/
theorem verdict_within (frame : String) (places : List Place) :
    verdict (places.map (within frame))
      = (verdict places).mapError fun error => error.withFrame frame := by
  have same : ((fun place : Place => !place.accepted) ∘ within frame)
      = fun place => !place.accepted := rfl
  unfold verdict
  rw [List.find?_map, same]
  cases places.find? fun place => !place.accepted with
  | none => rfl
  | some place => exact congrArg Except.error (error_within frame place)

end Place

namespace Node

/-- The places in one field of a node. -/
def seatsIn (parent : Kind) (field : Field) (part : Part) : List Place :=
  match field.role.slot? with
  | none => []
  | some slot => part.nodes.map fun child => ⟨parent, field, slot, child, [frame parent field]⟩

/-- The places of a node's own children, in order. -/
def seats (node : Node) : List Place :=
  node.fields.flatMap fun entry => seatsIn node.kind entry.1 entry.2

/-- A seat is a child with the field and the slot it stands in. -/
theorem mem_seats {node : Node} {place : Place} :
    place ∈ node.seats ↔ ∃ field part slot child, (field, part) ∈ node.fields ∧
      field.role.slot? = some slot ∧ child ∈ part.nodes ∧
      place = ⟨node.kind, field, slot, child, [frame node.kind field]⟩ := by
  have inField : ∀ field part, place ∈ seatsIn node.kind field part ↔
      ∃ slot child, field.role.slot? = some slot ∧ child ∈ part.nodes ∧
        place = ⟨node.kind, field, slot, child, [frame node.kind field]⟩ := by
    intro field part
    unfold seatsIn
    split
    · next hnone => simp [hnone]
    · next slot hsome => simp [hsome, eq_comm]
  unfold seats
  simp only [List.mem_flatMap, Prod.exists, inField, exists_and_left]

/-- Whoever has a seat is a child. -/
theorem child_mem_children {node : Node} {place : Place} (h : place ∈ node.seats) :
    place.child ∈ node.children := by
  obtain ⟨field, part, slot, child, hentry, _, hchild, rfl⟩ := mem_seats.mp h
  exact mem_children_of_mem_nodes (List.of_mem_zip hentry).2 hchild

/-- Every child has a seat. -/
theorem exists_seat {node child : Node} (h : child ∈ node.children) :
    ∃ seat ∈ node.seats, seat.child = child := by
  obtain ⟨part, hpart, hchild⟩ := List.mem_flatMap.mp h
  obtain ⟨field, hentry⟩ := exists_field hpart
  obtain ⟨slot, hslot⟩ := exists_slot hentry hchild
  exact ⟨_, mem_seats.mpr ⟨field, part, slot, child, hentry, hslot, hchild, rfl⟩, rfl⟩

/-- All slots accept their children when every seat is accepted. -/
theorem slotsAccept_iff_seats {node : Node} :
    node.slotsAccept = true ↔ ∀ seat ∈ node.seats, seat.accepted = true := by
  rw [slotsAccept_iff]
  constructor
  · intro h seat hseat
    obtain ⟨field, part, slot, child, hentry, hslot, hchild, rfl⟩ := mem_seats.mp hseat
    obtain ⟨other, hother, haccepts⟩ := h field part hentry child hchild
    rw [hslot] at hother
    cases hother
    exact haccepts
  · intro h field part hentry child hchild
    obtain ⟨slot, hslot⟩ := exists_slot hentry hchild
    exact ⟨slot, hslot, h _ (mem_seats.mpr ⟨field, part, slot, child, hentry, hslot, hchild, rfl⟩)⟩

/-- The places of a tree, at every depth, in post-order: a child comes after all that is below it. -/
def places (node : Node) : List Place :=
  node.seats.attach.flatMap fun seat =>
    (places seat.val.child).map (Place.within (frame node.kind seat.val.field)) ++ [seat.val]
termination_by node
decreasing_by exact sizeOf_lt_of_mem_children (child_mem_children seat.property)

/-- The places of a node are those of its children, each list followed by the seat of the child. -/
theorem places_eq (node : Node) : node.places = node.seats.flatMap fun seat =>
    seat.child.places.map (Place.within (frame node.kind seat.field)) ++ [seat] := by
  rw [places]
  simp only [List.flatMap_subtype, List.unattach_attach]

/-- The places below a child, and then the child itself. -/
theorem mem_places {node : Node} {place : Place} :
    place ∈ node.places ↔ ∃ seat ∈ node.seats, place = seat ∨
      ∃ inner ∈ seat.child.places, place = inner.within (frame node.kind seat.field) := by
  rw [places_eq]
  simp only [List.mem_flatMap, List.mem_append, List.mem_map, List.mem_singleton, or_comm, eq_comm]

/-- No path is empty. -/
theorem path_ne_nil {node : Node} {place : Place} (h : place ∈ node.places) : place.path ≠ [] := by
  obtain ⟨seat, hseat, rfl | ⟨inner, _, rfl⟩⟩ := mem_places.mp h
  · obtain ⟨field, part, slot, child, _, _, _, rfl⟩ := mem_seats.mp hseat
    exact List.cons_ne_nil _ _
  · exact List.append_ne_nil_of_right_ne_nil _ (List.cons_ne_nil _ _)

/-- A tree conforms when every place of it is filled as its slot wants. -/
theorem conforms_iff_places {node : Node} :
    node.Conforms ↔ ∀ place ∈ node.places, place.accepted = true := by
  induction node using childInduction with
  | step node ih =>
    constructor
    · intro h place hplace
      obtain ⟨seat, hseat, rfl | ⟨inner, hinner, rfl⟩⟩ := mem_places.mp hplace
      · exact slotsAccept_iff_seats.mp h.slots place hseat
      · have hchild := child_mem_children hseat
        exact (ih _ hchild).mp (h.of_mem_children hchild) inner hinner
    · intro h
      refine .intro (slotsAccept_iff_seats.mpr fun seat hseat => ?_) fun child hchild => ?_
      · exact h seat (mem_places.mpr ⟨seat, hseat, .inl rfl⟩)
      · obtain ⟨seat, hseat, rfl⟩ := exists_seat hchild
        refine (ih _ hchild).mpr fun inner hinner => ?_
        exact h (inner.within (frame node.kind seat.field))
          (mem_places.mpr ⟨seat, hseat, .inr ⟨inner, hinner, rfl⟩⟩)

end Node

/-! ## The first complaint -/

/-- Whatever the trail, the computation ends with the first complaint about these places, or well if
there is none. -/
def Complains (walk : Walk σ Unit) (places : List Place) : Prop :=
  ∀ trail, (walk.run.run trail).1 = Place.verdict places

namespace Complains

variable {walk next : Walk σ Unit} {first second : List Place}

/-- Doing nothing complains of nothing. -/
theorem pure : Complains (σ := σ) (Pure.pure ()) [] := fun _ => rfl

/-- One after the other, two walks complain of the places of the first and then of the second. -/
theorem bind (hw : Complains walk first) (hn : Complains next second) :
    Complains (walk >>= fun _ => next) (first ++ second) := by
  intro trail
  have hfirst := hw trail
  rw [Place.verdict_append, ← hfirst, ExceptT.run_bind, StateT.run_bind]
  rcases walk.run.run trail with ⟨result, after⟩
  cases result with
  | error error => rfl
  | ok value => exact hn after

/-- An effect on the trail is no complaint. -/
theorem lift_bind (step : TrailM σ α) (h : Complains walk first) :
    Complains (ExceptT.lift step >>= fun _ => walk) first := by
  intro trail
  rw [ExceptT.run_bind_lift, StateT.run_bind]
  exact h _

/-- A walk over items complains of the places of each in turn. -/
theorem forM {items : List α} {visit : α → Walk σ Unit} {found : α → List Place}
    (h : ∀ item ∈ items, Complains (visit item) (found item)) :
    Complains (items.forM visit) (items.flatMap found) := by
  induction items with
  | nil => exact pure
  | cons item rest ih =>
    rw [List.flatMap_cons]
    exact (h item (List.mem_cons_self ..)).bind
      (ih fun other hmem => h other (List.mem_cons_of_mem _ hmem))

/-- A walk with a frame around it complains of the places seen from further out. -/
theorem adapt (frame : String) (h : Complains walk first) :
    Complains (ExceptT.adapt (fun error : Error => error.withFrame frame) walk)
      (first.map (Place.within frame)) := by
  intro trail
  rw [Place.verdict_within, ← h trail]
  rfl

end Complains

namespace Node

/-- Vetting a child complains of its seat, if it complains. -/
theorem complains_vet {parent : Kind} {field : Field} {slot : Slot} (child : Node)
    (h : field.role.slot? = some slot) :
    Complains (σ := σ) (vet parent field child) [⟨parent, field, slot, child, []⟩] := by
  intro trail
  unfold vet
  rw [h]
  by_cases ha : slot.accepts child.kind = true
  · simp [Place.verdict, Place.accepted, ha]
    rfl
  · simp [Place.verdict, Place.accepted, ha]
    rfl

/-- Looking at the children of a node, each of which has its own complaints. -/
theorem complains_survey {look : Node → Walk σ Unit} {node : Node}
    (h : ∀ child ∈ node.children, Complains (look child) child.places) :
    Complains (node.survey look) node.places := by
  have inField : ∀ entry ∈ node.fields, Complains (surveyPart look node.kind entry.1 entry.2)
      ((seatsIn node.kind entry.1 entry.2).flatMap fun seat =>
        seat.child.places.map (Place.within (frame node.kind seat.field)) ++ [seat]) := by
    rintro ⟨field, part⟩ hentry
    unfold seatsIn surveyPart
    split
    · next hnone =>
      have vacant : part.nodes = [] := by
        apply List.eq_nil_iff_forall_not_mem.mpr
        intro child hchild
        obtain ⟨slot, hslot⟩ := exists_slot hentry hchild
        rw [hnone] at hslot
        cases hslot
      rw [vacant]
      exact Complains.pure.adapt _
    · next slot hslot =>
      have seated : ∀ child ∈ part.nodes, Complains (heed look node.kind field child)
          (child.places ++ [⟨node.kind, field, slot, child, []⟩]) := by
        intro child hchild
        have below := h child (mem_children_of_mem_nodes (List.of_mem_zip hentry).2 hchild)
        exact below.bind (complains_vet child hslot)
      have framed := (Complains.forM seated).adapt (frame node.kind field)
      rw [List.map_flatMap] at framed
      rw [List.flatMap_map]
      simp only [List.map_append] at framed
      exact framed
  have whole := Complains.forM inField
  rw [places_eq, seats, List.flatMap_assoc]
  exact whole

end Node

namespace Filter

/-- Treading through filters that pass everything complains of nothing. -/
theorem complains_tread (filters : List (Filter σ)) (node : Node) :
    Complains (tread filters node) [] := by
  induction filters with
  | nil => exact .pure
  | cons filter later ih => exact .lift_bind _ ih

/-- An inspection complains about the first place in post-order whose child is rejected. -/
theorem complains_inspect (filters : List (Filter σ)) {levels : Nat} {node : Node}
    (h : node.height ≤ levels) : Complains (inspect filters levels node) node.places := by
  induction levels generalizing node with
  | zero =>
    rw [Node.height_eq] at h
    omega
  | succ levels ih =>
    have below : Complains (node.survey (inspect filters levels)) node.places := by
      apply Node.complains_survey
      intro child hchild
      have hlt := Node.height_lt_of_mem_children hchild
      exact ih (by omega)
    exact Complains.lift_bind (modify fun trail => { trail with visited := trail.visited + 1 })
      ((complains_tread filters node).bind below)

/-! ## Whole traversals -/

/-- A tree that is too deep is refused, and nothing happens to the trail. -/
theorem walk_of_tooDeep (levels : Nat) (filters : List (Filter σ)) {tree : Node}
    (h : maxDepth < tree.depth) (trail : Trail σ) :
    (walk levels filters tree).run.run trail
      = (.error (Node.tooDeep tree.kind tree.depth), trail) := by
  unfold walk Node.checkDepth
  rw [if_pos h]
  rfl

/-- Any other tree is traversed with the count at zero, and the end is reported if there was no error. -/
theorem run_walk {levels : Nat} {filters : List (Filter σ)} {tree : Node}
    (hd : tree.depth ≤ maxDepth) (trail : Trail σ) :
    (walk levels filters tree).run.run trail =
      match (walkNode filters levels tree).run.run { trail with visited := 0 } with
      | (.ok outcome, after) => (.ok outcome,
          { after with events := after.events.push (.walked filters.length after.visited) })
      | (.error error, after) => (.error error, after) := by
  unfold walk Node.checkDepth
  rw [if_neg (by omega)]
  show StateT.run (ExceptT.run (walkNode filters levels tree >>= _)) { trail with visited := 0 } = _
  rw [ExceptT.run_bind, StateT.run_bind]
  rcases (walkNode filters levels tree).run.run { trail with visited := 0 } with ⟨_ | _, after⟩ <;> rfl

/-- A walk succeeds as its root does, and reports the nodes it came to. -/
theorem walk_of_ok {levels : Nat} {filters : List (Filter σ)} {tree : Node} {trail after : Trail σ}
    {outcome : Outcome} (hd : tree.depth ≤ maxDepth)
    (h : (walkNode filters levels tree).run.run { trail with visited := 0 } = (.ok outcome, after)) :
    (walk levels filters tree).run.run trail = (.ok outcome,
      { after with events := after.events.push (.walked filters.length after.visited) }) := by
  rw [run_walk hd, h]

/-- A walk fails as its root does, and reports nothing. -/
theorem walk_of_error {levels : Nat} {filters : List (Filter σ)} {tree : Node}
    {trail after : Trail σ} {error : Error} (hd : tree.depth ≤ maxDepth)
    (h : (walkNode filters levels tree).run.run { trail with visited := 0 }
      = (.error error, after)) :
    (walk levels filters tree).run.run trail = (.error error, after) := by
  rw [run_walk hd, h]

/-- What a traversal by filters that let everything pass answers. -/
theorem walkNode_passing (hp : ∀ filter ∈ filters, filter.PassesThrough) {levels : Nat} {node : Node}
    (h : node.height ≤ levels) (trail : Trail σ) :
    ((walkNode filters levels node).run.run trail).1
      = (Place.verdict node.places).map fun _ => .node node := by
  rw [walkNode_eq hp, ← complains_inspect filters h trail, ExceptT.run_map, StateT.run_map]
  rfl

/-- **Filters that let everything pass are the identity exactly on conforming trees.** A tree that
is too deep is refused before any filter can leave a trace on the trail. A conforming tree comes back
as it is. Of any other tree the first child in post-order that its slot rejects is complained about,
with the path from its parent outwards to the root. -/
theorem walk_passing {levels : Nat} (hl : maxDepth ≤ levels)
    (hp : ∀ filter ∈ filters, filter.PassesThrough) (tree : Node) (trail : Trail σ) :
    (maxDepth < tree.depth → (walk levels filters tree).run.run trail
      = (.error (.structural tree.kind.name "depth" ("tree is " ++ toString tree.depth
        ++ " levels deep, limit is " ++ toString maxDepth)), trail)) ∧
    (tree.depth ≤ maxDepth → tree.Conforms →
      ∃ after, (walk levels filters tree).run.run trail = (.ok (.node tree), after)) ∧
    (tree.depth ≤ maxDepth → ¬ tree.Conforms → ∃ earlier place later after,
      tree.places = earlier ++ place :: later ∧ (∀ other ∈ earlier, other.accepted = true) ∧
      place.accepted = false ∧ (walk levels filters tree).run.run trail
        = (.error ⟨.structural place.parent.name place.field.name ("expected "
          ++ place.slot.describe ++ ", found " ++ place.child.kind.name),
            some ⟨none, place.path⟩⟩, after)) := by
  -- A tree that is not too deep is judged by its first rejected place in post-order, if there is one.
  refine ⟨fun hdeep => walk_of_tooDeep levels filters hdeep trail, ?_, ?_⟩
  · intro hd hc
    have answer := walkNode_passing hp (Nat.le_trans (tree.depth_eq ▸ hd) hl)
      { trail with visited := 0 }
    have none : tree.places.find? (fun place => !place.accepted) = none := by
      rw [List.find?_eq_none]
      intro place hplace
      simp [Node.conforms_iff_places.mp hc place hplace]
    rw [Place.verdict, none] at answer
    exact ⟨_, walk_of_ok hd (Prod.ext answer rfl)⟩
  · intro hd hc
    have answer := walkNode_passing hp (Nat.le_trans (tree.depth_eq ▸ hd) hl)
      { trail with visited := 0 }
    cases hfind : tree.places.find? fun place => !place.accepted with
    | none =>
      rw [List.find?_eq_none] at hfind
      refine absurd (Node.conforms_iff_places.mpr fun place hplace => ?_) hc
      simpa using hfind place hplace
    | some place =>
      obtain ⟨hrejected, earlier, later, hsplit, hearlier⟩ := List.find?_eq_some_iff_append.mp hfind
      have hpath := Node.path_ne_nil (List.mem_of_find?_eq_some hfind)
      rw [Place.verdict, hfind] at answer
      have failed := walk_of_error hd (Prod.ext answer rfl)
      rw [Place.error_eq hpath] at failed
      refine ⟨earlier, place, later, _, hsplit, ?_, ?_, failed⟩
      · intro other hmem
        simpa using hearlier other hmem
      · simpa using hrejected

/-- A filter that does nothing at all. -/
def idle : Filter Unit := ⟨"idle", fun _ node => pure (.keep node)⟩

/-- A program with a statement that lacks its expression, and a binding where a statement belongs. -/
def crooked : Node := .toplevel [.simple .empty, .varDef "x" none]

theorem places_crooked : crooked.places
    = [⟨.simpleStatement, ⟨"body", .child .expression⟩, .expression, .empty,
        ["SimpleStatement.body", "Toplevel.body"]⟩,
      ⟨.toplevel, ⟨"body", .sequence .statement⟩, .statement, .simple .empty, ["Toplevel.body"]⟩,
      ⟨.toplevel, ⟨"body", .sequence .statement⟩, .statement, .varDef "x" none,
        ["Toplevel.body"]⟩] := by
  have leaf : Node.empty.places = [] := Node.places_eq _
  have binding : (Node.varDef "x" none).places = [] := Node.places_eq _
  have statement : (Node.simple .empty).places = [⟨.simpleStatement, ⟨"body", .child .expression⟩,
      .expression, .empty, ["SimpleStatement.body"]⟩] := by
    rw [Node.places_eq]
    show Node.empty.places.map _ ++ [_] ++ [] = _
    rw [leaf]
    rfl
  rw [Node.places_eq]
  show (Node.simple .empty).places.map _ ++ [_] ++ ((Node.varDef "x" none).places.map _ ++ [_] ++ []) = _
  rw [statement, binding]
  rfl

theorem walk_passing_crooked : ∃ after, (walk maxDepth [idle, idle] crooked).run.run (.start ())
    = (.error ⟨.structural "SimpleStatement" "body" "expected an expression, found EmptyStatement",
      some ⟨none, ["SimpleStatement.body", "Toplevel.body"]⟩⟩, after) := by
  have passes : ∀ filter ∈ [idle, idle], filter.PassesThrough := by
    intro filter hmem
    simp only [List.mem_cons, List.not_mem_nil, or_false, or_self] at hmem
    rw [hmem]
    exact fun _ _ _ => rfl
  have shallow : crooked.depth ≤ maxDepth := by
    have three : crooked.depth = 3 := by cbv
    rw [three]
    decide
  have rejected : ¬ crooked.Conforms := by
    intro h
    have all := Node.conforms_iff_places.mp h
    rw [places_crooked] at all
    cases all _ (List.mem_cons_self ..)
  obtain ⟨earlier, place, later, after, hplaces, hearlier, hplace, hrun⟩ :=
    (walk_passing (Nat.le_refl _) passes crooked (.start ())).2.2 shallow rejected
  refine ⟨after, ?_⟩
  rw [places_crooked] at hplaces
  cases earlier with
  | nil =>
    cases hplaces
    exact hrun
  | cons other rest =>
    obtain ⟨rfl, _⟩ := List.cons.inj hplaces
    cases hearlier _ (List.mem_cons_self ..)

end Filter

end JsPrune
