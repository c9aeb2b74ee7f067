import JsPrune.Proofs.Recording

/-!
# Traversals that stop at a failure

A filter may give up at a node. Then nothing more is visited, and the error travels up to the root,
with a frame for each field that it comes through.

`Node.spots` lists the nodes of a tree in pre-order, each with the way from its parent outwards to
the root. A filter that `Screens` lets the node pass or fails. On a conforming tree a traversal by
such filters is one loop over the spots: `patrol_eq` says so as an equation between computations,
whatever the filters do to the trail and whenever they fail. The frames of an error are the path of
the spot where it arose.

Main result: `walk_failing`. A chain of recording filters and one filter that fails at certain nodes
stops at the first of them, and the error has its path.
-/

namespace JsPrune

variable {σ α β : Type}

/-! ## Loops and frames -/

/-- Visiting a list of lists is visiting each list in turn. -/
theorem forM_flatMap (items : List α) (found : α → List β) (visit : β → Walk σ Unit) :
    (items.flatMap found).forM visit = items.forM fun item => (found item).forM visit := by
  induction items with
  | nil => rfl
  | cons item rest ih =>
    rw [List.flatMap_cons]
    exact List.forM_append.trans (congrArg (_ >>= ·) (funext fun _ => ih))

theorem forM_congr {items : List α} {visit other : α → Walk σ Unit}
    (h : ∀ item ∈ items, visit item = other item) : items.forM visit = items.forM other := by
  induction items with
  | nil => rfl
  | cons item rest ih =>
    have hrest := ih fun x hmem => h x (List.mem_cons_of_mem _ hmem)
    show (visit item >>= fun _ => rest.forM visit) = (other item >>= fun _ => rest.forM other)
    rw [h item (List.mem_cons_self ..), hrest]

/-- An error gets its frame where it comes out of a loop, or where it arises: it is the same. -/
theorem adapt_forM (f : Error → Error) (items : List α) (visit : α → Walk σ Unit) :
    ExceptT.adapt f (items.forM visit) = items.forM fun item => ExceptT.adapt f (visit item) := by
  induction items with
  | nil => rfl
  | cons item rest ih =>
    show ExceptT.adapt f (visit item >>= fun _ => rest.forM visit)
      = (ExceptT.adapt f (visit item) >>= fun _ => rest.forM _)
    rw [← ih]
    apply ExceptT.ext
    apply StateT.ext
    intro trail
    rw [run_adapt, ExceptT.run_bind, StateT.run_bind, ExceptT.run_bind, StateT.run_bind, run_adapt]
    rcases (visit item).run.run trail with ⟨_ | _, after⟩ <;> rfl

/-! ## Spots -/

/-- A node of a tree, with the frames from its parent outwards to the root. -/
structure Spot where
  node : Node
  /-- Innermost first. -/
  path : List String

namespace Spot

/-- The same spot, seen from one level further out. -/
def within (frame : String) (spot : Spot) : Spot := { spot with path := spot.path ++ [frame] }

/-- Does something at the spot; an error is seen from where the path ends. -/
def visit (look : Node → Walk σ Unit) (spot : Spot) : Walk σ Unit :=
  ExceptT.adapt (fun error => spot.path.foldl Error.withFrame error) (look spot.node)

/-- At the root of a tree a visit is a plain look. -/
theorem visit_root (look : Node → Walk σ Unit) (node : Node) :
    Spot.visit look ⟨node, []⟩ = look node := by
  apply ExceptT.ext
  apply StateT.ext
  intro trail
  rw [visit, run_adapt]
  rcases (look node).run.run trail with ⟨_ | _, after⟩ <;> rfl

/-- Seen from further out, a visit puts a frame on its error. -/
theorem visit_within (look : Node → Walk σ Unit) (frame : String) (spot : Spot) :
    (spot.within frame).visit look
      = ExceptT.adapt (fun error => Error.withFrame error frame) (spot.visit look) := by
  have framed : ∀ error : Error, (spot.path ++ [frame]).foldl Error.withFrame error
      = (spot.path.foldl Error.withFrame error).withFrame frame := fun _ => List.foldl_append ..
  have whole : (spot.within frame).visit look = ExceptT.adapt
      (fun error => (spot.path ++ [frame]).foldl Error.withFrame error) (look spot.node) := rfl
  rw [whole, funext framed]
  apply ExceptT.ext
  apply StateT.ext
  intro trail
  rw [visit, run_adapt, run_adapt, run_adapt]
  rcases (look spot.node).run.run trail with ⟨_ | _, after⟩ <;> rfl

end Spot

namespace Node

/-- The nodes of a tree in pre-order, each with its path. -/
def spots (node : Node) : List Spot :=
  ⟨node, []⟩ :: node.seats.attach.flatMap fun seat =>
    (spots seat.val.child).map (Spot.within (frame node.kind seat.val.field))
termination_by node
decreasing_by exact sizeOf_lt_of_mem_children (child_mem_children seat.property)

/-- The spots of a tree are its root and then those of its children, in order. -/
theorem spots_eq (node : Node) : node.spots = ⟨node, []⟩ :: node.seats.flatMap fun seat =>
    seat.child.spots.map (Spot.within (frame node.kind seat.field)) := by
  rw [spots]
  simp only [List.flatMap_subtype, List.unattach_attach]

/-- A field without a slot holds no children. -/
theorem nodes_eq_nil_of_slot?_eq_none {node : Node} {field : Field} {part : Part}
    (hentry : (field, part) ∈ node.fields) (h : field.role.slot? = none) : part.nodes = [] := by
  apply List.eq_nil_iff_forall_not_mem.mpr
  intro child hchild
  obtain ⟨slot, hslot⟩ := exists_slot hentry hchild
  rw [h] at hslot
  cases hslot

/-- The seats in a field are those of its children. -/
theorem map_child_seatsIn {node : Node} {field : Field} {part : Part}
    (hentry : (field, part) ∈ node.fields) :
    (seatsIn node.kind field part).map Place.child = part.nodes := by
  unfold seatsIn
  split
  · next hnone =>
    rw [nodes_eq_nil_of_slot?_eq_none hentry hnone]
    rfl
  · next slot hsome =>
    rw [List.map_map]
    exact List.map_id _

/-- The seats of a node are taken by its children, in order. -/
theorem map_child_seats (node : Node) : node.seats.map Place.child = node.children := by
  rw [← flatMap_fields, seats, List.map_flatMap]
  exact List.flatMap_congr fun entry hentry => map_child_seatsIn hentry

/-- The nodes at the spots are those of the tree, parents first. -/
theorem map_node_spots (node : Node) : node.spots.map Spot.node = node.preorder := by
  induction node using childInduction with
  | step node ih =>
    rw [spots_eq, preorder_eq, List.map_cons, List.map_flatMap, ← map_child_seats, List.flatMap_map]
    refine congrArg (node :: ·) (List.flatMap_congr fun seat hseat => ?_)
    rw [List.map_map, ← ih _ (child_mem_children hseat)]
    rfl

/-- Looking at accepted children is looking at the one in each seat, in order. -/
theorem survey_eq {look : Node → Walk σ Unit} {node : Node} (hs : node.slotsAccept = true) :
    node.survey look = node.seats.forM fun seat =>
      ExceptT.adapt (fun error : Error => error.withFrame (frame node.kind seat.field))
        (look seat.child) := by
  unfold survey seats
  rw [forM_flatMap]
  refine forM_congr fun ⟨field, part⟩ hentry => ?_
  unfold surveyPart seatsIn
  split
  · next hnone =>
    rw [nodes_eq_nil_of_slot?_eq_none hentry hnone]
    rfl
  · next slot hslot =>
    have accepted : ∀ child ∈ part.nodes, heed look node.kind field child = look child := by
      intro child hchild
      obtain ⟨slot', hslot', haccepts⟩ := slotsAccept_iff.mp hs field part hentry child hchild
      have passes : vet (σ := σ) node.kind field child = pure () := by
        unfold vet
        rw [hslot']
        exact if_pos haccepts
      rw [heed, passes]
      exact bind_pure _
    rw [forM_congr accepted, adapt_forM]
    symm
    exact List.forM_map

end Node

/-! ## Filters that let pass or fail -/

namespace Filter

/-- Whatever comes later and whatever the trail, the filter lets the chain go on with the node it was
shown and leaves the result alone, or it fails. -/
def Screens (filter : Filter σ) : Prop :=
  ∀ later node trail, ((filter.step later node).run trail).1 = .keep node ∨
    ∃ error, ((filter.step later node).run trail).1 = .settle (.error error)

/-- Goes on after a filter's move, unless the filter failed. -/
def unlessFailed (rest : Walk σ Unit) : Move σ → Walk σ Unit
  | .settle (.error error) => throw error
  | _ => rest

/-- The filters have their turn at a node, one after the other, up to the first that fails. -/
def screen : List (Filter σ) → Node → Walk σ Unit
  | [], _ => pure ()
  | filter :: later, node => do
    let move ← ExceptT.lift (filter.step later.length node)
    unlessFailed (screen later node) move

variable {filters : List (Filter σ)}

/-- Filters that only screen a node do so one after the other, and then the descent begins. -/
theorem runChain_eq_screen (hp : ∀ filter ∈ filters, filter.Screens)
    (walk : Node → Walk σ Outcome) (node : Node) : runChain walk filters node = (do
      screen filters node
      Outcome.node <$> node.descend walk) := by
  induction filters with
  | nil => simp [runChain, screen]
  | cons filter later ih =>
    have hlater := ih fun other hmem => hp other (List.mem_cons_of_mem _ hmem)
    apply ExceptT.ext
    apply StateT.ext
    intro trail
    rw [runChain, screen, bind_assoc]
    show StateT.run (ExceptT.run (ExceptT.lift _ >>= _)) trail = _
    rw [ExceptT.run_bind_lift, ExceptT.run_bind_lift, StateT.run_bind, StateT.run_bind]
    have hmove := hp filter (List.mem_cons_self ..) later.length node trail
    rcases hstep : (filter.step later.length node).run trail with ⟨move, after⟩
    rw [hstep] at hmove
    rcases hmove with rfl | ⟨error, rfl⟩
    · exact congrArg (fun walk : Walk σ Outcome => walk.run.run after) hlater
    · rfl

/-- Comes to a node, and then to what is below it, at most `levels` levels down. -/
def patrol (look : Node → Walk σ Unit) : Nat → Node → Walk σ Unit
  | 0, _ => do
    modify fun trail => { trail with exhausted := true }
    throw outOfLevels
  | levels + 1, node => do
    look node
    node.survey (patrol look levels)

/-- What happens at a node before its children: it is counted, and the filters have their turn. -/
def meet (filters : List (Filter σ)) (node : Node) : Walk σ Unit := do
  modify fun trail => { trail with visited := trail.visited + 1 }
  screen filters node

/-- A traversal by filters that let pass or fail changes nothing. -/
theorem walkNode_eq_patrol (hp : ∀ filter ∈ filters, filter.Screens) (levels : Nat) (node : Node) :
    walkNode filters levels node = (fun _ => .node node) <$> patrol (meet filters) levels node := by
  induction levels generalizing node with
  | zero =>
    simp only [walkNode, patrol, map_bind]
    rfl
  | succ levels ih =>
    have hdescend : node.descend (walkNode filters levels) = _ :=
      Node.descend_eq fun child _ => ih child
    simp [walkNode, patrol, meet, runChain_eq_screen hp, hdescend]

/-- On a conforming tree it comes to the spots of the tree in pre-order, and an error that arises at
one of them gets its path. -/
theorem patrol_eq (look : Node → Walk σ Unit) {levels : Nat} {node : Node} (hc : node.Conforms)
    (h : node.height ≤ levels) : patrol look levels node = node.spots.forM (Spot.visit look) := by
  induction levels generalizing node with
  | zero =>
    rw [Node.height_eq] at h
    omega
  | succ levels ih =>
    have below : node.survey (patrol look levels) = (node.seats.flatMap fun seat =>
        seat.child.spots.map (Spot.within (Node.frame node.kind seat.field))).forM
          (Spot.visit look) := by
      rw [Node.survey_eq hc.slots, forM_flatMap]
      refine forM_congr fun seat hseat => ?_
      have hchild := Node.child_mem_children hseat
      have hlt := Node.height_lt_of_mem_children hchild
      have deeper := ih (hc.of_mem_children hchild) (by omega)
      rw [deeper, adapt_forM, ← funext fun spot => Spot.visit_within look _ spot]
      exact List.forM_map.symm
    rw [patrol, below, Node.spots_eq]
    exact congrArg (· >>= _) (Spot.visit_root look node).symm

/-! ## Recording up to a failure -/

/-- The filter fails with `message` at the nodes that satisfy `test` and lets all others pass. It
leaves no trace. -/
def FailsOn (test : Node → Bool) (message : String) (filter : Filter σ) : Prop :=
  ∀ remaining node trail, (filter.step remaining node).run trail
    = (if test node then .settle (.error (.filter message)) else .keep node, trail)

variable {filters : List (Filter (List Turn))} {test : Node → Bool} {message : String}

/-- A filter that may fail screens, and so do those that record. -/
theorem screens_of_failing {place : Nat} (hp : place < filters.length)
    (hf : filters[place].FailsOn test message)
    (hr : ∀ i (h : i < filters.length), i ≠ place → filters[i].Records i) :
    ∀ filter ∈ filters, filter.Screens := by
  intro filter hmem later node trail
  obtain ⟨i, hi, rfl⟩ := List.mem_iff_getElem.mp hmem
  by_cases h : i = place
  · subst h
    rw [hf later node trail]
    cases test node with
    | true => exact .inr ⟨_, rfl⟩
    | false => exact .inl rfl
  · exact .inl ((hr i hi h).passesThrough later node trail)

/-- Where all filters let the node pass, nothing stops them. -/
theorem screen_eq_tread {filters : List (Filter σ)}
    (hp : ∀ filter ∈ filters, filter.PassesThrough) (node : Node) :
    screen filters node = tread filters node := by
  induction filters with
  | nil => rfl
  | cons filter later ih =>
    have hlater := ih fun other hmem => hp other (List.mem_cons_of_mem _ hmem)
    have hstep := hp filter (List.mem_cons_self ..) later.length node
    rw [screen, tread, ← hlater]
    exact lift_bind_eq hstep _

/-- At a node where the filter in place `place` fails, the filters before it have had their turn. At
any other node all but this one write their turn down. -/
theorem run_screen (start : Nat) {place : Nat} (hp : place < filters.length)
    (hf : filters[place].FailsOn test message)
    (hr : ∀ i (h : i < filters.length), i ≠ place → filters[i].Records (start + i)) (node : Node)
    (trail : Trail (List Turn)) : (screen filters node).run.run trail
      = if test node then (.error (.filter message), { trail with
          state := trail.state ++ (turns start filters.length node).take place })
        else (.ok (), { trail with
          state := trail.state ++ (turns start filters.length node).eraseIdx place }) := by
  -- Either the head of the chain is the filter that fails, and what comes later records, or the head
  -- records and the filter that fails is one place nearer.
  induction filters generalizing start place trail with
  | nil => cases hp
  | cons filter later ih =>
    rw [screen, ExceptT.run_bind_lift, StateT.run_bind, List.length_cons, turns_succ]
    have behind : ∀ i (h : i < later.length), i + 1 ≠ place →
        later[i].Records (start + 1 + i) := by
      intro i h hne
      have next := hr (i + 1) (Nat.succ_lt_succ h) hne
      rwa [List.getElem_cons_succ, Nat.add_comm i, ← Nat.add_assoc] at next
    cases place with
    | zero =>
      have rest : ∀ i (h : i < later.length), later[i].Records (start + 1 + i) :=
        fun i h => behind i h (Nat.succ_ne_zero i)
      have passes : ∀ other ∈ later, other.PassesThrough := by
        intro other hmem
        obtain ⟨i, hi, rfl⟩ := List.mem_iff_getElem.mp hmem
        exact (rest i hi).passesThrough
      have failing : filter.FailsOn test message := hf
      rw [failing later.length node trail]
      cases test node with
      | true =>
        rw [List.take_zero, List.append_nil]
        rfl
      | false =>
        rw [List.eraseIdx_zero, List.tail_cons]
        show (screen later node).run.run trail = _
        rw [screen_eq_tread passes]
        exact leads_tread (start + 1) rest node trail
    | succ place =>
      have first : filter.Records start := hr 0 (Nat.zero_lt_succ _) (Nat.succ_ne_zero place).symm
      have rest : ∀ i (h : i < later.length), i ≠ place → later[i].Records (start + 1 + i) :=
        fun i h hne => behind i h fun same => hne (Nat.succ.inj same)
      rw [first later.length node trail]
      show (screen later node).run.run _ = _
      rw [ih (start + 1) (Nat.lt_of_succ_lt_succ hp) hf rest]
      simp only [List.take_succ_cons, List.eraseIdx_cons_succ, List.append_assoc,
        List.singleton_append]

/-- What coming to a node where no filter fails does to the trail: the filter in place `place` has
its turn without a trace. -/
def note (count place : Nat) (trail : Trail (List Turn)) (node : Node) : Trail (List Turn) :=
  { trail with
    visited := trail.visited + 1
    state := trail.state ++ (turns 0 count node).eraseIdx place }

/-- Nodes that pass leave a turn for each filter but the one at `place`, and are counted. -/
theorem foldl_note (count place : Nat) (nodes : List Node) (trail : Trail (List Turn)) :
    nodes.foldl (note count place) trail = { trail with
      visited := trail.visited + nodes.length
      state := trail.state ++ nodes.flatMap fun node => (turns 0 count node).eraseIdx place } := by
  induction nodes generalizing trail with
  | nil => simp
  | cons node rest ih =>
    rw [List.foldl_cons, ih]
    simp only [note, List.length_cons, List.flatMap_cons, List.append_assoc, Nat.add_assoc,
      Nat.add_comm 1]

section
variable {place : Nat} (hp : place < filters.length)
  (hf : filters[place].FailsOn test message)
  (hr : ∀ i (h : i < filters.length), i ≠ place → filters[i].Records i)
include hf hr

/-- A node that meets the filters is turned away by the one that fails, or passes. -/
theorem run_meet (node : Node) (trail : Trail (List Turn)) :
    (meet filters node).run.run trail = if test node
      then (.error (.filter message), { trail with
        visited := trail.visited + 1
        state := trail.state ++ (turns 0 filters.length node).take place })
      else (.ok (), note filters.length place trail node) :=
  run_screen 0 hp hf (by simpa only [Nat.zero_add] using hr) node
    { trail with visited := trail.visited + 1 }

/-- Spots where no filter fails are left behind one by one. -/
theorem leads_visits {spots : List Spot} (h : ∀ spot ∈ spots, test spot.node = false) :
    Leads (spots.forM (Spot.visit (meet filters))) fun trail =>
      (spots.map Spot.node).foldl (note filters.length place) trail := by
  have each : ∀ spot ∈ spots, Leads (Spot.visit (meet filters) spot) fun trail =>
      note filters.length place trail spot.node := by
    intro spot hmem
    refine Leads.adapt _ fun trail => ?_
    rw [run_meet hp hf hr, h spot hmem]
    rfl
  simp only [List.foldl_map]
  exact Leads.forM each

/-- At the first spot where the filter fails the loop ends. -/
theorem run_visits_failing {earlier : List Spot} {spot : Spot}
    (h : ∀ other ∈ earlier, test other.node = false) (hs : test spot.node = true) (later : List Spot)
    (trail : Trail (List Turn)) :
    ((earlier ++ spot :: later).forM (Spot.visit (meet filters))).run.run trail
      = (.error (spot.path.foldl Error.withFrame (.filter message)), { trail with
        visited := trail.visited + (earlier.length + 1)
        state := trail.state
          ++ earlier.flatMap (fun other => (turns 0 filters.length other.node).eraseIdx place)
          ++ (turns 0 filters.length spot.node).take place }) := by
  have before : (earlier.forM (Spot.visit (meet filters))).run.run trail
      = (.ok (), { trail with
        visited := trail.visited + earlier.length
        state := trail.state ++ earlier.flatMap fun other =>
          (turns 0 filters.length other.node).eraseIdx place }) := by
    rw [leads_visits hp hf hr h trail]
    simp only [foldl_note, List.length_map, List.flatMap_map]
  have split : (earlier ++ spot :: later).forM (Spot.visit (meet filters)) = (do
      earlier.forM (Spot.visit (meet filters))
      Spot.visit (meet filters) spot
      later.forM (Spot.visit (meet filters))) := List.forM_append
  rw [split, ExceptT.run_bind, StateT.run_bind, before]
  show StateT.run (ExceptT.run (Spot.visit (meet filters) spot >>= _)) _ = _
  rw [ExceptT.run_bind, StateT.run_bind, Spot.visit, run_adapt, run_meet hp hf hr, hs]
  rfl

end

/-- **A failing filter stops a traversal at once.** In a chain of recording filters, the one in place
`place` fails at the nodes that satisfy `test`. If there is no such node in a conforming tree of at
most `maxDepth` levels, the tree comes back as it was. Otherwise the traversal fails at the first one
in pre-order, with the frames from its parent outwards to the root; the filters have written down
their turns at all nodes before it, and at the node itself only those before the failing one. -/
theorem walk_failing {levels : Nat} (hl : maxDepth ≤ levels) {place : Nat}
    (hp : place < filters.length) (hf : filters[place].FailsOn test message)
    (hr : ∀ i (h : i < filters.length), i ≠ place → filters[i].Records i) {tree : Node}
    (hc : tree.Conforms) (hd : tree.depth ≤ maxDepth) (trail : Trail (List Turn)) :
    ((∀ node ∈ tree.preorder, test node = false) →
      (walk levels filters tree).run.run trail = (.ok (.node tree), { trail with
        state := trail.state ++ tree.preorder.flatMap fun node =>
          (turns 0 filters.length node).eraseIdx place
        events := trail.events.push (.walked filters.length tree.preorder.length)
        visited := tree.preorder.length })) ∧
    ((∃ node ∈ tree.preorder, test node = true) → ∃ earlier spot later,
      tree.spots = earlier ++ spot :: later ∧
      tree.preorder = earlier.map Spot.node ++ spot.node :: later.map Spot.node ∧
      (∀ other ∈ earlier, test other.node = false) ∧ test spot.node = true ∧
      (walk levels filters tree).run.run trail
        = (.error ⟨.filter message, if spot.path = [] then none else some ⟨none, spot.path⟩⟩,
          { trail with
            state := trail.state
              ++ earlier.flatMap (fun other => (turns 0 filters.length other.node).eraseIdx place)
              ++ (turns 0 filters.length spot.node).take place
            visited := earlier.length + 1 })) := by
  have patrolled : walkNode filters levels tree
      = (fun _ => .node tree) <$> tree.spots.forM (Spot.visit (meet filters)) := by
    rw [walkNode_eq_patrol (screens_of_failing hp hf hr),
      patrol_eq _ hc (Nat.le_trans (tree.depth_eq ▸ hd) hl)]
  -- The walk is a round of visits, and a visit fails at most once.
  constructor
  · intro none
    have quiet : ∀ spot ∈ tree.spots, test spot.node = false := by
      intro spot hmem
      exact none _ (tree.map_node_spots ▸ List.mem_map_of_mem hmem)
    have visited := leads_visits hp hf hr quiet { trail with visited := 0 }
    have walked : (walkNode filters levels tree).run.run { trail with visited := 0 }
        = (.ok (.node tree), tree.preorder.foldl (note filters.length place)
          { trail with visited := 0 }) := by
      rw [patrolled, ExceptT.run_map, StateT.run_map, visited, tree.map_node_spots]
      rfl
    rw [walk_of_ok hd walked, foldl_note]
    simp only [Nat.zero_add]
  · rintro ⟨node, hmem, hnode⟩
    -- The first spot that fails splits the round in two; what comes before it passes.
    cases hfind : tree.spots.find? fun spot => test spot.node with
    | none =>
      rw [← tree.map_node_spots] at hmem
      obtain ⟨spot, hspot, rfl⟩ := List.mem_map.mp hmem
      exact absurd hnode (List.find?_eq_none.mp hfind spot hspot)
    | some spot =>
      obtain ⟨hs, earlier, later, hsplit, hearlier⟩ := List.find?_eq_some_iff_append.mp hfind
      have quiet : ∀ other ∈ earlier, test other.node = false := by
        intro other hother
        simpa using hearlier other hother
      refine ⟨earlier, spot, later, hsplit, ?_, quiet, hs, ?_⟩
      · rw [← tree.map_node_spots, hsplit, List.map_append, List.map_cons]
      · have framed : spot.path.foldl Error.withFrame (.filter message)
            = ⟨.filter message, if spot.path = [] then none else some ⟨none, spot.path⟩⟩ := by
          cases spot.path with
          | nil => rfl
          | cons frame rest => exact Error.foldl_withFrame rest _ ⟨none, [frame]⟩
        have failed := run_visits_failing hp hf hr quiet hs later
          { trail with visited := 0 }
        simp only [framed, Nat.zero_add] at failed
        apply walk_of_error hd
        rw [patrolled, ExceptT.run_map, StateT.run_map, hsplit, failed]
        rfl

/-- The spots of a tree with one call in it, found from the call outwards. -/
theorem spots_branching : branching.spots = [⟨branching, []⟩,
    ⟨.ifElse (.identifier "ready") (.simple (.call .plain (.identifier "go") [])) (some .empty),
      ["Toplevel.body"]⟩,
    ⟨.identifier "ready", ["If.condition", "Toplevel.body"]⟩,
    ⟨.simple (.call .plain (.identifier "go") []), ["If.body", "Toplevel.body"]⟩,
    ⟨.call .plain (.identifier "go") [], ["SimpleStatement.body", "If.body", "Toplevel.body"]⟩,
    ⟨.identifier "go", ["Call.expression", "SimpleStatement.body", "If.body", "Toplevel.body"]⟩,
    ⟨.empty, ["If.alternative", "Toplevel.body"]⟩] := by
  have leaf {node : Node} (h : node.seats = []) : node.spots = [⟨node, []⟩] := by
    rw [Node.spots_eq, h]
    rfl
  have call : (Node.call .plain (.identifier "go") []).spots
      = [⟨.call .plain (.identifier "go") [], []⟩, ⟨.identifier "go", ["Call.expression"]⟩] := by
    rw [Node.spots_eq]
    show _ :: ((Node.identifier "go").spots.map _ ++ []) = _
    rw [leaf rfl]
    rfl
  have statement : (Node.simple (.call .plain (.identifier "go") [])).spots
      = [⟨.simple (.call .plain (.identifier "go") []), []⟩,
        ⟨.call .plain (.identifier "go") [], ["SimpleStatement.body"]⟩,
        ⟨.identifier "go", ["Call.expression", "SimpleStatement.body"]⟩] := by
    rw [Node.spots_eq]
    show _ :: ((Node.call .plain (.identifier "go") []).spots.map _ ++ []) = _
    rw [call]
    rfl
  rw [Node.spots_eq]
  show _ :: ((Node.ifElse _ _ (some .empty)).spots.map _ ++ []) = _
  rw [Node.spots_eq]
  show _ :: ((_ :: ((Node.identifier "ready").spots.map _ ++ ((Node.simple _).spots.map _ ++
    (Node.empty.spots.map _ ++ [])))).map _ ++ []) = _
  rw [leaf rfl, statement, leaf rfl]
  rfl

/-- A filter that allows no calls. -/
def uncalling : Filter (List Turn) where
  name := "uncalling"
  step _ node := return if node.kind == .call then .settle (.error (.filter "no calls")) else .keep node

theorem walk_failing_branching :
    (walk maxDepth [recorder 0, uncalling, recorder 2] branching).run.run (.start [])
      = (.error ⟨.filter "no calls",
          some ⟨none, ["SimpleStatement.body", "If.body", "Toplevel.body"]⟩⟩, {
        state := ([branching,
          .ifElse (.identifier "ready") (.simple (.call .plain (.identifier "go") [])) (some .empty),
          .identifier "ready", .simple (.call .plain (.identifier "go") [])].flatMap fun node =>
            [⟨0, 2, node⟩, ⟨2, 0, node⟩]) ++ [⟨0, 2, .call .plain (.identifier "go") []⟩]
        events := #[]
        visited := 5
        exhausted := false }) := by
  have fails : [recorder 0, uncalling, recorder 2][1].FailsOn (fun node => node.kind == .call)
      "no calls" := fun _ _ _ => rfl
  have recording : ∀ i (h : i < [recorder 0, uncalling, recorder 2].length), i ≠ 1 →
      [recorder 0, uncalling, recorder 2][i].Records i := by
    intro i h hne
    match i with
    | 0 => exact fun _ _ _ => rfl
    | 1 => exact absurd rfl hne
    | 2 => exact fun _ _ _ => rfl
  have fine : Node.conformsWithin 5 branching = true := by cbv
  have shallow : branching.depth ≤ maxDepth :=
    Nat.le_trans (Node.depth_le_of_within fine) (by decide)
  have met : ∃ node ∈ branching.preorder, (node.kind == .call) = true := by
    rw [← branching.map_node_spots, spots_branching]
    exact ⟨.call .plain (.identifier "go") [], by simp, rfl⟩
  obtain ⟨earlier, spot, later, hsplit, _, hearlier, hspot, hrun⟩ :=
    (walk_failing (Nat.le_refl _) (by decide) fails recording (.of_within fine) shallow
      (.start [])).2 met
  -- The split is where the first call is.
  have passed : earlier = branching.spots.takeWhile fun spot => !(spot.node.kind == .call) := by
    rw [hsplit, List.takeWhile_append_of_pos (by simpa using hearlier),
      List.takeWhile_cons_of_neg (by simp [hspot]), List.append_nil]
  rw [spots_branching] at passed hsplit
  subst passed
  cases hsplit
  exact hrun

end Filter

end JsPrune
