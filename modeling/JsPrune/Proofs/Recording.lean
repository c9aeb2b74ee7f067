import JsPrune.Proofs.Inspection

/-!
# The order of a traversal

Three readers go through a tree on their own: the traversal by filters, which takes nodes apart and
puts them together again, the visitor, and the list `Node.preorder` of all nodes. Filters that write
down each of their turns make the first one visible.

`Leads` says of a computation that it goes well and what it makes of the trail. Nothing fails on a
conforming tree, so an inspection does to the trail what its turns do, one node after the other in
pre-order (`leads_inspect`).

Main result: `walk_recording`. The log of a traversal by recording filters is the pre-order of the
tree, with the turns of all filters at each node; the traversal reports as many nodes as there are,
the census counts as many, and a visitor enters the same nodes in the same order.
-/

namespace JsPrune

variable {σ α : Type}

/-- Whatever the trail, the computation goes well and leaves what `change` makes of the trail. -/
def Leads (walk : Walk σ Unit) (change : Trail σ → Trail σ) : Prop :=
  ∀ trail, walk.run.run trail = (.ok (), change trail)

namespace Leads

variable {walk next : Walk σ Unit} {first second : Trail σ → Trail σ}

theorem pure : Leads (σ := σ) (Pure.pure ()) id := fun _ => rfl

theorem bind (hw : Leads walk first) (hn : Leads next second) :
    Leads (walk >>= fun _ => next) (second ∘ first) := by
  intro trail
  rw [ExceptT.run_bind, StateT.run_bind, hw trail]
  exact hn (first trail)

theorem lift_bind (step : TrailM σ α) (hs : ∀ trail, (step.run trail).2 = first trail)
    (hn : Leads next second) : Leads (ExceptT.lift step >>= fun _ => next) (second ∘ first) := by
  intro trail
  rw [ExceptT.run_bind_lift, StateT.run_bind, Function.comp_apply, ← hs]
  exact hn _

theorem adapt (f : Error → Error) (h : Leads walk first) : Leads (ExceptT.adapt f walk) first := by
  intro trail
  rw [run_adapt, h trail]
  rfl

theorem forM {items : List α} {visit : α → Walk σ Unit} {change : α → Trail σ → Trail σ}
    (h : ∀ item ∈ items, Leads (visit item) (change item)) :
    Leads (items.forM visit) fun trail =>
      items.foldl (fun trail item => change item trail) trail := by
  induction items with
  | nil => exact pure
  | cons item rest ih =>
    exact (h item (List.mem_cons_self ..)).bind
      (ih fun other hmem => h other (List.mem_cons_of_mem _ hmem))

end Leads

namespace Node

/-- On accepted children, looking at all of them is looking at one after the other. -/
theorem leads_survey {look : Node → Walk σ Unit} {change : Node → Trail σ → Trail σ} {node : Node}
    (hs : node.slotsAccept = true) (h : ∀ child ∈ node.children, Leads (look child) (change child)) :
    Leads (node.survey look) fun trail =>
      node.children.foldl (fun trail child => change child trail) trail := by
  have inField : ∀ entry ∈ node.fields, Leads (surveyPart look node.kind entry.1 entry.2)
      fun trail => entry.2.nodes.foldl (fun trail child => change child trail) trail := by
    rintro ⟨field, part⟩ hentry
    refine (Leads.forM fun child hchild => ?_).adapt _
    have looked := h child (mem_children_of_mem_nodes (List.of_mem_zip hentry).2 hchild)
    obtain ⟨slot, hslot, haccepts⟩ := slotsAccept_iff.mp hs field part hentry child hchild
    have passes : Leads (σ := σ) (vet node.kind field child) id := by
      unfold vet
      rw [hslot]
      dsimp only
      rw [if_pos haccepts]
      exact .pure
    exact looked.bind passes
  have whole := Leads.forM inField
  rw [← flatMap_fields node]
  simp only [List.foldl_flatMap]
  exact whole

end Node

/-! ## Turns -/

/-- One turn of a filter: its place in the chain, how many filters come after it, and the node it
is shown. -/
structure Turn where
  filter : Nat
  remaining : Nat
  node : Node

namespace Filter

/-- The filter writes its turn down and lets the chain go on with the node. -/
def Records (index : Nat) (filter : Filter (List Turn)) : Prop :=
  ∀ remaining node trail, (filter.step remaining node).run trail
    = (.keep node, { trail with state := trail.state ++ [⟨index, remaining, node⟩] })

/-- The turns that `count` filters have at a node, the first of them in place `start`. -/
def turns (start count : Nat) (node : Node) : List Turn :=
  (List.range count).map fun i => ⟨start + i, count - 1 - i, node⟩

theorem turns_succ (start count : Nat) (node : Node) :
    turns start (count + 1) node = ⟨start, count, node⟩ :: turns (start + 1) count node := by
  unfold turns
  rw [List.range_succ_eq_map, List.map_cons, List.map_map]
  refine congrArg₂ _ rfl (List.map_congr_left fun i _ => ?_)
  show Turn.mk (start + (i + 1)) (count - (i + 1)) node = ⟨start + 1 + i, count - 1 - i, node⟩
  congr 1 <;> omega

variable {filters : List (Filter (List Turn))}

/-- Recording filters only write. -/
theorem Records.passesThrough {index : Nat} {filter : Filter (List Turn)}
    (h : filter.Records index) : filter.PassesThrough := by
  intro later node trail
  rw [h later node trail]

/-- At one node, the filters of the chain write down their turns. -/
theorem leads_tread (start : Nat)
    (hr : ∀ i (h : i < filters.length), filters[i].Records (start + i)) (node : Node) :
    Leads (tread filters node) fun trail =>
      { trail with state := trail.state ++ turns start filters.length node } := by
  induction filters generalizing start with
  | nil =>
    intro trail
    show _ = (_, { trail with state := trail.state ++ [] })
    rw [List.append_nil]
    rfl
  | cons filter later ih =>
    have first : filter.Records start := hr 0 (Nat.zero_lt_succ _)
    have rest : ∀ i (h : i < later.length), later[i].Records (start + 1 + i) := by
      intro i h
      have next := hr (i + 1) (Nat.succ_lt_succ h)
      rwa [List.getElem_cons_succ, Nat.add_comm i, ← Nat.add_assoc] at next
    have written : ∀ trail, ((filter.step later.length node).run trail).2
        = { trail with state := trail.state ++ [⟨start, later.length, node⟩] } := by
      intro trail
      rw [first]
    intro trail
    rw [tread, Leads.lift_bind _ written (ih _ rest) trail]
    simp only [Function.comp_apply, List.length_cons, turns_succ, List.append_assoc,
      List.singleton_append]

/-- What coming to a node does to the trail. -/
def mark (count : Nat) (trail : Trail (List Turn)) (node : Node) : Trail (List Turn) :=
  { trail with
    visited := trail.visited + 1
    state := trail.state ++ turns 0 count node }

/-- An inspection of a conforming tree comes to its nodes in pre-order. -/
theorem leads_inspect (hr : ∀ i (h : i < filters.length), filters[i].Records i) {levels : Nat}
    {node : Node} (hc : node.Conforms) (h : node.height ≤ levels) :
    Leads (inspect filters levels node) fun trail =>
      node.preorder.foldl (mark filters.length) trail := by
  induction levels generalizing node with
  | zero =>
    rw [Node.height_eq] at h
    omega
  | succ levels ih =>
    have below : Leads (node.survey (inspect filters levels)) fun trail => node.children.foldl
        (fun trail child => child.preorder.foldl (mark filters.length) trail) trail := by
      apply Node.leads_survey hc.slots
      intro child hchild
      have hlt := Node.height_lt_of_mem_children hchild
      exact ih (hc.of_mem_children hchild) (by omega)
    have here := leads_tread 0 (by simpa only [Nat.zero_add] using hr) node
    intro trail
    rw [Node.preorder_eq]
    simp only [List.foldl_cons, List.foldl_flatMap]
    exact Leads.lift_bind (modify fun trail => { trail with visited := trail.visited + 1 })
      (fun _ => rfl) (here.bind below) trail

/-- What coming to some nodes does to the trail. -/
theorem foldl_mark (count : Nat) (nodes : List Node) (trail : Trail (List Turn)) :
    nodes.foldl (mark count) trail = { trail with
      visited := trail.visited + nodes.length
      state := trail.state ++ nodes.flatMap (turns 0 count) } := by
  induction nodes generalizing trail with
  | nil => simp
  | cons node rest ih =>
    rw [List.foldl_cons, ih]
    simp only [mark, List.length_cons, List.flatMap_cons, List.append_assoc, Nat.add_assoc,
      Nat.add_comm 1]

/-- **All readers of a tree agree.** On a conforming tree of at most `maxDepth` levels, recording
filters write down the nodes in pre-order, at each node the filters from first to last, and the tree
comes back as it was. The number of nodes that the traversal reports is the length of that list; it
is what the census counts, in all and by kind. A visitor enters the nodes in the same order, and
leaves each after all that it entered inside. -/
theorem walk_recording {levels : Nat} (hl : maxDepth ≤ levels)
    (hr : ∀ i (h : i < filters.length), filters[i].Records i) {tree : Node} (hc : tree.Conforms)
    (hd : tree.depth ≤ maxDepth) (trail : Trail (List Turn)) :
    (walk levels filters tree).run.run trail = (.ok (.node tree), { trail with
      state := trail.state ++ tree.preorder.flatMap fun node =>
        (List.range filters.length).map fun i => ⟨i, filters.length - 1 - i, node⟩
      events := trail.events.push (.walked filters.length tree.preorder.length)
      visited := tree.preorder.length }) ∧
    tree.preorder.length = tree.size ∧
    tree.census.total = tree.size ∧ tree.census.counted = tree.size ∧
    (Visitor.bracketer.walk tree []).filterMap Bracket.entered? = tree.preorder ∧
    Bracket.Nested (Visitor.bracketer.walk tree []) := by
  refine ⟨?_, tree.length_preorder, tree.total_census, tree.counted_census, ?_⟩
  -- Filters that record pass everything through, so the walk is an inspection.
  · have passes : ∀ filter ∈ filters, filter.PassesThrough := by
      intro filter hmem
      obtain ⟨i, hi, rfl⟩ := List.mem_iff_getElem.mp hmem
      exact (hr i hi).passesThrough
    have inspected := leads_inspect hr hc (Nat.le_trans (tree.depth_eq ▸ hd) hl)
      { trail with visited := 0 }
    have walked : (walkNode filters levels tree).run.run { trail with visited := 0 }
        = (.ok (.node tree), tree.preorder.foldl (mark filters.length)
          { trail with visited := 0 }) := by
      rw [walkNode_eq passes, ExceptT.run_map, StateT.run_map, inspected]
      rfl
    rw [walk_of_ok hd walked, foldl_mark]
    simp only [Nat.zero_add]
    unfold turns
    simp only [Nat.zero_add]
  · obtain ⟨inner, brackets⟩ := tree.exists_brackets
    rw [brackets.walked, List.nil_append]
    refine ⟨?_, .node tree brackets.nested .nil⟩
    rw [Node.preorder_eq, ← brackets.entered]
    show tree :: (inner ++ [Bracket.leave tree]).filterMap Bracket.entered? = _
    rw [List.filterMap_append]
    exact congrArg (tree :: ·) (List.append_nil _)

/-- A filter that writes its turns down. -/
def recorder (index : Nat) : Filter (List Turn) where
  name := "recorder"
  step remaining node := do
    TrailM.update fun log => log ++ [⟨index, remaining, node⟩]
    return .keep node

/-- The program `if (ready) go(); else ;` -/
def branching : Node := .toplevel
  [.ifElse (.identifier "ready") (.simple (.call .plain (.identifier "go") [])) (some .empty)]

theorem walk_recording_branching :
    (walk maxDepth [recorder 0, recorder 1] branching).run.run (.start [])
      = (.ok (.node branching), {
        state := [
          .toplevel [.ifElse (.identifier "ready") (.simple (.call .plain (.identifier "go") []))
            (some .empty)],
          .ifElse (.identifier "ready") (.simple (.call .plain (.identifier "go") [])) (some .empty),
          .identifier "ready", .simple (.call .plain (.identifier "go") []),
          .call .plain (.identifier "go") [], .identifier "go", .empty].flatMap fun node =>
            [⟨0, 1, node⟩, ⟨1, 0, node⟩]
        events := #[.walked 2 7]
        visited := 7
        exhausted := false }) ∧
    branching.census.total = 7 := by
  have recording : ∀ i (h : i < [recorder 0, recorder 1].length),
      [recorder 0, recorder 1][i].Records i := by
    intro i h
    match i with
    | 0 => exact fun _ _ _ => rfl
    | 1 => exact fun _ _ _ => rfl
  have fine : Node.conformsWithin 5 branching = true := by cbv
  have shallow : branching.depth ≤ maxDepth :=
    Nat.le_trans (Node.depth_le_of_within fine) (by decide)
  have listed : branching.preorder = [branching,
      .ifElse (.identifier "ready") (.simple (.call .plain (.identifier "go") [])) (some .empty),
      .identifier "ready", .simple (.call .plain (.identifier "go") []),
      .call .plain (.identifier "go") [], .identifier "go", .empty] := by cbv
  obtain ⟨run, counted, total, _⟩ := walk_recording (Nat.le_refl _) recording
    (.of_within fine) shallow (.start [])
  rw [listed] at run counted
  exact ⟨run, total.trans counted.symm⟩

end Filter

end JsPrune
