import JsPrune.Proofs.Inspection
import JsPrune.Proofs.Relating
import Mathlib.Data.List.InsertIdx

/-!
# Filters that only watch

A filter that lets every node go on as it is, an observer, can be put anywhere in a chain without
the other filters noticing, unless they ask how many filters come after them.

The proof is a simulation. Two computations with different states of the filters are compared through
a projection of the one state to the other: `Mirrors p big small` says that `big` answers as `small`
does, and leaves the same trail once `p` has been applied to the state. The operations a traversal is
made of keep this up, so two traversals mirror each other as soon as their chains do (`Alike`): filter
by filter, but for filters in the longer chain that only watch.

What the filters of a chain get to see is found out by having each write down its turns. The
filters that write (`traced`) mirror those that do not, with the notes projected away, and they mirror
themselves when the notes of the observer are projected away.

Main results: `walkNode_mirrors`, the simulation, and `walk_insertIdx_observer`.
-/

namespace JsPrune

variable {σ τ υ ι α β : Type}

/-- The trail with the state of the filters replaced. -/
def Trail.map (p : τ → σ) (trail : Trail τ) : Trail σ :=
  ⟨p trail.state, trail.events, trail.visited, trail.exhausted⟩

/-! ## Mirrored computations -/

/-- Both effects give the same answer, and seen through `p` they leave the same trail. -/
def TrailM.Mirrors (p : τ → σ) (big : TrailM τ α) (small : TrailM σ α) : Prop :=
  ∀ trail, small.run (trail.map p) = ((big.run trail).1, (big.run trail).2.map p)

theorem TrailM.Mirrors.refl (effect : TrailM σ α) : TrailM.Mirrors id effect effect := fun _ => rfl

/-- Both computations end in the same way, with a result or with an error, and seen through `p` they
leave the same trail. -/
def Walk.Mirrors (p : τ → σ) (big : Walk τ α) (small : Walk σ α) : Prop :=
  TrailM.Mirrors p big.run small.run

/-- What is seen of the trail through `p`. -/
def Trail.Shows (p : τ → σ) (trail : Trail τ) (seen : Trail σ) : Prop := trail.map p = seen

/-- To mirror is to keep up what is seen through `p`. -/
theorem TrailM.mirrors_iff {p : τ → σ} {big : TrailM τ α} {small : TrailM σ α} :
    TrailM.Mirrors p big small ↔ TrailM.Relates (Trail.Shows p) (Trail.Shows p) big small := by
  constructor
  · rintro h trail _ rfl
    rw [h trail]
    exact ⟨rfl, rfl⟩
  · intro h trail
    obtain ⟨answer, left⟩ := h trail _ rfl
    exact Prod.ext answer.symm left.symm

theorem Walk.mirrors_iff {p : τ → σ} {big : Walk τ α} {small : Walk σ α} :
    Walk.Mirrors p big small ↔ Walk.Relates (Trail.Shows p) (Trail.Shows p) big small :=
  TrailM.mirrors_iff

namespace Walk.Mirrors

variable {p : τ → σ} {big : Walk τ α} {small : Walk σ α}

theorem ofExcept (result : Except Error α) :
    Walk.Mirrors p (Walk.ofExcept result) (Walk.ofExcept result) := fun _ => rfl

theorem report (event : Event) : Walk.Mirrors p (Walk.report event) (Walk.report event) :=
  fun _ => rfl

/-- Walks that mirror each other step by step do so as a whole. -/
theorem bind (h : Walk.Mirrors p big small) {next : α → Walk τ β} {next' : α → Walk σ β}
    (hn : ∀ a, Walk.Mirrors p (next a) (next' a)) :
    Walk.Mirrors p (big >>= next) (small >>= next') :=
  mirrors_iff.mpr ((mirrors_iff.mp h).bind fun a => mirrors_iff.mp (hn a))

theorem map (f : α → β) (h : Walk.Mirrors p big small) : Walk.Mirrors p (f <$> big) (f <$> small) :=
  mirrors_iff.mpr ((mirrors_iff.mp h).map f)

/-- An effect on the trail comes first; its answers need not be the same. -/
theorem lift_bind {γ : Type} {step : TrailM τ β} {step' : TrailM σ γ} {next : β → Walk τ α}
    {next' : γ → Walk σ α}
    (ht : ∀ trail, (step.run trail).2.map p = (step'.run (trail.map p)).2)
    (hn : ∀ trail, Walk.Mirrors p (next (step.run trail).1) (next' (step'.run (trail.map p)).1)) :
    Walk.Mirrors p (ExceptT.lift step >>= next) (ExceptT.lift step' >>= next') := by
  refine mirrors_iff.mpr (.lift_bind (Q := Trail.Shows p) ?_)
  rintro trail _ rfl
  exact ⟨ht trail, mirrors_iff.mp (hn trail)⟩

/-- Whatever is done with the results. -/
theorem answer (h : Walk.Mirrors p big small)
    {after : Except Error α → TrailM τ (Except Error β)}
    {after' : Except Error α → TrailM σ (Except Error β)}
    (ha : ∀ result, TrailM.Mirrors p (after result) (after' result)) :
    Walk.Mirrors p (ExceptT.mk (big.run >>= after)) (ExceptT.mk (small.run >>= after')) :=
  mirrors_iff.mpr ((mirrors_iff.mp h).answer fun result => TrailM.mirrors_iff.mp (ha result))

end Walk.Mirrors

/-- Two descents mirror each other if what is done with the children does. -/
theorem Node.descend_mirrors {p : τ → σ} {walk : Node → Walk τ Outcome}
    {walk' : Node → Walk σ Outcome} (hw : ∀ node, Walk.Mirrors p (walk node) (walk' node))
    (node : Node) : Walk.Mirrors p (node.descend walk) (node.descend walk') :=
  Walk.mirrors_iff.mpr (descend_relates fun child _ => Walk.mirrors_iff.mp (hw child))

/-! ## Chains that differ in filters that only watch -/

/-- The same answer, up to what is done to the state of the filters later. -/
inductive Move.Mirrors (p : τ → σ) : Move τ → Move σ → Prop
  | settle (result : Except Error Outcome) : Mirrors p (.settle result) (.settle result)
  | proceed (replaced : Bool) (node : Node)
      {after : Except Error Outcome → TrailM τ (Except Error Outcome)}
      {after' : Except Error Outcome → TrailM σ (Except Error Outcome)}
      (h : ∀ result, TrailM.Mirrors p (after result) (after' result)) :
      Mirrors p (.proceed replaced node after) (.proceed replaced node after')

/-- Every move mirrors itself. -/
theorem Move.Mirrors.refl (move : Move σ) : Move.Mirrors id move move := by
  cases move with
  | settle result => exact .settle result
  | proceed replaced node after => exact .proceed replaced node fun result => .refl (after result)

namespace Filter

/-- Whatever comes after them, both filters answer alike and do the same to the trail. -/
structure Mirrors (p : τ → σ) (big : Filter τ) (small : Filter σ) : Prop where
  name : big.name = small.name
  move : ∀ later later' node trail, Move.Mirrors p ((big.step later node).run trail).1
    ((small.step later' node).run (trail.map p)).1
  trail : ∀ later later' node trail, ((big.step later node).run trail).2.map p
    = ((small.step later' node).run (trail.map p)).2

/-- The filter lets every node go on as it is, and whatever else it does is not seen through `p`. -/
def Watches (p : τ → σ) (filter : Filter τ) : Prop :=
  ∀ later node trail, ∃ after,
    (filter.step later node).run trail = (.keep node, after) ∧ after.map p = trail.map p

/-- The same filters, but for some in the first chain that only watch. -/
inductive Alike (p : τ → σ) : List (Filter τ) → List (Filter σ) → Prop
  | nil : Alike p [] []
  | cons {filter : Filter τ} {filter' : Filter σ} {filters : List (Filter τ)}
      {filters' : List (Filter σ)} (h : filter.Mirrors p filter') (rest : Alike p filters filters') :
      Alike p (filter :: filters) (filter' :: filters')
  | aside {filter : Filter τ} {filters : List (Filter τ)} {filters' : List (Filter σ)}
      (h : filter.Watches p) (rest : Alike p filters filters') :
      Alike p (filter :: filters) filters'

/-- What comes of the answer of a filter. -/
def carryOut (walk : Node → Walk σ Outcome) (name : String) (later : List (Filter σ)) :
    Move σ → Walk σ Outcome
  | .settle result => Walk.ofExcept result
  | .proceed replaced next after => do
    if replaced then Walk.report (.replaced name next.kind)
    ExceptT.mk ((runChain walk later next).run >>= after)

/-- A chain is the move of its first filter, carried out over the rest. -/
theorem runChain_cons (walk : Node → Walk σ Outcome) (filter : Filter σ) (later : List (Filter σ))
    (node : Node) : runChain walk (filter :: later) node
      = ExceptT.lift (filter.step later.length node) >>= carryOut walk filter.name later := by
  rw [runChain]
  refine congrArg (ExceptT.lift (filter.step later.length node) >>= ·) (funext fun move => ?_)
  cases move <;> rfl

variable {p : τ → σ} {filters : List (Filter τ)} {filters' : List (Filter σ)}
  {walk : Node → Walk τ Outcome} {walk' : Node → Walk σ Outcome}

/-- Moves that mirror each other are carried out alike, if the rest of the chain is. -/
theorem carryOut_mirrors (h : ∀ node, Walk.Mirrors p (runChain walk filters node)
      (runChain walk' filters' node)) (name : String) {move : Move τ} {move' : Move σ}
    (hm : move.Mirrors p move') :
    Walk.Mirrors p (carryOut walk name filters move) (carryOut walk' name filters' move') := by
  cases hm with
  | settle result => exact .ofExcept result
  | proceed replaced node ha =>
    cases replaced with
    | true => exact (Walk.Mirrors.report _).bind fun _ => (h node).answer ha
    | false => exact (h node).answer ha

/-- A filter that only watches hands the node on. -/
theorem carryOut_keep (name : String) (node : Node) :
    carryOut walk name filters (.keep node) = runChain walk filters node :=
  ExceptT.ext (bind_pure _)

/-- Chains that are alike treat every node alike. -/
theorem runChain_mirrors (h : Alike p filters filters')
    (hw : ∀ node, Walk.Mirrors p (walk node) (walk' node)) (node : Node) :
    Walk.Mirrors p (runChain walk filters node) (runChain walk' filters' node) := by
  induction h generalizing node with
  | nil => exact (Node.descend_mirrors hw node).map _
  | cons h rest ih =>
    rw [runChain_cons, runChain_cons, h.name]
    exact .lift_bind (h.trail _ _ node) fun trail => carryOut_mirrors ih _ (h.move _ _ node trail)
  | @aside filter later filters' h rest ih =>
    -- The turn of the observer leaves nothing that is seen through `p`, and the rest of its chain
    -- goes on with the same node.
    intro trail
    obtain ⟨after, hstep, hafter⟩ := h later.length node trail
    rw [runChain_cons, ExceptT.run_bind_lift, StateT.run_bind, hstep, ← hafter]
    show _ = (((carryOut walk filter.name later (.keep node)).run.run after).1, _)
    rw [carryOut_keep]
    exact ih node after

/-- **Chains that are alike do the same at every node**, and below it. -/
theorem walkNode_mirrors (h : Alike p filters filters') (levels : Nat) (node : Node) :
    Walk.Mirrors p (walkNode filters levels node) (walkNode filters' levels node) := by
  induction levels generalizing node with
  | zero => exact fun _ => rfl
  | succ levels ih =>
    rw [walkNode, walkNode]
    exact .bind (fun _ => rfl) fun _ => runChain_mirrors h ih node

end Filter

/-- The event with the number of filters left out. -/
def Event.uncounted : Event → Event
  | .walked _ nodes => .walked 0 nodes
  | event => event

/-- The trail with the number of filters left out of the events. -/
def Trail.uncounted (trail : Trail σ) : Trail σ :=
  { trail with events := trail.events.map Event.uncounted }

namespace Filter

variable {p : τ → σ} {filters : List (Filter τ)} {filters' : List (Filter σ)}

/-- Traversals by chains that are alike end alike; all that tells them apart is the number of filters
in the closing event. -/
theorem walk_mirrors (h : Alike p filters filters') (levels : Nat) (tree : Node) (trail : Trail τ) :
    ((walk levels filters tree).run.run trail).1
        = ((walk levels filters' tree).run.run (trail.map p)).1 ∧
      ((walk levels filters tree).run.run trail).2.uncounted.map p
        = ((walk levels filters' tree).run.run (trail.map p)).2.uncounted := by
  by_cases hd : tree.depth ≤ maxDepth
  · have mirrored := walkNode_mirrors h levels tree { trail with visited := 0 }
    cases hrun : (walkNode filters levels tree).run.run { trail with visited := 0 } with
    | mk result after =>
      rw [hrun] at mirrored
      cases result with
      | ok outcome =>
        rw [walk_of_ok hd hrun, walk_of_ok hd mirrored]
        refine ⟨rfl, ?_⟩
        simp [Trail.uncounted, Trail.map, Event.uncounted]
      | error error =>
        rw [walk_of_error hd hrun, walk_of_error hd mirrored]
        exact ⟨rfl, rfl⟩
  · -- The tree is refused before any filter has its turn.
    rw [walk_of_tooDeep levels filters (by omega), walk_of_tooDeep levels filters' (by omega)]
    exact ⟨rfl, rfl⟩

/-! ## Observers -/

/-- The filter does not ask how many filters come after it. -/
def IgnoresRemaining (filter : Filter σ) : Prop :=
  ∀ later later' node, filter.step later node = filter.step later' node

/-- The filter lets every node go on as it is, and does nothing else. -/
def Observes (filter : Filter σ) : Prop := ∀ later node, filter.step later node = pure (.keep node)

/-- A filter that does not ask how many come after it mirrors itself in a longer chain. -/
theorem IgnoresRemaining.mirrors {filter : Filter σ} (h : filter.IgnoresRemaining) :
    filter.Mirrors id filter where
  name := rfl
  move later later' node trail := by
    rw [h later later']
    exact .refl _
  trail later later' node trail := by
    rw [h later later']
    rfl

/-- An observer watches whatever part of the state is looked at. -/
theorem Observes.watches {observer : Filter σ} (h : observer.Observes) : observer.Watches id :=
  fun later node trail => ⟨trail, by rw [h]; rfl, rfl⟩

theorem Alike.map {γ : Type} {f : γ → Filter τ} {g : γ → Filter σ} {items : List γ}
    (h : ∀ item ∈ items, (f item).Mirrors p (g item)) : Alike p (items.map f) (items.map g) := by
  induction items with
  | nil => exact .nil
  | cons item rest ih =>
    exact .cons (h item (List.mem_cons_self ..))
      (ih fun other hmem => h other (List.mem_cons_of_mem _ hmem))

/-- A filter that only watches may stand anywhere. -/
theorem Alike.insertIdx {filter : Filter τ} (h : Alike p filters filters') (hw : filter.Watches p)
    (position : Nat) : Alike p (filters.insertIdx position filter) filters' := by
  induction h generalizing position with
  | nil =>
    cases position with
    | zero => exact .aside hw .nil
    | succ position => exact .nil
  | cons first rest ih =>
    cases position with
    | zero => exact .aside hw (.cons first rest)
    | succ position => exact .cons first (ih position)
  | aside first rest ih =>
    cases position with
    | zero => exact .aside hw (.aside first rest)
    | succ position => exact .aside first (ih position)

end Filter

/-! ## Writing down the turns of filters -/

/-- The effect beside notes that it knows nothing of. -/
def TrailM.alongside (effect : TrailM σ α) : TrailM (σ × τ) α := fun trail =>
  ((effect.run (trail.map Prod.fst)).1,
    (effect.run (trail.map Prod.fst)).2.map fun state => (state, trail.state.2))

/-- The answer of a filter beside notes that it knows nothing of. -/
def Move.alongside : Move σ → Move (σ × τ)
  | .settle result => .settle result
  | .proceed replaced node after => .proceed replaced node fun result => (after result).alongside

namespace Filter

/-- The filter, which at each of its turns first writes down its label and the node it is shown. -/
def traced (label : ι) (filter : Filter σ) : Filter (σ × List (ι × Node)) where
  name := filter.name
  step later node := do
    TrailM.update fun (state, turns) => (state, turns ++ [(label, node)])
    return (← (filter.step later node).alongside).alongside

/-- The turns that filters have in a traversal, each with its label, in order. -/
def invocations (levels : Nat) (filters : List (ι × Filter σ)) (tree : Node) (trail : Trail σ) :
    List (ι × Node) :=
  ((walk levels (filters.map fun entry => entry.2.traced entry.1) tree).run.run
    (trail.map fun state => (state, []))).2.state.2

theorem move_alongside_fst (move : Move σ) :
    Move.Mirrors (Prod.fst (β := τ)) move.alongside move := by
  cases move with
  | settle result => exact .settle result
  | proceed replaced node after => exact .proceed replaced node fun _ _ => rfl

/-- A move carries a second state along without looking at it. -/
theorem move_alongside (g : τ → υ) (move : Move σ) :
    Move.Mirrors (Prod.map id g) move.alongside move.alongside := by
  cases move with
  | settle result => exact .settle result
  | proceed replaced node after => exact .proceed replaced node fun _ _ => rfl

/-- Filters that write down their turns do what they do without. -/
theorem IgnoresRemaining.traced_mirrors_fst {filter : Filter σ} (h : filter.IgnoresRemaining)
    (label : ι) : (filter.traced label).Mirrors Prod.fst filter where
  name := rfl
  move later later' node trail := by
    rw [h later' later]
    exact move_alongside_fst _
  trail later later' node trail := by
    rw [h later' later]
    rfl

/-- Tracing a filter does not make it ask how many come after it. -/
theorem IgnoresRemaining.traced {filter : Filter σ} (h : filter.IgnoresRemaining) (label : ι) :
    (filter.traced label).IgnoresRemaining := by
  intro later later' node
  simp only [Filter.traced, h later later']

variable {filters : List (ι × Filter σ)}

/-- Writing down the turns does not change a traversal. -/
theorem walk_traced (h : ∀ entry ∈ filters, entry.2.IgnoresRemaining) (levels : Nat) (tree : Node)
    (trail : Trail (σ × List (ι × Node))) :
    ((walk levels (filters.map fun entry => entry.2.traced entry.1) tree).run.run trail).1
        = ((walk levels (filters.map Prod.snd) tree).run.run (trail.map Prod.fst)).1 ∧
      ((walk levels (filters.map fun entry => entry.2.traced entry.1) tree).run.run
          trail).2.uncounted.map Prod.fst
        = ((walk levels (filters.map Prod.snd) tree).run.run (trail.map Prod.fst)).2.uncounted :=
  walk_mirrors (.map fun entry hentry => (h entry hentry).traced_mirrors_fst entry.1) levels tree trail

/-! ## The turns of the others -/

variable [DecidableEq ι]

/-- The state of the filters, and the turns of all but those with the label. -/
def without (label : ι) : σ × List (ι × Node) → σ × List (ι × Node) :=
  Prod.map id (List.filter fun turn => turn.1 ≠ label)

/-- The turns of one filter are the same with those of another left out. -/
theorem IgnoresRemaining.traced_mirrors {filter : Filter σ} (h : filter.IgnoresRemaining)
    {label other : ι} (hne : label ≠ other) :
    (filter.traced label).Mirrors (without other) (filter.traced label) where
  name := rfl
  move later later' node trail := by
    rw [h.traced label later' later]
    exact move_alongside _ _
  trail later later' node trail := by
    have kept : (trail.state.2 ++ [(label, node)]).filter (fun turn => turn.1 ≠ other)
        = trail.state.2.filter (fun turn => turn.1 ≠ other) ++ [(label, node)] := by
      rw [List.filter_append, List.filter_cons_of_pos (by simpa using hne), List.filter_nil]
    rw [h.traced label later' later]
    exact congrArg (fun turns => (((filter.traced label).step later node).run trail).2.map
      fun state => (state.1, turns)) kept

/-- Without its own turns a traced observer leaves nothing behind. -/
theorem Observes.traced_watches {observer : Filter σ} (h : observer.Observes) (label : ι) :
    (observer.traced label).Watches (without label) := by
  intro later node trail
  have gone : (trail.state.2 ++ [(label, node)]).filter (fun turn => turn.1 ≠ label)
      = trail.state.2.filter fun turn => turn.1 ≠ label := by
    rw [List.filter_append, List.filter_cons_of_neg (by simp), List.filter_nil, List.append_nil]
  refine ⟨trail.map fun state => (state.1, state.2 ++ [(label, node)]), ?_, ?_⟩
  · simp only [traced, h later node]
    rfl
  · exact congrArg (fun turns => trail.map fun state => (state.1, turns)) gone

/-- **Observers are transparent.** Into filters that do not ask how many filters come after them, each
with a label that is not the observer's, an observer is put at any position. Then, whatever the tree,
the state of the filters and the number of levels to go down, the traversal ends with the same result
or the same error, and the trail is the same but for the number of filters in the closing event: it
counts the same nodes, and has or has not run out of levels. The turns that the filters have are the
same as without the observer, each with the same node. -/
theorem walk_insertIdx_observer (h : ∀ entry ∈ filters, entry.2.IgnoresRemaining)
    {observer : Filter σ} (ho : observer.Observes) {label : ι}
    (hl : ∀ entry ∈ filters, entry.1 ≠ label) (position levels : Nat) (tree : Node)
    (trail : Trail σ) :
    let more := filters.insertIdx position (label, observer)
    ((walk levels (more.map Prod.snd) tree).run.run trail).1
        = ((walk levels (filters.map Prod.snd) tree).run.run trail).1 ∧
      ((walk levels (more.map Prod.snd) tree).run.run trail).2.uncounted
        = ((walk levels (filters.map Prod.snd) tree).run.run trail).2.uncounted ∧
      (invocations levels more tree trail).filter (fun turn => turn.1 ≠ label)
        = invocations levels filters tree trail := by
  intro more
  have plain : Alike id (more.map Prod.snd) (filters.map Prod.snd) := by
    rw [List.map_insertIdx]
    exact (Alike.map fun entry hentry => (h entry hentry).mirrors).insertIdx ho.watches position
  have noted : Alike (without label) (more.map fun entry => entry.2.traced entry.1)
      (filters.map fun entry => entry.2.traced entry.1) := by
    rw [List.map_insertIdx]
    refine (Alike.map fun entry hentry => ?_).insertIdx (ho.traced_watches label) position
    exact (h entry hentry).traced_mirrors (hl entry hentry)
  -- Result and trail are those of the filters as they are, the turns those of the filters that write.
  obtain ⟨result, left⟩ := walk_mirrors plain levels tree trail
  obtain ⟨_, written⟩ := walk_mirrors noted levels tree (trail.map fun state => (state, []))
  exact ⟨result, left, congrArg (fun trail => trail.state.2) written⟩

/-- Numbers the names of a program: each one in turn is replaced by a string. -/
def numbering : Filter Nat where
  name := "numbering"
  step _ node := match node with
    | .identifier _ => do
      TrailM.update (· + 1)
      return .replace (.string (toString (← get).state))
    | _ => pure (.keep node)

/-- Does nothing at all. -/
def onlooker : Filter Nat := ⟨"onlooker", fun _ node => pure (.keep node)⟩

/-- `f(a);` -/
def calling : Node := .toplevel [.simple (.call .plain (.identifier "f") [.identifier "a"])]

theorem walk_insertIdx_observer_calling :
    numbering.IgnoresRemaining ∧ onlooker.Observes ∧
      ((walk maxDepth [onlooker, numbering] calling).run.run (.start 0)).1
        = ((walk maxDepth [numbering] calling).run.run (.start 0)).1 ∧
      ((walk maxDepth [onlooker, numbering] calling).run.run (.start 0)).2.uncounted
        = ((walk maxDepth [numbering] calling).run.run (.start 0)).2.uncounted ∧
      (invocations maxDepth [("onlooker", onlooker), ("numbering", numbering)] calling (.start 0)).filter
          (fun turn => turn.1 ≠ "onlooker")
        = invocations maxDepth [("numbering", numbering)] calling (.start 0) := by
  have ignores : numbering.IgnoresRemaining := fun _ _ _ => rfl
  have observes : onlooker.Observes := fun _ _ => rfl
  have all : ∀ entry ∈ [("numbering", numbering)], entry.2.IgnoresRemaining := by
    rintro _ (_ | ⟨_, ⟨⟩⟩)
    exact ignores
  have others : ∀ entry ∈ [("numbering", numbering)], entry.1 ≠ "onlooker" := by
    rintro _ (_ | ⟨_, ⟨⟩⟩)
    decide
  exact ⟨ignores, observes,
    walk_insertIdx_observer all observes others 0 maxDepth calling (.start 0)⟩

end Filter

end JsPrune
