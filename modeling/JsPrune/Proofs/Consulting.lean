import JsPrune.Proofs.Evaluating
import JsPrune.Proofs.Observing

/-!
# What a predicate is asked about

Pruning takes nodes away and makes none, except for a lone semicolon, which has no test. So whatever
the predicate is asked about during a traversal was in the tree from the start, below the node whose
turn it is. Two predicates that say the same there (`SameBelow`) can not be told apart: they decide the
same tests, keep the same branches, and what they keep is again a node below which they say the same.

Main results: `walkNode_congr`, for any two predicates and for trees of any shape and depth, and
`FeatureSet.transform_mentioned`. A set of features speaks of strings only, so of two sets with one
guard it is enough that they agree on the strings of the program.
-/

namespace JsPrune

variable {σ α : Type}

/-- To keep up equality of trails is to be the same computation. -/
theorem Walk.relates_eq_iff {walk other : Walk σ α} : Walk.Relates Eq Eq walk other ↔ walk = other := by
  constructor
  · intro h
    apply ExceptT.ext
    apply StateT.ext
    intro trail
    obtain ⟨answer, left⟩ := h trail trail rfl
    exact Prod.ext answer left
  · rintro rfl trail _ rfl
    exact ⟨rfl, rfl⟩

/-- A descent depends on what is done with the children and on nothing else. -/
theorem Node.descend_congr {walk other : Node → Walk σ Outcome} {node : Node}
    (h : ∀ child ∈ node.children, walk child = other child) :
    node.descend walk = node.descend other :=
  Walk.relates_eq_iff.mp (descend_relates fun child hc => Walk.relates_eq_iff.mpr (h child hc))

/-- What comes of an answer depends on the rest of the chain and on nothing else. -/
theorem Filter.carryOut_congr {walk walk' : Node → Walk σ Outcome} {later : List (Filter σ)}
    {node : Node} (h : runChain walk later node = runChain walk' later node) (name : String)
    (replaced : Bool) (after : Except Error Outcome → TrailM σ (Except Error Outcome)) :
    carryOut walk name later (.proceed replaced node after)
      = carryOut walk' name later (.proceed replaced node after) := by
  unfold carryOut
  simp only [h]

namespace DeadBranch

variable {known other : Predicate} {node branch : Node}

/-! ## Deciding a node -/

/-- Below the node, at any depth, both predicates say the same. -/
def SameBelow (known other : Predicate) (node : Node) : Prop :=
  ∀ child ∈ node.children, ∀ inner ∈ child.preorder, known inner = other inner

theorem SameBelow.of_preorder (h : ∀ inner ∈ node.preorder, known inner = other inner) :
    SameBelow known other node :=
  (Node.forall_preorder.mp h).2

theorem SameBelow.of_mem_children (h : SameBelow known other node) {child : Node}
    (hc : child ∈ node.children) : SameBelow known other child :=
  .of_preorder (h child hc)

/-- Predicates that say the same of a node inform each other. -/
theorem informs_of_eq (h : known node = other node) : Informs known other node where
  keeps := .inr h
  agrees hother := by
    have told : known node ≠ .next := by rwa [h]
    unfold evalTest
    rw [← h]
    cases hv : known node <;> first | exact Verdict.le_refl _ | exact absurd hv told

theorem evalTest_congr (h : ∀ inner ∈ node.preorder, known inner = other inner) :
    evalTest known node = evalTest other node :=
  Verdict.le_antisymm (evalTest_mono fun inner hi => informs_of_eq (h inner hi))
    (evalTest_mono fun inner hi => informs_of_eq (h inner hi).symm)

/-- The test of a conditional node is one of its children. -/
theorem mem_children_of_test? {test : Node} (h : test? node = some test) : test ∈ node.children := by
  unfold test? at h
  split at h
  · cases h
    simp
  · cases h
    simp
  · cases h

theorem verdict_congr (h : SameBelow known other node) : verdict known node = verdict other node := by
  unfold verdict
  cases ht : test? node with
  | none => rfl
  | some test => exact evalTest_congr (h test (mem_children_of_test? ht))

theorem live?_congr (h : SameBelow known other node) : live? known node = live? other node := by
  unfold live?
  rw [verdict_congr h]

/-- A live branch was below the node, or it is a lone semicolon. -/
theorem SameBelow.live? (h : SameBelow known other node) (hl : live? known node = some branch) :
    SameBelow known other branch := by
  rcases live?_mem_or_empty hl with hmem | rfl
  · exact h.of_mem_children hmem
  · exact nofun

/-! ## Settling a node -/

theorem SameBelow.settle (h : SameBelow known other node) :
    SameBelow known other (settle known node) :=
  settle_induction (fun _ _ hn hl => hn.live? hl) node h

theorem settle_congr (h : SameBelow known other node) : settle known node = settle other node := by
  fun_induction settle known node with
  | case1 node hnone => rw [settle_of_live?_eq_none (live?_congr h ▸ hnone)]
  | case2 node branch hsome ih =>
    have same : live? other node = some branch := live?_congr h ▸ hsome
    rw [ih (h.live? hsome), settle_of_live?_eq_some same]

theorem passedThrough_of_live?_eq_none (h : live? known node = none) :
    passedThrough known node = [node] := by
  rw [passedThrough]
  split
  · rfl
  · next hsome => rw [h] at hsome; cases hsome

theorem passedThrough_of_live?_eq_some (h : live? known node = some branch) :
    passedThrough known node = node :: passedThrough known branch := by
  rw [passedThrough]
  split
  · next hnone => rw [h] at hnone; cases hnone
  · next hsome =>
    rw [h] at hsome
    cases hsome
    rfl

/-- The way to what is left is the same, and below each node on it the predicates say the same. -/
theorem passedThrough_congr (h : SameBelow known other node) :
    passedThrough known node = passedThrough other node ∧
      ∀ inner ∈ passedThrough known node, SameBelow known other inner := by
  fun_induction passedThrough known node with
  | case1 node hnone =>
    have same : live? other node = none := live?_congr h ▸ hnone
    rw [passedThrough_of_live?_eq_none same]
    exact ⟨rfl, List.forall_mem_singleton.mpr h⟩
  | case2 node branch hsome ih =>
    have same : live? other node = some branch := live?_congr h ▸ hsome
    obtain ⟨way, below⟩ := ih (h.live? hsome)
    rw [passedThrough_of_live?_eq_some same, way]
    exact ⟨rfl, List.forall_mem_cons.mpr ⟨h, way ▸ below⟩⟩

theorem pruning?_congr (h : SameBelow known other node) : pruning? known node = pruning? other node := by
  unfold pruning?
  rw [live?_congr h, verdict_congr h]

/-! ## What the predicate is asked -/

theorem askedFrom_congr {inside inside' : Unit → List Node} (h : known node = other node)
    (hinside : inside () = inside' ()) :
    askedFrom known node inside = askedFrom other node inside' := by
  unfold askedFrom
  rw [h, hinside]

/-- Both predicates are asked about the same nodes, in the same order. -/
theorem askedNode_congr (h : SameBelow known other node) :
    askedNode known node = askedNode other node := by
  induction node using Node.childInduction with
  | step node ih =>
    have branch : ∀ child ∈ node.children, askedNode known child = askedNode other child :=
      fun child hc => ih child hc (h.of_mem_children hc)
    have asked : ∀ child ∈ node.children, askedTest known child = askedTest other child :=
      fun child hc => askedFrom_congr ((Node.forall_preorder.mp (h child hc)).1) (branch child hc)
    have test : ∀ child ∈ node.children, evalTest known child = evalTest other child :=
      fun child hc => evalTest_congr (h child hc)
    unfold askedNode
    split
    · next cond yes =>
      exact congrArg₂ (· ++ ·) (asked cond (by simp))
        (by rw [test cond (by simp), branch yes (by simp)])
    · next cond yes no =>
      exact congrArg₂ (· ++ ·) (asked cond (by simp))
        (by rw [test cond (by simp), branch yes (by simp), branch no (by simp)])
    · next cond yes no =>
      exact congrArg₂ (· ++ ·) (asked cond (by simp))
        (by rw [test cond (by simp), branch yes (by simp), branch no (by simp)])
    · next left right => exact congrArg₂ (· ++ ·) (asked left (by simp)) (asked right (by simp))
    · next left right => exact congrArg₂ (· ++ ·) (asked left (by simp)) (asked right (by simp))
    · next operand => exact asked operand (by simp)
    · rfl

theorem askedAt_congr (h : SameBelow known other node) : askedAt known node = askedAt other node := by
  unfold askedAt
  cases ht : test? node with
  | none => rfl
  | some test =>
    have below := h test (mem_children_of_test? ht)
    have inside : askedNode known test = askedNode other test := askedNode_congr (.of_preorder below)
    show askedFrom known test (fun _ => askedNode known test) = _
    rw [inside]
    exact askedFrom_congr (Node.forall_preorder.mp below).1 rfl

/-! ## Traversals -/

/-- The filter takes its turn alike, and its observer is shown the same. -/
theorem step_congr (h : SameBelow known other node) (observe : Node → σ → σ) (remaining : Nat) :
    (filter known observe).step remaining node = (filter other observe).step remaining node := by
  obtain ⟨way, below⟩ := passedThrough_congr h
  have asked : (passedThrough known node).flatMap (askedAt known)
      = (passedThrough other node).flatMap (askedAt other) := by
    rw [← way]
    exact List.flatMap_congr fun inner hi => askedAt_congr (below inner hi)
  have told : (passedThrough known node).filterMap (pruning? known)
      = (passedThrough other node).filterMap (pruning? other) := by
    rw [← way]
    exact List.filterMap_congr fun inner hi => pruning?_congr (below inner hi)
  unfold filter
  simp only [asked, told, live?_congr h, settle_congr h]

/-- **Two predicates that say the same below a node** drive the same traversal of it. -/
theorem walkNode_congr (observe : Node → σ → σ) (levels : Nat) (h : SameBelow known other node) :
    Filter.walkNode [filter known observe] levels node
      = Filter.walkNode [filter other observe] levels node := by
  induction levels generalizing node with
  | zero => rw [Filter.walkNode, Filter.walkNode]
  | succ levels ih =>
    -- What the filter leaves of the node is a part of it, so the predicates agree below that too.
    have below : ∀ child ∈ (settle known node).children,
        Filter.walkNode [filter known observe] levels child
          = Filter.walkNode [filter other observe] levels child :=
      fun child hc => ih (h.settle.of_mem_children hc)
    have rest : Filter.runChain (Filter.walkNode [filter known observe] levels) [] (settle known node)
        = Filter.runChain (Filter.walkNode [filter other observe] levels) [] (settle known node) := by
      rw [Filter.runChain, Filter.runChain, Node.descend_congr below]
    have turn := step_congr h observe 0
    rw [Filter.walkNode, Filter.walkNode, Filter.runChain_cons, Filter.runChain_cons,
      ← Walk.relates_eq_iff]
    refine .modify_bind (Q := Eq) (by rintro _ _ rfl; rfl) (.lift_bind (Q := Eq) ?_)
    rintro trail _ rfl
    obtain ⟨replaced, after, run⟩ := filter_rewrites known observe 0 node trail
    rw [List.length_nil, ← turn, run]
    exact ⟨rfl, Walk.relates_eq_iff.mpr (Filter.carryOut_congr rest _ replaced pure)⟩

theorem transform_congr (observe : Node → σ → σ) (levels : Nat) (h : SameBelow known other node) :
    Filter.transform levels [filter known observe] node
      = Filter.transform levels [filter other observe] node := by
  unfold Filter.transform Filter.walk
  simp only [walkNode_congr observe levels h, List.isEmpty_cons, List.length_singleton]

end DeadBranch

/-! ## Features -/

/-- The strings of a program, in the order of its nodes. -/
def Node.strings (tree : Node) : List String := tree.preorder.filterMap asString?

namespace FeatureSet

variable {f g : FeatureSet} {tree node : Node}

/-- A guard has the feature that it asks for in its argument. -/
theorem mem_strings_of_guarded? {feature : String} (hnode : node ∈ tree.preorder)
    (h : f.guarded? node = some feature) : feature ∈ tree.strings := by
  have argument : .string feature ∈ node.children := by
    unfold guarded? at h
    split at h
    · next name asked =>
      split at h
      · cases h
        exact .tail _ (.head _)
      · cases h
    · cases h
  have below : .string feature ∈ node.preorder := by
    rw [Node.preorder_eq]
    refine List.mem_cons_of_mem _ (List.mem_flatMap.mpr ⟨_, argument, ?_⟩)
    rw [Node.preorder_eq]
    exact List.mem_cons_self ..
  exact List.mem_filterMap.mpr ⟨_, Node.mem_preorder_trans hnode below, rfl⟩

/-- In the program both sets say the same of every node. -/
theorem known_congr (hguard : g.guard = f.guard)
    (h : ∀ feature ∈ tree.strings, g.verdict feature = f.verdict feature) (hnode : node ∈ tree.preorder) :
    f.known node = g.known node := by
  have same := guarded?_eq_of_guard hguard node
  cases hf : f.guarded? node with
  | none => rw [known_of_not_guarded? hf, known_of_not_guarded? (same.trans hf)]
  | some feature =>
    rw [known_of_guarded? hf, known_of_guarded? (same.trans hf),
      h feature (mem_strings_of_guarded? hnode hf)]

/-- **Only features that the program mentions matter.** Let two sets of features have the same guard
and give the same verdict on every string of the program; on all other names they may say anything.
Then they do the same to the program, whatever its shape and depth and whatever is on the trail: the
result is the same tree or the same error, and the events are the same. -/
theorem transform_mentioned (hguard : g.guard = f.guard)
    (h : ∀ feature ∈ tree.strings, g.verdict feature = f.verdict feature) (levels : Nat) :
    Filter.transform (σ := σ) levels [f.filter] tree = Filter.transform levels [g.filter] tree :=
  DeadBranch.transform_congr (fun _ state => state) levels
    (.of_preorder fun _ hnode => known_congr hguard h hnode)

/-- A strict set decides names that a set which is not strict leaves open; `featured` has none of
them. -/
theorem transform_mentioned_featured :
    let f := ((empty.enable "a").disable "b").enable "c"
    f.strict.guard = f.guard ∧
      (∀ feature ∈ featured.strings, f.strict.verdict feature = f.verdict feature) ∧
      f.strict.verdict "d" ≠ f.verdict "d" ∧
      Filter.transform (σ := Unit) maxDepth [f.filter] featured
        = Filter.transform maxDepth [f.strict.filter] featured := by
  intro f
  have strings : featured.strings = ["a", "b", "c"] := by cbv
  have same : ∀ feature ∈ featured.strings, f.strict.verdict feature = f.verdict feature := by
    rw [strings]
    decide
  have guard : f.strict.guard = f.guard := rfl
  exact ⟨guard, same, by decide, transform_mentioned guard same maxDepth⟩

end FeatureSet

end JsPrune
