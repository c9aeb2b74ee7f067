import JsPrune.Filter.FeatureSet
import JsPrune.Proofs.Pruning

/-!
# Pruning a pruned tree

Pruning decides a test before the test's own parts are pruned. What pruning does to the parts can
decide the test after the fact: a conditional argument of a guard gives way to a string, or a
conditional gives way to a guard. Such a test is left standing by the first pass and falls in the
second.

Main result: `transform_twice_iff`. A second pass with the same features changes nothing exactly
when every test that the first pass leaves standing (`leftTests`) is still undecided once its parts
are pruned. The step is `pruned_eq_self_iff`: pruning either finds nothing decided, or it makes the
tree smaller. `transform_awaiting_twice` shows a program that is done after one pass, and
`transform_guarded_twice` one on which the second pass does prune.
-/

namespace JsPrune

namespace DeadBranch

variable {known : Predicate} {node : Node}

/-! ## Trees with nothing to prune -/

/-- No test in the tree, at any depth, is decided. -/
inductive Settled (known : Predicate) : Node → Prop
  | intro {node : Node} (top : live? known node = none)
      (rest : ∀ child ∈ node.children, Settled known child) : Settled known node

theorem settled_iff : Settled known node ↔
    live? known node = none ∧ ∀ child ∈ node.children, Settled known child := by
  constructor
  · intro h
    cases h with
    | intro top rest => exact ⟨top, rest⟩
  · intro h
    exact .intro h.1 h.2

/-- A live branch has fewer nodes than the conditional. -/
theorem size_live?_lt {branch : Node} (h : live? known node = some branch) :
    branch.size < node.size := by
  obtain ⟨test, no, rfl, _⟩ | ⟨test, yes, no, rfl, _, rfl⟩ | ⟨test, no, rfl, _⟩ |
    ⟨test, yes, rfl, _⟩ := live?_cases h
  · rw [Node.size_eq (.ifElse test branch no), Node.children_ifElse]
    simp only [Node.totalSize, List.foldr_cons]
    omega
  · cases no with
    | none =>
      have lone : Node.empty.size = 1 := Node.size_eq .empty
      have some_nodes : 0 < test.size := by
        rw [Node.size_eq]
        omega
      rw [Node.size_eq (.ifElse test yes none), Node.children_ifElse, Option.getD_none, lone]
      simp only [Node.totalSize, List.foldr_cons]
      omega
    | some other =>
      rw [Node.size_eq (.ifElse test yes (some other)), Node.children_ifElse]
      simp only [Node.totalSize, List.foldr_cons, Option.toList_some, Option.getD_some]
      omega
  · rw [Node.size_eq (.conditional test branch no), Node.children_conditional]
    simp only [Node.totalSize, List.foldr_cons]
    omega
  · rw [Node.size_eq (.conditional test yes branch), Node.children_conditional]
    simp only [Node.totalSize, List.foldr_cons]
    omega

theorem size_settle_le (known : Predicate) (node : Node) :
    (settle known node).size ≤ node.size :=
  settle_induction (motive := fun n => n.size ≤ node.size)
    (fun _ _ hle hl => Nat.le_trans (Nat.le_of_lt (size_live?_lt hl)) hle) node (Nat.le_refl _)

/-- Settling a decided node loses nodes. -/
theorem live?_eq_none_of_size_le (h : node.size ≤ (settle known node).size) :
    live? known node = none := by
  cases hl : live? known node with
  | none => rfl
  | some branch =>
    have smaller := size_live?_lt hl
    have left := size_settle_le known branch
    rw [settle_of_live?_eq_some hl] at h
    omega

theorem totalSize_map_le {f : Node → Node} {nodes : List Node}
    (h : ∀ node ∈ nodes, (f node).size ≤ node.size) :
    Node.totalSize (nodes.map f) ≤ Node.totalSize nodes := by
  induction nodes with
  | nil => exact Nat.le_refl _
  | cons first rest ih =>
    have hfirst := h first (List.mem_cons_self ..)
    have hrest := ih fun node hn => h node (List.mem_cons_of_mem _ hn)
    rw [Node.totalSize] at hrest
    simp only [Node.totalSize, List.map_cons, List.foldr_cons] at hrest ⊢
    omega

/-- Pruning never adds nodes. -/
theorem size_pruned_le (known : Predicate) (node : Node) :
    (pruned known node).size ≤ (settle known node).size := by
  induction node using pruned_induction known with
  | step node ih =>
    rw [pruned_eq, Node.size_eq, Node.children_mapChildren, Node.size_eq (settle known node)]
    have below : Node.totalSize ((settle known node).children.map (pruned known))
        ≤ Node.totalSize (settle known node).children :=
      totalSize_map_le fun child hc => Nat.le_trans (ih child hc) (size_settle_le known child)
    omega

/-- **Pruning changes a tree exactly when something in it is decided.** -/
theorem pruned_eq_self_iff (known : Predicate) (node : Node) :
    pruned known node = node ↔ Settled known node := by
  induction node using Node.childInduction with
  | step node ih =>
    rw [settled_iff]
    constructor
    · intro h
      have top : live? known node = none := by
        apply live?_eq_none_of_size_le
        rw [← congrArg Node.size h]
        exact size_pruned_le known node
      refine ⟨top, fun child hc => (ih child hc).mp ?_⟩
      have children := congrArg Node.children h
      rw [pruned_eq, settle_of_live?_eq_none top, Node.children_mapChildren] at children
      exact List.map_inj_left.mp (children.trans (List.map_id _).symm) child hc
    · intro h
      rw [pruned_eq, settle_of_live?_eq_none h.1]
      exact Node.mapChildren_eq_self fun child hc => (ih child hc).mpr (h.2 child hc)

/-- A leaf stays as it is. -/
theorem pruned_leaf (hc : node.children = []) (hl : live? known node = none) :
    pruned known node = node := by
  rw [pruned_eq_self_iff, settled_iff, hc]
  exact ⟨hl, nofun⟩

/-! ## What the first pass leaves standing -/

/-- A node has no live branch exactly when its test, if it has one, is undecided. -/
theorem live?_eq_none_iff :
    live? known node = none ↔ ∀ test ∈ test? node, evalTest known test = .next := by
  cases node
  case ifElse test yes no => cases hv : evalTest known test <;> simp [live?, verdict, test?, hv]
  case conditional test yes no => cases hv : evalTest known test <;> simp [live?, verdict, test?, hv]
  all_goals simp [live?, test?]

/-- Replacing the children of a conditional node replaces its test. -/
theorem test?_mapChildren (f : Node → Node) (node : Node) :
    test? (node.mapChildren f) = (test? node).map f := by
  fun_cases Node.kind node <;> rfl

/-- The tests that pruning leaves standing, as they were when it judged them. -/
def leftTests (known : Predicate) (node : Node) : List Node :=
  (test? (settle known node)).toList ++
    (settle known node).children.attach.flatMap fun child => leftTests known child.val
termination_by node
decreasing_by
  exact Nat.lt_of_lt_of_le (Node.sizeOf_lt_of_mem_children child.property)
    (sizeOf_settle_le known node)

/-- A node that stays has its own test left, if it is a conditional, and those of its children. -/
theorem leftTests_of_live?_eq_none (h : live? known node = none) :
    leftTests known node = (test? node).toList ++ node.children.flatMap (leftTests known) := by
  rw [leftTests, settle_of_live?_eq_none h, List.flatMap_def, List.flatMap_def]
  exact congrArg (fun below => (test? node).toList ++ below.flatten) List.attach_map_val

/-- Of a decided conditional the tests of the live branch are left. -/
theorem leftTests_of_live?_eq_some {branch : Node} (h : live? known node = some branch) :
    leftTests known node = leftTests known branch := by
  rw [leftTests, settle_of_live?_eq_some h, ← leftTests]

theorem mem_leftTests {test : Node} : test ∈ leftTests known node ↔
    test ∈ test? (settle known node) ∨
      ∃ child ∈ (settle known node).children, test ∈ leftTests known child := by
  rw [leftTests, List.mem_append, List.mem_flatMap, Option.mem_toList]
  constructor
  · rintro (h | ⟨child, _, h⟩)
    · exact .inl h
    · exact .inr ⟨child.val, child.property, h⟩
  · rintro (h | ⟨child, hc, h⟩)
    · exact .inl h
    · exact .inr ⟨⟨child, hc⟩, List.mem_attach _ _, h⟩

/-- Pruning judged every test that it left standing, and could not decide it. -/
theorem evalTest_of_mem_leftTests {test : Node} (h : test ∈ leftTests known node) :
    evalTest known test = .next := by
  induction node using pruned_induction known with
  | step node ih =>
    rcases mem_leftTests.mp h with htop | ⟨child, hc, hbelow⟩
    · exact live?_eq_none_iff.mp (live?_settle known node) test htop
    · exact ih child hc hbelow

/-- **Nothing is left to prune exactly when the tests left standing stay undecided** once their own
parts are pruned. -/
theorem settled_pruned_iff (known : Predicate) (node : Node) : Settled known (pruned known node) ↔
    ∀ test ∈ leftTests known node, evalTest known (pruned known test) = .next := by
  induction node using pruned_induction known with
  | step node ih =>
    rw [pruned_eq, settled_iff, live?_eq_none_iff, test?_mapChildren, Node.children_mapChildren]
    constructor
    · rintro ⟨top, rest⟩ test ht
      rcases mem_leftTests.mp ht with htop | ⟨child, hc, hbelow⟩
      · exact top _ (Option.mem_map_of_mem _ htop)
      · exact (ih child hc).mp (rest _ (List.mem_map_of_mem hc)) test hbelow
    · intro h
      constructor
      · intro test ht
        obtain ⟨original, ho, rfl⟩ := Option.map_eq_some_iff.mp ht
        exact h original (mem_leftTests.mpr (.inl ho))
      · intro child hc
        obtain ⟨original, ho, rfl⟩ := List.mem_map.mp hc
        exact (ih original ho).mpr fun test ht => h test (mem_leftTests.mpr (.inr ⟨original, ho, ht⟩))

/-! ## The second pass -/

theorem conforms_pruned (hc : node.Conforms) : (pruned known node).Conforms := by
  induction node using pruned_induction known with
  | step node ih =>
    have settled := (gentle_settle known).conforms hc
    rw [pruned_eq]
    refine .intro (Node.slotsAccept_mapChildren settled.slots ?_) ?_
    · intro child hchild slot hslot
      rw [pruned_eq, Node.kind_mapChildren]
      exact (gentle_settle known).accepted (settled.of_mem_children hchild) hslot
    · intro child hchild
      rw [Node.children_mapChildren] at hchild
      obtain ⟨original, ho, rfl⟩ := List.mem_map.mp hchild
      exact ih original ho (settled.of_mem_children ho)

theorem height_pruned_le (known : Predicate) (node : Node) :
    (pruned known node).height ≤ node.height := by
  induction node using pruned_induction known with
  | step node ih =>
    have settled := (gentle_settle known).height_le node
    have below : Node.tallest (((settle known node).children.map (pruned known)).map Node.height)
        ≤ Node.tallest ((settle known node).children.map Node.height) := by
      apply Node.tallest_le
      intro n hn
      obtain ⟨_, hmem, rfl⟩ := List.mem_map.mp hn
      obtain ⟨child, hc, rfl⟩ := List.mem_map.mp hmem
      exact Nat.le_trans (ih child hc) (Node.le_tallest (List.mem_map_of_mem hc))
    rw [Node.height_eq (settle known node)] at settled
    rw [pruned_eq, Node.height_eq, Node.children_mapChildren]
    omega

end DeadBranch

namespace FeatureSet

variable {σ : Type}

/-- **When pruning twice is pruning once.** Pruning succeeds, and a second pass with the same
features gives its result back exactly when every test that the first pass left standing is still
undecided now that its parts are pruned. -/
theorem transform_twice_iff (features : FeatureSet) {tree : Node} (hc : tree.Conforms)
    (hd : tree.depth ≤ maxDepth) (trail again : Trail σ) : ∃ once after,
      (Filter.transform maxDepth [features.filter] tree).run.run trail = (.ok once, after) ∧
      (((Filter.transform maxDepth [features.filter] once).run.run again).1 = .ok once ↔
        ∀ test ∈ DeadBranch.leftTests features.known tree,
          DeadBranch.evalTest features.known (DeadBranch.pruned features.known test) = .next) := by
  have first := DeadBranch.transform_filter_yields (σ := σ) features.known (fun _ state => state) hc hd
  obtain ⟨after, hfirst⟩ := first trail
  refine ⟨DeadBranch.pruned features.known tree, after, hfirst, ?_⟩
  have hd' : (DeadBranch.pruned features.known tree).depth ≤ maxDepth := by
    rw [Node.depth_eq] at hd ⊢
    exact Nat.le_trans (DeadBranch.height_pruned_le features.known tree) hd
  have second := DeadBranch.transform_filter_yields (σ := σ) features.known (fun _ state => state)
    (DeadBranch.conforms_pruned hc) hd'
  obtain ⟨last, hsecond⟩ := second again
  rw [← DeadBranch.settled_pruned_iff, ← DeadBranch.pruned_eq_self_iff]
  show ((Filter.transform maxDepth [DeadBranch.filter _ _] _).run.run again).1 = _ ↔ _
  rw [hsecond]
  exact ⟨fun h => Except.ok.inj h, fun h => congrArg Except.ok h⟩

/-- `ready || (true ? now : later)` -/
def awaited : Node :=
  .binary .combine (.identifier "ready") .or
    (.conditional (.boolean true) (.identifier "now") (.identifier "later"))

/-- `if (has("a")) if (ready || (true ? now : later)) x;` -/
def awaiting : Node :=
  .body .toplevel [.ifElse (.call .plain (.identifier "has") [.string "a"])
    (.ifElse awaited (.simple (.identifier "x")) none) none]

/-- Of the three tests in this program the one that is not decided is left. -/
theorem leftTests_awaiting : DeadBranch.leftTests (empty.enable "a").known awaiting = [awaited] := by
  have leaf (name : String) :
      DeadBranch.leftTests (empty.enable "a").known (.identifier name) = [] :=
    DeadBranch.leftTests_of_live?_eq_none rfl
  have choice : DeadBranch.leftTests (empty.enable "a").known
      (.conditional (.boolean true) (.identifier "now") (.identifier "later")) = [] :=
    (DeadBranch.leftTests_of_live?_eq_some rfl).trans (leaf "now")
  have test : DeadBranch.leftTests (empty.enable "a").known awaited = [] := by
    rw [awaited, DeadBranch.leftTests_of_live?_eq_none rfl]
    show [] ++ (DeadBranch.leftTests _ _ ++ (DeadBranch.leftTests _ _ ++ [])) = []
    rw [leaf, choice]
    rfl
  have body : DeadBranch.leftTests (empty.enable "a").known (.simple (.identifier "x")) = [] := by
    rw [DeadBranch.leftTests_of_live?_eq_none rfl]
    show [] ++ (DeadBranch.leftTests _ _ ++ []) = []
    rw [leaf]
    rfl
  rw [awaiting, DeadBranch.leftTests_of_live?_eq_none rfl]
  show [] ++ (DeadBranch.leftTests _ (.ifElse _ (.ifElse _ _ none) none) ++ []) = [awaited]
  rw [DeadBranch.leftTests_of_live?_eq_some rfl, DeadBranch.leftTests_of_live?_eq_none rfl]
  show [] ++ ([awaited] ++ (DeadBranch.leftTests _ _ ++ (DeadBranch.leftTests _ _ ++ [])) ++ []) = _
  rw [test, body]
  rfl

/-- Pruning the test that is left changes it, but decides nothing. -/
theorem pruned_awaited : DeadBranch.pruned (empty.enable "a").known awaited
    = .binary .combine (.identifier "ready") .or (.identifier "now") := by
  have choice : DeadBranch.pruned (empty.enable "a").known
      (.conditional (.boolean true) (.identifier "now") (.identifier "later"))
      = .identifier "now" := by
    rw [DeadBranch.pruned_eq, DeadBranch.settle_of_live?_eq_some rfl,
      DeadBranch.settle_of_live?_eq_none rfl]
    rfl
  rw [awaited, DeadBranch.pruned_eq, DeadBranch.settle_of_live?_eq_none rfl]
  show Node.binary .combine (DeadBranch.pruned _ _) .or (DeadBranch.pruned _ _) = _
  rw [choice, DeadBranch.pruned_leaf rfl rfl]

/-- One pass takes the guard and the inner choice out of this program, and a second pass changes
nothing. -/
theorem transform_awaiting_twice : awaiting.Conforms ∧ awaiting.depth ≤ maxDepth ∧
    ∃ once after,
      (Filter.transform maxDepth [(empty.enable "a").filter] awaiting).run.run (.start ())
        = (.ok once, after) ∧
      ((Filter.transform maxDepth [(empty.enable "a").filter] once).run.run (.start ())).1
        = .ok once := by
  have within : Node.conformsWithin 7 awaiting = true := by decide
  have conforms := Node.Conforms.of_within within
  have shallow : awaiting.depth ≤ maxDepth :=
    Nat.le_trans (Node.depth_le_of_within within) (by decide)
  obtain ⟨once, after, hrun, hagain⟩ :=
    transform_twice_iff (empty.enable "a") conforms shallow (.start ()) (.start ())
  refine ⟨conforms, shallow, once, after, hrun, hagain.mpr fun test hleft => ?_⟩
  rw [leftTests_awaiting, List.mem_singleton] at hleft
  rw [hleft, pruned_awaited]
  rfl

/-- `if (has(true ? "a" : "b")) x;` -/
def guarded : Node :=
  .body .toplevel [.ifElse
    (.call .plain (.identifier "has") [.conditional (.boolean true) (.string "a") (.string "b")])
    (.simple (.identifier "x")) none]

theorem conformsWithin_guarded : Node.conformsWithin 5 guarded = true := by decide

theorem depth_guarded_le : guarded.depth ≤ maxDepth :=
  Nat.le_trans (Node.depth_le_of_within conformsWithin_guarded) (by decide)

/-- `if (has("a")) x;` -/
def unguarded : Node :=
  .body .toplevel [.ifElse (.call .plain (.identifier "has") [.string "a"])
    (.simple (.identifier "x")) none]

/-- The argument of the guard is pruned only after the guard was asked about. -/
theorem pruned_guarded : DeadBranch.pruned (empty.enable "a").known guarded = unguarded := by
  have choice : DeadBranch.pruned (empty.enable "a").known
      (.conditional (.boolean true) (.string "a") (.string "b")) = .string "a" := by
    have live : DeadBranch.live? (empty.enable "a").known
        (.conditional (.boolean true) (.string "a") (.string "b")) = some (.string "a") := rfl
    rw [DeadBranch.pruned_eq, DeadBranch.settle_of_live?_eq_some live,
      DeadBranch.settle_of_live?_eq_none rfl]
    rfl
  have guard : DeadBranch.pruned (empty.enable "a").known (.call .plain (.identifier "has")
      [.conditional (.boolean true) (.string "a") (.string "b")])
      = .call .plain (.identifier "has") [.string "a"] := by
    rw [DeadBranch.pruned_eq, DeadBranch.settle_of_live?_eq_none rfl]
    show Node.call .plain (DeadBranch.pruned _ _) [DeadBranch.pruned _ _] = _
    rw [choice, DeadBranch.pruned_leaf rfl rfl]
  have body : DeadBranch.pruned (empty.enable "a").known (.simple (.identifier "x"))
      = .simple (.identifier "x") := by
    rw [DeadBranch.pruned_eq, DeadBranch.settle_of_live?_eq_none rfl]
    show Node.simple (DeadBranch.pruned _ _) = _
    rw [DeadBranch.pruned_leaf rfl rfl]
  have statement : DeadBranch.pruned (empty.enable "a").known (.ifElse (.call .plain
      (.identifier "has") [.conditional (.boolean true) (.string "a") (.string "b")])
      (.simple (.identifier "x")) none) = .ifElse (.call .plain (.identifier "has") [.string "a"])
        (.simple (.identifier "x")) none := by
    rw [DeadBranch.pruned_eq, DeadBranch.settle_of_live?_eq_none rfl]
    show Node.ifElse (DeadBranch.pruned _ _) (DeadBranch.pruned _ _) none = _
    rw [guard, body]
  rw [DeadBranch.pruned_eq, DeadBranch.settle_of_live?_eq_none rfl]
  show Node.body .toplevel [DeadBranch.pruned _ _] = _
  rw [statement]
  rfl

/-- What is left of `guarded` is not settled: the guard now asks for a feature that is known. -/
theorem not_settled_unguarded : ¬ DeadBranch.Settled (empty.enable "a").known unguarded := by
  intro h
  have statement := (DeadBranch.settled_iff.mp h).2 _ (List.mem_singleton.mpr rfl)
  exact absurd (DeadBranch.settled_iff.mp statement).1 (by decide)

/-- Pruning this program once leaves something for a second pass. -/
theorem transform_guarded_twice : guarded.Conforms ∧ guarded.depth ≤ maxDepth ∧
    ∃ after twice last,
      (Filter.transform maxDepth [(empty.enable "a").filter] guarded).run.run (.start ())
        = (.ok unguarded, after) ∧
      (Filter.transform maxDepth [(empty.enable "a").filter] unguarded).run.run (.start ())
        = (.ok twice, last) ∧ twice ≠ unguarded := by
  have conforms := Node.Conforms.of_within conformsWithin_guarded
  have first := DeadBranch.transform_filter_yields (σ := Unit) (empty.enable "a").known
    (fun _ state => state) conforms depth_guarded_le
  rw [pruned_guarded] at first
  have within : Node.conformsWithin 5 unguarded = true := by decide
  have second := DeadBranch.transform_filter_yields (σ := Unit) (empty.enable "a").known
    (fun _ state => state) (.of_within within)
    (Nat.le_trans (Node.depth_le_of_within within) (by decide))
  obtain ⟨after, hfirst⟩ := first (.start ())
  obtain ⟨last, hsecond⟩ := second (.start ())
  refine ⟨conforms, depth_guarded_le, after, _, last, hfirst, hsecond, ?_⟩
  intro h
  exact not_settled_unguarded ((DeadBranch.pruned_eq_self_iff _ _).mp h)

end FeatureSet

end JsPrune
