import JsPrune.Proofs.Shrinking

/-!
# What decides a test

The evaluator looks into conditionals, `&&`, `||` and `!`, and takes everything else as it is.
`evalCases` is the case distinction, `evalNode_ifElse` and the equations after it say what is found
in each case, and the rest is said of verdicts.

Two things follow. Pruning a test does not change what the evaluator finds in it, as long as the
verdicts on its operands stay (`evalNode_mapChildren`, `evalNode_settle`): without a predicate they
do, so in a pruned tree nothing is left to decide. And the evaluator is monotone in what is known
(`evalTest_mono`): a verdict that was reached on little is reached again on more.

Main results: `walk_undecided` and `FeatureSet.decided_alike`.
-/

namespace JsPrune

/-! ## Verdicts by what they say -/

namespace Verdict

/-- Of two branches the one that the test selects. -/
def select (test yes no : Verdict) : Verdict :=
  match test with
  | pass => yes
  | fail => no
  | next => next

/-- What the first verdict decides, the second decides alike. -/
instance : LE Verdict := ⟨fun less more => less = next ∨ less = more⟩

variable {v v' w w' u u' : Verdict}

/-- Knowing nothing is below everything. -/
theorem next_le (v : Verdict) : next ≤ v := .inl rfl

theorem le_refl (v : Verdict) : v ≤ v := .inr rfl

/-- One verdict is below another if it keeps what is decided. -/
theorem le_iff : v ≤ w ↔ (v ≠ next → w = v) :=
  ⟨fun h hv => h.elim (absurd · hv) Eq.symm, fun h => (eq_or_ne v next).imp_right fun hv => (h hv).symm⟩

/-- Verdicts that know as much as each other are the same. -/
theorem le_antisymm (h : v ≤ w) (h' : w ≤ v) : v = w := by
  rcases h with rfl | rfl
  · rcases h' with rfl | rfl <;> rfl
  · rfl

/-! The connectives know nothing where they are told nothing, and a choice between two branches knows
nothing where the test does. So all of them are monotone. -/

/-- Negation knows more when its operand does. -/
theorem not_le_not (h : v ≤ w) : v.not ≤ w.not := by
  rcases h with rfl | rfl
  · exact next_le _
  · exact le_refl _

/-- Conjunction knows more when its operands do. -/
theorem and_le_and (hv : v ≤ v') (hw : w ≤ w') : v.and w ≤ v'.and w' := by
  rcases hv with rfl | rfl
  · exact next_le _
  · rcases hw with rfl | rfl
    · cases v <;> exact next_le _
    · exact le_refl _

/-- Disjunction knows more when its operands do. -/
theorem or_le_or (hv : v ≤ v') (hw : w ≤ w') : v.or w ≤ v'.or w' := by
  rcases hv with rfl | rfl
  · exact next_le _
  · rcases hw with rfl | rfl
    · cases v <;> exact next_le _
    · exact le_refl _

/-- A choice knows more when its test and its branches do. -/
theorem select_le_select (hv : v ≤ v') (hw : w ≤ w') (hu : u ≤ u') :
    v.select w u ≤ v'.select w' u' := by
  rcases hv with rfl | rfl
  · exact next_le _
  · cases v with
    | pass => exact hw
    | fail => exact hu
    | next => exact next_le _

end Verdict

namespace DeadBranch

variable {known more : Predicate} {node : Node}

/-! ## The evaluator, case by case -/

/-- An `if` is worth the branch its test chooses, and without `else` nothing may be known. -/
theorem evalNode_ifElse (known : Predicate) (test yes : Node) (no : Option Node) :
    evalNode known (.ifElse test yes no) = (evalTest known test).select (evalNode known yes)
      ((no.map (evalNode known)).getD .next) := by
  cases no <;> rfl

theorem evalNode_conditional (known : Predicate) (test yes no : Node) :
    evalNode known (.conditional test yes no)
      = (evalTest known test).select (evalNode known yes) (evalNode known no) := rfl

theorem evalNode_and (known : Predicate) (left right : Node) :
    evalNode known (.binary .combine left .and right)
      = (evalTest known left).and (evalTest known right) := rfl

theorem evalNode_or (known : Predicate) (left right : Node) :
    evalNode known (.binary .combine left .or right)
      = (evalTest known left).or (evalTest known right) := rfl

theorem evalNode_not (known : Predicate) (operand : Node) :
    evalNode known (.unary .before .not operand) = (evalTest known operand).not := rfl

/-- A node that the evaluator does not look into: what it finds does not depend on what is known, nor
on the children. -/
structure Plain (node : Node) : Prop where
  unasked : ∀ known more, evalNode known node = evalNode more node
  closed : ∀ known f, evalNode known (node.mapChildren f) = evalNode known node

/-- The nodes that the evaluator looks into, and all others. -/
theorem evalCases {motive : Node → Prop}
    (ifElse : ∀ test yes no, motive (.ifElse test yes no))
    (conditional : ∀ test yes no, motive (.conditional test yes no))
    (and : ∀ left right, motive (.binary .combine left .and right))
    (or : ∀ left right, motive (.binary .combine left .or right))
    (not : ∀ operand, motive (.unary .before .not operand))
    (other : ∀ node, Plain node → motive node) (node : Node) : motive node := by
  cases node
  case ifElse test yes no => exact ifElse test yes no
  case conditional test yes no => exact conditional test yes no
  case binary tag left operator right =>
    cases tag
    case assign => exact other _ ⟨fun _ _ => rfl, fun _ _ => rfl⟩
    case combine =>
      cases operator
      case and => exact and left right
      case or => exact or left right
      all_goals exact other _ ⟨fun _ _ => rfl, fun _ _ => rfl⟩
  case unary tag operator operand =>
    cases tag
    case after => exact other _ ⟨fun _ _ => rfl, fun _ _ => rfl⟩
    case before =>
      cases operator
      case not => exact not operand
      all_goals exact other _ ⟨fun _ _ => rfl, fun _ _ => rfl⟩
  case body tag _ => cases tag <;> exact other _ ⟨fun _ _ => rfl, fun _ _ => rfl⟩
  case declaration tag _ => cases tag <;> exact other _ ⟨fun _ _ => rfl, fun _ _ => rfl⟩
  case loop tag _ _ => cases tag <;> exact other _ ⟨fun _ _ => rfl, fun _ _ => rfl⟩
  case exit tag _ => cases tag <;> exact other _ ⟨fun _ _ => rfl, fun _ _ => rfl⟩
  case jump tag _ => cases tag <;> exact other _ ⟨fun _ _ => rfl, fun _ _ => rfl⟩
  case lambda tag _ _ _ => cases tag <;> exact other _ ⟨fun _ _ => rfl, fun _ _ => rfl⟩
  case call tag _ _ => cases tag <;> exact other _ ⟨fun _ _ => rfl, fun _ _ => rfl⟩
  all_goals exact other _ ⟨fun _ _ => rfl, fun _ _ => rfl⟩

/-! ## Tests that are pruned -/

/-- A decided conditional is worth what its live branch is worth. -/
theorem evalNode_live? {branch : Node} (h : live? known node = some branch) :
    evalNode known branch = evalNode known node := by
  obtain ⟨test, no, rfl, hv⟩ | ⟨test, yes, no, rfl, hv, rfl⟩ | ⟨test, no, rfl, hv⟩ |
    ⟨test, yes, rfl, hv⟩ := live?_cases h
  · rw [evalNode_ifElse, hv]
    rfl
  · rw [evalNode_ifElse, hv]
    cases no <;> rfl
  · rw [evalNode_conditional, hv]
    rfl
  · rw [evalNode_conditional, hv]
    rfl

/-- Settling a node does not change its verdict. -/
theorem evalNode_settle (known : Predicate) (node : Node) :
    evalNode known (settle known node) = evalNode known node :=
  settle_induction (motive := fun n => evalNode known n = evalNode known node)
    (fun _ _ h hl => (evalNode_live? hl).trans h) node rfl

/-- Children may be exchanged for others that are worth the same, as tests and as branches. -/
theorem evalNode_mapChildren {f : Node → Node}
    (htest : ∀ child ∈ node.children, evalTest known (f child) = evalTest known child)
    (hnode : ∀ child ∈ node.children, evalNode known (f child) = evalNode known child) :
    evalNode known (node.mapChildren f) = evalNode known node := by
  cases node using evalCases with
  | ifElse test yes no =>
    show evalNode known (.ifElse (f test) (f yes) (no.map f)) = _
    rw [evalNode_ifElse, evalNode_ifElse, htest test (by simp), hnode yes (by simp)]
    cases no with
    | none => rfl
    | some other =>
      show Verdict.select _ _ (evalNode known (f other)) = _
      rw [hnode other (by simp)]
      rfl
  | conditional test yes no =>
    show evalNode known (.conditional (f test) (f yes) (f no)) = _
    rw [evalNode_conditional, evalNode_conditional, htest test (by simp), hnode yes (by simp),
      hnode no (by simp)]
  | and left right =>
    show evalNode known (.binary .combine (f left) .and (f right)) = _
    rw [evalNode_and, evalNode_and, htest left (by simp), htest right (by simp)]
  | or left right =>
    show evalNode known (.binary .combine (f left) .or (f right)) = _
    rw [evalNode_or, evalNode_or, htest left (by simp), htest right (by simp)]
  | not operand =>
    show evalNode known (.unary .before .not (f operand)) = _
    rw [evalNode_not, evalNode_not, htest operand (by simp)]
  | other node h => exact h.closed known f

/-- Nothing is known of any test. -/
def undecided : Predicate := fun _ => .next

/-- What the structure of a test says is not changed by pruning what the structure decides. -/
theorem evalTest_pruned_undecided (node : Node) :
    evalTest undecided (pruned undecided node) = evalTest undecided node := by
  have structural : ∀ test, evalTest undecided test = evalNode undecided test := fun _ => rfl
  rw [structural, structural]
  induction node using pruned_induction undecided with
  | step node ih => rw [pruned_eq, evalNode_mapChildren ih ih, evalNode_settle]

/-- One pass leaves nothing that the structure decides. -/
theorem settled_pruned_undecided (node : Node) :
    Settled undecided (pruned undecided node) := by
  rw [settled_pruned_iff]
  intro test ht
  rw [evalTest_pruned_undecided]
  exact evalTest_of_mem_leftTests ht

variable {σ : Type}

/-- **Evaluator and pruner agree on what is literal.** Without a predicate, a traversal of a
conforming tree of at most `maxDepth` levels, an expression or any other, succeeds. The evaluator
finds in the result what it finds in the tree, and no conditional in the result, in whatever position,
has a decided test. -/
theorem walk_undecided (observe : Node → σ → σ) {tree : Node} (hc : tree.Conforms)
    (hd : tree.depth ≤ maxDepth) :
    ∃ out, Yields (Filter.walk maxDepth [filter undecided observe] tree) (.node out) ∧
      evalTest undecided out = evalTest undecided tree ∧ ¬ Prunable undecided out := by
  refine ⟨pruned undecided tree, walk_filter_yields undecided observe hc hd,
    evalTest_pruned_undecided tree, ?_⟩
  rw [prunable_iff, not_not]
  exact settled_pruned_undecided tree

/-- `!(true ? false : a)` -/
def negated : Node :=
  .unary .before .not (.conditional (.boolean true) (.boolean false) (.identifier "a"))

theorem walk_undecided_negated : negated.Conforms ∧ negated.depth ≤ maxDepth ∧
    ∃ out, Yields (Filter.walk maxDepth [filter undecided fun _ (seen : Unit) => seen] negated)
        (.node out) ∧
      evalTest undecided out = .pass ∧ ¬ Prunable undecided out := by
  have within : Node.conformsWithin 3 negated = true := by decide
  have conforms := Node.Conforms.of_within within
  have shallow : negated.depth ≤ maxDepth :=
    Nat.le_trans (Node.depth_le_of_within within) (by decide)
  have passes : evalTest undecided negated = .pass := rfl
  obtain ⟨out, yields, same, left⟩ := walk_undecided (fun _ (seen : Unit) => seen) conforms shallow
  exact ⟨conforms, shallow, out, yields, same.trans passes, left⟩

/-! ## More is known -/

/-- In a node the second predicate knows what the first knows, and if it knows anything, that is in
line with what the evaluator finds by the first. -/
structure Informs (known more : Predicate) (node : Node) : Prop where
  keeps : known node ≤ more node
  agrees : more node ≠ .next → evalTest known node ≤ more node

/-- A test that is asked about is known, or it is judged by its structure. -/
theorem evalTest_le (h : Informs known more node) (hnode : evalNode known node ≤ evalNode more node) :
    evalTest known node ≤ evalTest more node := by
  by_cases hmore : more node = .next
  · have silent : known node = .next := by
      rcases h.keeps with hk | hk
      · exact hk
      · exact hk.trans hmore
    simp only [evalTest, hmore, silent]
    exact hnode
  · have told : evalTest more node = more node := by
      unfold evalTest
      cases hv : more node <;> first | rfl | exact absurd hv hmore
    rw [told]
    exact h.agrees hmore

/-- **What is decided on little is decided alike on more.** -/
theorem evalNode_mono (h : ∀ inner ∈ node.preorder, Informs known more inner) :
    evalNode known node ≤ evalNode more node := by
  induction node using Node.childInduction with
  | step node ih =>
    obtain ⟨-, below⟩ := Node.forall_preorder.mp h
    have branch : ∀ child ∈ node.children, evalNode known child ≤ evalNode more child :=
      fun child hc => ih child hc (below child hc)
    have test : ∀ child ∈ node.children, evalTest known child ≤ evalTest more child :=
      fun child hc => evalTest_le ((Node.forall_preorder.mp (below child hc)).1) (branch child hc)
    cases node using evalCases with
    | ifElse cond yes no =>
      rw [evalNode_ifElse, evalNode_ifElse]
      refine Verdict.select_le_select (test cond (by simp)) (branch yes (by simp)) ?_
      cases no with
      | none => exact Verdict.le_refl _
      | some other => exact branch other (by simp)
    | conditional cond yes no =>
      exact Verdict.select_le_select (test cond (by simp)) (branch yes (by simp))
        (branch no (by simp))
    | and left right => exact Verdict.and_le_and (test left (by simp)) (test right (by simp))
    | or left right => exact Verdict.or_le_or (test left (by simp)) (test right (by simp))
    | not operand => exact Verdict.not_le_not (test operand (by simp))
    | other node hplain =>
      rw [hplain.unasked known more]
      exact Verdict.le_refl _

/-- Whoever knows more about the nodes below knows more about the test. -/
theorem evalTest_mono (h : ∀ inner ∈ node.preorder, Informs known more inner) :
    evalTest known node ≤ evalTest more node :=
  evalTest_le (Node.forall_preorder.mp h).1 (evalNode_mono h)

/-- What is pruned on little is pruned to the same branch on more. -/
theorem live?_mono {branch : Node} (h : ∀ test ∈ test? node, evalTest known test ≤ evalTest more test)
    (hl : live? known node = some branch) : live? more node = some branch := by
  have same : ∀ test ∈ test? node, evalTest known test ≠ .next →
      evalTest more test = evalTest known test := fun test ht => Verdict.le_iff.mp (h test ht)
  obtain ⟨test, no, rfl, hv⟩ | ⟨test, yes, no, rfl, hv, rfl⟩ | ⟨test, no, rfl, hv⟩ |
    ⟨test, yes, rfl, hv⟩ := live?_cases hl
  all_goals
    have hmore := same test rfl (by rw [hv]; decide)
    rw [hv] at hmore
    simp only [live?, verdict, test?, Option.map_some, Option.getD_some, hmore]

/-- Settling on more goes on from where settling on little stops. -/
theorem settle_settle (h : ∀ test, evalTest known test ≤ evalTest more test) (node : Node) :
    settle more (settle known node) = settle more node := by
  refine settle_induction (motive := fun n => settle more n = settle more node) ?_ node rfl
  intro n branch hn hl
  rw [← hn, settle_of_live?_eq_some (live?_mono (fun test _ => h test) hl)]

end DeadBranch

/-! ## Features -/

namespace FeatureSet

open DeadBranch

variable {f g : FeatureSet} {node : Node}

/-- What a guard asks for depends on the name of the guard only. -/
theorem guarded?_eq_of_guard (h : g.guard = f.guard) (node : Node) :
    g.guarded? node = f.guarded? node := by
  unfold guarded?
  rw [h]

/-- Of a guard is known what is said of its feature. -/
theorem known_of_guarded? {feature : String} (h : f.guarded? node = some feature) :
    f.known node = f.verdict feature := by
  simp only [known, h, Option.map_some, Option.getD_some]

/-- Of anything else nothing is known. -/
theorem known_of_not_guarded? (h : f.guarded? node = none) : f.known node = .next := by
  simp only [known, h, Option.map_none, Option.getD_none]

/-- A call of the guard is judged by the features and not by its structure. -/
theorem evalTest_of_guarded? {feature : String} (h : f.guarded? node = some feature) :
    evalTest f.known node = f.verdict feature := by
  have call : evalNode f.known node = .next := by
    unfold guarded? at h
    split at h
    · rfl
    · cases h
  rw [evalTest, known_of_guarded? h, call]
  cases f.verdict feature <;> rfl

/-- A set that decides more features informs about every node. -/
theorem informs (hguard : g.guard = f.guard) (h : ∀ feature, f.verdict feature ≤ g.verdict feature)
    (node : Node) : Informs f.known g.known node := by
  have same := guarded?_eq_of_guard hguard node
  cases hf : f.guarded? node with
  | none =>
    have silent : g.known node = .next := known_of_not_guarded? (same.trans hf)
    exact ⟨.inl (known_of_not_guarded? hf), fun told => absurd silent told⟩
  | some feature =>
    have told : g.known node = g.verdict feature := known_of_guarded? (same.trans hf)
    constructor
    · rw [known_of_guarded? hf, told]
      exact h feature
    · intro _
      rw [evalTest_of_guarded? hf, told]
      exact h feature

/-- **More features never reverse a decision.** Let `g` have the guard of `f` and give the same
verdict on every feature that `f` decides; on all others it may say anything. Then every test, whatever
the tree, that is decided with `f` is decided alike with `g`. So a conditional that is pruned with `f`
is pruned with `g`, to the same branch, and `g` goes on from what `f` leaves of a node. -/
theorem decided_alike (hguard : g.guard = f.guard)
    (h : ∀ feature, (f.verdict feature).isDetermined = true → g.verdict feature = f.verdict feature)
    (node : Node) :
    ((evalTest f.known node).isDetermined = true →
        evalTest g.known node = evalTest f.known node) ∧
      (∀ branch, live? f.known node = some branch → live? g.known node = some branch) ∧
      settle g.known (settle f.known node) = settle g.known node := by
  have more : ∀ feature, f.verdict feature ≤ g.verdict feature := fun feature =>
    Verdict.le_iff.mpr fun told => h feature (isDetermined_iff.mpr told)
  have mono : ∀ test, evalTest f.known test ≤ evalTest g.known test := fun test =>
    evalTest_mono fun inner _ => informs hguard more inner
  refine ⟨fun told => Verdict.le_iff.mp (mono node) (isDetermined_iff.mp told),
    fun branch hl => live?_mono (fun test _ => mono test) hl, settle_settle mono node⟩

/-- Strictness leaves what is listed alone. -/
theorem verdict_le_strict (h : f.unlisted = .next) (feature : String) :
    f.verdict feature ≤ f.strict.verdict feature := by
  show f.verdict feature ≤ if f.enabled.contains feature then .pass
    else if f.disabled.contains feature then .fail else .fail
  unfold verdict
  split
  · exact Verdict.le_refl _
  · split
    · exact Verdict.le_refl _
    · rw [h]
      exact Verdict.next_le _

/-- `if (has("a") && !has("b")) x; else if (has("c")) y;` -/
def featured : Node :=
  let asks (feature : String) : Node := .call .plain (.identifier "has") [.string feature]
  .ifElse (.binary .combine (asks "a") .and (.unary .before .not (asks "b")))
    (.simple (.identifier "x"))
    (some (.ifElse (asks "c") (.simple (.identifier "y")) none))

theorem decided_alike_featured :
    let f := (empty.enable "a").disable "b"
    f.strict.guard = f.guard ∧
      (∀ feature, (f.verdict feature).isDetermined = true →
        f.strict.verdict feature = f.verdict feature) ∧
      live? f.known featured = some (.simple (.identifier "x")) ∧
      live? f.strict.known featured = some (.simple (.identifier "x")) := by
  intro f
  have same : ∀ feature, (f.verdict feature).isDetermined = true →
      f.strict.verdict feature = f.verdict feature := fun feature told =>
    Verdict.le_iff.mp (verdict_le_strict rfl feature) (isDetermined_iff.mp told)
  have guard : f.strict.guard = f.guard := rfl
  have live : live? f.known featured = some (.simple (.identifier "x")) := rfl
  exact ⟨guard, same, live, (decided_alike guard same featured).2.1 _ live⟩

end FeatureSet

end JsPrune
