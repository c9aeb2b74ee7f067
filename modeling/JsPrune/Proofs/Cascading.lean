import JsPrune.Filter.FeatureSet
import JsPrune.Proofs.Observing
import JsPrune.Proofs.Pruning

/-!
# Chains of `else if`

The pruning filter settles a node before any later filter has its turn. So a traversal that starts at
a node and one that starts at a node met while settling it do the same from the first turn on: the
later filters are shown the same node and then everything is the same. All that differs is what was
reported on the way, and what the predicate was asked.

The proof compares the two runs with `Walk.Relates`. Their trails agree (`Trail.Agrees`) but for the
events, which no filter reads, and but for that part of the state that only the predicate's observer
touches. A filter that goes by the rest `Respects` the comparison, and chains of such filters keep it
up at every node (`walkNode_agree`).

Main result: `walk_elseIf`. A chain of `else if` is traversed as what is left of it past the tests that
fail.
-/

namespace JsPrune

variable {σ τ υ ι : Type}

/-! ## Trails that agree -/

/-- The states are as `S` says, and as many nodes were visited. The events may differ. -/
structure Trail.Agrees (S : σ → σ → Prop) (trail other : Trail σ) : Prop where
  state : S trail.state other.state
  visited : trail.visited = other.visited
  exhausted : trail.exhausted = other.exhausted

/-- Both moves settle the node alike, or go on with the same node and do the same afterwards. -/
inductive Move.Agrees (S : σ → σ → Prop) : Move σ → Move σ → Prop
  | settle (result : Except Error Outcome) : Agrees S (.settle result) (.settle result)
  | proceed (replaced replaced' : Bool) (node : Node)
      {after after' : Except Error Outcome → TrailM σ (Except Error Outcome)}
      (h : ∀ result, TrailM.Relates (Trail.Agrees S) (Trail.Agrees S) (after result) (after' result)) :
      Agrees S (.proceed replaced node after) (.proceed replaced' node after')

variable {S : σ → σ → Prop}

namespace Trail.Agrees

/-- Events do not matter. -/
theorem push {trail other : Trail σ} (h : trail.Agrees S other) (events events' : Array Event) :
    Trail.Agrees S { trail with events := events } { other with events := events' } :=
  ⟨h.state, h.visited, h.exhausted⟩

end Trail.Agrees

/-- Computations that end alike on trails that agree, and leave trails that agree. -/
abbrev Walk.Agree (S : σ → σ → Prop) {α : Type} (walk other : Walk σ α) : Prop :=
  Walk.Relates (Trail.Agrees S) (Trail.Agrees S) walk other

namespace Filter

/-- The moves agree, and so do the trails after them. -/
def Answers (S : σ → σ → Prop) (answer other : Move σ × Trail σ) : Prop :=
  answer.1.Agrees S other.1 ∧ answer.2.Agrees S other.2

/-- On trails that agree the filter answers alike: it does not read the events, and it goes by what
`S` keeps of the state. -/
def Respects (S : σ → σ → Prop) (filter : Filter σ) : Prop :=
  ∀ later node {trail other}, trail.Agrees S other →
    Answers S ((filter.step later node).run trail) ((filter.step later node).run other)

variable {filters later : List (Filter σ)} {walk : Node → Walk σ Outcome}

theorem carryOut_agree (h : ∀ node, Walk.Agree S (runChain walk later node) (runChain walk later node))
    (name : String) {move other : Move σ} (hm : move.Agrees S other) :
    Walk.Agree S (carryOut walk name later move) (carryOut walk name later other) := by
  cases hm with
  | settle result => exact .ofExcept result
  | proceed replaced replaced' node ha =>
    have rest := (h node).answer ha
    -- Either run may report the replacement.
    cases replaced with
    | false =>
      cases replaced' with
      | false => exact rest
      | true => exact fun trail other ht => rest trail _ (ht.push _ _)
    | true =>
      cases replaced' with
      | false => exact fun trail other ht => rest _ other (ht.push _ _)
      | true => exact fun trail other ht => rest _ _ (ht.push _ _)

/-- A chain of filters that go by the rest agrees with itself, if what lies below the node does. -/
theorem runChain_agree (hr : ∀ filter ∈ filters, filter.Respects S)
    (hw : ∀ node, Walk.Agree S (walk node) (walk node)) (node : Node) :
    Walk.Agree S (runChain walk filters node) (runChain walk filters node) := by
  induction filters generalizing node with
  | nil => exact (Node.descend_relates fun child _ => hw child).map Outcome.node
  | cons filter later ih =>
    have hlater := ih fun other hmem => hr other (List.mem_cons_of_mem _ hmem)
    rw [runChain_cons]
    refine .lift_bind (Q := Trail.Agrees S) fun trail other ht => ?_
    obtain ⟨move, left⟩ := hr filter (List.mem_cons_self ..) later.length node ht
    exact ⟨left, carryOut_agree hlater filter.name move⟩

/-- Filters that respect the comparison keep it up at every node, and below it. -/
theorem walkNode_agree (hr : ∀ filter ∈ filters, filter.Respects S) (levels : Nat) (node : Node) :
    Walk.Agree S (walkNode filters levels node) (walkNode filters levels node) := by
  induction levels generalizing node with
  | zero => exact fun trail other ht => ⟨rfl, ht.state, ht.visited, rfl⟩
  | succ levels ih =>
    rw [walkNode]
    exact .modify_bind
      (fun trail other ht => ⟨ht.state, congrArg (· + 1) ht.visited, ht.exhausted⟩)
      (runChain_agree hr ih node)

/-! ## Different trees -/

/-- Both trails are this one. -/
def Both (start trail other : Trail σ) : Prop := trail = start ∧ other = start

theorem both_modify (change : Trail σ → Trail σ) (start : Trail σ) :
    ∀ trail other, Both start trail other → Both (change start) (change trail) (change other) := by
  rintro _ _ ⟨rfl, rfl⟩
  exact ⟨rfl, rfl⟩

/-- A tree that is not too deep passes the check. -/
theorem walk_eq_of_shallow {levels : Nat} {tree : Node} (hd : tree.depth ≤ maxDepth) :
    Filter.walk levels filters tree = (do
      modify fun trail => { trail with visited := 0 }
      let outcome ← walkNode filters levels tree
      Walk.report (.walked filters.length (← get).visited)
      return outcome) := by
  have shallow : tree.checkDepth = .ok () := if_neg (by omega)
  unfold Filter.walk
  rw [shallow]
  rfl

/-- Two traversals that agree once the first filter has had its turn at the root agree. -/
theorem walk_agree {head : Filter σ} (hr : ∀ filter ∈ head :: later, filter.Respects S)
    (levels : Nat) {tree tree' : Node} (hd : tree.depth ≤ maxDepth) (hd' : tree'.depth ≤ maxDepth)
    {trail : Trail σ}
    (h : Answers S ((head.step later.length tree).run { trail with visited := 1 })
      ((head.step later.length tree').run { trail with visited := 1 })) :
    Walk.Relates (Both trail) (Trail.Agrees S) (Filter.walk (levels + 1) (head :: later) tree)
      (Filter.walk (levels + 1) (head :: later) tree') := by
  have behind := runChain_agree (fun filter hmem => hr filter (List.mem_cons_of_mem _ hmem))
    (walkNode_agree hr levels)
  have nodes : Walk.Relates (Both { trail with visited := 0 }) (Trail.Agrees S)
      (walkNode (head :: later) (levels + 1) tree) (walkNode (head :: later) (levels + 1) tree') := by
    rw [walkNode, walkNode]
    refine .modify_bind (both_modify _ _) ?_
    rw [runChain_cons, runChain_cons]
    refine .lift_bind (Q := Trail.Agrees S) ?_
    rintro _ _ ⟨rfl, rfl⟩
    exact ⟨h.2, carryOut_agree behind head.name h.1⟩
  rw [walk_eq_of_shallow hd, walk_eq_of_shallow hd']
  refine .modify_bind (both_modify _ _) (nodes.bind fun outcome => ?_)
  exact fun trail other ht => ⟨rfl, ht.push _ _⟩

/-! ## Turns that are written down -/

/-- The states beside the notes are as `S` says. The notes are the same, but for the first. -/
def Noted (S : σ → σ → Prop) (first first' : ι × Node) (state other : σ × List (ι × Node)) : Prop :=
  S state.1 other.1 ∧ ∃ turns, state.2 = first :: turns ∧ other.2 = first' :: turns

theorem Noted.agrees_fst {first first' : ι × Node} {trail other : Trail (σ × List (ι × Node))}
    (h : trail.Agrees (Noted S first first') other) :
    (trail.map Prod.fst).Agrees S (other.map Prod.fst) :=
  ⟨h.state.1, h.visited, h.exhausted⟩

/-- Effects that know nothing of the notes leave them as they are. -/
theorem alongside_relates {first first' : ι × Node} {α : Type} {effect other : TrailM σ α}
    (h : TrailM.Relates (Trail.Agrees S) (Trail.Agrees S) effect other) :
    TrailM.Relates (Trail.Agrees (Noted S first first')) (Trail.Agrees (Noted S first first'))
      effect.alongside other.alongside := by
  intro trail trail' ht
  obtain ⟨answer, left⟩ := h _ _ (Noted.agrees_fst ht)
  exact ⟨answer, ⟨left.state, ht.state.2⟩, left.visited, left.exhausted⟩

/-- Writing down a turn keeps up the comparison of the notes. -/
theorem alongside_agrees {first first' : ι × Node} {move other : Move σ} (h : move.Agrees S other) :
    Move.Agrees (Noted S first first') move.alongside other.alongside := by
  cases h with
  | settle result => exact .settle result
  | proceed replaced replaced' node ha =>
    exact .proceed replaced replaced' node fun result => alongside_relates (ha result)

/-- A filter that writes down its turns answers as it does without, beside one more note. -/
theorem traced_answers {filter : Filter σ} {label : ι} {remaining : Nat} {node node' : Node}
    {trail other : Trail (σ × List (ι × Node))} {first first' : ι × Node}
    (h : Answers S ((filter.step remaining node).run (trail.map Prod.fst))
      ((filter.step remaining node').run (other.map Prod.fst)))
    (hn : ∃ turns, trail.state.2 ++ [(label, node)] = first :: turns ∧
      other.state.2 ++ [(label, node')] = first' :: turns) :
    Answers (Noted S first first') (((filter.traced label).step remaining node).run trail)
      (((filter.traced label).step remaining node').run other) :=
  ⟨alongside_agrees h.1, ⟨h.2.state, hn⟩, h.2.visited, h.2.exhausted⟩

/-- Tracing a filter does not make it look at what the comparison leaves out. -/
theorem Respects.traced {filter : Filter σ} (h : filter.Respects S) (label : ι)
    (first first' : ι × Node) : (filter.traced label).Respects (Noted S first first') := by
  intro remaining node trail other ht
  refine traced_answers (h remaining node (Noted.agrees_fst ht)) ?_
  obtain ⟨turns, hturns, hturns'⟩ := ht.state.2
  exact ⟨turns ++ [(label, node)], by rw [hturns, List.cons_append], by rw [hturns', List.cons_append]⟩

end Filter

namespace DeadBranch

open JsPrune.Filter (Respects Answers Noted)

variable {known : Predicate} {node inner : Node}

/-! ## The pruning filter -/

/-- The part `p` of the state is out of the observer's reach. -/
def Spares (p : σ → υ) (observe : Node → σ → σ) : Prop := ∀ node state, p (observe node state) = p state

/-- What is spared by one observation is spared by any number of them. -/
theorem Spares.foldl {p : σ → υ} {observe : Node → σ → σ} (h : Spares p observe) (asked : List Node)
    (state : σ) : p (asked.foldl (fun state node => observe node state) state) = p state := by
  induction asked generalizing state with
  | nil => rfl
  | cons first rest ih => rw [List.foldl_cons, ih, h]

/-- To two nodes that settle alike the filter answers alike. -/
theorem filter_answers {p : σ → υ} {observe : Node → σ → σ} (ho : Spares p observe) {node' : Node}
    (h : settle known node = settle known node') (remaining : Nat) {trail other : Trail σ}
    (ht : trail.Agrees (fun a b => p a = p b) other) :
    Answers (fun a b => p a = p b) (((filter known observe).step remaining node).run trail)
      (((filter known observe).step remaining node').run other) := by
  obtain ⟨replaced, after, hstep⟩ := filter_rewrites known observe remaining node trail
  obtain ⟨replaced', after', hstep'⟩ := filter_rewrites known observe remaining node' other
  constructor
  · rw [hstep, hstep', h]
    exact .proceed replaced replaced' _ fun result => .pure result
  · exact ⟨(ho.foldl _ _).trans (ht.state.trans (ho.foldl _ _).symm), ht.visited, ht.exhausted⟩

/-- The pruning filter looks at no state, and its observations leave the compared part alone. -/
theorem filter_respects {p : σ → υ} {observe : Node → σ → σ} (ho : Spares p observe) :
    (filter known observe).Respects fun a b => p a = p b :=
  fun remaining _ _ _ ht => filter_answers ho rfl remaining ht

/-! ## Nodes met while settling -/

/-- Settling ends at the same node wherever on its way it starts. -/
theorem settle_of_mem_passedThrough (h : inner ∈ passedThrough known node) :
    settle known inner = settle known node := by
  fun_induction passedThrough known node with
  | case1 node hnone => rw [List.mem_singleton.mp h]
  | case2 node branch hsome ih =>
    rcases List.mem_cons.mp h with rfl | hbelow
    · rfl
    · rw [ih hbelow, settle_of_live?_eq_some hsome]

/-- The way leads downwards only. -/
theorem height_le_of_mem_passedThrough (h : inner ∈ passedThrough known node) :
    inner.height ≤ node.height := by
  fun_induction passedThrough known node with
  | case1 node hnone => exact Nat.le_of_eq (congrArg Node.height (List.mem_singleton.mp h))
  | case2 node branch hsome ih =>
    rcases List.mem_cons.mp h with rfl | hbelow
    · exact Nat.le_refl _
    · exact Nat.le_trans (ih hbelow) (height_live?_le hsome)

theorem mem_passedThrough_self (known : Predicate) (node : Node) :
    node ∈ passedThrough known node := by
  rw [passedThrough]
  split
  · exact List.mem_singleton.mpr rfl
  · exact List.mem_cons_self ..

/-- What a live branch passes through, the node passes through on its way. -/
theorem mem_passedThrough_of_live? {branch : Node} (h : live? known node = some branch)
    (hmem : inner ∈ passedThrough known branch) : inner ∈ passedThrough known node := by
  rw [passedThrough]
  split
  · next hnone =>
    rw [h] at hnone
    cases hnone
  · next other hsome =>
    rw [h] at hsome
    cases hsome
    exact List.mem_cons_of_mem _ hmem

/-- A traversal behind the pruning filter may as well start at any node met while settling. -/
theorem walk_passedThrough {p : σ → υ} {observe : Node → σ → σ} (ho : Spares p observe)
    {later : List (ι × Filter σ)} (hl : ∀ entry ∈ later, entry.2.Respects fun a b => p a = p b)
    (label : ι) (hmem : inner ∈ passedThrough known node) (hd : node.depth ≤ maxDepth) (levels : Nat)
    (trail : Trail σ) :
    let filters := (label, filter known observe) :: later
    let run tree := (Filter.walk (levels + 1) (filters.map Prod.snd) tree).run.run trail
    (run node).1 = (run inner).1 ∧ (run node).2.Agrees (fun a b => p a = p b) (run inner).2 ∧
      ∃ turns, Filter.invocations (levels + 1) filters node trail = (label, node) :: turns ∧
        Filter.invocations (levels + 1) filters inner trail = (label, inner) :: turns := by
  intro filters run
  have hd' : inner.depth ≤ maxDepth := by
    rw [Node.depth_eq] at hd ⊢
    exact Nat.le_trans (height_le_of_mem_passedThrough hmem) hd
  have settled := (settle_of_mem_passedThrough hmem).symm
  have respects : ∀ entry ∈ filters, entry.2.Respects fun a b => p a = p b :=
    List.forall_mem_cons.mpr ⟨filter_respects ho, hl⟩
  -- Result and trail are those of the filters as they are, the turns those of the filters that write.
  obtain ⟨result, left⟩ := Filter.walk_agree (List.forall_mem_map.mpr respects) levels hd hd'
    (filter_answers ho settled _ ⟨rfl, rfl, rfl⟩) trail trail ⟨rfl, rfl⟩
  obtain ⟨-, written⟩ := Filter.walk_agree
    (List.forall_mem_map.mpr fun entry hentry =>
      (respects entry hentry).traced entry.1 (label, node) (label, inner)) levels hd hd'
    (Filter.traced_answers (filter_answers ho settled _ ⟨rfl, rfl, rfl⟩) ⟨[], rfl, rfl⟩)
    (trail.map fun state => (state, [])) _ ⟨rfl, rfl⟩
  exact ⟨result, left, written.state.2⟩

/-! ## Chains of `else if` -/

/-- The alternative made of the arms of a chain, each a test and its branch, and of what comes last. -/
def elseIf (last : Option Node) : List (Node × Node) → Option Node
  | [] => last
  | (test, yes) :: arms => some (.ifElse test yes (elseIf last arms))

/-- What is left of a chain past the arms whose tests fail: if the first test that does not fail
passes, its branch; if it is undecided, the chain from there on; if all fail, what comes last, or a
lone semicolon. -/
def leftOver (known : Predicate) (last : Option Node) (arms : List (Node × Node)) : Node :=
  match arms.dropWhile fun arm => evalTest known arm.1 == .fail with
  | [] => last.getD .empty
  | (test, yes) :: rest =>
    if evalTest known test = .pass then yes else .ifElse test yes (elseIf last rest)

/-- An arm is dropped, is all that is left, or stays before the others, as its test turns out. -/
theorem leftOver_cons (known : Predicate) (last : Option Node) (test yes : Node)
    (arms : List (Node × Node)) : leftOver known last ((test, yes) :: arms) =
      match evalTest known test with
      | .fail => leftOver known last arms
      | .pass => yes
      | .next => .ifElse test yes (elseIf last arms) := by
  rw [leftOver, List.dropWhile_cons]
  cases hv : evalTest known test with
  | fail => rfl
  | pass => exact if_pos hv
  | next => exact if_neg (by rw [hv]; decide)

/-- What is left over is met while the chain is settled. -/
theorem leftOver_mem_passedThrough (known : Predicate) (last : Option Node) (arms : List (Node × Node)) :
    leftOver known last arms ∈ passedThrough known ((elseIf last arms).getD .empty) := by
  induction arms with
  | nil => exact mem_passedThrough_self known _
  | cons arm arms ih =>
    obtain ⟨test, yes⟩ := arm
    rw [leftOver_cons]
    show _ ∈ passedThrough known (.ifElse test yes (elseIf last arms))
    cases hv : evalTest known test with
    | fail =>
      have live : live? known (.ifElse test yes (elseIf last arms))
          = some ((elseIf last arms).getD .empty) := by simp [live?, verdict, test?, hv]
      exact mem_passedThrough_of_live? live ih
    | pass =>
      have live : live? known (.ifElse test yes (elseIf last arms)) = some yes := by
        simp [live?, verdict, test?, hv]
      exact mem_passedThrough_of_live? live (mem_passedThrough_self known yes)
    | next => exact mem_passedThrough_self known _

/-- **Chains of `else if` fold in one traversal.** Take a chain of at most `maxDepth` levels with any
number of arms, and what is left over of it. The pruning filter comes first; its predicate may be
observed, but not in what `p` shows of the state. The later filters may be any that go by what `p`
shows and not by the events. Then, whatever the state and the number of levels to go down, the
traversals of the chain and of what is left over end with the same result or the same error; they
leave the same state, as far as `p` shows it, and have visited as many nodes. After the pruning
filter's own turn at the root, all filters have the same turns, at the same nodes. -/
theorem walk_elseIf {p : σ → υ} {observe : Node → σ → σ} (ho : Spares p observe)
    {later : List (ι × Filter σ)} (hl : ∀ entry ∈ later, entry.2.Respects fun a b => p a = p b)
    (known : Predicate) (label : ι) (test yes : Node) (arms : List (Node × Node)) (last : Option Node)
    (hd : (Node.ifElse test yes (elseIf last arms)).depth ≤ maxDepth) (levels : Nat)
    (trail : Trail σ) :
    let chain := Node.ifElse test yes (elseIf last arms)
    let rest := leftOver known last ((test, yes) :: arms)
    let filters := (label, filter known observe) :: later
    let run tree := (Filter.walk (levels + 1) (filters.map Prod.snd) tree).run.run trail
    (run chain).1 = (run rest).1 ∧ (run chain).2.Agrees (fun a b => p a = p b) (run rest).2 ∧
      ∃ turns, Filter.invocations (levels + 1) filters chain trail = (label, chain) :: turns ∧
        Filter.invocations (levels + 1) filters rest trail = (label, rest) :: turns :=
  walk_passedThrough ho hl label
    (leftOver_mem_passedThrough known last ((test, yes) :: arms)) hd levels trail

theorem numbering_respects : Filter.numbering.Respects fun a b => id a = id b := by
  intro remaining node trail other ht
  cases node
  case identifier name =>
    have same : trail.state = other.state := ht.state
    constructor
    · show Move.Agrees _ (.replace (.string (toString (trail.state + 1))))
        (.replace (.string (toString (other.state + 1))))
      rw [same]
      exact .proceed _ _ _ fun result => .pure result
    · exact ⟨congrArg (· + 1) same, ht.visited, ht.exhausted⟩
  all_goals exact ⟨.proceed _ _ _ fun result => .pure result, ht⟩

/-- `if (has("old")) f; else if (x) g; else h;`, where the build leaves `old` out. -/
theorem walk_elseIf_guarded :
    let known := (FeatureSet.empty.disable "old").known
    let statement (name : String) : Node := .simple (.identifier name)
    let rest := Node.ifElse (.identifier "x") (statement "g") (some (statement "h"))
    let chain := Node.ifElse (.call .plain (.identifier "has") [.string "old"]) (statement "f") (some rest)
    let filters := [("pruning", filter known fun _ state => state), ("numbering", Filter.numbering)]
    let run tree := (Filter.walk maxDepth (filters.map Prod.snd) tree).run.run (.start 0)
    Spares id (fun _ (state : Nat) => state) ∧ Filter.numbering.Respects (fun a b => id a = id b) ∧
      chain.depth ≤ maxDepth ∧ (run chain).1 = (run rest).1 ∧
      (run chain).2.Agrees (fun a b => id a = id b) (run rest).2 ∧
      ∃ turns, Filter.invocations maxDepth filters chain (.start 0) = ("pruning", chain) :: turns ∧
        Filter.invocations maxDepth filters rest (.start 0) = ("pruning", rest) :: turns := by
  intro known statement rest chain filters run
  have within : Node.conformsWithin 4 chain = true := by decide
  have shallow : chain.depth ≤ maxDepth :=
    Nat.le_trans (Node.depth_le_of_within within) (by decide)
  have spares : Spares id fun _ (state : Nat) => state := fun _ _ => rfl
  have respects : ∀ entry ∈ [("numbering", Filter.numbering)],
      entry.2.Respects fun a b => id a = id b := by
    rintro _ (_ | ⟨_, ⟨⟩⟩)
    exact numbering_respects
  exact ⟨spares, numbering_respects, shallow, walk_elseIf spares respects known "pruning" _ _
    [(.identifier "x", statement "g")] (some (statement "h")) shallow 511 (.start 0)⟩

end DeadBranch

end JsPrune
