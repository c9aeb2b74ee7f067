import JsPrune.Proofs.Evaluating

/-!
# Pruning keeps the meaning of a program

A `Semantics` gives every tree a denotation, in any domain, from its kind, its literals and the
denotations of its children; nothing else is assumed of it. A `Truth` for it says which
denotations are truthy and which are falsy, such that literals, negation and the two connectives
behave, and such that a conditional whose test is truthy or falsy means what its branch means.

Main result: `transform_denote`. If the predicate passes only truthy nodes and fails only falsy
ones, then pruning a conforming tree of at most `maxDepth` levels succeeds with a tree of the same
denotation. It rests on `evalTest_agrees`, the soundness of the three-valued evaluator, and on
`denote_mapChildren`, by which a branch may be pruned anywhere inside the tree.
-/

namespace JsPrune

universe u

/-- The plain value that a leaf holds. -/
inductive Leaf where
  | identifier (name : String)
  | number (value : Binary64)
  | string (value : String)
  | boolean (value : Bool)

/-- The value of a leaf that holds one. -/
def Node.leaf? : Node → Option Leaf
  | .identifier name => some (.identifier name)
  | .number value => some (.number value)
  | .string value => some (.string value)
  | .boolean value => some (.boolean value)
  | _ => none

/-- Only a kind without a recipe holds a plain value of its own. -/
theorem Node.leaf?_eq_none {node : Node} (h : node.kind.recipe? ≠ none) : node.leaf? = none := by
  cases node <;> first
    | rfl
    | exact absurd rfl h

/-- The contents of a field with denotations in the places of children. -/
inductive Denoted (D : Type u) where
  | literal (datum : Datum)
  | child (value : D)
  | optional (value : Option D)
  | sequence (values : List D)

namespace Denoted

variable {D : Type u}

theorem mem_of_attached (nodes : List Node) (child : { node // node ∈ nodes }) : child.val ∈ nodes :=
  child.property

/-- A part with a denotation for each child, which may use that it is a child. -/
def ofPart : (part : Part) → ((child : Node) → child ∈ part.nodes → D) → Denoted D
  | .literal datum, _ => .literal datum
  | .child node, f => .child (f node (List.mem_singleton_self node))
  | .optional none, _ => .optional none
  | .optional (some node), f => .optional (some (f node (List.mem_singleton_self node)))
  | .sequence nodes, f => .sequence (nodes.attach.map fun child => f child.val (mem_of_attached nodes child))

/-- A part is denoted alike before and after a change of children that keeps denotations. -/
theorem ofPart_map {d : Node → D} {f : Node → Node} {part : Part}
    (h : ∀ child ∈ part.nodes, d (f child) = d child) :
    ofPart (part.map f) (fun child _ => d child) = ofPart part (fun child _ => d child) := by
  cases part with
  | literal datum => rfl
  | child node => exact congrArg Denoted.child (h node (List.mem_singleton.mpr rfl))
  | optional node =>
    cases node with
    | none => rfl
    | some node => exact congrArg (fun x => Denoted.optional (some x)) (h node (List.mem_singleton.mpr rfl))
  | sequence nodes =>
    refine congrArg Denoted.sequence ?_
    rw [List.attach_map_val (f := d), List.attach_map_val (f := d), List.map_map]
    exact List.map_congr_left h

end Denoted

/-- A denotation for every kind of node, from its literals and the denotations of its children. -/
structure Semantics (D : Type u) where
  meaning : Kind → Option Leaf → List (Denoted D) → D

namespace Semantics

variable {D : Type u} (S : Semantics D)

/-- The denotation of a tree. -/
def denote (node : Node) : D :=
  S.meaning node.kind node.leaf? (node.parts.attach.map fun part =>
    Denoted.ofPart part.val fun child _ => denote child)
termination_by node
decreasing_by
  exact Node.sizeOf_lt_of_mem_children (Node.mem_children_of_mem_nodes part.property (by assumption))

/-- A node means what its kind makes of its leaf and of the meanings of its parts. -/
theorem denote_eq (node : Node) :
    S.denote node = S.meaning node.kind node.leaf?
      (node.parts.map fun part => Denoted.ofPart part fun child _ => S.denote child) := by
  rw [denote]
  exact congrArg _ (List.attach_map_val
    (f := fun part : Part => Denoted.ofPart part fun child _ => S.denote child))

/-- Children may be exchanged for others of the same denotation. -/
theorem denote_mapChildren {f : Node → Node} {node : Node}
    (h : ∀ child ∈ node.children, S.denote (f child) = S.denote child) :
    S.denote (node.mapChildren f) = S.denote node := by
  by_cases hr : node.kind.recipe? = none
  · rw [Node.mapChildren_of_recipe?_eq_none f hr]
  · have leaf : (node.mapChildren f).leaf? = node.leaf? := by
      rw [Node.leaf?_eq_none hr, Node.leaf?_eq_none (Node.kind_mapChildren f node ▸ hr)]
    rw [denote_eq, denote_eq, Node.kind_mapChildren, Node.parts_mapChildren, leaf, List.map_map]
    refine congrArg _ (List.map_congr_left ?_)
    intro part hp
    exact Denoted.ofPart_map fun child hc => h child (Node.mem_children_of_mem_nodes hp hc)

/-- Which denotations count as true and which as false, with the laws that tests rest on. They are
asked only of denotations of trees. -/
structure Truth where
  /-- What a passing test denotes. -/
  truthy : D → Prop
  /-- What a failing test denotes. -/
  falsy : D → Prop
  true_truthy : truthy (S.denote (.boolean true))
  false_falsy : falsy (S.denote (.boolean false))
  number_truthy : ∀ value : Binary64, value.isZero = false → value.isNaN = false →
    truthy (S.denote (.number value))
  number_falsy : ∀ value : Binary64, value.isZero = true ∨ value.isNaN = true →
    falsy (S.denote (.number value))
  not_truthy : ∀ operand, truthy (S.denote operand) →
    falsy (S.denote (.unary .before .not operand))
  not_falsy : ∀ operand, falsy (S.denote operand) →
    truthy (S.denote (.unary .before .not operand))
  and_truthy : ∀ left right, truthy (S.denote left) → truthy (S.denote right) →
    truthy (S.denote (.binary .combine left .and right))
  and_falsy : ∀ left right, truthy (S.denote left) ∨ falsy (S.denote left) →
    truthy (S.denote right) ∨ falsy (S.denote right) →
    falsy (S.denote left) ∨ falsy (S.denote right) →
    falsy (S.denote (.binary .combine left .and right))
  or_falsy : ∀ left right, falsy (S.denote left) → falsy (S.denote right) →
    falsy (S.denote (.binary .combine left .or right))
  or_truthy : ∀ left right, truthy (S.denote left) ∨ falsy (S.denote left) →
    truthy (S.denote right) ∨ falsy (S.denote right) →
    truthy (S.denote left) ∨ truthy (S.denote right) →
    truthy (S.denote (.binary .combine left .or right))
  if_truthy : ∀ test yes no, truthy (S.denote test) →
    S.denote (.ifElse test yes no) = S.denote yes
  if_falsy : ∀ test yes no, falsy (S.denote test) →
    S.denote (.ifElse test yes no) = S.denote (no.getD .empty)
  conditional_truthy : ∀ test yes no, truthy (S.denote test) →
    S.denote (.conditional test yes no) = S.denote yes
  conditional_falsy : ∀ test yes no, falsy (S.denote test) →
    S.denote (.conditional test yes no) = S.denote no

namespace Truth

variable {S} (T : S.Truth)

/-- A verdict is right about a denotation. Knowing nothing is always right. -/
def Agrees : Verdict → D → Prop
  | .pass, d => T.truthy d
  | .fail, d => T.falsy d
  | .next, _ => True

/-- The predicate passes only truthy nodes and fails only falsy ones. -/
def Sound (known : Predicate) : Prop := ∀ node, T.Agrees (known node) (S.denote node)

variable {T} {known : Predicate}

/-! ## The evaluator is sound -/

/-- Where the first verdict says nothing the second one speaks for the meaning. -/
theorem Agrees.orElse {verdict other : Verdict} {d : D} (hv : T.Agrees verdict d)
    (ho : T.Agrees other d) : T.Agrees (verdict.orElse fun _ => other) d := by
  cases verdict with
  | next => exact ho
  | pass => exact hv
  | fail => exact hv

/-- Negation agrees with the meaning if its operand does. -/
theorem Agrees.not {verdict : Verdict} {operand : Node}
    (h : T.Agrees verdict (S.denote operand)) :
    T.Agrees verdict.not (S.denote (.unary .before .not operand)) := by
  cases verdict with
  | next => trivial
  | pass => exact T.not_truthy operand h
  | fail => exact T.not_falsy operand h

/-- So does conjunction with both of its operands. -/
theorem Agrees.and {v w : Verdict} {left right : Node} (hl : T.Agrees v (S.denote left))
    (hr : T.Agrees w (S.denote right)) :
    T.Agrees (v.and w) (S.denote (.binary .combine left .and right)) := by
  cases v with
  | next => trivial
  | pass =>
    cases w with
    | next => trivial
    | pass => exact T.and_truthy left right hl hr
    | fail => exact T.and_falsy left right (.inl hl) (.inr hr) (.inr hr)
  | fail =>
    cases w with
    | next => trivial
    | pass => exact T.and_falsy left right (.inr hl) (.inl hr) (.inl hl)
    | fail => exact T.and_falsy left right (.inr hl) (.inr hr) (.inl hl)

/-- So does disjunction. -/
theorem Agrees.or {v w : Verdict} {left right : Node} (hl : T.Agrees v (S.denote left))
    (hr : T.Agrees w (S.denote right)) :
    T.Agrees (v.or w) (S.denote (.binary .combine left .or right)) := by
  cases v with
  | next => trivial
  | pass =>
    cases w with
    | next => trivial
    | pass => exact T.or_truthy left right (.inl hl) (.inl hr) (.inl hl)
    | fail => exact T.or_truthy left right (.inl hl) (.inr hr) (.inl hl)
  | fail =>
    cases w with
    | next => trivial
    | pass => exact T.or_truthy left right (.inr hl) (.inl hr) (.inr hr)
    | fail => exact T.or_falsy left right hl hr

/-- So does a choice between statements, where a missing `else` is an empty statement. -/
theorem Agrees.ifElse {v w u : Verdict} {test yes : Node} {no : Option Node}
    (ht : T.Agrees v (S.denote test)) (hy : T.Agrees w (S.denote yes))
    (hn : T.Agrees u (S.denote (no.getD .empty))) :
    T.Agrees (v.select w u) (S.denote (.ifElse test yes no)) := by
  cases v with
  | next => trivial
  | pass =>
    rw [T.if_truthy test yes no ht]
    exact hy
  | fail =>
    rw [T.if_falsy test yes no ht]
    exact hn

/-- So does a choice between expressions. -/
theorem Agrees.conditional {v w u : Verdict} {test yes no : Node}
    (ht : T.Agrees v (S.denote test)) (hy : T.Agrees w (S.denote yes))
    (hn : T.Agrees u (S.denote no)) :
    T.Agrees (v.select w u) (S.denote (.conditional test yes no)) := by
  cases v with
  | next => trivial
  | pass =>
    rw [T.conditional_truthy test yes no ht]
    exact hy
  | fail =>
    rw [T.conditional_falsy test yes no ht]
    exact hn

/-- Zero and what is no number count as false. -/
theorem agrees_number (value : Binary64) :
    T.Agrees (.ofBool (!value.isZero && !value.isNaN)) (S.denote (.number value)) := by
  cases hz : value.isZero with
  | true => exact T.number_falsy value (.inl hz)
  | false =>
    cases hn : value.isNaN with
    | true => exact T.number_falsy value (.inr hn)
    | false => exact T.number_truthy value hz hn

/-- What the structure of a test says of it is right. -/
theorem evalNode_agrees (hs : T.Sound known) (node : Node) :
    T.Agrees (DeadBranch.evalNode known node) (S.denote node) := by
  induction node using Node.childInduction with
  | step node ih =>
    -- A test inside is put to the predicate first and then judged by its own structure.
    have test_agrees : ∀ test ∈ node.children,
        T.Agrees ((known test).orElse fun _ => DeadBranch.evalNode known test) (S.denote test) :=
      fun test hmem => (hs test).orElse (ih test hmem)
    unfold DeadBranch.evalNode
    split
    · next test yes =>
      exact (test_agrees test (by simp)).ifElse (ih yes (by simp)) trivial
    · next test yes no =>
      exact (test_agrees test (by simp)).ifElse (ih yes (by simp)) (ih no (by simp))
    · next test yes no =>
      exact (test_agrees test (by simp)).conditional (ih yes (by simp)) (ih no (by simp))
    · next left right =>
      exact (test_agrees left (by simp)).and (test_agrees right (by simp))
    · next left right =>
      exact (test_agrees left (by simp)).or (test_agrees right (by simp))
    · next operand =>
      exact (test_agrees operand (by simp)).not
    · next value =>
      cases value with
      | true => exact T.true_truthy
      | false => exact T.false_falsy
    · next value => exact agrees_number value
    · trivial

/-- The verdict on a test is right. -/
theorem evalTest_agrees (hs : T.Sound known) (test : Node) :
    T.Agrees (DeadBranch.evalTest known test) (S.denote test) :=
  (hs test).orElse (evalNode_agrees hs test)

/-! ## Pruning keeps denotations -/

/-- A decided conditional means what its live branch means. -/
theorem denote_live? (hs : T.Sound known) {node branch : Node}
    (h : DeadBranch.live? known node = some branch) : S.denote node = S.denote branch := by
  obtain ⟨test, no, rfl, hv⟩ | ⟨test, yes, no, rfl, hv, rfl⟩ | ⟨test, no, rfl, hv⟩ |
    ⟨test, yes, rfl, hv⟩ := DeadBranch.live?_cases h
  · have htest := evalTest_agrees hs test
    rw [hv] at htest
    exact T.if_truthy test branch no htest
  · have htest := evalTest_agrees hs test
    rw [hv] at htest
    exact T.if_falsy test yes no htest
  · have htest := evalTest_agrees hs test
    rw [hv] at htest
    exact T.conditional_truthy test branch no htest
  · have htest := evalTest_agrees hs test
    rw [hv] at htest
    exact T.conditional_falsy test yes branch htest

/-- Settling a node keeps its meaning. -/
theorem denote_settle (hs : T.Sound known) (node : Node) :
    S.denote (DeadBranch.settle known node) = S.denote node := by
  refine DeadBranch.settle_induction (motive := fun n => S.denote n = S.denote node) ?_ node rfl
  intro n branch hn hl
  rw [← hn, denote_live? hs hl]

/-- Pruning a tree keeps its meaning. -/
theorem denote_pruned (hs : T.Sound known) (node : Node) :
    S.denote (DeadBranch.pruned known node) = S.denote node := by
  induction node using DeadBranch.pruned_induction known with
  | step node ih => rw [DeadBranch.pruned_eq, S.denote_mapChildren ih, denote_settle hs]

/-- **Dead-branch elimination preserves meaning.** With a sound predicate, pruning a conforming
tree of at most `maxDepth` levels succeeds, whatever is on the trail and whatever observes it, and
the result has the denotation of the tree. -/
theorem transform_denote {σ : Type} (T : S.Truth) (hs : T.Sound known) (observe : Node → σ → σ)
    {tree : Node} (hc : tree.Conforms) (hd : tree.depth ≤ maxDepth) (trail : Trail σ) :
    ∃ result after,
      (Filter.transform maxDepth [DeadBranch.filter known observe] tree).run.run trail
        = (.ok result, after) ∧ S.denote result = S.denote tree := by
  obtain ⟨after, h⟩ := DeadBranch.transform_filter_yields known observe hc hd trail
  exact ⟨DeadBranch.pruned known tree, after, h, denote_pruned hs tree⟩

end Truth

/-! ## A semantics of tests

What a test is worth when only the name `debug` is known, to be false: true, false or nothing. A
statement is worth what it comes down to, so it matters which branch of an `if` is kept. -/

/-- The worth of a test, and of a statement made of tests. -/
def worth : Semantics (Option Bool) where
  meaning
    | .boolean, some (.boolean value), _ => some value
    | .number, some (.number value), _ => some (!value.isZero && !value.isNaN)
    | .identifier, some (.identifier name), _ => if name = "debug" then some false else none
    | .unaryPrefix, _, [.literal (.unaryOp .not), .child operand] => operand.map (!·)
    | .binary, _, [.child left, .literal (.binaryOp .and), .child right] =>
      left.bind fun a => right.map (a && ·)
    | .binary, _, [.child left, .literal (.binaryOp .or), .child right] =>
      left.bind fun a => right.map (a || ·)
    | .simpleStatement, _, [.child value] => value
    | .if_, _, [.child test, .child yes, .optional no] =>
      test.bind fun holds => if holds then yes else no.getD none
    | .conditional, _, [.child test, .child yes, .child no] =>
      test.bind fun holds => if holds then yes else no
    | _, _, _ => none

/-- An `if` is worth its branch, once its test is worth something. -/
theorem worth_ifElse (test yes : Node) (no : Option Node) :
    worth.denote (.ifElse test yes no) = (worth.denote test).bind fun holds =>
      if holds then worth.denote yes else worth.denote (no.getD .empty) := by
  cases no with
  | none =>
    rw [denote_eq worth (.ifElse test yes none)]
    have nothing : worth.denote .empty = none := denote_eq worth .empty
    rw [Option.getD_none, nothing]
    rfl
  | some other => exact denote_eq worth (.ifElse test yes (some other))

/-- The laws hold of it. -/
def worthTruth : worth.Truth where
  truthy value := value = some true
  falsy value := value = some false
  true_truthy := denote_eq worth _
  false_falsy := denote_eq worth _
  number_truthy value hz hn := by
    rw [denote_eq worth]
    show some (!value.isZero && !value.isNaN) = some true
    rw [hz, hn]
    rfl
  number_falsy value h := by
    rw [denote_eq worth]
    show some (!value.isZero && !value.isNaN) = some false
    rcases h with hz | hn
    · rw [hz]
      rfl
    · rw [hn, Bool.not_true, Bool.and_false]
  not_truthy operand h := by
    rw [denote_eq worth]
    show (worth.denote operand).map (!·) = some false
    rw [h]
    rfl
  not_falsy operand h := by
    rw [denote_eq worth]
    show (worth.denote operand).map (!·) = some true
    rw [h]
    rfl
  and_truthy left right hl hr := by
    rw [denote_eq worth]
    show ((worth.denote left).bind fun a => (worth.denote right).map (a && ·)) = some true
    rw [hl, hr]
    rfl
  and_falsy left right hl hr h := by
    rw [denote_eq worth]
    show ((worth.denote left).bind fun a => (worth.denote right).map (a && ·)) = some false
    rcases hl with hl | hl <;> rcases hr with hr | hr <;> simp_all
  or_falsy left right hl hr := by
    rw [denote_eq worth]
    show ((worth.denote left).bind fun a => (worth.denote right).map (a || ·)) = some false
    rw [hl, hr]
    rfl
  or_truthy left right hl hr h := by
    rw [denote_eq worth]
    show ((worth.denote left).bind fun a => (worth.denote right).map (a || ·)) = some true
    rcases hl with hl | hl <;> rcases hr with hr | hr <;> simp_all
  if_truthy test yes no h := by
    rw [worth_ifElse, h]
    rfl
  if_falsy test yes no h := by
    rw [worth_ifElse, h]
    rfl
  conditional_truthy test yes no h := by
    rw [denote_eq worth (.conditional test yes no)]
    show ((worth.denote test).bind fun holds =>
      if holds then worth.denote yes else worth.denote no) = worth.denote yes
    rw [h]
    rfl
  conditional_falsy test yes no h := by
    rw [denote_eq worth (.conditional test yes no)]
    show ((worth.denote test).bind fun holds =>
      if holds then worth.denote yes else worth.denote no) = worth.denote no
    rw [h]
    rfl

/-- Knows that `debug` is false. -/
def noDebug : Predicate
  | .identifier "debug" => .fail
  | _ => .next

theorem noDebug_sound : worthTruth.Sound noDebug := by
  intro node
  unfold noDebug
  split
  · exact denote_eq worth _
  · trivial

/-- `if (debug && true) 0; else if (!debug) true;` -/
def debugging : Node :=
  .ifElse (.binary .combine (.identifier "debug") .and (.boolean true))
    (.simple (.number (.ofNat 0)))
    (some (.ifElse (.unary .before .not (.identifier "debug")) (.simple (.boolean true)) none))

/-- The program comes down to its second branch, whose worth differs from that of the first. -/
theorem worth_debugging : worth.denote debugging = some true ∧
    worth.denote (.simple (.number (.ofNat 0))) = some false := by
  have debug : worth.denote (.identifier "debug") = some false := denote_eq worth _
  have outer : worth.denote (.binary .combine (.identifier "debug") .and (.boolean true))
      = some false :=
    worthTruth.and_falsy _ _ (.inr debug) (.inl worthTruth.true_truthy) (.inl debug)
  have inner : worth.denote (.unary .before .not (.identifier "debug")) = some true :=
    worthTruth.not_falsy _ debug
  have simple (value : Node) : worth.denote (.simple value) = worth.denote value :=
    denote_eq worth _
  constructor
  · rw [debugging, worthTruth.if_falsy _ _ _ outer]
    show worth.denote (.ifElse _ _ none) = some true
    rw [worthTruth.if_truthy _ _ _ inner, simple]
    exact worthTruth.true_truthy
  · rw [simple]
    exact worthTruth.number_falsy _ (.inl rfl)

theorem transform_denote_debugging :
    debugging.Conforms ∧ debugging.depth ≤ maxDepth ∧ ∃ result after,
      (Filter.transform maxDepth [DeadBranch.filter noDebug fun _ (state : Unit) => state]
        debugging).run.run (.start ()) = (.ok result, after) ∧
        worth.denote result = worth.denote debugging ∧ worth.denote result = some true := by
  have within : Node.conformsWithin 6 debugging = true := by decide
  have conforms := Node.Conforms.of_within within
  have shallow : debugging.depth ≤ maxDepth :=
    Nat.le_trans (Node.depth_le_of_within within) (by decide)
  obtain ⟨result, after, hrun, hworth⟩ :=
    Truth.transform_denote worthTruth noDebug_sound (fun _ state => state) conforms shallow (.start ())
  exact ⟨conforms, shallow, result, after, hrun, hworth, hworth.trans worth_debugging.1⟩

end Semantics

end JsPrune
