import JsPrune.Filter.Verdict
import JsPrune.Filter.Walk

/-!
# Dead branches

A predicate knows some tests of a program. `evalTest` extends what it knows over literals, negation,
the logical connectives and conditionals, and the filter keeps only the live branch of every `if`
and every conditional whose test is decided. A live branch that is itself a decided conditional is
settled on the spot, so a chain of `else if` folds in one go.

`evalTest` asks the predicate about a test and then about its operands; `askedTest` lists the nodes
it asks about, in order, for observers that want to follow.
-/

namespace JsPrune

/-- What is known about tests beforehand. -/
abbrev Predicate := Node → Verdict

namespace DeadBranch

variable (known : Predicate)

/-- The verdict on a test from its structure. Only the tests inside are put to the predicate; a
chosen branch is judged by its own structure alone. -/
def evalNode : Node → Verdict
  | .ifElse test yes none =>
    match (known test).orElse fun _ => evalNode test with
    | .pass => evalNode yes
    | .fail => .next
    | .next => .next
  | .ifElse test yes (some no) =>
    match (known test).orElse fun _ => evalNode test with
    | .pass => evalNode yes
    | .fail => evalNode no
    | .next => .next
  | .conditional test yes no =>
    match (known test).orElse fun _ => evalNode test with
    | .pass => evalNode yes
    | .fail => evalNode no
    | .next => .next
  | .binary .combine left .and right =>
    ((known left).orElse fun _ => evalNode left).and
      ((known right).orElse fun _ => evalNode right)
  | .binary .combine left .or right =>
    ((known left).orElse fun _ => evalNode left).or
      ((known right).orElse fun _ => evalNode right)
  | .unary .before .not operand => ((known operand).orElse fun _ => evalNode operand).not
  | .boolean value => .ofBool value
  | .number value => .ofBool (!value.isZero && !value.isNaN)
  | _ => .next

/-- The verdict on a test: what the predicate knows of it, else what its structure says. -/
def evalTest (test : Node) : Verdict := (known test).orElse fun _ => evalNode known test

/-- A test, followed by what is asked to judge its structure if the predicate does not know it. -/
def askedFrom (test : Node) (inside : Unit → List Node) : List Node :=
  test :: match known test with
    | .next => inside ()
    | _ => []

/-- The nodes that `evalNode` asks the predicate about, in order. -/
def askedNode : Node → List Node
  | .ifElse test yes none =>
    askedFrom known test (fun _ => askedNode test) ++
      match evalTest known test with
      | .pass => askedNode yes
      | .fail => []
      | .next => []
  | .ifElse test yes (some no) =>
    askedFrom known test (fun _ => askedNode test) ++
      match evalTest known test with
      | .pass => askedNode yes
      | .fail => askedNode no
      | .next => []
  | .conditional test yes no =>
    askedFrom known test (fun _ => askedNode test) ++
      match evalTest known test with
      | .pass => askedNode yes
      | .fail => askedNode no
      | .next => []
  | .binary .combine left .and right =>
    askedFrom known left (fun _ => askedNode left) ++
      askedFrom known right (fun _ => askedNode right)
  | .binary .combine left .or right =>
    askedFrom known left (fun _ => askedNode left) ++
      askedFrom known right (fun _ => askedNode right)
  | .unary .before .not operand => askedFrom known operand (fun _ => askedNode operand)
  | _ => []

/-- The nodes that `evalTest` asks the predicate about, in order. -/
def askedTest (test : Node) : List Node := askedFrom known test fun _ => askedNode known test

/-- The test of a conditional node. -/
def test? : Node → Option Node
  | .ifElse test _ _ => some test
  | .conditional test _ _ => some test
  | _ => none

/-- The verdict on the test of a conditional node; nothing is known of other nodes. -/
def verdict (node : Node) : Verdict := ((test? node).map (evalTest known)).getD .next

/-- The live branch of a conditional node whose test is decided. An absent branch is a lone
semicolon. -/
def live? (node : Node) : Option Node :=
  match node, verdict known node with
  | .ifElse _ yes _, .pass => some yes
  | .ifElse _ _ no, .fail => some (no.getD .empty)
  | .conditional _ yes _, .pass => some yes
  | .conditional _ _ no, .fail => some no
  | _, _ => none

/-- A live branch is smaller than the node it is a branch of. -/
theorem sizeOf_live?_lt {known : Predicate} {node branch : Node}
    (h : live? known node = some branch) : sizeOf branch < sizeOf node := by
  unfold live? at h
  split at h
  · cases h; simp +arith
  · rename_i no _
    cases h
    cases no <;> simp +arith
  · cases h; simp +arith
  · cases h; simp +arith
  · cases h

/-- What is left of a node when decided conditionals are replaced by their live branch, again and
again. -/
def settle (node : Node) : Node :=
  match _ : live? known node with
  | none => node
  | some branch => settle branch
termination_by node
decreasing_by exact sizeOf_live?_lt (by assumption)

/-- The nodes met while settling, from the first to the one that is left. -/
def passedThrough (node : Node) : List Node :=
  match _ : live? known node with
  | none => [node]
  | some branch => node :: passedThrough branch
termination_by node
decreasing_by exact sizeOf_live?_lt (by assumption)

/-- The nodes that the predicate is asked about to decide one node. -/
def askedAt (node : Node) : List Node := ((test? node).map (askedTest known)).getD []

/-- The event of replacing a node by its live branch, if it has one. -/
def pruning? (node : Node) : Option Event :=
  if (live? known node).isSome then some (.pruned node.kind (verdict known node).name) else none

/-- The filter that keeps the live branches of decided conditionals. `observe` is shown every node
that the predicate is asked about. -/
def filter {σ : Type} (known : Predicate) (observe : Node → σ → σ) : Filter σ where
  name := "dead-branch"
  step _ node := do
    -- The whole chain of decided conditionals is settled before the next filter sees anything.
    let passed := passedThrough known node
    modify fun trail => { trail with
      state := (passed.flatMap (askedAt known)).foldl (fun state asked => observe asked state)
        trail.state
      events := trail.events ++ passed.filterMap (pruning? known) }
    return if (live? known node).isSome then .replace (settle known node) else .keep node

end DeadBranch

end JsPrune
