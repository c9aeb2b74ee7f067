import JsPrune.Filter.Trail
import JsPrune.Node.Depth
import JsPrune.Node.Descent

/-!
# Filters and the traversal they drive

A traversal takes a tree node by node, parents first. Every node goes through a chain of filters. A
filter sees the node and answers with a `Move`: it settles the node there and then, or it lets the
rest of the chain go on, with the node or with another in its place, and may still change what comes
back. Behind the last filter stands the descent into the children, each of which starts at the first
filter again.

A move carries the continuation at most once, so a filter can not run the rest of the chain twice.

A filter may put larger trees in place of smaller ones without end. The traversal is therefore given
a number of levels it may go down; a filter that never deepens a tree needs no more than the tree
has. Running out of levels is marked on the trail, apart from all other errors.

Notes on the form, next to a traversal that calls itself without a bound:
- `levels` is the argument that `walkNode` recurs on. It is not the limit on the depth of a tree:
  that is checked by `Node.checkDepth` before any filter runs, and a filter that deepens the tree
  is let past it. A traversal that would not end has no result to speak of; here it runs out of
  levels, and `exhausted` tells the runs that the bound cut short from those that failed.
- A filter does not call the rest of its chain. It answers with a `Move` and says in `after` what it
  makes of the outcome, so going on at most once is a fact about the type.
- The rest of the chain is the tail of the list of filters, not an index into it. How many filters
  come later is all a filter is told of them.
- `visited` starts at zero with each traversal and counts a node when it is entered, before its
  filters see it.
-/

namespace JsPrune

/-- A filter's answer for one node. -/
inductive Move (σ : Type) where
  /-- This is the result. Neither the later filters nor the children see the node. -/
  | settle (result : Except Error Outcome)
  /-- The later filters and then the children go on with `node`, and `after` has the last word.
  `replaced` says that `node` is meant to stand in for the one seen. -/
  | proceed (replaced : Bool) (node : Node)
      (after : Except Error Outcome → TrailM σ (Except Error Outcome))

namespace Move

variable {σ : Type}

/-- Goes on with the node itself. -/
def keep (node : Node) : Move σ := proceed false node pure

/-- Goes on with another node. -/
def replace (node : Node) : Move σ := proceed true node pure

/-- Goes on, and then answers with what `change` makes of a success. -/
def keepThen (node : Node) (change : Outcome → Outcome) : Move σ :=
  proceed false node fun result => pure (result.map change)

end Move

/-- A named rule for changing trees, over a state of type `σ`. -/
structure Filter (σ : Type) where
  /-- Its name in events. -/
  name : String
  /-- Its answer for a node, given how many filters come after it. -/
  step : Nat → Node → TrailM σ (Move σ)

namespace Filter

variable {σ : Type}

/-- The error of a traversal that has no level left to go down to. -/
def outOfLevels : Error := .ofCause (.internal "traversal ran out of levels")

/-- Sends a node through a chain of filters and then, with `walk`, into its children. -/
def runChain (walk : Node → Walk σ Outcome) : List (Filter σ) → Node → Walk σ Outcome
  | [], node => Outcome.node <$> node.descend walk
  | filter :: later, node => do
    match ← filter.step later.length node with
    | .settle result => Walk.ofExcept result
    | .proceed replaced next after =>
      if replaced then Walk.report (.replaced filter.name next.kind)
      ExceptT.mk (do after (← (runChain walk later next).run))

/-- Walks a node and what is below it, at most `levels` levels down. -/
def walkNode (filters : List (Filter σ)) : Nat → Node → Walk σ Outcome
  | 0, _ => do
    modify fun trail => { trail with exhausted := true }
    throw outOfLevels
  | levels + 1, node => do
    modify fun trail => { trail with visited := trail.visited + 1 }
    runChain (fun child => walkNode filters levels child) filters node

/-- Walks a tree of at most `maxDepth` levels. No filter sees a deeper one. -/
def walk (levels : Nat) (filters : List (Filter σ)) (tree : Node) : Walk σ Outcome := do
  Walk.ofExcept tree.checkDepth
  modify fun trail => { trail with visited := 0 }
  let outcome ← walkNode filters levels tree
  Walk.report (.walked filters.length (← get).visited)
  return outcome

/-- Applies filters to a tree. Without filters the tree stays as it is, whatever its depth; a
removed root leaves a lone semicolon. -/
def transform (levels : Nat) (filters : List (Filter σ)) (tree : Node) : Walk σ Node := do
  if filters.isEmpty then
    Walk.report .unchanged
    return tree
  else
    Walk.report (.transforming filters.length tree.kind)
    return (← walk levels filters tree).toOption.getD .empty

end Filter

end JsPrune
