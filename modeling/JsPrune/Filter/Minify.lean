import JsPrune.Filter.Walk

/-!
# Dropping what does nothing

The minifying filter removes lone semicolons and empty blocks. It looks at a node after its children
have been dealt with, so a block that held nothing but empty blocks goes too. Where a statement is
required a lone semicolon stays.
-/

namespace JsPrune.Minify

/-- Whether a statement does nothing. -/
def isDroppable : Node → Bool
  | .empty => true
  | .body .block [] => true
  | _ => false

/-- Removes a node that does nothing. -/
def drop : Outcome → Outcome
  | .node node => if isDroppable node then .removed else .node node
  | .removed => .removed

/-- The minifying filter. -/
def filter {σ : Type} : Filter σ where
  name := "minify"
  step _ node := pure (.keepThen node drop)

/-- The minified tree. A tree with nothing in it is a lone semicolon. -/
def minify {σ : Type} (tree : Node) : Walk σ Node := do
  return (← Filter.walk maxDepth [filter] tree).toOption.getD .empty

end JsPrune.Minify
