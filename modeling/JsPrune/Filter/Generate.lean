import JsPrune.Filter.Minify
import JsPrune.Node.Printer

/-!
# From a tree to program text

Printing with the minifying pass before it, if wanted. Trees that are too deep are refused.
-/

namespace JsPrune

/-- How program text is made from a tree. -/
structure Generation where
  /-- Minify first. -/
  minify : Bool
  /-- The layout of the text. -/
  layout : Layout
deriving DecidableEq

namespace Generation

/-- Small, but with all statements. -/
def compact : Generation := ⟨false, .compact⟩

/-- One statement per line. -/
def beautified : Generation := ⟨false, .beautified⟩

/-- Small, without what does nothing. -/
def minified : Generation := ⟨true, .compact⟩

/-- The settings that two flags stand for. -/
def ofFlags (minify beautify : Bool) : Generation :=
  ⟨minify, if beautify then .beautified else .compact⟩

/-- The text of a tree. -/
def generate {σ : Type} (settings : Generation) (tree : Node) : Walk σ String := do
  Walk.report (.generating settings.minify settings.layout.beautify)
  Walk.ofExcept tree.checkDepth
  if settings.minify then return (← Minify.minify tree).print settings.layout
  else return tree.print settings.layout

end Generation

end JsPrune
