import JsPrune.Command.Options
import JsPrune.Json.Reader
import JsPrune.Node.Json
import JsPrune.Node.Visit
import JsPrune.Parser.Grammar

/-!
# From input text to output text

The whole job on a text: read a tree, prune it, and write it as a program or as JSON.
-/

namespace JsPrune.Options

/-- The complaint about a text that spells no tree. -/
def unreadable : Error := .ofCause (.serialization "the text is not the JSON form of a tree")

/-- The tree that the input text stands for. -/
def readTree (options : Options) (input : String) : Except Error Node :=
  if options.fromTree then
    match (Json.read? input).bind Node.ofJson? with
    | some tree => .ok tree
    | none => .error unreadable
  else parse input

/-- The filters that the settings ask for. -/
def filters {σ : Type} (options : Options) : List (Filter σ) :=
  if options.prune then [options.features.filter] else []

/-- The text that is written for a tree. A tree of any depth can be written as JSON. -/
def write {σ : Type} (options : Options) (tree : Node) : Walk σ String :=
  match options.emit with
  | .program => options.generation.generate tree
  | .tree => return Json.write options.spacing 0 (tree.toJson Node.plainNumeral)

/-- The output text for an input text. Pruning never deepens a tree, so a walk of `maxDepth` levels
goes all the way down. -/
def process {σ : Type} (options : Options) (input : String) : Walk σ String := do
  let tree ← Walk.ofExcept (options.readTree input)
  let pruned ← Filter.transform maxDepth options.filters tree
  Walk.report (.transformed pruned.census.total)
  options.write pruned

end JsPrune.Options
