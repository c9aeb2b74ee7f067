import JsPrune.Filter.FeatureSet
import JsPrune.Filter.Generate
import JsPrune.Json.Writer

/-!
# What the command is asked to do

The settings of one run, and what they say about features and about the text to be written.
-/

namespace JsPrune

/-- What is written. -/
inductive Emit where
  /-- The text of the program. -/
  | program
  /-- Its tree as JSON. -/
  | tree
deriving DecidableEq

/-- The settings of one run. -/
structure Options where
  /-- The file to read; standard input if there is none or it is `-`. -/
  input : Option String
  /-- The file to write; standard output if there is none. -/
  output : Option String
  /-- Features that the build has. -/
  enabled : List String
  /-- Features that the build leaves out. -/
  disabled : List String
  /-- Leave out all features that are not listed. -/
  strict : Bool
  /-- The name of the guard function. -/
  guard : String
  /-- Drop the branches that the features decide. -/
  prune : Bool
  /-- Drop what does nothing. -/
  minify : Bool
  /-- One statement per line, or one item of a tree. -/
  beautify : Bool
  /-- Spaces per level of indentation. -/
  indentWidth : Nat
  /-- What is written. -/
  emit : Emit
  /-- The input is a tree as JSON. -/
  fromTree : Bool
  /-- Which events are shown. -/
  logLevel : Option String
  /-- Events are shown in colour. -/
  colors : Bool
deriving DecidableEq

namespace Options

/-- The settings when nothing is asked for. -/
def standard : Options where
  input := none
  output := none
  enabled := []
  disabled := []
  strict := false
  guard := FeatureSet.defaultGuard
  prune := true
  minify := false
  beautify := false
  indentWidth := 4
  emit := .program
  fromTree := false
  logLevel := none
  colors := true

/-- The features as given; one that is both enabled and disabled is left out. -/
def features (options : Options) : FeatureSet :=
  let listed := ((FeatureSet.empty.withGuard options.guard).enableAll options.enabled).disableAll
    options.disabled
  if options.strict then listed.strict else listed

/-- How the program text is made. The width of indentation counts only if there is any. -/
def generation (options : Options) : Generation where
  minify := options.minify
  layout :=
    if options.beautify then { Layout.beautified with indentWidth := options.indentWidth }
    else .compact

/-- How the text of a tree is spaced. -/
def spacing (options : Options) : Json.Spacing := if options.beautify then .indented else .tight

/-- The file to read, if it is not standard input. -/
def inputFile? (options : Options) : Option String := options.input.filter (· != "-")

/-- What messages call the input. -/
def inputName (options : Options) : String := options.inputFile?.getD "<stdin>"

end Options

end JsPrune
