import JsPrune.Error
import JsPrune.Node.Kind

/-!
# The trail of a traversal

What a traversal leaves behind besides its result: the events it reports, in order, the number of
nodes it has come to, and whatever state the caller's filters keep. The trail survives an error.
-/

namespace JsPrune

/-- How much an event matters. -/
inductive Severity where
  | trace | debug | info
deriving DecidableEq

/-- The usual name of a severity. -/
def Severity.name : Severity → String
  | trace => "TRACE"
  | debug => "DEBUG"
  | info => "INFO"

/-- Something worth reporting. -/
inductive Event where
  /-- There was no filter to apply. -/
  | unchanged
  /-- A traversal is about to start. -/
  | transforming (filters : Nat) (root : Kind)
  /-- A traversal came to its end. -/
  | walked (filters nodes : Nat)
  /-- A filter put another node in place of the one it saw. -/
  | replaced (filter : String) (kind : Kind)
  /-- The test of a branch was decided. -/
  | pruned (kind : Kind) (verdict : String)
  /-- A tree is about to be printed. -/
  | generating (minify beautify : Bool)
  /-- The tree after all filters. -/
  | transformed (nodes : Nat)
  /-- A source is about to be read. -/
  | reading (input : String)
deriving DecidableEq

namespace Event

/-- How much the event matters. -/
def severity : Event → Severity
  | replaced _ _ => .trace
  | pruned _ _ => .trace
  | reading _ => .info
  | _ => .debug

/-- What happened, in words. -/
def message : Event → String
  | unchanged => "no filters, tree unchanged"
  | transforming _ _ => "transform"
  | walked _ _ => "walk finished"
  | replaced _ _ => "filter replaced node"
  | pruned _ _ => "pruned branch"
  | generating _ _ => "generate"
  | transformed _ => "transformed tree"
  | reading _ => "reading"

/-- The particulars, by name. -/
def fields : Event → List (String × String)
  | unchanged => []
  | transforming filters root => [("filters", toString filters), ("root", root.name)]
  | walked filters nodes => [("filters", toString filters), ("nodes", toString nodes)]
  | replaced filter kind => [("filter", filter), ("kind", kind.name)]
  | pruned kind verdict => [("kind", kind.name), ("verdict", verdict)]
  | generating minify beautify =>
    [("minify", toString minify), ("beautify", toString beautify)]
  | transformed nodes => [("nodes", toString nodes)]
  | reading input => [("input", input)]

end Event

/-- What a traversal leaves behind. -/
structure Trail (σ : Type) where
  /-- The state of the caller's filters. -/
  state : σ
  /-- Events so far, oldest first. -/
  events : Array Event
  /-- Nodes that the present traversal has come to. -/
  visited : Nat
  /-- Whether a traversal stopped because it ran out of levels. -/
  exhausted : Bool

/-- A trail with nothing on it. -/
def Trail.start {σ : Type} (state : σ) : Trail σ := ⟨state, #[], 0, false⟩

/-- An effect on the trail. -/
abbrev TrailM (σ : Type) := StateM (Trail σ)

/-- A computation that can fail; the trail is kept when it does. -/
abbrev Walk (σ : Type) := ExceptT Error (TrailM σ)

namespace TrailM

variable {σ : Type}

/-- Reports an event. -/
def report (event : Event) : TrailM σ Unit :=
  modify fun trail => { trail with events := trail.events.push event }

/-- Changes the state of the filters. -/
def update (change : σ → σ) : TrailM σ Unit :=
  modify fun trail => { trail with state := change trail.state }

end TrailM

/-- Reports an event. -/
def Walk.report {σ : Type} (event : Event) : Walk σ Unit := ExceptT.lift (TrailM.report event)

/-- A result that is already known. -/
def Walk.ofExcept {σ α : Type} (result : Except Error α) : Walk σ α := ExceptT.mk (pure result)

end JsPrune
