import JsPrune.Text.Blank

/-!
# Errors

An `Error` is a cause together with what is known about where it arose: the name of the source, and
the path of `Kind.field` frames from the node at fault outwards to the root. Frames are added while
an error travels up the tree, so the innermost comes first.

`Error.message` is the one-line text, `Error.report` the text for a terminal, where a parse error
also shows the offending line and a caret under the column.
-/

namespace JsPrune

/-- Where an error arose. -/
structure Context where
  /-- Name of the source text, when known. -/
  source : Option String
  /-- `Kind.field` frames, innermost first. -/
  frames : List String
deriving DecidableEq

namespace Context

/-- A context that knows nothing yet. -/
def unknown : Context := ⟨none, []⟩

/-- The source on the first line, then one indented line per frame. -/
def render (context : Context) : String :=
  let place := match context.source with
    | some name => "at " ++ name
    | none => ""
  if context.frames.isEmpty then place
  else place ++ "\n" ++ String.join (context.frames.map fun frame => "  in " ++ frame ++ "\n")

end Context

/-- What went wrong. -/
inductive Cause where
  /-- The text is not a program; the line and column count from one, `excerpt` is the line. -/
  | parse (message : String) (line column : Nat) (excerpt : String)
  /-- A field of a node holds what its kind does not allow. -/
  | structural (node field message : String)
  /-- A filter gave up. -/
  | filter (message : String)
  /-- Reading or writing failed. -/
  | io (message : String)
  /-- A tree could not be read from its interchange form. -/
  | serialization (message : String)
  /-- A condition that the library itself should rule out. -/
  | internal (message : String)
deriving DecidableEq

/-- The one-line wording of a cause. -/
def Cause.message : Cause → String
  | .parse message line column _ =>
    "parse error at " ++ toString line ++ ":" ++ toString column ++ ": " ++ message
  | .structural node field message =>
    "structural error in " ++ node ++ "." ++ field ++ ": " ++ message
  | .filter message => "filter error: " ++ message
  | .io message => "io error: " ++ message
  | .serialization message => "serialization error: " ++ message
  | .internal message => "internal error: " ++ message

/-- A cause and, once something is known about it, the place. -/
structure Error where
  /-- What went wrong. -/
  cause : Cause
  /-- Where it arose. -/
  context : Option Context
deriving DecidableEq

namespace Error

/-- An error about whose place nothing is known. -/
def ofCause (cause : Cause) : Error := ⟨cause, none⟩

/-- A failing filter. -/
def filter (message : String) : Error := ofCause (.filter message)

/-- A misplaced node. -/
def structural (node field message : String) : Error := ofCause (.structural node field message)

/-- Whether the text was at fault. -/
def isParse (error : Error) : Bool := match error.cause with
  | .parse .. => true
  | _ => false

/-- Whether a tree was at fault. -/
def isStructural (error : Error) : Bool := match error.cause with
  | .structural .. => true
  | _ => false

/-- The same error, seen from one level further out. -/
def withFrame (error : Error) (frame : String) : Error :=
  let context := error.context.getD .unknown
  { error with context := some { context with frames := context.frames ++ [frame] } }

/-- The same error, with its source named. -/
def withSource (error : Error) (name : String) : Error :=
  let context := error.context.getD .unknown
  { error with context := some { context with source := some name } }

/-- The one-line wording. -/
def message (error : Error) : String := error.cause.message

/-- The wording for a terminal: the message, for a parse error the line with a caret under the
column, then the context. White space at the end is dropped. -/
def report (error : Error) : String :=
  let excerpt := match error.cause with
    | .parse _ _ column excerpt =>
      "\n  " ++ excerpt ++ "\n  " ++ String.ofList (List.replicate (column - 1) ' ') ++ "^"
    | _ => ""
  let place := match error.context with
    | some context => "\n" ++ context.render
    | none => ""
  Text.trimEnd (error.message ++ excerpt ++ place)

end Error

end JsPrune
