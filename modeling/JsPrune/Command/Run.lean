import JsPrune.Command.Process

/-!
# One run of the command

What the command does with files and streams, over whatever they are: `Surroundings` is all it needs
of them, so a run is the same in memory and on a machine.

Input has to be UTF-8. Output ends with a line feed, one is added if need be. Nothing is written
unless everything before went well.
-/

namespace JsPrune

/-- Why reading or writing failed. -/
inductive IoFailure where
  | notFound
  | isDirectory
  | notDirectory
  /-- What was read is no text. -/
  | notUtf8
  /-- Anything else, in the words of the system. -/
  | other (message : String)
deriving DecidableEq

namespace IoFailure

/-- The wording of a failure. -/
def message : IoFailure → String
  | notFound => "No such file or directory (os error 2)"
  | isDirectory => "Is a directory (os error 21)"
  | notDirectory => "Not a directory (os error 20)"
  | notUtf8 => "stream did not contain valid UTF-8"
  | other message => message

/-- A failure as an error. -/
def toError (failure : IoFailure) : Error := .ofCause (.io failure.message)

end IoFailure

/-- What a run needs of files and streams. -/
structure Surroundings (m : Type → Type) where
  /-- The contents of a file. -/
  readFile : String → m (Except IoFailure ByteArray)
  /-- All of standard input. -/
  readInput : m (Except IoFailure ByteArray)
  /-- Creates a file or replaces what is in it. -/
  writeFile : String → ByteArray → m (Except IoFailure Unit)
  /-- Writes to standard output. -/
  writeOutput : ByteArray → m (Except IoFailure Unit)

/-- The text that some bytes encode. -/
def decodeText (bytes : ByteArray) : Except IoFailure String :=
  match String.fromUTF8? bytes with
  | some text => .ok text
  | none => .error .notUtf8

/-- The text with a line feed at its end. -/
def endLine (text : String) : String := if text.endsWith "\n" then text else text ++ "\n"

namespace Options

variable {m : Type → Type} [Monad m]

/-- The bytes of the input. -/
def readBytes (options : Options) (around : Surroundings m) : m (Except IoFailure ByteArray) :=
  match options.inputFile? with
  | some path => around.readFile path
  | none => around.readInput

/-- Puts the bytes of the output where they belong. -/
def writeBytes (options : Options) (around : Surroundings m) (bytes : ByteArray) :
    m (Except IoFailure Unit) :=
  match options.output with
  | some path => around.writeFile path bytes
  | none => around.writeOutput bytes

/-- Reads, processes and writes. The errors of processing name the input; those of reading and
writing speak for themselves. The events come with the result. -/
def run (options : Options) (around : Surroundings m) : m (Except Error Unit × Array Event) := do
  let first := #[Event.reading options.inputName]
  match (← options.readBytes around).bind decodeText with
  | .error failure => return (.error failure.toError, first)
  | .ok input =>
    let (result, trail) := ((options.process input).run.run (Trail.start ())).run
    let events := first ++ trail.events
    match result with
    | .error error => return (.error (error.withSource options.inputName), events)
    | .ok output =>
      let written ← options.writeBytes around (endLine output).toUTF8
      return (written.mapError IoFailure.toError, events)

end Options

end JsPrune
