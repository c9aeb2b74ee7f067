import JsPrune.Command.Arguments
import JsPrune.Command.Run

/-!
# The command line program

Everything is decided elsewhere; here the files and streams of the machine are handed to
`Options.run`, and its result becomes output and an exit code.
-/

namespace JsPrune.Main

/-- The version that is told. -/
def versionText : String := "jsprune 0.1.0"

/-- What can be asked for. -/
def helpText : String := "\n".intercalate
  ["Strip feature-guarded dead branches from JavaScript",
    "",
    "Usage: jsprune [OPTIONS] [INPUT]",
    "",
    "  -o, --output <FILE>      Output file; standard output when omitted",
    "  -e, --enable <NAMES>     Features to treat as present",
    "  -d, --disable <NAMES>    Features to treat as absent",
    "      --strict             Treat all other features as absent",
    "      --guard <NAME>       Name of the guard function [default: has]",
    "      --no-prune           Keep dead branches",
    "  -m, --minify             Drop empty statements and blocks",
    "  -b, --beautify           Indented output, one statement per line",
    "      --indent <N>         Spaces per level of indentation [default: 4]",
    "      --emit <js|ast>      Output format [default: js]",
    "      --from-ast           Read the input as a JSON tree",
    "      --log-level <LEVEL>  Show events: info, debug or trace",
    "      --no-color           No colours on standard error",
    "  -h, --help               Print help",
    "  -V, --version            Print version"]

/-- The wording of a usage error. -/
def usageText : UsageError → String
  | .unknownArgument => "unexpected argument"
  | .invalidValue => "invalid or missing value"
  | .malformedNumber => "invalid number"
  | .repeated => "an option was given more than once"
  | .unexpectedValue => "an option that takes no value was given one"
  | .help => helpText
  | .version => versionText

/-- Whether a log level shows events of this severity. -/
def shows (level : String) : Severity → Bool
  | .trace => level == "trace"
  | .debug => level == "trace" || level == "debug"
  | .info => level == "trace" || level == "debug" || level == "info"

/-- One line for an event. -/
def eventLine (event : Event) : String :=
  let fields := event.fields.map fun (name, value) => " " ++ name ++ "=" ++ value
  event.severity.name ++ " " ++ event.message ++ String.join fields

/-- What a failure of the system means. -/
def failureOf : IO.Error → IoFailure
  | .noFileOrDirectory _ _ _ => .notFound
  | .noSuchThing _ _ _ => .notFound
  | .inappropriateType _ _ _ => .isDirectory
  | failure => .other (toString failure)

/-- The result of an action, failures included. -/
def attempt {α : Type} (action : IO α) : IO (Except IoFailure α) := do
  try return .ok (← action)
  catch failure => return .error (failureOf failure)

/-- All that a stream still holds. -/
partial def readAll (stream : IO.FS.Stream) (before : ByteArray) : IO ByteArray := do
  let more ← stream.read 65536
  if more.isEmpty then return before else readAll stream (before ++ more)

/-- The files and streams of the machine. -/
def machine : Surroundings IO where
  readFile path := attempt (IO.FS.readBinFile path)
  readInput := attempt (do readAll (← IO.getStdin) .empty)
  writeFile path bytes := attempt (IO.FS.writeBinFile path bytes)
  writeOutput bytes := attempt (do (← IO.getStdout).write bytes)

end JsPrune.Main

open JsPrune in
/-- Runs the command. The exit code is zero for success, one for a failed run, and two for arguments
that make no sense. -/
def main (arguments : List String) : IO UInt32 := do
  match Options.ofArguments arguments with
  | .error .help => IO.println Main.helpText; return 0
  | .error .version => IO.println Main.versionText; return 0
  | .error reason => IO.eprintln ("error: " ++ Main.usageText reason); return 2
  | .ok options =>
    let (result, events) ← options.run Main.machine
    for event in events do
      if options.logLevel.any fun level => Main.shows level event.severity then
        IO.eprintln (Main.eventLine event)
    match result with
    | .ok _ => return 0
    | .error error =>
      if options.colors then IO.eprintln ("\x1b[31mError: " ++ error.report ++ "\x1b[0m")
      else IO.eprintln ("Error: " ++ error.report)
      return 1
