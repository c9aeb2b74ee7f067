import JsPrune.Command.Options
import JsPrune.Text.Word

/-!
# Reading command line arguments

An argument is the name of an option, the value of the option before it, or the input. Names come in
a long form, `--minify`, and some in a short one; short names can be put together, `-bm`. A value is
the next argument or is attached, `--guard=has`, `-o=out.js`, `-oout.js`; the next argument is never
taken for a value if it starts like an option. After a lone `--` all arguments are inputs.

A value is looked at only when the argument after it has been recognised, or at the end. So an
argument that nobody knows is reported before a bad value to its left.
-/

namespace JsPrune

open JsPrune.Text

/-- Why the arguments give no options to run with. -/
inductive UsageError where
  /-- No option has this name, or there is a second input. -/
  | unknownArgument
  /-- A value is missing, is empty where it must not be, or is not among the choices. -/
  | invalidValue
  /-- A value is not a number of 64 bits. -/
  | malformedNumber
  /-- An option that can be given once is given again. -/
  | repeated
  /-- A value is attached to an option that takes none. -/
  | unexpectedValue
  /-- The help text is asked for. -/
  | help
  /-- The version is asked for. -/
  | version
deriving DecidableEq

namespace Command

/-- An option that takes no value. -/
inductive Switch where
  | strict | noPrune | minify | beautify | fromTree | noColor | help | version
deriving DecidableEq

/-- An option that takes a value. -/
inductive Setting where
  | output | enable | disable | guard | indent | emit | logLevel
deriving DecidableEq

/-- Something that can be asked for by name. -/
inductive Request where
  | switch (switch : Switch)
  | setting (setting : Setting)
deriving DecidableEq

namespace Request

/-- All options. -/
def all : List Request :=
  [switch .strict, switch .noPrune, switch .minify, switch .beautify, switch .fromTree,
    switch .noColor, switch .help, switch .version, setting .output, setting .enable,
    setting .disable, setting .guard, setting .indent, setting .emit, setting .logLevel]

/-- The long name, without its dashes. -/
def long : Request → String
  | switch .strict => "strict"
  | switch .noPrune => "no-prune"
  | switch .minify => "minify"
  | switch .beautify => "beautify"
  | switch .fromTree => "from-ast"
  | switch .noColor => "no-color"
  | switch .help => "help"
  | switch .version => "version"
  | setting .output => "output"
  | setting .enable => "enable"
  | setting .disable => "disable"
  | setting .guard => "guard"
  | setting .indent => "indent"
  | setting .emit => "emit"
  | setting .logLevel => "log-level"

/-- The short name, if there is one. -/
def short? : Request → Option Char
  | switch .minify => some 'm'
  | switch .beautify => some 'b'
  | switch .help => some 'h'
  | switch .version => some 'V'
  | setting .output => some 'o'
  | setting .enable => some 'e'
  | setting .disable => some 'd'
  | _ => none

/-- The option with this long name. Names can not be shortened. -/
def ofLong? (name : String) : Option Request := all.find? fun request => request.long == name

/-- The option with this short name. -/
def ofShort? (name : Char) : Option Request := all.find? fun request => request.short? == some name

end Request

/-- The settings with a switch turned on. -/
def Switch.turnOn (options : Options) : Switch → Except UsageError Options
  | strict => .ok { options with strict := true }
  | noPrune => .ok { options with prune := false }
  | minify => .ok { options with minify := true }
  | beautify => .ok { options with beautify := true }
  | fromTree => .ok { options with fromTree := true }
  | noColor => .ok { options with colors := false }
  | help => .error .help
  | version => .error .version

/-- A number of at most 64 bits, with or without a plus sign. -/
def width? (text : List Char) : Option Nat :=
  let digits := match text with
    | '+' :: rest => rest
    | _ => text
  if digits.isEmpty || !digits.all isDigit || UInt64.size ≤ ofDigits digits then none
  else some (ofDigits digits)

/-- The name of a file, which has at least one character. -/
def path? (text : String) : Except UsageError String :=
  if text.isEmpty then .error .invalidValue else .ok text

namespace Setting

/-- Whether further values are added to the first. -/
def isRepeatable : Setting → Bool
  | enable => true
  | disable => true
  | _ => false

/-- The settings with a value stored. Features are separated by commas. -/
def store (options : Options) (value : String) : Setting → Except UsageError Options
  | output => do return { options with output := some (← path? value) }
  | enable => .ok { options with enabled := options.enabled ++ value.splitOn "," }
  | disable => .ok { options with disabled := options.disabled ++ value.splitOn "," }
  | guard => .ok { options with guard := value }
  | indent => match width? value.toList with
    | some width => .ok { options with indentWidth := width }
    | none => .error .malformedNumber
  | emit =>
    if value == "js" then .ok { options with emit := .program }
    else if value == "ast" then .ok { options with emit := .tree }
    else .error .invalidValue
  | logLevel => .ok { options with logLevel := some value }

end Setting

/-- What has been read and not been looked at. -/
inductive Pending where
  | nothing
  /-- A setting with its value, or still without. -/
  | value (setting : Setting) (text : Option String)
  /-- The input. -/
  | input (path : String)
deriving DecidableEq

/-- How far the arguments have been read. -/
structure Reading where
  /-- The settings so far. -/
  options : Options
  /-- The options that can not be given again. -/
  given : List Request
  /-- What is left to look at. -/
  pending : Pending
  /-- All further arguments are inputs. -/
  verbatim : Bool

namespace Reading

/-- Nothing has been read. -/
def start : Reading := ⟨.standard, [], .nothing, false⟩

/-- Stores the value of a setting. -/
def store (reading : Reading) (setting : Setting) (value : Option String) :
    Except UsageError Reading :=
  match value with
  | none => .error .invalidValue
  | some value =>
    if reading.given.contains (.setting setting) then .error .repeated
    else do
      let options ← setting.store reading.options value
      let given := if setting.isRepeatable then reading.given else .setting setting :: reading.given
      return { reading with options, given }

/-- Looks at what is pending. -/
def settle (reading : Reading) : Except UsageError Reading :=
  let settled := { reading with pending := .nothing }
  match reading.pending with
  | .nothing => .ok settled
  | .value setting text => settled.store setting text
  | .input path => do
    return { settled with options := { reading.options with input := some (← path? path) } }

/-- Turns a switch on. -/
def turnOn (reading : Reading) (switch : Switch) : Except UsageError Reading := do
  let reading ← reading.settle
  if reading.given.contains (.switch switch) then throw .repeated
  let options ← switch.turnOn reading.options
  return { reading with options, given := .switch switch :: reading.given }

/-- A setting whose value is attached, or is to come. -/
def set (reading : Reading) (setting : Setting) (attached : Option String) :
    Except UsageError Reading := do
  let reading ← reading.settle
  match attached with
  | some value => reading.store setting (some value)
  | none => return { reading with pending := .value setting none }

/-- A long name, with what is attached to it. -/
def takeLong (reading : Reading) (text : List Char) : Except UsageError Reading :=
  let attached := match text.dropWhile (· != '=') with
    | [] => none
    | _ :: value => some (String.ofList value)
  match Request.ofLong? (String.ofList (text.takeWhile (· != '='))), attached with
  | none, _ => .error .unknownArgument
  | some (.switch _), some _ => .error .unexpectedValue
  | some (.switch switch), none => reading.turnOn switch
  | some (.setting setting), attached => reading.set setting attached

/-- What stands behind the short name of a setting is its value, with or without an equals sign. -/
def attachedShort : List Char → Option String
  | [] => none
  | '=' :: value => some (String.ofList value)
  | value => some (String.ofList value)

/-- Short names in a row. A setting takes all that follows. -/
def takeShort (reading : Reading) : List Char → Except UsageError Reading
  | [] => .ok reading
  | name :: rest =>
    match Request.ofShort? name with
    | none => .error .unknownArgument
    | some (.switch switch) => do takeShort (← reading.turnOn switch) rest
    | some (.setting setting) => reading.set setting (attachedShort rest)

/-- An input. There can be only one. -/
def takeInput (reading : Reading) (path : String) : Except UsageError Reading := do
  let second := reading.options.input.isSome || match reading.pending with
    | .input _ => true
    | _ => false
  -- A second input is refused before anything that is pending is looked at.
  if second then throw .unknownArgument
  return { ← reading.settle with pending := .input path }

/-- One argument. A lone dash is not the name of an option. -/
def take (reading : Reading) (argument : String) : Except UsageError Reading :=
  if reading.verbatim then reading.takeInput argument
  else
    match argument.toList with
    | ['-', '-'] => .ok { reading with verbatim := true }
    | '-' :: '-' :: text => reading.takeLong text
    | '-' :: name :: rest => reading.takeShort (name :: rest)
    -- Anything else is the value that an option waits for, or else an input.
    | _ =>
      match reading.pending with
      | .value setting none => .ok { reading with pending := .value setting (some argument) }
      | _ => reading.takeInput argument

end Reading

end Command

/-- The settings that the arguments ask for. -/
def Options.ofArguments (arguments : List String) : Except UsageError Options := do
  let reading ← arguments.foldlM Command.Reading.take .start
  return (← reading.settle).options

end JsPrune
