import JsPrune.Json.Value
import JsPrune.Node.Parts

/-!
# Trees as JSON

A tree is an object with the name of its kind under `kind` and its contents under `fields`: the
value of a literal, or an object with one entry per field of the recipe. Kinds without contents have
no `fields`.

Reading is lenient in what goes beyond that. Entries may come in any order, and unknown ones are
skipped, whatever they hold. An object may be given as the array of its entries' values, an operator
or the kind in an object as an object with its name for a key and `null` for the value. It is
strict in the rest: an entry given twice, a missing entry that is not optional, or a value of the
wrong sort makes the text unreadable, and so do more than `maxBrackets` brackets inside each other.

Contents that come before their kind are held until it is known. What to skip is not known then, so
nothing in them may be unreadable. In what has been held two more spellings are read: an empty
object in place of the `null` beside a name, and in a tree given as an array the number of its kind.

How number literals are represented is a parameter of both directions.
-/

namespace JsPrune

open JsPrune.Json (Value)

/-- How deep brackets may be nested in a tree's text. -/
def maxBrackets : Nat := 127

/-! ## Writing -/

/-- A datum as a value. -/
def Datum.toJson : Datum → Value
  | text value => .text value
  | optionalText none => .null
  | optionalText (some value) => .text value
  | texts values => .array (values.map .text)
  | unaryOp operator => .text operator.name
  | binaryOp operator => .text operator.name

namespace Node

/-- The value of a literal; other nodes have none. -/
def scalarJson? (numeral : Binary64 → Value) : Node → Option Value
  | identifier name => some (.text name)
  | string value => some (.text value)
  | number value => some (numeral value)
  | boolean value => some (.bool value)
  | _ => none

/-- A tree as a value. -/
def toJson (numeral : Binary64 → Value) (node : Node) : Value :=
  let kind := ("kind", Value.text node.kind.name)
  match node.kind.recipe? with
  | none =>
    match node.scalarJson? numeral with
    | none => .record [kind]
    | some scalar => .record [kind, ("fields", scalar)]
  | some fields =>
    let values := node.parts.attach.map fun
      | ⟨.literal datum, _⟩ => datum.toJson
      | ⟨.child child, _⟩ => toJson numeral child
      | ⟨.optional none, _⟩ => .null
      | ⟨.optional (some child), _⟩ => toJson numeral child
      | ⟨.sequence children, _⟩ =>
        .array (children.attach.map fun ⟨child, _⟩ => toJson numeral child)
    .record [kind, ("fields", .record ((fields.map Field.name).zip values))]
termination_by node
decreasing_by
  all_goals
    apply sizeOf_lt_of_mem_children
    apply mem_children_of_mem_nodes (by assumption)
    simp [Part.nodes, *]

/-! ## Reading -/

/-- Where a value stands that is to be read. -/
structure Scope where
  /-- How many brackets may still be opened. -/
  room : Nat
  /-- Whether the value was held until the kind around it was known. -/
  held : Bool
deriving DecidableEq

/-- One bracket further in, if there is room for it. -/
def Scope.enter? (scope : Scope) : Option Scope :=
  match scope.room with
  | 0 => none
  | room + 1 => some { scope with room }

/-- A name given as a string, or as the only key of an object that holds `null`; in what has been
held, an empty object does for the `null`. -/
def nameOf? (scope : Scope) : Value → Option String
  | .string name => name
  | .object [(name, .null)] => scope.enter?.bind fun _ => name
  | .object [(name, .object [])] => if scope.held then name else none
  | _ => none

/-- The kind of a tree given as an array: its name or, in what has been held, its number. -/
def kindOf? (scope : Scope) : Value → Option Kind
  | .string name => name.bind Kind.ofName?
  | .natural index => if scope.held then Kind.all[index]? else none
  | _ => none

/-- The entries of an object, all of whose keys must denote something. -/
def entriesOf? (entries : List (Option String × Value)) : Option (List (String × Value)) :=
  entries.mapM fun (key, value) => key.map fun name => (name, value)

/-- The one entry with this key: `some none` if there is none, nothing if there are several. -/
def entryOf? (key : String) (entries : List (String × Value)) : Option (Option Value) :=
  match entries.filter fun entry => entry.1 == key with
  | [] => some none
  | [(_, value)] => some (some value)
  | _ => none

/-- Kind and contents of a tree, and where the contents stand. -/
def header? (scope : Scope) : Value → Option (Kind × Option Value × Scope)
  | .object entries => do
    let entries ← entriesOf? entries
    let name ← (← entryOf? "kind" entries).bind (nameOf? scope)
    let kind ← Kind.ofName? name
    let fields ← entryOf? "fields" entries
    -- Contents that come before the kind are held whole, so all of them must be readable.
    let first := entries.find? fun entry => entry.1 == "kind" || entry.1 == "fields"
    let early := first.any fun entry => entry.1 == "fields"
    if early && !(fields.all (Value.isReadable scope.room)) then none
    else return (kind, fields, { scope with held := scope.held || early })
  | .array [kind, fields] => do return (← kindOf? scope kind, some fields, scope)
  | _ => none

/-- A list of strings. -/
def textsOf? (scope : Scope) : Value → Option (List String)
  | .array items => do
    let _ ← scope.enter?
    items.mapM fun
      | .string text => text
      | _ => none
  | _ => none

section
variable (numeral? : Value → Option Binary64) (inner : Scope → Value → Option Node)

/-- The contents of a field with a given role. -/
def partOf? (scope : Scope) : Role → Value → Option Part
  | .literal .text, .string text => text.map fun value => .literal (.text value)
  | .literal .optionalText, .null => some (.literal (.optionalText none))
  | .literal .optionalText, .string text =>
    text.map fun value => .literal (.optionalText (some value))
  | .literal .texts, value => (textsOf? scope value).map fun texts => .literal (.texts texts)
  | .literal .unaryOp, value =>
    ((nameOf? scope value).bind UnaryOp.ofName?).map fun operator => .literal (.unaryOp operator)
  | .literal .binaryOp, value =>
    ((nameOf? scope value).bind BinaryOp.ofName?).map fun operator => .literal (.binaryOp operator)
  | .child _, value => (inner scope value).map .child
  | .optional _, .null => some (.optional none)
  | .optional _, value => (inner scope value).map fun node => .optional (some node)
  | .sequence _, .array items => do
    let scope ← scope.enter?
    return .sequence (← items.mapM (inner scope))
  | _, _ => none

/-- What a field holds that is not given at all. -/
def absentPart? : Role → Option Part
  | .literal .optionalText => some (.literal (.optionalText none))
  | .optional _ => some (.optional none)
  | _ => none

/-- The contents of all fields, from an object or from an array in the order of the recipe. -/
def partsOf? (scope : Scope) (fields : List Field) : Value → Option (List Part)
  | .object entries => do
    let scope ← scope.enter?
    let entries ← entriesOf? entries
    fields.mapM fun field => do
      match ← entryOf? field.name entries with
      | none => absentPart? field.role
      | some value => partOf? inner scope field.role value
  | .array items => do
    let scope ← scope.enter?
    if items.length = fields.length then
      (fields.zip items).mapM fun (field, value) => partOf? inner scope field.role value
    else none
  | _ => none

/-- A node without fields. -/
def leafOf? : Kind → Option Value → Option Node
  | .identifier, some (.string name) => name.map .identifier
  | .string, some (.string value) => value.map .string
  | .boolean, some (.bool value) => some (.boolean value)
  | .number, some value => (numeral? value).map .number
  | .emptyStatement, none => some .empty
  | .emptyStatement, some .null => some .empty
  | .debugger, none => some .debugger
  | .debugger, some .null => some .debugger
  | .null, none => some .null
  | .null, some .null => some .null
  | .this, none => some .this
  | .this, some .null => some .this
  | _, _ => none

/-- A node, whose children `inner` reads. -/
def nodeOf? (scope : Scope) (value : Value) : Option Node := do
  let (kind, contents, inside) ← header? (← scope.enter?) value
  match kind.recipe? with
  | none => leafOf? numeral? kind contents
  | some fields => ofParts? kind (← partsOf? inner inside fields (← contents))

end

/-- The tree that a value stands for, at most `levels` levels deep. -/
def ofJsonWithin? (numeral? : Value → Option Binary64) : Nat → Scope → Value → Option Node
  | 0, _, _ => none
  | levels + 1, scope, value => nodeOf? numeral? (ofJsonWithin? numeral? levels) scope value

/-- A number literal as a plain number. -/
def plainNumeral (value : Binary64) : Value := .number (some value)

/-- A plain number as a number literal. -/
def plainNumeral? : Value → Option Binary64
  | .natural value => some (.ofRatio value 1)
  | .number value => value
  | _ => none

/-- The tree that a value stands for. Each level of the tree takes a bracket, so the brackets bound
the levels. -/
def ofJson? (value : Value) : Option Node :=
  ofJsonWithin? plainNumeral? maxBrackets ⟨maxBrackets, false⟩ value

end Node

end JsPrune
