import JsPrune.Node.Basic
import JsPrune.Node.Recipe

/-!
# Nodes as lists of parts

`Node.parts` shows a node as the contents of its fields, in the order of its recipe, and
`Node.ofParts?` puts a node of a given kind together again. The two are inverse to each other, so an
operation that treats all kinds alike is written once, over parts.

Main statements: `ofParts?_parts` and `parts_of_ofParts?` say that the two are inverse,
`sizeOf_lt_of_mem_children` that a child is smaller than its parent, which is what recursion over a
tree by its children rests on.
-/

namespace JsPrune

/-- Plain data of a node. -/
inductive Datum where
  | text (value : String)
  | optionalText (value : Option String)
  | texts (values : List String)
  | unaryOp (operator : UnaryOp)
  | binaryOp (operator : BinaryOp)
deriving DecidableEq

/-- The sort of a datum. -/
def Datum.sort : Datum → DataSort
  | text _ => .text
  | optionalText _ => .optionalText
  | texts _ => .texts
  | unaryOp _ => .unaryOp
  | binaryOp _ => .binaryOp

/-- The contents of one field. -/
inductive Part where
  | literal (datum : Datum)
  | child (node : Node)
  | optional (node : Option Node)
  | sequence (nodes : List Node)

namespace Part

/-- The child nodes that the field holds. -/
def nodes : Part → List Node
  | literal _ => []
  | child node => [node]
  | optional node => node.toList
  | sequence nodes => nodes

/-- What a message calls the contents. -/
def describe : Part → String
  | literal _ => "literal"
  | child _ => "child"
  | optional _ => "optional child"
  | sequence _ => "child sequence"

/-- Whether a field of this role holds contents of this shape. -/
def fits : Role → Part → Bool
  | .literal sort, literal datum => datum.sort == sort
  | .child _, child _ => true
  | .optional _, optional _ => true
  | .sequence _, sequence _ => true
  | _, _ => false

end Part

namespace Node

/-- The contents of the fields, in the order of the recipe. -/
def parts : Node → List Part
  | .body _ statements => [.sequence statements]
  | .simple expression => [.child expression]
  | .declaration _ definitions => [.sequence definitions]
  | .varDef name value => [.literal (.text name), .optional value]
  | .ifElse test yes no => [.child test, .child yes, .optional no]
  | .loop _ test inner => [.child test, .child inner]
  | .forLoop init test step inner => [.optional init, .optional test, .optional step, .child inner]
  | .forIn init subject inner => [.child init, .child subject, .child inner]
  | .exit _ value => [.optional value]
  | .jump _ label => [.literal (.optionalText label)]
  | .labeled label inner => [.literal (.text label), .child inner]
  | .switch subject branches => [.child subject, .sequence branches]
  | .case_ test inner => [.child test, .sequence inner]
  | .try_ inner handler finalizer => [.sequence inner, .optional handler, .optional finalizer]
  | .catch_ parameter inner => [.literal (.text parameter), .sequence inner]
  | .lambda _ name parameters inner =>
    [.literal (.optionalText name), .literal (.texts parameters), .sequence inner]
  | .call _ callee arguments => [.child callee, .sequence arguments]
  | .sequence expressions => [.sequence expressions]
  | .dot owner name => [.child owner, .literal (.text name)]
  | .sub owner index => [.child owner, .child index]
  | .unary _ operator operand => [.literal (.unaryOp operator), .child operand]
  | .binary _ left operator right => [.child left, .literal (.binaryOp operator), .child right]
  | .conditional test yes no => [.child test, .child yes, .child no]
  | .array elements => [.sequence elements]
  | .object properties => [.sequence properties]
  | .property key value => [.literal (.text key), .child value]
  | _ => []

/-- The node of a kind with given field contents, if they have the right shape. Leaves, which have
no fields, are not made here. -/
def ofParts? : Kind → List Part → Option Node
  | .toplevel, [.sequence statements] => some (.body .toplevel statements)
  | .block, [.sequence statements] => some (.body .block statements)
  | .default, [.sequence statements] => some (.body .defaultBranch statements)
  | .finally_, [.sequence statements] => some (.body .finallyClause statements)
  | .simpleStatement, [.child expression] => some (.simple expression)
  | .var, [.sequence definitions] => some (.declaration .var definitions)
  | .let_, [.sequence definitions] => some (.declaration .let_ definitions)
  | .const, [.sequence definitions] => some (.declaration .const definitions)
  | .varDef, [.literal (.text name), .optional value] => some (.varDef name value)
  | .if_, [.child test, .child yes, .optional no] => some (.ifElse test yes no)
  | .while_, [.child test, .child inner] => some (.loop .while_ test inner)
  | .do_, [.child test, .child inner] => some (.loop .do_ test inner)
  | .for_, [.optional init, .optional test, .optional step, .child inner] =>
    some (.forLoop init test step inner)
  | .forIn, [.child init, .child subject, .child inner] => some (.forIn init subject inner)
  | .return_, [.optional value] => some (.exit .return_ value)
  | .throw, [.optional value] => some (.exit .throw value)
  | .break_, [.literal (.optionalText label)] => some (.jump .break_ label)
  | .continue_, [.literal (.optionalText label)] => some (.jump .continue_ label)
  | .labeled, [.literal (.text label), .child inner] => some (.labeled label inner)
  | .switch, [.child subject, .sequence branches] => some (.switch subject branches)
  | .case, [.child test, .sequence inner] => some (.case_ test inner)
  | .try_, [.sequence inner, .optional handler, .optional finalizer] =>
    some (.try_ inner handler finalizer)
  | .catch_, [.literal (.text parameter), .sequence inner] => some (.catch_ parameter inner)
  | .defun, [.literal (.optionalText name), .literal (.texts parameters), .sequence inner] =>
    some (.lambda .declaration name parameters inner)
  | .function, [.literal (.optionalText name), .literal (.texts parameters), .sequence inner] =>
    some (.lambda .expression name parameters inner)
  | .call, [.child callee, .sequence arguments] => some (.call .plain callee arguments)
  | .new, [.child callee, .sequence arguments] => some (.call .new callee arguments)
  | .sequence, [.sequence expressions] => some (.sequence expressions)
  | .dot, [.child owner, .literal (.text name)] => some (.dot owner name)
  | .sub, [.child owner, .child index] => some (.sub owner index)
  | .unaryPrefix, [.literal (.unaryOp operator), .child operand] =>
    some (.unary .before operator operand)
  | .unaryPostfix, [.literal (.unaryOp operator), .child operand] =>
    some (.unary .after operator operand)
  | .binary, [.child left, .literal (.binaryOp operator), .child right] =>
    some (.binary .combine left operator right)
  | .assign, [.child left, .literal (.binaryOp operator), .child right] =>
    some (.binary .assign left operator right)
  | .conditional, [.child test, .child yes, .child no] => some (.conditional test yes no)
  | .array, [.sequence elements] => some (.array elements)
  | .object, [.sequence properties] => some (.object properties)
  | .objectProperty, [.literal (.text key), .child value] => some (.property key value)
  | _, _ => none

/-- The same node with other field contents. Contents of the wrong shape change nothing. -/
def withParts (node : Node) (parts : List Part) : Node := (ofParts? node.kind parts).getD node

/-- The child nodes, in the order of the recipe. -/
def children (node : Node) : List Node := node.parts.flatMap Part.nodes

/-- Putting the parts of a node together gives the node back; leaves are the exception. -/
theorem ofParts?_parts {node : Node} (h : node.kind.recipe? ≠ none) :
    ofParts? node.kind node.parts = some node := by
  -- One case for each kind: the constructor alone does not fix it where it carries a tag.
  fun_cases Node.kind node <;> first
    | rfl
    | exact absurd rfl h

/-- The parts of a node put together from parts are those parts. -/
theorem parts_of_ofParts? {kind : Kind} {parts : List Part} {node : Node}
    (h : ofParts? kind parts = some node) : node.kind = kind ∧ node.parts = parts := by
  unfold ofParts? at h
  split at h
  all_goals first
    | (cases h; exact ⟨rfl, rfl⟩)
    | cases h

/-- A kind without a recipe can not be put together from parts. -/
theorem ofParts?_eq_none_of_recipe?_eq_none {kind : Kind} (parts : List Part)
    (h : kind.recipe? = none) : ofParts? kind parts = none := by
  cases kind <;> first
    | rfl
    | cases h

/-- A node with its own parts put back is unchanged. -/
theorem withParts_parts (node : Node) : node.withParts node.parts = node := by
  by_cases h : node.kind.recipe? = none
  · rw [withParts, ofParts?_eq_none_of_recipe?_eq_none _ h]; rfl
  · rw [withParts, ofParts?_parts h]; rfl

/-- A part's children are children of the node. -/
theorem mem_children_of_mem_nodes {node child : Node} {part : Part} (hpart : part ∈ node.parts)
    (hchild : child ∈ part.nodes) : child ∈ node.children :=
  List.mem_flatMap.2 ⟨part, hpart, hchild⟩

/-- A child is smaller than its parent. -/
theorem sizeOf_lt_of_mem_children {child node : Node} (h : child ∈ node.children) :
    sizeOf child < sizeOf node := by
  have inList : ∀ {nodes : List Node}, child ∈ nodes → sizeOf child < sizeOf nodes :=
    fun mem => List.sizeOf_lt_of_mem mem
  have inOption : ∀ {value : Option Node}, value = some child → sizeOf child < sizeOf value := by
    rintro _ rfl
    simp
  cases node <;> simp [children, parts, Part.nodes] at h <;> simp <;> grind

end Node

end JsPrune
