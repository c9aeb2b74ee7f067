import JsPrune.Error
import JsPrune.Node.Parts

/-!
# Changing the children of a node

`Node.descend` hands every child of a node to a function, in the order of the recipe, and puts the
results in the children's places. A child may be replaced or removed. Where a child is required, a
removed statement leaves a lone semicolon behind and anything else is an error; a removed optional
child is absent, and a list closes up. Whatever comes back has to be accepted by its slot. An error
gets a frame that names the field it came through.

The function may have effects of its own; they run in the same order and stop at the first error.

Notes on the form, next to a descent that changes the node in place:
- The node is taken apart by `Node.parts` and put together again by `Node.withParts`. There is one
  descent for all kinds; a kind differs by its recipe only.
- The complaints `misshapen` and `miscounted` are about a recipe that does not match its kind. The
  recipes here do match (`Node.parts_fit`), so neither ever comes up; they stay because the
  checks are part of what descending into a field is.
- A removed child of a list is skipped before anything is checked, so only what stays in the list
  has to be accepted by its slot.
- The effects are those of any monad below `ExceptT`, since a filter may keep a state of its own.
-/

namespace JsPrune

/-- What became of a node. -/
inductive Outcome where
  /-- It stays, or this stands in its place. -/
  | node (node : Node)
  /-- It is gone. -/
  | removed

/-- The node that is left, if one is. -/
def Outcome.toOption : Outcome → Option Node
  | .node left => some left
  | .removed => none

namespace Node

/-- The complaint about a child that its slot does not accept. -/
def misplaced (parent : Kind) (field : Field) (slot : Slot) (found : Kind) : Error :=
  .structural parent.name field.name
    ("expected " ++ slot.describe ++ ", found " ++ found.name)

/-- The complaint about a required child that was removed. -/
def required (parent : Kind) (field : Field) (slot : Slot) : Error :=
  .structural parent.name field.name (slot.describe ++ " is required and cannot be removed")

/-- The complaint about contents that do not have the shape the recipe gives them. -/
def misshapen (parent : Kind) (field : Field) (part : Part) : Error :=
  .structural parent.name field.name
    ("recipe expects a " ++ field.role.describe ++ ", node holds a " ++ part.describe)

/-- The complaint about a node with more or fewer parts than its recipe has fields. -/
def miscounted (parent : Kind) (fields parts : Nat) : Error :=
  .ofCause (.internal (parent.name ++ " recipe lists " ++ toString fields
    ++ " fields but the node exposes " ++ toString parts))

/-- The frame that names a field of a kind. -/
def frame (parent : Kind) (field : Field) : String := parent.name ++ "." ++ field.name

section
variable {m : Type → Type} [Monad m] (walk : Node → ExceptT Error m Outcome)

/-- Lets `node` pass if its slot accepts it. -/
def accept (parent : Kind) (field : Field) (slot : Slot) (node : Node) : ExceptT Error m Node :=
  if slot.accepts node.kind then pure node else throw (misplaced parent field slot node.kind)

/-- What is left of a list of children. -/
def descendList (parent : Kind) (field : Field) (slot : Slot) :
    List Node → ExceptT Error m (List Node)
  | [] => pure []
  | child :: rest => do
    match ← walk child with
    | .removed => descendList parent field slot rest
    | .node new => do
      let kept ← accept parent field slot new
      return kept :: (← descendList parent field slot rest)

/-- The new contents of one field. -/
def descendPart (parent : Kind) (field : Field) (part : Part) : ExceptT Error m Part := do
  match field.role, part with
  | .literal _, .literal datum => return .literal datum
  | .child slot, .child child =>
    match ← walk child with
    | .node new => return .child (← accept parent field slot new)
    | .removed =>
      -- A statement is needed, and the one that does nothing will do.
      if slot = .statement then return .child .empty else throw (required parent field slot)
  | .optional _, .optional none => return .optional none
  | .optional slot, .optional (some child) =>
    match ← walk child with
    | .node new => return .optional (some (← accept parent field slot new))
    | .removed => return .optional none
  | .sequence slot, .sequence children =>
    return .sequence (← descendList walk parent field slot children)
  | _, _ => throw (misshapen parent field part)

/-- The new contents of all fields, in order. -/
def descendParts (parent : Kind) : List Field → List Part → ExceptT Error m (List Part)
  | field :: fields, part :: parts => do
    let new ← ExceptT.adapt (fun error : Error => error.withFrame (frame parent field))
      (descendPart walk parent field part)
    return new :: (← descendParts parent fields parts)
  | _, _ => pure []

/-- A node with each child replaced by what `walk` makes of it. -/
def descend (node : Node) : ExceptT Error m Node :=
  match node.kind.recipe? with
  | none => pure node
  | some fields =>
    if fields.length = node.parts.length then do
      return node.withParts (← descendParts walk node.kind fields node.parts)
    else throw (miscounted node.kind fields.length node.parts.length)

end

end Node

end JsPrune
