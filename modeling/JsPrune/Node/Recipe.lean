import JsPrune.Node.Kind

/-!
# Recipes

A recipe lists the fields of a kind of node in the order of the program text, and says for each
whether it holds plain data or child nodes, and which children it accepts. Leaves have no recipe.

The recipe is the one place where the shape of the grammar is written down: traversals follow it,
the interchange form takes its field names and their order from it, and a tree is well formed when
every child is accepted by its slot.
-/

namespace JsPrune

/-- What a child position accepts. -/
inductive Slot where
  /-- Any statement. -/
  | statement
  /-- Any expression. -/
  | expression
  /-- One binding of a declaration. -/
  | definition
  /-- One entry of an object literal. -/
  | property
  /-- A case or default branch. -/
  | switchBranch
  /-- A handler. -/
  | catchClause
  /-- A finally clause. -/
  | finallyClause
  /-- A declaration or an expression, at the head of a loop. -/
  | forInit
deriving DecidableEq

namespace Slot

/-- Whether a node of `kind` may stand in this position. -/
def accepts : Slot → Kind → Bool
  | statement, kind => kind.isStatement
  | expression, kind => kind.isExpression
  | definition, kind => kind == .varDef
  | property, kind => kind == .objectProperty
  | switchBranch, kind => kind == .case || kind == .default
  | catchClause, kind => kind == .catch_
  | finallyClause, kind => kind == .finally_
  | forInit, kind => kind == .var || kind == .let_ || kind == .const || kind.isExpression

/-- What a message calls the accepted nodes. -/
def describe : Slot → String
  | statement => "a statement"
  | expression => "an expression"
  | definition => "a VarDef"
  | property => "an ObjectProperty"
  | switchBranch => "a Case or Default"
  | catchClause => "a Catch"
  | finallyClause => "a Finally"
  | forInit => "a declaration or expression"

end Slot

/-- The sorts of plain data. -/
inductive DataSort where
  | text | optionalText | texts | unaryOp | binaryOp
deriving DecidableEq

/-- How a field takes part in a traversal. -/
inductive Role where
  /-- Plain data, left alone. -/
  | literal (sort : DataSort)
  /-- Exactly one child. -/
  | child (slot : Slot)
  /-- At most one child. -/
  | optional (slot : Slot)
  /-- A list of children. -/
  | sequence (slot : Slot)
deriving DecidableEq

namespace Role

/-- What a message calls the role. -/
def describe : Role → String
  | literal _ => "literal"
  | child _ => "child"
  | optional _ => "optional child"
  | sequence _ => "child sequence"

/-- The slot of the children, if the field has any. -/
def slot? : Role → Option Slot
  | literal _ => none
  | child slot => some slot
  | optional slot => some slot
  | sequence slot => some slot

end Role

/-- A named field of a kind. -/
structure Field where
  /-- Its name in frames and in the interchange form. -/
  name : String
  /-- Its role. -/
  role : Role
deriving DecidableEq

/-- The fields of a kind in the order of the text; leaves have none. -/
def Kind.recipe? : Kind → Option (List Field)
  | .toplevel | .block | .finally_ | .default => some [⟨"body", .sequence .statement⟩]
  | .simpleStatement => some [⟨"body", .child .expression⟩]
  | .var | .let_ | .const => some [⟨"definitions", .sequence .definition⟩]
  | .varDef => some [⟨"name", .literal .text⟩, ⟨"value", .optional .expression⟩]
  | .if_ => some [⟨"condition", .child .expression⟩, ⟨"body", .child .statement⟩,
      ⟨"alternative", .optional .statement⟩]
  | .while_ | .do_ => some [⟨"condition", .child .expression⟩, ⟨"body", .child .statement⟩]
  | .for_ => some [⟨"init", .optional .forInit⟩, ⟨"condition", .optional .expression⟩,
      ⟨"step", .optional .expression⟩, ⟨"body", .child .statement⟩]
  | .forIn => some [⟨"init", .child .forInit⟩, ⟨"object", .child .expression⟩,
      ⟨"body", .child .statement⟩]
  | .return_ | .throw => some [⟨"value", .optional .expression⟩]
  | .break_ | .continue_ => some [⟨"label", .literal .optionalText⟩]
  | .labeled => some [⟨"label", .literal .text⟩, ⟨"body", .child .statement⟩]
  | .switch => some [⟨"expression", .child .expression⟩, ⟨"body", .sequence .switchBranch⟩]
  | .case => some [⟨"expression", .child .expression⟩, ⟨"body", .sequence .statement⟩]
  | .try_ => some [⟨"body", .sequence .statement⟩, ⟨"bcatch", .optional .catchClause⟩,
      ⟨"bfinally", .optional .finallyClause⟩]
  | .catch_ => some [⟨"argname", .literal .text⟩, ⟨"body", .sequence .statement⟩]
  | .defun | .function => some [⟨"name", .literal .optionalText⟩, ⟨"argnames", .literal .texts⟩,
      ⟨"body", .sequence .statement⟩]
  | .call | .new => some [⟨"expression", .child .expression⟩, ⟨"args", .sequence .expression⟩]
  | .sequence => some [⟨"expressions", .sequence .expression⟩]
  | .dot => some [⟨"expression", .child .expression⟩, ⟨"property", .literal .text⟩]
  | .sub => some [⟨"expression", .child .expression⟩, ⟨"property", .child .expression⟩]
  | .unaryPrefix | .unaryPostfix =>
    some [⟨"operator", .literal .unaryOp⟩, ⟨"expression", .child .expression⟩]
  | .binary | .assign => some [⟨"left", .child .expression⟩, ⟨"operator", .literal .binaryOp⟩,
      ⟨"right", .child .expression⟩]
  | .conditional => some [⟨"condition", .child .expression⟩, ⟨"consequent", .child .expression⟩,
      ⟨"alternative", .child .expression⟩]
  | .array => some [⟨"elements", .sequence .expression⟩]
  | .object => some [⟨"properties", .sequence .property⟩]
  | .objectProperty => some [⟨"key", .literal .text⟩, ⟨"value", .child .expression⟩]
  | .emptyStatement | .debugger | .identifier | .number | .string | .boolean | .null
  | .this => none

end JsPrune
