/-!
# Kinds of nodes

The kind of a node is its constructor in the grammar. Kinds come in a fixed order, statements first,
then expressions, then leaves; counts and listings follow it.
-/

namespace JsPrune

/-- The kinds of nodes, in their fixed order. -/
inductive Kind where
  | toplevel | block | emptyStatement | simpleStatement | var | let_ | const | varDef | if_
  | while_ | do_ | for_ | forIn | return_ | throw | break_ | continue_ | labeled | switch | case
  | default | try_ | catch_ | finally_ | defun | debugger
  | function | call | new | sequence | dot | sub | unaryPrefix | unaryPostfix | binary | assign
  | conditional | array | object | objectProperty
  | identifier | number | string | boolean | null | this
deriving DecidableEq

namespace Kind

/-- All kinds, in order. -/
def all : List Kind :=
  [toplevel, block, emptyStatement, simpleStatement, var, let_, const, varDef, if_, while_, do_,
    for_, forIn, return_, throw, break_, continue_, labeled, switch, case, default, try_, catch_,
    finally_, defun, debugger, function, call, new, sequence, dot, sub, unaryPrefix, unaryPostfix,
    binary, assign, conditional, array, object, objectProperty, identifier, number, string,
    boolean, null, this]

/-- The name of a kind, in messages and in the interchange form. -/
def name : Kind → String
  | toplevel => "Toplevel"
  | block => "Block"
  | emptyStatement => "EmptyStatement"
  | simpleStatement => "SimpleStatement"
  | var => "Var"
  | let_ => "Let"
  | const => "Const"
  | varDef => "VarDef"
  | if_ => "If"
  | while_ => "While"
  | do_ => "Do"
  | for_ => "For"
  | forIn => "ForIn"
  | return_ => "Return"
  | throw => "Throw"
  | break_ => "Break"
  | continue_ => "Continue"
  | labeled => "Labeled"
  | switch => "Switch"
  | case => "Case"
  | default => "Default"
  | try_ => "Try"
  | catch_ => "Catch"
  | finally_ => "Finally"
  | defun => "Defun"
  | debugger => "Debugger"
  | function => "Function"
  | call => "Call"
  | new => "New"
  | sequence => "Sequence"
  | dot => "Dot"
  | sub => "Sub"
  | unaryPrefix => "UnaryPrefix"
  | unaryPostfix => "UnaryPostfix"
  | binary => "Binary"
  | assign => "Assign"
  | conditional => "Conditional"
  | array => "Array"
  | object => "Object"
  | objectProperty => "ObjectProperty"
  | identifier => "Identifier"
  | number => "Number"
  | string => "String"
  | boolean => "Boolean"
  | null => "Null"
  | this => "This"

/-- The kind with this name. -/
def ofName? (name : String) : Option Kind := all.find? fun kind => kind.name == name

/-- Kinds that may stand where a statement is expected. -/
def isStatement : Kind → Bool
  | block | emptyStatement | simpleStatement | var | let_ | const | if_ | while_ | do_ | for_
  | forIn | return_ | throw | break_ | continue_ | labeled | switch | try_ | defun
  | debugger => true
  | _ => false

/-- Kinds that may stand where an expression is expected. -/
def isExpression : Kind → Bool
  | function | call | new | sequence | dot | sub | unaryPrefix | unaryPostfix | binary | assign
  | conditional | array | object | identifier | number | string | boolean | null | this => true
  | _ => false

end Kind

end JsPrune
