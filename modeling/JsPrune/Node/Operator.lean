/-!
# Operators

The operators of expressions, with their spelling and, for those between two operands, how tightly
they bind. Assignments bind loosest and share one level; a higher level binds tighter.
-/

namespace JsPrune

/-- An operator with one operand. -/
inductive UnaryOp where
  | not | bitNot | neg | plus | typeOf | void | delete | increment | decrement
deriving DecidableEq

namespace UnaryOp

/-- All unary operators. -/
def all : List UnaryOp :=
  [not, bitNot, neg, plus, typeOf, void, delete, increment, decrement]

/-- The operator as it stands in a program. -/
def symbol : UnaryOp → String
  | not => "!"
  | bitNot => "~"
  | neg => "-"
  | plus => "+"
  | typeOf => "typeof"
  | void => "void"
  | delete => "delete"
  | increment => "++"
  | decrement => "--"

/-- The operator's name in the interchange form of trees. -/
def name : UnaryOp → String
  | not => "Not"
  | bitNot => "BitNot"
  | neg => "Neg"
  | plus => "Plus"
  | typeOf => "TypeOf"
  | void => "Void"
  | delete => "Delete"
  | increment => "Increment"
  | decrement => "Decrement"

/-- The operator with this spelling. -/
def ofSymbol? (symbol : String) : Option UnaryOp := all.find? fun op => op.symbol == symbol

/-- The operator with this name. -/
def ofName? (name : String) : Option UnaryOp := all.find? fun op => op.name == name

/-- Whether the operator changes its operand. -/
def isStep : UnaryOp → Bool
  | increment => true
  | decrement => true
  | _ => false

end UnaryOp

/-- An operator with two operands, assignments included. -/
inductive BinaryOp where
  | or | and | bitOr | bitXor | bitAnd
  | eq | notEq | strictEq | strictNotEq
  | lt | gt | le | ge | in_ | instanceOf
  | shl | shr | ushr | add | sub | mul | div | rem
  | assign | addAssign | subAssign | mulAssign | divAssign | remAssign
  | shlAssign | shrAssign | ushrAssign | bitAndAssign | bitOrAssign | bitXorAssign
deriving DecidableEq

namespace BinaryOp

/-- All binary operators. -/
def all : List BinaryOp :=
  [or, and, bitOr, bitXor, bitAnd, eq, notEq, strictEq, strictNotEq, lt, gt, le, ge, in_,
    instanceOf, shl, shr, ushr, add, sub, mul, div, rem, assign, addAssign, subAssign, mulAssign,
    divAssign, remAssign, shlAssign, shrAssign, ushrAssign, bitAndAssign, bitOrAssign, bitXorAssign]

/-- The operator as it stands in a program. -/
def symbol : BinaryOp → String
  | or => "||"
  | and => "&&"
  | bitOr => "|"
  | bitXor => "^"
  | bitAnd => "&"
  | eq => "=="
  | notEq => "!="
  | strictEq => "==="
  | strictNotEq => "!=="
  | lt => "<"
  | gt => ">"
  | le => "<="
  | ge => ">="
  | in_ => "in"
  | instanceOf => "instanceof"
  | shl => "<<"
  | shr => ">>"
  | ushr => ">>>"
  | add => "+"
  | sub => "-"
  | mul => "*"
  | div => "/"
  | rem => "%"
  | assign => "="
  | addAssign => "+="
  | subAssign => "-="
  | mulAssign => "*="
  | divAssign => "/="
  | remAssign => "%="
  | shlAssign => "<<="
  | shrAssign => ">>="
  | ushrAssign => ">>>="
  | bitAndAssign => "&="
  | bitOrAssign => "|="
  | bitXorAssign => "^="

/-- The operator's name in the interchange form of trees. -/
def name : BinaryOp → String
  | or => "Or"
  | and => "And"
  | bitOr => "BitOr"
  | bitXor => "BitXor"
  | bitAnd => "BitAnd"
  | eq => "Eq"
  | notEq => "NotEq"
  | strictEq => "StrictEq"
  | strictNotEq => "StrictNotEq"
  | lt => "Lt"
  | gt => "Gt"
  | le => "Le"
  | ge => "Ge"
  | in_ => "In"
  | instanceOf => "InstanceOf"
  | shl => "Shl"
  | shr => "Shr"
  | ushr => "UShr"
  | add => "Add"
  | sub => "Sub"
  | mul => "Mul"
  | div => "Div"
  | rem => "Rem"
  | assign => "Assign"
  | addAssign => "AddAssign"
  | subAssign => "SubAssign"
  | mulAssign => "MulAssign"
  | divAssign => "DivAssign"
  | remAssign => "RemAssign"
  | shlAssign => "ShlAssign"
  | shrAssign => "ShrAssign"
  | ushrAssign => "UShrAssign"
  | bitAndAssign => "BitAndAssign"
  | bitOrAssign => "BitOrAssign"
  | bitXorAssign => "BitXorAssign"

/-- The operator with this spelling. -/
def ofSymbol? (symbol : String) : Option BinaryOp := all.find? fun op => op.symbol == symbol

/-- The operator with this name. -/
def ofName? (name : String) : Option BinaryOp := all.find? fun op => op.name == name

/-- How tightly the operator binds; all assignments bind at level 2. -/
def precedence : BinaryOp → Nat
  | or => 4
  | and => 5
  | bitOr => 6
  | bitXor => 7
  | bitAnd => 8
  | eq | notEq | strictEq | strictNotEq => 9
  | lt | gt | le | ge | in_ | instanceOf => 10
  | shl | shr | ushr => 11
  | add | sub => 12
  | mul | div | rem => 13
  | _ => 2

/-- Whether the operator stores into its left operand. -/
def isAssignment (op : BinaryOp) : Bool := op.precedence == 2

/-- Whether the operator is one of the two logical connectives. -/
def isLogical : BinaryOp → Bool
  | and => true
  | or => true
  | _ => false

end BinaryOp

end JsPrune
