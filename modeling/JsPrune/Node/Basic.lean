import JsPrune.Binary64.Basic
import JsPrune.Node.Kind
import JsPrune.Node.Operator

/-!
# Syntax trees

A `Node` is a statement, an expression or a piece of one, such as a single binding of a declaration.
Kinds of the same shape share a constructor and are told apart by a small tag: `while` and `do`
loops, the three declarations, calls with and without `new`.

The type is wider than the grammar. Any node may stand in any child position, so that a tree under
construction, or one read from outside, is a value like any other; which child a position accepts is
said by `Slot`, and a traversal checks it.
-/

namespace JsPrune

/-- What a list of statements is the body of. -/
inductive BodyTag where
  | toplevel | block | defaultBranch | finallyClause
deriving DecidableEq

/-- The words that open a declaration. -/
inductive DeclarationTag where
  | var | let_ | const
deriving DecidableEq

/-- Whether a loop tests before or after its body. -/
inductive LoopTag where
  | while_ | do_
deriving DecidableEq

/-- The statements that leave a function. -/
inductive ExitTag where
  | return_ | throw
deriving DecidableEq

/-- The statements that leave or restart a loop. -/
inductive JumpTag where
  | break_ | continue_
deriving DecidableEq

/-- Function declarations and function expressions. -/
inductive LambdaTag where
  | declaration | expression
deriving DecidableEq

/-- Plain calls and constructor calls. -/
inductive CallTag where
  | plain | new
deriving DecidableEq

/-- Where a unary operator stands. -/
inductive UnaryTag where
  | before | after
deriving DecidableEq

/-- Whether two operands are combined or the left one is assigned to. -/
inductive BinaryTag where
  | combine | assign
deriving DecidableEq

/-- A syntax tree. -/
inductive Node where
  /-- A list of statements: the program, a block, a default branch or a finally clause. -/
  | body (tag : BodyTag) (statements : List Node)
  /-- A lone semicolon. -/
  | empty
  /-- An expression used as a statement. -/
  | simple (expression : Node)
  /-- A declaration; its definitions are `varDef` nodes. -/
  | declaration (tag : DeclarationTag) (definitions : List Node)
  /-- One binding of a declaration. -/
  | varDef (name : String) (value : Option Node)
  | ifElse (condition body : Node) (alternative : Option Node)
  | loop (tag : LoopTag) (condition body : Node)
  /-- The loop with three clauses. -/
  | forLoop (init condition step : Option Node) (body : Node)
  | forIn (init object body : Node)
  | exit (tag : ExitTag) (value : Option Node)
  | jump (tag : JumpTag) (label : Option String)
  | labeled (label : String) (body : Node)
  /-- A switch; its branches are `case_` nodes and default branches. -/
  | switch (subject : Node) (branches : List Node)
  | case_ (test : Node) (body : List Node)
  /-- A protected body with its handler and its finally clause. -/
  | try_ (body : List Node) (handler finalizer : Option Node)
  | catch_ (parameter : String) (body : List Node)
  | debugger
  | lambda (tag : LambdaTag) (name : Option String) (parameters : List String) (body : List Node)
  | call (tag : CallTag) (callee : Node) (arguments : List Node)
  | sequence (expressions : List Node)
  /-- Access to a property by name. -/
  | dot (object : Node) (property : String)
  /-- Access to a computed property. -/
  | sub (object property : Node)
  | unary (tag : UnaryTag) (operator : UnaryOp) (operand : Node)
  | binary (tag : BinaryTag) (left : Node) (operator : BinaryOp) (right : Node)
  | conditional (condition consequent alternative : Node)
  | array (elements : List Node)
  /-- An object literal; its properties are `property` nodes. -/
  | object (properties : List Node)
  | property (key : String) (value : Node)
  | identifier (name : String)
  | number (value : Binary64)
  | string (value : String)
  | boolean (value : Bool)
  | null
  | this
deriving Inhabited

namespace Node

/-- The kind of a node. -/
def kind : Node → Kind
  | body .toplevel _ => .toplevel
  | body .block _ => .block
  | body .defaultBranch _ => .default
  | body .finallyClause _ => .finally_
  | empty => .emptyStatement
  | simple _ => .simpleStatement
  | declaration .var _ => .var
  | declaration .let_ _ => .let_
  | declaration .const _ => .const
  | varDef _ _ => .varDef
  | ifElse _ _ _ => .if_
  | loop .while_ _ _ => .while_
  | loop .do_ _ _ => .do_
  | forLoop _ _ _ _ => .for_
  | forIn _ _ _ => .forIn
  | exit .return_ _ => .return_
  | exit .throw _ => .throw
  | jump .break_ _ => .break_
  | jump .continue_ _ => .continue_
  | labeled _ _ => .labeled
  | switch _ _ => .switch
  | case_ _ _ => .case
  | try_ _ _ _ => .try_
  | catch_ _ _ => .catch_
  | debugger => .debugger
  | lambda .declaration _ _ _ => .defun
  | lambda .expression _ _ _ => .function
  | call .plain _ _ => .call
  | call .new _ _ => .new
  | sequence _ => .sequence
  | dot _ _ => .dot
  | sub _ _ => .sub
  | unary .before _ _ => .unaryPrefix
  | unary .after _ _ => .unaryPostfix
  | binary .combine _ _ _ => .binary
  | binary .assign _ _ _ => .assign
  | conditional _ _ _ => .conditional
  | array _ => .array
  | object _ => .object
  | property _ _ => .objectProperty
  | identifier _ => .identifier
  | number _ => .number
  | string _ => .string
  | boolean _ => .boolean
  | null => .null
  | this => .this

/-! ## Building trees -/

/-- A program. -/
abbrev toplevel (statements : List Node) : Node := body .toplevel statements

/-- A block. -/
abbrev block (statements : List Node) : Node := body .block statements

/-- Two operands joined by an operator; an assigning operator makes an assignment. -/
def operation (operator : BinaryOp) (left right : Node) : Node :=
  binary (if operator.isAssignment then .assign else .combine) left operator right

/-- A `var` declaration from names with their optional values. -/
def vars (bindings : List (String × Option Node)) : Node :=
  declaration .var (bindings.map fun (name, value) => varDef name value)

/-! ## Looking at a node -/

/-- The name, if this is an identifier. -/
def asIdentifier? : Node → Option String
  | identifier name => some name
  | _ => none

/-- The value, if this is a number literal. -/
def asNumber? : Node → Option Binary64
  | number value => some value
  | _ => none

/-- The value, if this is a string literal. -/
def asString? : Node → Option String
  | string value => some value
  | _ => none

/-- The statements of a program or block. -/
def asStatements? : Node → Option (List Node)
  | body .toplevel statements => some statements
  | body .block statements => some statements
  | _ => none

/-- Whether this is a lone semicolon. -/
def isEmpty : Node → Bool
  | empty => true
  | _ => false

/-- Whether the expression can be assigned to. -/
def isAssignable : Node → Bool
  | identifier _ => true
  | dot _ _ => true
  | sub _ _ => true
  | _ => false

end Node

end JsPrune
