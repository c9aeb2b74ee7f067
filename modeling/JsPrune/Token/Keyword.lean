/-!
# Reserved words

The thirty words that no identifier can be. `Keyword.ofWord?` and `Keyword.text` are inverse to
each other.
-/

namespace JsPrune

/-- A reserved word. -/
inductive Keyword where
  | breakKw | caseKw | catchKw | constKw | continueKw | debuggerKw | defaultKw | deleteKw | doKw
  | elseKw | falseKw | finallyKw | forKw | functionKw | ifKw | inKw | instanceofKw | letKw | newKw
  | nullKw | returnKw | switchKw | thisKw | throwKw | trueKw | tryKw | typeofKw | varKw | voidKw
  | whileKw
deriving DecidableEq

namespace Keyword

/-- All reserved words, in alphabetical order. -/
def all : List Keyword :=
  [breakKw, caseKw, catchKw, constKw, continueKw, debuggerKw, defaultKw, deleteKw, doKw, elseKw,
    falseKw, finallyKw, forKw, functionKw, ifKw, inKw, instanceofKw, letKw, newKw, nullKw,
    returnKw, switchKw, thisKw, throwKw, trueKw, tryKw, typeofKw, varKw, voidKw, whileKw]

/-- The word as it stands in a program. -/
def text : Keyword → String
  | breakKw => "break"
  | caseKw => "case"
  | catchKw => "catch"
  | constKw => "const"
  | continueKw => "continue"
  | debuggerKw => "debugger"
  | defaultKw => "default"
  | deleteKw => "delete"
  | doKw => "do"
  | elseKw => "else"
  | falseKw => "false"
  | finallyKw => "finally"
  | forKw => "for"
  | functionKw => "function"
  | ifKw => "if"
  | inKw => "in"
  | instanceofKw => "instanceof"
  | letKw => "let"
  | newKw => "new"
  | nullKw => "null"
  | returnKw => "return"
  | switchKw => "switch"
  | thisKw => "this"
  | throwKw => "throw"
  | trueKw => "true"
  | tryKw => "try"
  | typeofKw => "typeof"
  | varKw => "var"
  | voidKw => "void"
  | whileKw => "while"

/-- The reserved word with this spelling, if there is one. -/
def ofWord? (word : String) : Option Keyword := all.find? fun keyword => keyword.text == word

end Keyword

end JsPrune
