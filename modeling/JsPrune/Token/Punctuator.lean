/-!
# Punctuators

Operators and delimiters. `Punctuator.all` lists those with more characters first, so the first one
that fits a text is the longest that does.
-/

namespace JsPrune

/-- An operator or delimiter. -/
inductive Punctuator where
  | ushrAssign | strictEq | strictNotEq | ushr | shlAssign | shrAssign
  | eq | notEq | le | ge | logicalAnd | logicalOr | increment | decrement
  | addAssign | subAssign | mulAssign | divAssign | remAssign
  | bitAndAssign | bitOrAssign | bitXorAssign | shl | shr
  | braceOpen | braceClose | parenOpen | parenClose | bracketOpen | bracketClose
  | semicolon | comma | lt | gt | plus | minus | times | divide | percent
  | ampersand | bar | caret | bang | tilde | question | colon | assign | dot
deriving DecidableEq

namespace Punctuator

/-- All punctuators, longest first. -/
def all : List Punctuator :=
  [ushrAssign, strictEq, strictNotEq, ushr, shlAssign, shrAssign, eq, notEq, le, ge, logicalAnd,
    logicalOr, increment, decrement, addAssign, subAssign, mulAssign, divAssign, remAssign,
    bitAndAssign, bitOrAssign, bitXorAssign, shl, shr, braceOpen, braceClose, parenOpen,
    parenClose, bracketOpen, bracketClose, semicolon, comma, lt, gt, plus, minus, times, divide,
    percent, ampersand, bar, caret, bang, tilde, question, colon, assign, dot]

/-- The characters of a punctuator. -/
def text : Punctuator → String
  | ushrAssign => ">>>="
  | strictEq => "==="
  | strictNotEq => "!=="
  | ushr => ">>>"
  | shlAssign => "<<="
  | shrAssign => ">>="
  | eq => "=="
  | notEq => "!="
  | le => "<="
  | ge => ">="
  | logicalAnd => "&&"
  | logicalOr => "||"
  | increment => "++"
  | decrement => "--"
  | addAssign => "+="
  | subAssign => "-="
  | mulAssign => "*="
  | divAssign => "/="
  | remAssign => "%="
  | bitAndAssign => "&="
  | bitOrAssign => "|="
  | bitXorAssign => "^="
  | shl => "<<"
  | shr => ">>"
  | braceOpen => "\x7b"
  | braceClose => "\x7d"
  | parenOpen => "("
  | parenClose => ")"
  | bracketOpen => "["
  | bracketClose => "]"
  | semicolon => ";"
  | comma => ","
  | lt => "<"
  | gt => ">"
  | plus => "+"
  | minus => "-"
  | times => "*"
  | divide => "/"
  | percent => "%"
  | ampersand => "&"
  | bar => "|"
  | caret => "^"
  | bang => "!"
  | tilde => "~"
  | question => "?"
  | colon => ":"
  | assign => "="
  | dot => "."

/-- The longest punctuator at the start of a text. -/
def longest? (text : List Char) : Option Punctuator :=
  all.find? fun punctuator => punctuator.text.toList.isPrefixOf text

end Punctuator

end JsPrune
