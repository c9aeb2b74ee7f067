import JsPrune.Error
import JsPrune.Token.Basic

/-!
# What a parser complains about

The parser refuses a text with a complaint and the span it is about. Only here does a complaint
become words, and a refusal an `Error` that quotes the line.
-/

namespace JsPrune

open JsPrune.Source

/-- Why a text is not a program. -/
inductive Complaint where
  /-- No construct goes on with this token. -/
  | unexpected (found : Token.Kind)
  | expectedPunctuator (symbol : Punctuator) (found : Token.Kind)
  | expectedIdentifier (found : Token.Kind)
  | expectedWhile (found : Token.Kind)
  | expectedThrownValue
  | expectedHandler
  | expectedFunctionName
  | expectedMemberName
  | expectedKey
  | unterminatedBlock
  | unterminatedSwitch
  | unterminatedArray
  | unterminatedObject
  | arrayHole
  | severalForInBindings
  | invalidForInTarget
  | invalidAssignmentTarget
  | invalidStepOperand
  | nestingTooDeep
deriving DecidableEq

/-- The wording of a complaint. -/
def Complaint.message : Complaint → String
  | unexpected (.fault reason) => reason.message
  | unexpected .eof => "unexpected end of input"
  | unexpected found => "unexpected " ++ found.name
  | expectedPunctuator symbol found => "expected '" ++ symbol.text ++ "', found " ++ found.name
  | expectedIdentifier found => "expected identifier, found " ++ found.name
  | expectedWhile found => "expected 'while', found " ++ found.name
  | expectedThrownValue => "expected an expression after 'throw'"
  | expectedHandler => "expected 'catch' or 'finally' after try block"
  | expectedFunctionName => "function declaration requires a name"
  | expectedMemberName => "expected property name after '.'"
  | expectedKey => "expected property name"
  | unterminatedBlock => "unterminated block"
  | unterminatedSwitch => "unterminated switch"
  | unterminatedArray => "unterminated array literal"
  | unterminatedObject => "unterminated object literal"
  | arrayHole => "array holes are not supported"
  | severalForInBindings => "for-in declares exactly one binding"
  | invalidForInTarget => "invalid for-in target"
  | invalidAssignmentTarget => "invalid assignment target"
  | invalidStepOperand => "invalid increment/decrement operand"
  | nestingTooDeep => "nesting too deep"

/-- A complaint and what it is about. -/
structure Refusal where
  /-- Why the text is refused. -/
  complaint : Complaint
  /-- Where. -/
  span : Span
deriving DecidableEq

/-- The error that reports a refusal of `source`, with the line on which its span starts. -/
def Refusal.toError (refusal : Refusal) (source : List Char) : Error :=
  .ofCause (.parse refusal.complaint.message refusal.span.line refusal.span.column
    (String.ofList (lineAround source refusal.span.start)))

end JsPrune
