/-!
# Verdicts

What is known about a test before the program runs: that it passes, that it fails, or nothing. The
connectives decide only what is decided by both sides; knowing one side is never enough, because
the other may still have effects.
-/

namespace JsPrune

/-- What is known about a test. -/
inductive Verdict where
  /-- It passes. -/
  | pass
  /-- It fails. -/
  | fail
  /-- Nothing is known; whoever comes next may decide. -/
  | next
deriving DecidableEq

namespace Verdict

/-- The verdict on a known truth value. -/
def ofBool (value : Bool) : Verdict := if value then pass else fail

/-- Whether anything is known. -/
def isDetermined : Verdict → Bool
  | next => false
  | _ => true

/-- Both tests pass. -/
def and : Verdict → Verdict → Verdict
  | next, _ => next
  | _, next => next
  | pass, pass => pass
  | _, _ => fail

/-- One of the tests passes. -/
def or : Verdict → Verdict → Verdict
  | next, _ => next
  | _, next => next
  | fail, fail => fail
  | _, _ => pass

/-- The test fails. -/
def not : Verdict → Verdict
  | pass => fail
  | fail => pass
  | next => next

/-- The verdict itself if it says something, what `other` says if not. -/
@[inline] def orElse (verdict : Verdict) (other : Unit → Verdict) : Verdict :=
  match verdict with
  | next => other ()
  | decided => decided

/-- The name of a verdict. -/
def name : Verdict → String
  | pass => "pass"
  | fail => "fail"
  | next => "next"

/-- The verdict with this name. -/
def ofName? (name : String) : Option Verdict :=
  [pass, fail, next].find? fun verdict => verdict.name == name

end Verdict

end JsPrune
