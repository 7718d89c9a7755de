/-!
The options of a calculator, with their names in configuration files.
-/

namespace Abacus

/-- What becomes of a result that is infinite or not a number. -/
inductive NonFinitePolicy where
  | reject
  | allow
deriving DecidableEq, Repr

/-- The unit in which the trigonometric functions take their argument. -/
inductive AngleUnit where
  | degrees
  | radians
deriving DecidableEq, Repr

structure Options where
  nonFinite : NonFinitePolicy := .reject
  angle : AngleUnit := .degrees
  substituteConstants : Bool := true
deriving DecidableEq, Repr

def NonFinitePolicy.name : NonFinitePolicy → String
  | reject => "reject"
  | allow => "allow"

def AngleUnit.name : AngleUnit → String
  | degrees => "degrees"
  | radians => "radians"

namespace Options

inductive Member where
  | nonFinite
  | angle
  | substituteConstants
deriving DecidableEq, Repr

def Member.name : Member → String
  | nonFinite => "non_finite"
  | angle => "angle"
  | substituteConstants => "substitute_constants"

def Member.ofName? (name : String) : Option Member :=
  [nonFinite, angle, substituteConstants].find? fun member => member.name == name

theorem Member.ofName?_name (member : Member) : ofName? member.name = some member := by
  cases member <;> decide

end Options

end Abacus
