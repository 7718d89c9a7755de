import Abacus.Text.Blank
import Abacus.Expression.Evaluate
import Abacus.Constant
import Abacus.Registry

/-!
Calculators. A calculator evaluates what a user wrote and applies the
functions of its registry; either result goes through the policy of its
options.
-/

namespace Abacus

structure Calculator where
  options : Options := {}
  registry : Registry := Registry.builtins

namespace Calculator

/-- The text that is evaluated for a trimmed input. -/
def resolve (calculator : Calculator) (input : String) : String :=
  if calculator.options.substituteConstants then Constant.substitute input else input

def evaluateChecked (calculator : Calculator) (resolved : String) : Except CalcError Float := do
  let x ← (Expression.evaluate resolved).mapError .badExpression
  calculator.options.check x

def calculate (calculator : Calculator) (text : String) : Except CalcError Float :=
  let input := Text.trim text
  if input.isEmpty then .error .emptyInput
  else calculator.evaluateChecked (calculator.resolve input)

def applyFunction (calculator : Calculator) (f : Function) (x : Float) :
    Except CalcError Float := do
  let y ← f.call calculator.options x
  calculator.options.check y

def apply (calculator : Calculator) (name : String) (x : Float) : Except CalcError Float :=
  match calculator.registry.get? name with
  | some f => calculator.applyFunction f x
  | none => .error (.unknownFunction name)

end Calculator

end Abacus
