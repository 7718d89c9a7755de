import Abacus.Double.Nearest
import Abacus.Options.Policy

/-!
Named functions of one argument, and the functions that are always there. A
function sees the options; only the trigonometric ones look at them.
-/

namespace Abacus

structure Function where
  name : String
  call : Options → Float → Except CalcError Float

namespace Function

/-- A function that always has a value and does not look at the options. -/
def plain (name : String) (value : Float → Float) : Function :=
  ⟨name, fun _ x => .ok (value x)⟩

def radiansPerDegree : Float :=
  Float.ofBits 0x400921fb54442d18 / 180

def toRadians (unit : AngleUnit) (x : Float) : Float :=
  match unit with
  | .degrees => x * radiansPerDegree
  | .radians => x

def trigonometric (name : String) (value : Float → Float) : Function :=
  ⟨name, fun options x => .ok (value (toRadians options.angle x))⟩

/-- The largest number whose factorial is below `2 ^ 63`. -/
def maxFactorial : Nat := 20

/-- The product of the numbers from 1 to `n`, in signed words of 64 bits. -/
def factorialOf : Nat → Int64
  | 0 => Int64.ofNat 1
  | n + 1 => (factorialOf n).mul (Int64.ofNat (n + 1))

/-- The natural number that a double is, if it is one. -/
def natural? (m : Nat) (e : Int) : Option Nat :=
  if 0 ≤ e then some (m * Nat.pow 2 e.toNat)
  else if m % Nat.pow 2 (-e).toNat = 0 then some (m / Nat.pow 2 (-e).toNat)
  else none

def factorialValue (x : Float) : Except CalcError Float :=
  if x < 0 then .error (.domain "factorial of negative number")
  else if x > Double.nearest false maxFactorial 1 then
    .error (.domain "value too large for factorial")
  else
    match Double.read x with
    | .finite _ m e =>
      match natural? m e with
      | some n => .ok (Double.ofInt (factorialOf n).toInt)
      | none => .error (.domain "factorial requires an integer")
    | _ => .error (.domain "factorial requires an integer")

def builtins : List Function :=
  [plain "sqrt" Float.sqrt,
    plain "log" Float.log10,
    plain "ln" Float.log,
    plain "square" fun x => x * x,
    plain "cube" fun x => x * x * x,
    plain "exp10" fun x => Float.pow 10 x,
    plain "exp" Float.exp,
    plain "reciprocal" fun x => 1 / x,
    plain "abs" Float.abs,
    ⟨"factorial", fun _ x => factorialValue x⟩,
    trigonometric "sin" Float.sin,
    trigonometric "cos" Float.cos,
    trigonometric "tan" Float.tan]

end Function

end Abacus
