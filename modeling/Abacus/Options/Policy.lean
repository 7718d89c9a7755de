import Abacus.CalcError
import Abacus.Options

/-!
The policy on results that are no finite number. Finite results always pass.
-/

namespace Abacus.Options

def check (options : Options) (x : Float) : Except CalcError Float :=
  match options.nonFinite, Double.read x with
  | .reject, .notANumber => .error .notANumber
  | .reject, .infinite _ => .error .overflow
  | _, _ => .ok x

end Abacus.Options
