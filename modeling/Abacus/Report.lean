import Abacus.CalcError
import Abacus.Json.Write

/-!
The report on one expression as a JSON object: the expression as it was given,
and either its value with its display text or the message of its error.
-/

namespace Abacus.Report

def members : Except CalcError Float → List (String × String)
  | .ok x =>
    [("value", Json.writeFloat x),
      ("display", Json.writeString (Double.Style.display.write x))]
  | .error reason => [("error", Json.writeString reason.message)]

def write (expression : String) (outcome : Except CalcError Float) : String :=
  Json.writeObject (("expression", Json.writeString expression) :: members outcome)

end Abacus.Report
