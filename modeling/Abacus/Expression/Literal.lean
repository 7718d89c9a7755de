import Abacus.Double.Nearest

/-!
Number literals. A literal has digits before and after an optional dot, at
least one in all; its value is the double nearest to the decimal it writes.
-/

namespace Abacus.Expression

structure Literal where
  whole : List Char
  fraction : List Char
deriving DecidableEq, Repr

namespace Literal

def ofParts? (whole fraction : List Char) : Option Literal :=
  if fraction.all Char.isDigit && !(whole ++ fraction).isEmpty then some ⟨whole, fraction⟩
  else none

/-- Splits a run of digits and dots at its dot. A second dot, or a run
without any digit, is no literal. -/
def ofRun? (run : List Char) : Option Literal :=
  let whole := run.takeWhile Char.isDigit
  match run.dropWhile Char.isDigit with
  | [] => ofParts? whole []
  | '.' :: fraction => ofParts? whole fraction
  | _ => none

/-- The literal without its dot, read as one integer. -/
def digits (literal : Literal) : Nat :=
  Nat.ofDigitChars 10 (literal.whole ++ literal.fraction) 0

/-- The number of tens by which the digits are divided. -/
def scale (literal : Literal) : Nat :=
  literal.fraction.length

def value (literal : Literal) : Float :=
  Double.nearest false literal.digits (Nat.pow 10 literal.scale)

end Literal

end Abacus.Expression
