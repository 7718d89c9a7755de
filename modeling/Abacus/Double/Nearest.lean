import Abacus.Double.Reading

/-!
The double nearest to a quotient of two natural numbers. The quotient is
brought to a grid of powers of two on which it takes 53 bits, rounded there
with ties to the even neighbour, and its place on the grid is turned into
magnitude bits. What lies beyond the largest double becomes infinity.
-/

namespace Abacus.Double

/-- The integer nearest to `num / den`, of two equally near ones the even. -/
def roundQuotient (num den : Nat) : Nat :=
  let quotient := num / den
  let twice := 2 * (num % den)
  if twice < den then quotient
  else if den < twice then quotient + 1
  else quotient + quotient % 2

/-- The quotient `num / (den * 2 ^ e)` as a numerator and a denominator. -/
def descale (num den : Nat) (e : Int) : Nat × Nat :=
  if 0 ≤ e then (num, den * Nat.pow 2 e.toNat) else (num * Nat.pow 2 (-e).toNat, den)

/-- The exponent of the grid on which `num / den` is rounded: there it lies
from `2 ^ 52` up to `2 ^ 53`, unless the least exponent is reached first. -/
def gridExponent (num den : Nat) : Int :=
  let low : Int := (Nat.log2 num : Int) - Nat.log2 den - 53
  let (scaledNum, scaledDen) := descale num den low
  max leastExponent (if 2 * hiddenBit ≤ scaledNum / scaledDen then low + 1 else low)

/-- The magnitude bits of the double nearest to `num / den`. -/
def nearestMagnitude (num den : Nat) : Nat :=
  if num = 0 then 0
  else
    let e := gridExponent num den
    let (scaledNum, scaledDen) := descale num den e
    min infiniteMagnitude
      ((e - leastExponent).toNat * hiddenBit + roundQuotient scaledNum scaledDen)

def nearest (negative : Bool) (num den : Nat) : Float :=
  assemble negative (nearestMagnitude num den)

/-- The double nearest to an integer. -/
def ofInt (n : Int) : Float :=
  nearest (n < 0) n.natAbs 1

/-- The double nearest to `mantissa * 2 ^ exponent`. -/
def nearestScaled (negative : Bool) (mantissa : Nat) (exponent : Int) : Float :=
  let (num, den) := descale mantissa 1 (-exponent)
  nearest negative num den

end Abacus.Double
