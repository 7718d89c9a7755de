import Abacus.Double.Nearest

/-!
The remainder of a division truncated toward zero. Both operands are brought
to the smaller exponent, where they are integers; the remainder of these is
again a double, so nothing is rounded. The result has the sign of the
dividend, also when it is zero.
-/

namespace Abacus.Double

/-- The mantissa of `m * 2 ^ e` at an exponent `low` that is not above `e`. -/
def mantissaAt (low : Int) (m : Nat) (e : Int) : Nat :=
  m * Nat.pow 2 (e - low).toNat

def remainder (x y : Float) : Float :=
  match read x, read y with
  | .finite negative m₁ e₁, .finite _ m₂ e₂ =>
    if m₂ = 0 then notANumber
    else
      let low := min e₁ e₂
      nearestScaled negative (mantissaAt low m₁ e₁ % mantissaAt low m₂ e₂) low
  | .finite _ _ _, .infinite _ => x
  | _, _ => notANumber

end Abacus.Double
