/-!
What the 64 bits of a double stand for. A finite double is a sign, a mantissa
below `2 ^ 53` and an exponent of two that is at least `-1074`. The bits
without the sign count the doubles upwards from zero: the next larger
magnitude has the next larger number.
-/

namespace Abacus.Double

inductive Reading where
  | notANumber
  | infinite (negative : Bool)
  | finite (negative : Bool) (mantissa : Nat) (exponent : Int)
deriving DecidableEq, Repr

/-- The leading bit of a mantissa, which the bits of a double leave out. It is
also the unit of the exponent field. -/
def hiddenBit : Nat :=
  Nat.pow 2 52

def signBit : Nat :=
  Nat.pow 2 63

/-- The magnitude bits of infinity: all ones in the exponent field. -/
def infiniteMagnitude : Nat :=
  2047 * hiddenBit

/-- The least exponent of two, that of the subnormal doubles. -/
def leastExponent : Int :=
  -1074

def readMagnitude (negative : Bool) (magnitude : Nat) : Reading :=
  let field := magnitude / hiddenBit
  let fraction := magnitude % hiddenBit
  if infiniteMagnitude < magnitude then .notANumber
  else if magnitude = infiniteMagnitude then .infinite negative
  else if field = 0 then .finite negative fraction leastExponent
  else .finite negative (hiddenBit + fraction) (leastExponent + (field - 1 : Nat))

def readBits (bits : Nat) : Reading :=
  readMagnitude (signBit ≤ bits) (bits % signBit)

def read (x : Float) : Reading :=
  readBits x.toBits.toNat

/-- The double with a given sign and given magnitude bits. -/
def assemble (negative : Bool) (magnitude : Nat) : Float :=
  Float.ofBits (UInt64.ofNat (magnitude + if negative then signBit else 0))

def notANumber : Float :=
  Float.ofBits (UInt64.ofNat (infiniteMagnitude + hiddenBit / 2))

namespace Reading

def isNotANumber : Reading → Bool
  | notANumber => true
  | _ => false

def isInfinite : Reading → Bool
  | infinite _ => true
  | _ => false

def isFinite : Reading → Bool
  | finite _ _ _ => true
  | _ => false

end Reading

end Abacus.Double
