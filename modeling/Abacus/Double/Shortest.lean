import Abacus.Double.Reading

/-!
The shortest decimal that reads back to a given double. The double
`m * 2 ^ e` and the two ends of the interval of reals nearest to it are
written as integers over a common power of ten. Grids of powers of ten are
then tried from the coarsest on: a grid with a point in the interval has one
next to the double, and of two such points the nearer is taken.
-/

namespace Abacus.Double

/-- The number `digits * 10 ^ exponent`. -/
structure Decimal where
  digits : Nat
  exponent : Int
deriving DecidableEq, Repr

/-- The same number without zeros at the end of its digits. -/
def Decimal.trimZeros (d : Decimal) : Decimal :=
  if 0 < d.digits ∧ d.digits % 10 = 0 then
    trimZeros ⟨d.digits / 10, d.exponent + 1⟩
  else d
termination_by d.digits

/-- Which of two equally near decimals is taken. -/
inductive Tie where
  | upward
  | toEven
deriving DecidableEq, Repr

def Tie.goesUp : Tie → Nat → Bool
  | upward, _ => true
  | toEven, below => below % 2 = 1

/-- A double as `center` units, with the ends of its interval in quarters of
a unit; the ends belong to the interval when `closed` holds. -/
structure Interval where
  center : Nat
  low : Nat
  high : Nat
  closed : Bool
  unitExponent : Int
deriving DecidableEq, Repr

namespace Interval

/-- Below a power of two the neighbour is only half as far away. -/
def ofMantissa (m : Nat) (e : Int) : Interval :=
  let step := if 0 ≤ e then Nat.pow 2 e.toNat else Nat.pow 5 (-e).toNat
  let gap := if m = hiddenBit ∧ leastExponent < e then 1 else 2
  { center := m * step
    low := (4 * m - gap) * step
    high := (4 * m + 2) * step
    closed := m % 2 = 0
    unitExponent := min e 0 }

def holds (i : Interval) (n : Nat) : Bool :=
  if i.closed then i.low ≤ 4 * n && 4 * n ≤ i.high
  else i.low < 4 * n && 4 * n < i.high

/-- The point taken on the grid with distance `grid`, as its multiple. -/
def pick? (i : Interval) (tie : Tie) (grid : Nat) : Option Nat :=
  let below := i.center / grid
  match i.holds (below * grid), i.holds ((below + 1) * grid) with
  | true, true =>
    let twice := 2 * (i.center % grid)
    if twice < grid then some below
    else if grid < twice then some (below + 1)
    else if tie.goesUp below then some (below + 1) else some below
  | true, false => some below
  | false, true => some (below + 1)
  | false, false => none

/-- Tries the grid `10 ^ j` and then the finer ones. On the finest, the
center itself is a point. -/
def search (i : Interval) (tie : Tie) : Nat → Decimal
  | 0 => ⟨i.center, i.unitExponent⟩
  | j + 1 =>
    match i.pick? tie (Nat.pow 10 (j + 1)) with
    | some k => ⟨k, i.unitExponent + (j + 1 : Nat)⟩
    | none => i.search tie j

end Interval

/-- The shortest decimal for `m * 2 ^ e`, of the shortest ones the nearest. -/
def shortest (tie : Tie) (m : Nat) (e : Int) : Decimal :=
  if m = 0 then ⟨0, 0⟩
  else
    let i := Interval.ofMantissa m e
    (i.search tie ((Nat.toDigits 10 i.center).length - 1)).trimZeros

end Abacus.Double
