import Abacus.Double.Shortest

/-!
Styles of writing a double. All of them write the shortest decimal that reads
back; a style says which numbers are written without an exponent, how the
exponent looks, whether an integer keeps its point, which of two equally near
decimals is taken and what stands for the values that are not finite.
-/

namespace Abacus.Double

/-- The leading exponent is the power of ten of the first digit. -/
structure Style where
  tie : Tie
  positional : Int → Bool
  integerEnding : String
  exponentMark : String
  infinity : String
  notANumber : String

namespace Style

def zeros (n : Nat) : String :=
  String.ofList (List.replicate n '0')

def writePositional (ending : String) (digits : List Char) (exponent : Int) : String :=
  let leading := exponent + digits.length - 1
  if 0 ≤ exponent then String.ofList digits ++ zeros exponent.toNat ++ ending
  else if 0 ≤ leading then
    let whole := leading.toNat + 1
    String.ofList (digits.take whole) ++ "." ++ String.ofList (digits.drop whole)
  else "0." ++ zeros (-leading - 1).toNat ++ String.ofList digits

/-- A negative exponent has its sign in place of the plus of the mark. -/
def writeScientific (mark : String) (digits : List Char) (exponent : Int) : String :=
  let leading := exponent + digits.length - 1
  let power := if leading < 0 then "e" ++ toString leading else mark ++ toString leading
  let fraction := if digits.length = 1 then "" else "." ++ String.ofList (digits.drop 1)
  String.ofList (digits.take 1) ++ fraction ++ power

def writeDecimal (style : Style) (d : Decimal) : String :=
  let digits := Nat.toDigits 10 d.digits
  if style.positional (d.exponent + digits.length - 1) then
    writePositional style.integerEnding digits d.exponent
  else writeScientific style.exponentMark digits d.exponent

def signText (negative : Bool) : String :=
  if negative then "-" else ""

def write (style : Style) (x : Float) : String :=
  match read x with
  | .notANumber => style.notANumber
  | .infinite negative => signText negative ++ style.infinity
  | .finite negative m e => signText negative ++ style.writeDecimal (shortest style.tie m e)

/-- For display: never an exponent, no point after an integer. -/
def display : Style where
  tie := .upward
  positional _ := true
  integerEnding := ""
  exponentMark := "e"
  infinity := "Infinity"
  notANumber := "NaN"

/-- For JSON: numbers from `0.00001` up to, but not including, `1e+16` have
no exponent. -/
def json : Style where
  tie := .toEven
  positional leading := -5 ≤ leading && leading ≤ 15
  integerEnding := ".0"
  exponentMark := "e+"
  infinity := "inf"
  notANumber := "NaN"

/-- For the log: numbers from `0.0001` up to, but not including, `1e16` have
no exponent. -/
def log : Style where
  tie := .upward
  positional leading := -4 ≤ leading && leading ≤ 15
  integerEnding := ".0"
  exponentMark := "e"
  infinity := "inf"
  notANumber := "NaN"

end Style

end Abacus.Double
