import Abacus.Double.Nearest
import Abacus.Json.Scan

/-!
Numbers in a JSON text. A number that is skipped is only checked. A number
that is read gives an integer when it has no fraction and no exponent and fits
into 64 bits, and otherwise a double: its leading digits, as many as fit into
64 bits, are scaled by one power of ten.
-/

namespace Abacus.Json

open Text

def digitRun (c : Cursor) : List Char × Cursor :=
  (c.rest.takeWhile Char.isDigit, c.skipWhile Char.isDigit)

/-- Appends digits to a number as long as it stays below a limit, and gives
the digits that did not fit. -/
def appendDigits (limit n : Nat) : List Char → Nat × List Char
  | [] => (n, [])
  | d :: digits =>
    let longer := 10 * n + (d.toNat - '0'.toNat)
    if longer < limit then appendDigits limit longer digits else (n, d :: digits)

def significandLimit : Nat := Nat.pow 2 64

def exponentLimit : Nat := Nat.pow 2 31

def hasExponentMark (c : Cursor) : Bool :=
  c.peek == some 'e' || c.peek == some 'E'

/-- The sign of an exponent, and the cursor at its first digit. -/
def exponentSign (c : Cursor) : Bool × Cursor :=
  match c.peek with
  | some '-' => (true, c.next)
  | some '+' => (false, c.next)
  | _ => (false, c)

def powerOfTen (n : Nat) : Float :=
  Double.nearest false (Nat.pow 10 n) 1

def largestPower : Nat := 308

/-- Multiplies or divides by a power of ten, in steps where the power alone is
no double. There is no result beyond the largest double. -/
def scaleByTen (x : Float) (exponent : Int) : Option Float :=
  if exponent.natAbs ≤ largestPower then
    if 0 ≤ exponent then
      let scaled := x * powerOfTen exponent.natAbs
      if (Double.read scaled).isInfinite then none else some scaled
    else some (x / powerOfTen exponent.natAbs)
  else if x == 0 then some x
  else if 0 ≤ exponent then none
  else scaleByTen (x / powerOfTen largestPower) (exponent + largestPower)
termination_by exponent.natAbs
decreasing_by simp only [largestPower] at *; omega

def signed (negative : Bool) (x : Float) : Float :=
  if negative then -x else x

def floatOf (negative : Bool) (significand : Nat) (exponent : Int) (c : Cursor) :
    Except Failure (Read Kind) :=
  match scaleByTen (Double.nearest false significand 1) exponent with
  | some x => .ok (.float (signed negative x), c)
  | none => failHere .numberOutOfRange c

/-- Reads an exponent whose mark is behind the cursor. -/
def readExponent (negative : Bool) (significand : Nat) (exponent : Int) (c : Cursor) :
    Except Failure (Read Kind) :=
  let (down, c) := exponentSign c
  let (digits, after) := digitRun c
  if digits.isEmpty then
    if c.atEnd then failHere .endInValue c else failPast .invalidNumber c
  else
    let (n, excess) := appendDigits exponentLimit 0 digits
    if excess.isEmpty then
      floatOf negative significand (if down then exponent - n else exponent + n) after
    else if significand ≠ 0 ∧ down = false then
      .error ⟨.numberOutOfRange, c.offset + (digits.length - excess.length) + 1⟩
    else .ok (.float (signed negative 0), after)

/-- Reads a fraction whose dot is behind the cursor. -/
def readFraction (negative : Bool) (significand : Nat) (exponent : Int) (c : Cursor) :
    Except Failure (Read Kind) :=
  let (digits, after) := digitRun c
  if digits.isEmpty then
    failPast (if c.atEnd then .endInValue else .invalidNumber) c
  else
    let (significand, excess) := appendDigits significandLimit significand digits
    let exponent := exponent - (digits.length - excess.length : Nat)
    if hasExponentMark after then readExponent negative significand exponent after.next
    else floatOf negative significand exponent after

/-- A negative integer has at most 63 bits besides its sign, and is not zero. -/
def integerOf (negative : Bool) (n : Nat) : Kind :=
  if negative then
    if 0 < n ∧ n ≤ Nat.pow 2 63 then .integer (-n) else .float (-Double.nearest false n 1)
  else .integer n

/-- Reads a number whose sign is behind the cursor. -/
def readNumber (negative : Bool) (c : Cursor) : Except Failure (Read Kind) :=
  let (digits, after) := digitRun c
  match digits with
  | [] => if c.atEnd then failHere .endInValue c else failPast .invalidNumber c
  | '0' :: _ :: _ => failPast .invalidNumber c.next
  | digits =>
    let (significand, excess) := appendDigits significandLimit 0 digits
    if after.peek = some '.' then readFraction negative significand excess.length after.next
    else if hasExponentMark after then
      readExponent negative significand excess.length after.next
    else if excess.isEmpty then .ok (integerOf negative significand, after)
    else floatOf negative significand excess.length after

def skipExponent (c : Cursor) : Except Failure (Read Unit) :=
  let (_, c) := exponentSign c
  let (digits, after) := digitRun c
  if digits.isEmpty then failPast .invalidNumber c else .ok ((), after)

def skipFraction (c : Cursor) : Except Failure (Read Unit) :=
  let (digits, after) := digitRun c
  if digits.isEmpty then failPast .invalidNumber c
  else if hasExponentMark after then skipExponent after.next
  else .ok ((), after)

/-- Skips a number whose sign is behind the cursor. -/
def skipNumber (c : Cursor) : Except Failure (Read Unit) :=
  let (digits, after) := digitRun c
  match digits with
  | [] => failPast .invalidNumber c
  | '0' :: _ :: _ => failPast .invalidNumber c.next
  | _ =>
    if after.peek = some '.' then skipFraction after.next
    else if hasExponentMark after then skipExponent after.next
    else .ok ((), after)

end Abacus.Json
