import Abacus.Text.Cursor
import Abacus.Double.Remainder
import Abacus.Expression.SyntaxError
import Abacus.Expression.Literal

/-!
Evaluation of infix expressions. From the loosest to the tightest binding:

    expression := term { ('+' | '-') term }
    term       := factor { ('*' | '/' | '%') factor }
    factor     := ('+' | '-') factor | power
    power      := primary [ '^' factor ]
    primary    := number | '(' expression ')'

Each production reads from a cursor and gives the value of what it read with
the cursor behind it. A factor is given the number of factors that may still
be open inside it, itself included, and recursion goes down in this number.
-/

namespace Abacus.Expression

open Text

abbrev Outcome := Except SyntaxError (Float × Cursor)

abbrev Production := Cursor → Outcome

abbrev Operation := Float → Float → Float

/-- How many factors may be open at once. -/
def maxDepth : Nat := 512

def failAt (cause : Cause) (c : Cursor) : SyntaxError :=
  ⟨cause, c.offset, c.peek⟩

def unexpected (c : Cursor) : SyntaxError :=
  match c.peek with
  | some ch => failAt (.unexpectedCharacter ch) c
  | none => failAt .unexpectedEnd c

def additive : Char → Option Operation
  | '+' => some Float.add
  | '-' => some Float.sub
  | _ => none

def multiplicative : Char → Option Operation
  | '*' => some Float.mul
  | '/' => some Float.div
  | '%' => some Double.remainder
  | _ => none

/-- Reads operators and operands for as long as an operator comes next, and
combines from the left. An operand that reads nothing ends the chain. -/
def chainFrom (operation? : Char → Option Operation) (operand : Production)
    (x : Float) (c : Cursor) : Outcome :=
  let ahead := c.skipSpaces
  match ahead.peek.bind operation? with
  | none => .ok (x, ahead)
  | some operation =>
    match operand ahead.next with
    | .error e => .error e
    | .ok (y, after) =>
      if after.rest.length < c.rest.length then
        chainFrom operation? operand (operation x y) after
      else .ok (operation x y, after)
termination_by c.rest.length

def chain (operation? : Char → Option Operation) (operand : Production) : Production :=
  fun c => do
    let (x, after) ← operand c
    chainFrom operation? operand x after

def number : Production := fun c =>
  if c.peek.any isNumberChar then
    let (run, after) := c.scanNumber
    match Literal.ofRun? run with
    | some literal => .ok (literal.value, after)
    | none => .error (failAt (.malformedNumber (String.ofList run)) c)
  else .error (unexpected c)

def primary (inner : Production) : Production := fun c =>
  match c.eat '(' with
  | (true, inside) => do
    let (x, after) ← inner inside
    match after.eat ')' with
    | (true, outside) => .ok (x, outside)
    | (false, stop) => .error (failAt .missingParenthesis stop)
  | (false, ahead) => number ahead

/-- The exponent is a factor, so powers group from the right. -/
def power (base exponent : Production) : Production := fun c => do
  let (x, after) ← base c
  match after.eat '^' with
  | (true, ahead) =>
    let (y, done) ← exponent ahead
    .ok (Float.pow x y, done)
  | (false, ahead) => .ok (x, ahead)

def expression (factor : Production) : Production :=
  chain additive (chain multiplicative factor)

def negated (production : Production) : Production := fun c => do
  let (x, after) ← production c
  .ok (-x, after)

def factor : Nat → Production
  | 0, c => .error (failAt .nestedTooDeeply c)
  | room + 1, c =>
    match c.eat '+' with
    | (true, ahead) => factor room ahead
    | (false, c) =>
      match c.eat '-' with
      | (true, ahead) => negated (factor room) ahead
      | (false, c) => power (primary (expression (factor room))) (factor room) c

/-- The value of a text in which at most `room` factors are open at once. -/
def evaluateWithin (room : Nat) (text : String) : Except SyntaxError Float := do
  let (x, after) ← expression (factor room) (Cursor.start text)
  if after.atEnd then .ok x else .error (unexpected after)

def evaluate (text : String) : Except SyntaxError Float :=
  evaluateWithin maxDepth text

end Abacus.Expression
