import Abacus.Json.Number

/-!
Values of any kind. A value that nobody asked for is skipped, with the open
lists and objects on a stack, so that it may be nested to any depth. A value
of a kind that is not accepted is read as far as its kind takes to name.
-/

namespace Abacus.Json

open Text

inductive Bracket where
  | list
  | object
deriving DecidableEq, Repr

namespace Bracket

def closing : Bracket → Char
  | list => ']'
  | object => '\x7d'

def endCause : Bracket → Cause
  | list => .endInList
  | object => .endInObject

def separatorCause : Bracket → Cause
  | list => .expectedListSeparator
  | object => .expectedObjectSeparator

end Bracket

/-- Skips a member's key and colon; there is nothing to skip before an element
of a list. -/
def skipKey (bracket : Bracket) (c : Cursor) : Except Failure (Read Unit) :=
  match bracket with
  | .list => .ok ((), c)
  | .object => do
    let c := skipBlanks c
    match c.peek with
    | some '"' =>
      let ((), c) ← skipString c.next
      readColon c
    | some _ => failPast .keyNotString c
    | none => failPast .endInObject c

/-- Behind a value: closes brackets up to the next comma. -/
def skipClosings : List Bracket → Cursor → Except Failure (Read (Next (List Bracket) Unit))
  | [], c => .ok (.done (), c)
  | bracket :: enclosing, c =>
    let c := skipBlanks c
    if c.peek = some ',' then do
      let ((), c) ← skipKey bracket c.next
      .ok (.more (bracket :: enclosing), c)
    else if c.peek = some bracket.closing then skipClosings enclosing c.next
    else failPast (if c.atEnd then bracket.endCause else bracket.separatorCause) c

/-- Behind an opening bracket: up to its first value, or past its end. -/
def skipOpening (bracket : Bracket) (enclosing : List Bracket) (c : Cursor) :
    Except Failure (Read (Next (List Bracket) Unit)) :=
  let c := skipBlanks c
  if c.peek = some bracket.closing then skipClosings enclosing c.next
  else if c.atEnd then failPast bracket.endCause c
  else do
    let ((), c) ← skipKey bracket c
    .ok (.more (bracket :: enclosing), c)

def skipScalar (c : Cursor) : Except Failure (Read Unit) :=
  match c.peek with
  | some 'n' => readWord "ull".toList c.next
  | some 't' => readWord "rue".toList c.next
  | some 'f' => readWord "alse".toList c.next
  | some '-' => skipNumber c.next
  | some '"' => skipString c.next
  | some ch => if ch.isDigit then skipNumber c else failPast .expectedValue c
  | none => failPast .endInValue c

def skipValueStep (enclosing : List Bracket) (c : Cursor) :
    Except Failure (Read (Next (List Bracket) Unit)) :=
  let c := skipBlanks c
  match c.peek with
  | some '[' => skipOpening .list enclosing c.next
  | some '\x7b' => skipOpening .object enclosing c.next
  | _ => do
    let ((), c) ← skipScalar c
    skipClosings enclosing c

def skipValue (c : Cursor) : Except Failure (Read Unit) :=
  repeatStep skipValueStep [] c

/-- Reads a scalar, and only looks at the bracket of a list or an object. -/
def readKind (c : Cursor) : Except Failure (Read Kind) :=
  match c.peek with
  | some 'n' => do
    let ((), c) ← readWord "ull".toList c.next
    .ok (.null, c)
  | some 't' => do
    let ((), c) ← readWord "rue".toList c.next
    .ok (.boolean true, c)
  | some 'f' => do
    let ((), c) ← readWord "alse".toList c.next
    .ok (.boolean false, c)
  | some '-' => readNumber true c.next
  | some '"' => do
    let (text, c) ← readString c.next
    .ok (.string text, c)
  | some '[' => .ok (.list, c)
  | some '\x7b' => .ok (.object, c)
  | some ch => if ch.isDigit then readNumber false c else failPast .expectedValue c
  | none => failPast .expectedValue c

/-- Fails because a value is not of the expected kind. -/
def refuse {α : Type} (expected : String) (c : Cursor) : Except Failure α := do
  let (kind, after) ← readKind c
  failHere (.wrongKind kind expected) after

end Abacus.Json
