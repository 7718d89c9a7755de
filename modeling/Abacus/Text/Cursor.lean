/-!
Cursors over a text. A cursor holds the characters still ahead and the byte
offset of the first of them; every move drops characters from the front and
adds their UTF-8 widths to the offset. The space character is the only one
that is ever skipped.
-/

namespace Abacus.Text

/-- The number of bytes that a run of characters takes in UTF-8. -/
def width (chars : List Char) : Nat :=
  chars.foldr (fun c n => c.utf8Size + n) 0

/-- A number is written with the ASCII digits and the dot. -/
def isNumberChar (c : Char) : Bool :=
  c.isDigit || c == '.'

structure Cursor where
  offset : Nat
  rest : List Char
deriving DecidableEq, Repr

namespace Cursor

def start (text : String) : Cursor :=
  ⟨0, text.toList⟩

def peek (c : Cursor) : Option Char :=
  c.rest.head?

def atEnd (c : Cursor) : Bool :=
  c.rest.isEmpty

/-- Steps over one character; at the end of the text it stays. -/
def next (c : Cursor) : Cursor :=
  match c.rest with
  | [] => c
  | ch :: rest => ⟨c.offset + ch.utf8Size, rest⟩

def skipWhile (p : Char → Bool) (c : Cursor) : Cursor :=
  ⟨c.offset + width (c.rest.takeWhile p), c.rest.dropWhile p⟩

def skipSpaces (c : Cursor) : Cursor :=
  c.skipWhile (· == ' ')

/-- Skips spaces and then steps over `ch` if it is the next character. The
spaces stay skipped when it is not. -/
def eat (c : Cursor) (ch : Char) : Bool × Cursor :=
  if c.skipSpaces.peek = some ch then (true, c.skipSpaces.next)
  else (false, c.skipSpaces)

/-- The longest run of number characters ahead, however many dots it holds. -/
def scanNumber (c : Cursor) : List Char × Cursor :=
  (c.rest.takeWhile isNumberChar, c.skipWhile isNumberChar)

end Cursor

end Abacus.Text
