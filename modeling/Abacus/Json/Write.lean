import Abacus.Double.Style

/-!
Writing JSON texts on one line.
-/

namespace Abacus.Json

def unicodeEscape (n : Nat) : List Char :=
  let digits := Nat.toDigits 16 n
  '\\' :: 'u' :: (List.replicate (4 - digits.length) '0' ++ digits)

/-- A character inside a string. Only what must be escaped is. -/
def escapeChar (c : Char) : List Char :=
  match c with
  | '"' => ['\\', '"']
  | '\\' => ['\\', '\\']
  | '\x08' => ['\\', 'b']
  | '\t' => ['\\', 't']
  | '\n' => ['\\', 'n']
  | '\x0c' => ['\\', 'f']
  | '\r' => ['\\', 'r']
  | _ => if c.toNat < 0x20 then unicodeEscape c.toNat else [c]

def writeString (text : String) : String :=
  "\"" ++ String.ofList (text.toList.flatMap escapeChar) ++ "\""

/-- There is no JSON number for a value that is not finite. -/
def writeFloat (x : Float) : String :=
  if (Double.read x).isFinite then Double.Style.json.write x else "null"

def writeMember (member : String × String) : String :=
  writeString member.1 ++ ":" ++ member.2

/-- An object with given names and given, already written, values. -/
def writeObject (members : List (String × String)) : String :=
  "\x7b" ++ String.intercalate "," (members.map writeMember) ++ "\x7d"

end Abacus.Json
