import Abacus.Text.Cursor
import Abacus.Text.Quoted
import Abacus.Double.Style

/-!
What can be wrong with a JSON text. Readers report a failure with a byte
offset into the text; for the user it is placed in a line and a column, both
counted by bytes.
-/

namespace Abacus.Json

/-- The kind of a value, as it is named where another kind is expected. -/
inductive Kind where
  | null
  | boolean (value : Bool)
  | integer (value : Int)
  | float (value : Float)
  | string (text : String)
  | list
  | object

def Kind.describe : Kind → String
  | null => "null"
  | boolean value => "boolean \x60" ++ toString value ++ "\x60"
  | integer value => "integer \x60" ++ toString value ++ "\x60"
  | float value => "floating point \x60" ++ Double.Style.json.write value ++ "\x60"
  | string text => "string " ++ Text.quoted text
  | list => "sequence"
  | object => "map"

inductive Cause where
  | endInValue
  | endInString
  | endInList
  | endInObject
  | expectedValue
  | expectedWord
  | expectedColon
  | expectedListSeparator
  | expectedObjectSeparator
  | keyNotString
  | trailingComma
  | trailingCharacters
  | invalidNumber
  | numberOutOfRange
  | invalidEscape
  | controlCharacter
  | loneSurrogate
  | unfinishedSurrogates
  | wrongKind (found : Kind) (expected : String)
  | unknownVariant (name : String) (first second : String)
  | repeatedMember (name : String)

def Cause.message : Cause → String
  | endInValue => "EOF while parsing a value"
  | endInString => "EOF while parsing a string"
  | endInList => "EOF while parsing a list"
  | endInObject => "EOF while parsing an object"
  | expectedValue => "expected value"
  | expectedWord => "expected ident"
  | expectedColon => "expected \x60:\x60"
  | expectedListSeparator => "expected \x60,\x60 or \x60]\x60"
  | expectedObjectSeparator => "expected \x60,\x60 or \x60\x7d\x60"
  | keyNotString => "key must be a string"
  | trailingComma => "trailing comma"
  | trailingCharacters => "trailing characters"
  | invalidNumber => "invalid number"
  | numberOutOfRange => "number out of range"
  | invalidEscape => "invalid escape"
  | controlCharacter => "control character (\\u0000-\\u001F) found while parsing a string"
  | loneSurrogate => "lone leading surrogate in hex escape"
  | unfinishedSurrogates => "unexpected end of hex escape"
  | wrongKind found expected => "invalid type: " ++ found.describe ++ ", expected " ++ expected
  | unknownVariant name first second =>
    "unknown variant \x60" ++ name ++ "\x60, expected \x60" ++ first ++ "\x60 or \x60"
      ++ second ++ "\x60"
  | repeatedMember name => "duplicate field \x60" ++ name ++ "\x60"

structure Failure where
  cause : Cause
  offset : Nat

structure Fault where
  cause : Cause
  line : Nat
  column : Nat

/-- Walks over the characters that end within the first `offset` bytes. The
result counts the line ends among them and gives the start of the last line. -/
def lineOf (offset : Nat) : List Char → (passed lines start : Nat) → Nat × Nat
  | [], _, lines, start => (lines, start)
  | c :: rest, passed, lines, start =>
    let stop := passed + c.utf8Size
    if offset < stop then (lines, start)
    else if c = '\n' then lineOf offset rest stop (lines + 1) stop
    else lineOf offset rest stop lines start

/-- The first line has number one; a column counts the bytes before it. -/
def Failure.locate (failure : Failure) (text : String) : Fault :=
  let (lines, start) := lineOf failure.offset text.toList 0 0 0
  ⟨failure.cause, lines + 1, failure.offset - start⟩

def Fault.render (fault : Fault) : String :=
  fault.cause.message ++ " at line " ++ toString fault.line ++ " column " ++ toString fault.column

end Abacus.Json
