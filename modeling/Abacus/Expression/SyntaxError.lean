/-!
The ways in which a text fails to be an expression. An error keeps its cause,
the byte offset at which reading stopped and the character found there.
-/

namespace Abacus.Expression

inductive Cause where
  | unexpectedCharacter (c : Char)
  | unexpectedEnd
  | missingParenthesis
  | malformedNumber (literal : String)
  | nestedTooDeeply
deriving DecidableEq, Repr

def Cause.message : Cause → String
  | unexpectedCharacter c => "unexpected character '" ++ c.toString ++ "'"
  | unexpectedEnd => "unexpected end of input"
  | missingParenthesis => "missing ')'"
  | malformedNumber literal => "malformed number '" ++ literal ++ "'"
  | nestedTooDeeply => "expression nested too deeply"

/-- The character found is `none` at the end of the text. -/
structure SyntaxError where
  cause : Cause
  position : Nat
  found : Option Char
deriving DecidableEq, Repr

def SyntaxError.message (e : SyntaxError) : String :=
  e.cause.message

def SyntaxError.render (e : SyntaxError) : String :=
  e.message ++ " at position " ++ toString e.position

end Abacus.Expression
