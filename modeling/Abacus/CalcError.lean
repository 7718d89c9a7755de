import Abacus.Expression.SyntaxError
import Abacus.Json.Fault

/-!
The ways in which a calculation, or the loading of its options, fails.
-/

namespace Abacus

/-- Why a file could not be read: the system refused it with a code, or its
bytes are no text. -/
inductive FileError where
  | refused (description : String) (code : Nat)
  | notText
deriving DecidableEq, Repr

namespace FileError

def notFound : FileError :=
  refused "No such file or directory" 2

def notDirectory : FileError :=
  refused "Not a directory" 20

def isDirectory : FileError :=
  refused "Is a directory" 21

def nameTooLong : FileError :=
  refused "File name too long" 36

def message : FileError → String
  | refused description code => description ++ " (os error " ++ toString code ++ ")"
  | notText => "stream did not contain valid UTF-8"

end FileError

inductive ConfigError where
  | unreadable (path : String) (reason : FileError)
  | invalid (fault : Json.Fault)

def ConfigError.message : ConfigError → String
  | unreadable path reason => path ++ ": " ++ reason.message
  | invalid fault => fault.render

inductive CalcError where
  | badExpression (reason : Expression.SyntaxError)
  | emptyInput
  | overflow
  | notANumber
  | unknownFunction (name : String)
  | domain (reason : String)
  | config (reason : ConfigError)

def CalcError.message : CalcError → String
  | badExpression reason => "syntax error: " ++ reason.render
  | emptyInput => "no input provided"
  | overflow => "result is too large"
  | notANumber => "invalid calculation"
  | unknownFunction name => "unknown function: " ++ name
  | domain reason => "invalid operation: " ++ reason
  | config reason => "config error: " ++ reason.message

end Abacus
