import Abacus.Calculator

/-!
The log of a calculator. A calculation and the application of a function each
leave an entry with their outcome, and a text that cannot be evaluated leaves
one of its own before. An entry is shown on one line, unless what it shows
without quotes holds a line end.
-/

namespace Abacus

inductive Level where
  | debug
  | trace
deriving DecidableEq, Repr

inductive LogEntry where
  | evaluationFailed (text : String) (reason : Expression.SyntaxError)
  | calculated (input resolved : String) (outcome : Except CalcError Float)
  | applied (name : String) (x : Float) (outcome : Except CalcError Float)

namespace Calculator

def evaluationLog (resolved : String) : List LogEntry :=
  match Expression.evaluate resolved with
  | .ok _ => []
  | .error reason => [.evaluationFailed resolved reason]

/-- What `calculate` leaves in the log. An empty input leaves nothing. -/
def calculationLog (calculator : Calculator) (text : String) : List LogEntry :=
  let input := Text.trim text
  if input.isEmpty then []
  else
    let resolved := calculator.resolve input
    evaluationLog resolved ++ [.calculated input resolved (calculator.evaluateChecked resolved)]

/-- What `apply` leaves in the log. An unknown function leaves nothing. -/
def applicationLog (calculator : Calculator) (name : String) (x : Float) : List LogEntry :=
  match calculator.registry.get? name with
  | some f => [.applied name x (calculator.applyFunction f x)]
  | none => []

end Calculator

namespace LogEntry

def level : LogEntry → Level
  | evaluationFailed _ _ => .trace
  | calculated _ _ _ => .debug
  | applied _ _ _ => .debug

/-- A character of a message. The controls of a terminal are spelled out. -/
def messageChar (c : Char) : String :=
  if c ∈ ['\x07', '\x08', '\x0c', '\x1b', '\x7f'] then
    "\\x" ++ (if c.toNat < 16 then "0" else "") ++ Text.hex c.toNat
  else if 0x80 ≤ c.toNat ∧ c.toNat ≤ 0x9f then "\\u\x7b" ++ Text.hex c.toNat ++ "\x7d"
  else c.toString

def messageText (text : String) : String :=
  String.join (text.toList.map messageChar)

def foundText : Option Char → String
  | none => "None"
  | some c => "Some(" ++ Text.quotedSingle c ++ ")"

def syntaxErrorText (e : Expression.SyntaxError) : String :=
  "SyntaxError \x7b message: " ++ Text.quoted e.message ++ ", position: "
    ++ toString e.position ++ ", found: " ++ foundText e.found ++ " \x7d"

def errorText : CalcError → String
  | .badExpression reason => "Syntax(" ++ syntaxErrorText reason ++ ")"
  | .emptyInput => "EmptyInput"
  | .overflow => "Overflow"
  | .notANumber => "NotANumber"
  | .unknownFunction name => "UnknownFunction(" ++ Text.quoted name ++ ")"
  | .domain reason => "Domain(" ++ Text.quoted reason ++ ")"
  | .config reason => "Config(" ++ Text.quoted reason.message ++ ")"

def outcomeText : Except CalcError Float → String
  | .ok x => "Ok(" ++ Double.Style.log.write x ++ ")"
  | .error reason => "Err(" ++ errorText reason ++ ")"

def render : LogEntry → String
  | evaluationFailed text reason =>
    "TRACE calc_eval::expression: evaluation failed: " ++ messageText reason.message
      ++ " input=" ++ Text.quoted text ++ " position=" ++ toString reason.position
  | calculated input resolved outcome =>
    "DEBUG calc_eval: calculated input=" ++ Text.quoted input ++ " resolved=" ++ resolved
      ++ " outcome=" ++ outcomeText outcome
  | applied name x outcome =>
    "DEBUG calc_eval: applied name=" ++ Text.quoted name ++ " value="
      ++ Double.Style.log.write x ++ " outcome=" ++ outcomeText outcome

end LogEntry

end Abacus
