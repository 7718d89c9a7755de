import Abacus.CommandLine.Arguments
import Abacus.CommandLine.Help
import Abacus.Text.Line
import Abacus.Options.Text
import Abacus.Log
import Abacus.Report

/-!
Runs of the program. The options and the function are settled first, and if
they cannot be, nothing is evaluated. Then the words, joined by spaces, are
one expression; without words each line of the input that is not blank is one.
-/

namespace Abacus.CommandLine

/-- What a run does in turn: lines for the output and the error output, and
entries of the log. -/
inductive Event where
  | print (line : String)
  | complain (line : String)
  | log (entry : LogEntry)

structure Outcome where
  events : List Event
  code : Nat

/-- How a file is read: its bytes, or why there are none. -/
abbrev Loader := String → Except FileError (List UInt8)

def loadOptions (load : Loader) (path : String) : Except CalcError Options := do
  let bytes ← (load path).mapError fun reason => .config (.unreadable path reason)
  match Text.decode? bytes with
  | none => .error (.config (.unreadable path .notText))
  | some text => (Options.ofJson text).mapError fun fault => .config (.invalid fault)

namespace Request

/-- The options of the request on top of those of its file. -/
def override (request : Request) (options : Options) : Options where
  nonFinite := if request.allowNonFinite then .allow else options.nonFinite
  angle := if request.radians then .radians else options.angle
  substituteConstants := !request.noConstants && options.substituteConstants

def options (request : Request) (load : Loader) : Except CalcError Options := do
  let fileOptions ← match request.config with
    | some path => loadOptions load path
    | none => .ok {}
  .ok (request.override fileOptions)

def unknownFunctionMessage (calculator : Calculator) (name : String) : String :=
  (CalcError.unknownFunction name).message ++ " (known: "
    ++ String.intercalate ", " calculator.registry.names ++ ")"

/-- The calculator of a run, or the line that says why there is none. -/
def calculator (request : Request) (load : Loader) : Except String Calculator := do
  let options ← (request.options load).mapError CalcError.message
  let calculator : Calculator := { options := options }
  match request.function with
  | none => .ok calculator
  | some name =>
    if (calculator.registry.get? name).isSome then .ok calculator
    else .error (unknownFunctionMessage calculator name)

def evaluate (request : Request) (calculator : Calculator) (text : String) :
    Except CalcError Float := do
  let x ← calculator.calculate text
  match request.function with
  | some name => calculator.apply name x
  | none => .ok x

def logEntries (request : Request) (calculator : Calculator) (text : String) : List LogEntry :=
  calculator.calculationLog text ++
    match calculator.calculate text, request.function with
    | .ok x, some name => calculator.applicationLog name x
    | _, _ => []

/-- Whether an entry is shown: the first degree of verbosity shows debug
entries, the second all. -/
def shows (request : Request) (entry : LogEntry) : Bool :=
  match entry.level with
  | .debug => 1 ≤ request.verbosity
  | .trace => 2 ≤ request.verbosity

def answer (request : Request) (text : String) (outcome : Except CalcError Float) : Event :=
  if request.json then .print (Report.write text outcome)
  else
    match outcome with
    | .ok x => .print (Double.Style.display.write x)
    | .error reason => .complain (text ++ ": " ++ reason.message)

/-- The events of one expression. -/
def expressionEvents (request : Request) (calculator : Calculator) (text : String) :
    List Event :=
  ((request.logEntries calculator text).filter request.shows).map Event.log
    ++ [request.answer text (request.evaluate calculator text)]

def fails (request : Request) (calculator : Calculator) (text : String) : Bool :=
  !(request.evaluate calculator text).isOk

def exitCode (failed : Bool) : Nat :=
  if failed then 1 else 0

def runWords (request : Request) (calculator : Calculator) : Outcome :=
  let text := String.intercalate " " request.words
  ⟨request.expressionEvents calculator text, exitCode (request.fails calculator text)⟩

def invalidLine : String :=
  "stdin: " ++ FileError.notText.message

/-- Runs line by line, and stops at a line that is no text. -/
def runLines (request : Request) (calculator : Calculator) (failed : Bool) :
    List Text.Line → Outcome
  | [] => ⟨[], exitCode failed⟩
  | line :: lines =>
    match line.text? with
    | none => ⟨[.complain invalidLine], 2⟩
    | some text =>
      if (Text.trim text).isEmpty then request.runLines calculator failed lines
      else
        let rest :=
          request.runLines calculator (failed || request.fails calculator text) lines
        ⟨request.expressionEvents calculator text ++ rest.events, rest.code⟩

def run (request : Request) (load : Loader) (input : List UInt8) : Outcome :=
  match request.calculator load with
  | .error line => ⟨[.complain line], 2⟩
  | .ok calculator =>
    if request.words.isEmpty then
      request.runLines calculator false (Text.splitLines input)
    else request.runWords calculator

end Request

def Invocation.outcome (load : Loader) (input : List UInt8) : Invocation → Outcome
  | .help => ⟨helpLines.map .print, 0⟩
  | .version => ⟨[.print versionLine], 0⟩
  | .refused => ⟨usageLines.map .complain, 2⟩
  | .run request => request.run load input

end Abacus.CommandLine
