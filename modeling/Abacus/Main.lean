import Abacus.CommandLine.Run

/-!
The command line program. What it does is settled by the outcome of its
arguments; here the options file and the input are read and lines are written.
-/

namespace Abacus.CommandLine

/-- The code that the system gave, which may come with its sign turned. -/
def systemCode (code : UInt32) : Nat :=
  if code.toNat < 2147483648 then code.toNat else 4294967296 - code.toNat

def reasonOf : IO.Error → FileError
  | .noFileOrDirectory _ _ _ => .notFound
  | .inappropriateType _ code _ =>
    if systemCode code = 20 then .notDirectory else .isDirectory
  | .permissionDenied _ code details => .refused details (systemCode code)
  | e => .refused (toString e) 0

def loadFile (path : String) : IO (Except FileError (List UInt8)) := do
  try
    return .ok (← IO.FS.readBinFile path).toList
  catch e =>
    return .error (reasonOf e)

def perform : Event → IO Unit
  | .print line => IO.println line
  | .complain line => IO.eprintln line
  | .log entry => IO.eprintln entry.render

/-- The input is read only when there are expressions to be read from it. -/
def readInput (invocation : Invocation) (load : Loader) : IO (List UInt8) := do
  match invocation with
  | .run request =>
    if request.words.isEmpty && (request.calculator load).isOk then
      return (← (← IO.getStdin).readBinToEnd).toList
    else return []
  | _ => return []

def loadRequested : Invocation → IO Loader
  | .run request => do
    match request.config with
    | some path =>
      let content ← loadFile path
      return fun _ => content
    | none => return fun _ => .error .notFound
  | _ => return fun _ => .error .notFound

def program (arguments : List String) : IO UInt32 := do
  let invocation := Invocation.ofArguments arguments
  let load ← loadRequested invocation
  let input ← readInput invocation load
  let outcome := invocation.outcome load input
  outcome.events.forM perform
  return outcome.code.toUInt32

end Abacus.CommandLine

def main (arguments : List String) : IO UInt32 :=
  Abacus.CommandLine.program arguments
