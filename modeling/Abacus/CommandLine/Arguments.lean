/-!
The arguments of the command line. Options come first. The first argument
that is no known option is a word of the expression, and so is everything
behind it; a double hyphen ends the options without being a word.
-/

namespace Abacus.CommandLine

/-- What the arguments ask for. -/
structure Request where
  words : List String := []
  config : Option String := none
  allowNonFinite : Bool := false
  radians : Bool := false
  noConstants : Bool := false
  function : Option String := none
  json : Bool := false
  verbosity : Nat := 0
deriving DecidableEq, Repr

inductive Invocation where
  | help
  | version
  | refused
  | run (request : Request)
deriving DecidableEq, Repr

inductive Switch where
  | allowNonFinite
  | radians
  | noConstants
  | json
  | verbose
  | help
  | version
deriving DecidableEq, Repr

/-- The options that take a value. -/
inductive Setting where
  | config
  | function
deriving DecidableEq, Repr

def Switch.ofName? : String → Option Switch
  | "allow-non-finite" => some allowNonFinite
  | "radians" => some radians
  | "no-constants" => some noConstants
  | "json" => some json
  | "verbose" => some verbose
  | "help" => some help
  | "version" => some version
  | _ => none

def Switch.ofLetter? : Char → Option Switch
  | 'v' => some verbose
  | 'h' => some help
  | 'V' => some version
  | _ => none

def Setting.ofName? : String → Option Setting
  | "config" => some config
  | "apply" => some function
  | _ => none

/-- How an argument reads in front of the first word. -/
inductive Token where
  | endOfOptions
  | switches (switches : List Switch)
  | valuedSwitch
  | setting (setting : Setting) (value : Option String)
  | word
deriving DecidableEq, Repr

namespace Token

/-- The name of a long option, and its value if there is an equals sign. -/
def splitName (body : List Char) : String × Option String :=
  let name := String.ofList (body.takeWhile (· != '='))
  match body.dropWhile (· != '=') with
  | [] => (name, none)
  | _ :: value => (name, some (String.ofList value))

def ofLong (body : List Char) : Token :=
  let (name, value) := splitName body
  match Switch.ofName? name, Setting.ofName? name, value with
  | some switch, _, none => switches [switch]
  | some _, _, some _ => valuedSwitch
  | none, some s, value => setting s value
  | none, none, _ => word

/-- Letters stand for switches only if all of them do. -/
def ofLetters (letters : List Char) : Token :=
  match letters.mapM Switch.ofLetter? with
  | some [] => word
  | some list => switches list
  | none => word

def ofArgument (argument : String) : Token :=
  match argument.toList with
  | ['-', '-'] => endOfOptions
  | '-' :: '-' :: body => ofLong body
  | '-' :: letters => ofLetters letters
  | _ => word

end Token

namespace Request

/-- Turns a switch on. Only the verbose one may be given twice. -/
def turnOn (request : Request) : Switch → Except Invocation Request
  | .allowNonFinite =>
    if request.allowNonFinite then .error .refused
    else .ok { request with allowNonFinite := true }
  | .radians =>
    if request.radians then .error .refused else .ok { request with radians := true }
  | .noConstants =>
    if request.noConstants then .error .refused else .ok { request with noConstants := true }
  | .json => if request.json then .error .refused else .ok { request with json := true }
  | .verbose => .ok { request with verbosity := request.verbosity + 1 }
  | .help => .error .help
  | .version => .error .version

/-- Gives a setting its value, once. A path may not be empty. -/
def assign (request : Request) (setting : Setting) (value : String) :
    Except Invocation Request :=
  match setting with
  | .config =>
    if request.config.isSome || value.isEmpty then .error .refused
    else .ok { request with config := some value }
  | .function =>
    if request.function.isSome then .error .refused
    else .ok { request with function := some value }

/-- Reads arguments in front of the first word. A setting without a value of
its own takes the next argument, which may not be a known option. -/
def extend (request : Request) : List String → Except Invocation Request
  | [] => .ok request
  | argument :: rest =>
    match Token.ofArgument argument with
    | .endOfOptions => .ok { request with words := rest }
    | .word => .ok { request with words := argument :: rest }
    | .valuedSwitch => .error .refused
    | .switches list => do extend (← list.foldlM turnOn request) rest
    | .setting setting (some value) => do extend (← request.assign setting value) rest
    | .setting setting none =>
      match rest with
      | [] => .error .refused
      | value :: rest =>
        if Token.ofArgument value = .word then do
          extend (← request.assign setting value) rest
        else .error .refused

end Request

def Invocation.ofArguments (arguments : List String) : Invocation :=
  match Request.extend {} arguments with
  | .ok request => .run request
  | .error invocation => invocation

end Abacus.CommandLine
