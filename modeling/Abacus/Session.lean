import Abacus.Calculator
import Abacus.Options.Text

/-!
Sessions of a user with one calculator and any number of registries. The
commands are the calls that the library offers to a program, in any order.
Each changes the session and gets a reply; the last value that a calculation
or a function gave is kept for the next command.
-/

namespace Abacus

structure Session where
  calculator : Calculator := {}
  registries : List Registry := [Registry.builtins]
  last : Float := 0

namespace Session

inductive Command where
  | calculate (text : String)
  | feed (template : String)
  | apply (name : String)
  | call (registry : Nat) (name : String)
  | check
  | setLast (x : Float)
  | setOptions (options : Options)
  | loadOptions (text : String)
  | addRegistry (registry : Registry)
  | cloneRegistry (registry : Nat)
  | register (registry : Nat) (f : Function)
  | names (registry : Nat)
  | get (registry : Nat) (name : String)
  | use (registry : Nat)
  | reset

inductive Reply where
  | nothing
  | value (x : Float)
  | failed (reason : CalcError)
  | index (n : Nat)
  | names (names : List String)
  | name (name : String)

def Reply.ofOutcome : Except CalcError Float → Reply
  | .ok x => value x
  | .error reason => failed reason

/-- Puts a text in place of each pair of braces. -/
def fillIn (text : List Char) : List Char → List Char
  | '\x7b' :: '\x7d' :: rest => text ++ fillIn text rest
  | c :: rest => c :: fillIn text rest
  | [] => []

/-- The template with the last value in place of each pair of braces. -/
def fed (session : Session) (template : String) : String :=
  String.ofList (fillIn (Double.Style.display.write session.last).toList template.toList)

/-- A value becomes the last one; a failure leaves it as it was. -/
def conclude (session : Session) (outcome : Except CalcError Float) : Session × Reply :=
  match outcome with
  | .ok x => (⟨session.calculator, session.registries, x⟩, .value x)
  | .error reason => (session, .failed reason)

def setOptions (session : Session) (options : Options) : Session :=
  ⟨⟨options, session.calculator.registry⟩, session.registries, session.last⟩

def setCalculator (session : Session) (calculator : Calculator) : Session × Reply :=
  (⟨calculator, session.registries, session.last⟩, .names calculator.registry.names)

def addRegistry (session : Session) (registry : Registry) : Session × Reply :=
  (⟨session.calculator, session.registries ++ [registry], session.last⟩,
    .index session.registries.length)

/-- What is asked of a registry that is not there gets no reply. -/
def withRegistry (session : Session) (n : Nat) (act : Registry → Session × Reply) :
    Session × Reply :=
  match session.registries[n]? with
  | some registry => act registry
  | none => (session, .nothing)

def callReply (session : Session) (registry : Registry) (name : String) : Reply :=
  match registry.get? name with
  | some f => .ofOutcome (f.call session.calculator.options session.last)
  | none => .nothing

def step (session : Session) : Command → Session × Reply
  | .calculate text => session.conclude (session.calculator.calculate text)
  | .feed template => session.conclude (session.calculator.calculate (session.fed template))
  | .apply name => session.conclude (session.calculator.apply name session.last)
  | .call n name => session.withRegistry n fun registry =>
    (session, session.callReply registry name)
  | .check => (session, .ofOutcome (session.calculator.options.check session.last))
  | .setLast x => (⟨session.calculator, session.registries, x⟩, .nothing)
  | .setOptions options => (session.setOptions options, .nothing)
  | .loadOptions text =>
    match Options.ofJson text with
    | .ok options => (session.setOptions options, .nothing)
    | .error fault => (session, .failed (.config (.invalid fault)))
  | .addRegistry registry => session.addRegistry registry
  | .cloneRegistry n => session.withRegistry n session.addRegistry
  | .register n f => session.withRegistry n fun registry =>
    let changed := registry.register f
    (⟨session.calculator, session.registries.set n changed, session.last⟩, .names changed.names)
  | .names n => session.withRegistry n fun registry => (session, .names registry.names)
  | .get n name => session.withRegistry n fun registry =>
    (session, ((registry.get? name).map fun f => Reply.name f.name).getD .nothing)
  | .use n => session.withRegistry n fun registry =>
    session.setCalculator ⟨{}, registry⟩
  | .reset => session.setCalculator ⟨{}, Registry.builtins⟩

end Session

end Abacus
