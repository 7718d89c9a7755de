import Abacus.Double.Style

/-!
The constants that an expression may name. A constant is put into a text as
its decimal in parentheses, so that a digit before or after it makes a syntax
error and not another number.
-/

namespace Abacus

structure Constant where
  symbol : Char
  value : Float

namespace Constant

def pi : Constant :=
  ⟨'π', Float.ofBits 0x400921fb54442d18⟩

def euler : Constant :=
  ⟨'e', Float.ofBits 0x4005bf0a8b145769⟩

def all : List Constant :=
  [pi, euler]

def ofSymbol? (c : Char) : Option Constant :=
  all.find? fun constant => constant.symbol == c

def text (constant : Constant) : String :=
  "(" ++ Double.Style.display.write constant.value ++ ")"

/-- What a character of the input becomes. -/
def image (c : Char) : List Char :=
  match ofSymbol? c with
  | some constant => constant.text.toList
  | none => [c]

def occursIn (input : String) : Bool :=
  input.toList.any fun c => (ofSymbol? c).isSome

def substitute (input : String) : String :=
  String.ofList (input.toList.flatMap image)

end Constant

end Abacus
