import Mathlib.Algebra.Field.Basic
import Mathlib.Algebra.Order.Field.Rat
import Mathlib.Data.List.Forall2
import Abacus.Json.Skip

/-!
The grammar of JSON. A value is what a text says apart from the white space between its
parts; the strings and numbers in it are kept as they are written, and both carry what
makes them well formed. A string need not stand for a text: half of a surrogate pair may be
written as an escape, and then nothing is decoded.
-/

namespace Abacus.Json

/-- White space between the parts of a text. -/
def Blanks (chars : List Char) : Prop :=
  ∀ c ∈ chars, isBlank c = true

theorem blanks_nil : Blanks [] :=
  List.forall_mem_nil _

section Strings

/-- The escapes of one letter. -/
inductive Letter where
  | quote
  | backslash
  | slash
  | backspace
  | formFeed
  | newline
  | carriageReturn
  | tab
deriving DecidableEq, Repr

namespace Letter

def char : Letter → Char
  | quote => '"'
  | backslash => '\\'
  | slash => '/'
  | backspace => 'b'
  | formFeed => 'f'
  | newline => 'n'
  | carriageReturn => 'r'
  | tab => 't'

def meaning : Letter → Char
  | quote => '"'
  | backslash => '\\'
  | slash => '/'
  | backspace => '\x08'
  | formFeed => '\x0c'
  | newline => '\n'
  | carriageReturn => '\r'
  | tab => '\t'

end Letter

/-- Digits above nine may be written as small or as capital letters. -/
structure HexDigit where
  value : Fin 16
  capital : Bool
deriving DecidableEq, Repr

def HexDigit.char (digit : HexDigit) : Char :=
  if digit.capital then (Nat.digitChar digit.value).toUpper else Nat.digitChar digit.value

/-- The four digits of an escaped unit of UTF-16. -/
structure CodeUnit where
  first : HexDigit
  second : HexDigit
  third : HexDigit
  fourth : HexDigit
deriving DecidableEq, Repr

namespace CodeUnit

def chars (u : CodeUnit) : List Char :=
  [u.first.char, u.second.char, u.third.char, u.fourth.char]

def value (u : CodeUnit) : Nat :=
  0x1000 * u.first.value + 0x100 * u.second.value + 0x10 * u.third.value + u.fourth.value

def Leading (u : CodeUnit) : Prop :=
  0xd800 ≤ u.value ∧ u.value < 0xdc00

def Trailing (u : CodeUnit) : Prop :=
  0xdc00 ≤ u.value ∧ u.value < 0xe000

instance (u : CodeUnit) : Decidable u.Leading :=
  inferInstanceAs (Decidable (_ ∧ _))

instance (u : CodeUnit) : Decidable u.Trailing :=
  inferInstanceAs (Decidable (_ ∧ _))

/-- The character beyond the first 65536 whose surrogates are two units. -/
def pair (leading trailing : CodeUnit) : Char :=
  Char.ofNat (0x10000 + 0x400 * (leading.value - 0xd800) + (trailing.value - 0xdc00))

end CodeUnit

/-- What a string is made of between its quotes. -/
inductive Piece where
  | plain (c : Char) (h : c ≠ '"' ∧ c ≠ '\\' ∧ 0x20 ≤ c.toNat)
  | letter (l : Letter)
  | unit (u : CodeUnit)
deriving DecidableEq

def Piece.chars : Piece → List Char
  | plain c _ => [c]
  | letter l => ['\\', l.char]
  | unit u => '\\' :: 'u' :: u.chars

/-- A string as it is written between its quotes. -/
abbrev Body := List Piece

namespace Body

def chars (body : Body) : List Char :=
  body.flatMap Piece.chars

theorem chars_cons (piece : Piece) (body : Body) :
    chars (piece :: body) = piece.chars ++ chars body :=
  List.flatMap_cons

def quoted (body : Body) : List Char :=
  '"' :: (chars body ++ ['"'])

/-- The text that a string stands for, if each surrogate in it is half of a pair. -/
def decode? : Body → Option (List Char)
  | [] => some []
  | .plain c _ :: body => (decode? body).map (c :: ·)
  | .letter l :: body => (decode? body).map (l.meaning :: ·)
  | .unit u :: body =>
    if u.Trailing then none
    else if u.Leading then
      match body with
      | .unit v :: body => if v.Trailing then (decode? body).map (u.pair v :: ·) else none
      | _ => none
    else (decode? body).map (Char.ofNat u.value :: ·)

/-- The string stands for the text. -/
def Means (body : Body) (text : String) : Prop :=
  decode? body = some text.toList

end Body

end Strings

section Numbers

/-- The power of ten behind the mark of a number. -/
structure Exponent where
  capital : Bool
  sign : Option Bool
  digits : List Char
  digits_ne_nil : digits ≠ []
  isDigit : ∀ c ∈ digits, c.isDigit = true
deriving DecidableEq

namespace Exponent

/-- The sign is `true` for a minus. -/
def signChars : Option Bool → List Char
  | none => []
  | some false => ['+']
  | some true => ['-']

def chars (exponent : Exponent) : List Char :=
  (if exponent.capital then 'E' else 'e') :: (signChars exponent.sign ++ exponent.digits)

def value (exponent : Exponent) : Int :=
  if exponent.sign = some true then -(Nat.ofDigitChars 10 exponent.digits 0 : Int)
  else Nat.ofDigitChars 10 exponent.digits 0

end Exponent

/-- A number as it is written. No zero stands in front of other digits, and a dot stands
between digits. -/
structure Numeral where
  negative : Bool
  whole : List Char
  fraction : List Char
  exponent : Option Exponent
  whole_ne_nil : whole ≠ []
  isDigit : ∀ c ∈ whole ++ fraction, c.isDigit = true
  zero_alone : whole.head? = some '0' → whole = ['0']
deriving DecidableEq

namespace Numeral

def fractionChars : List Char → List Char
  | [] => []
  | digits => '.' :: digits

def exponentChars : Option Exponent → List Char
  | none => []
  | some exponent => exponent.chars

/-- The number without its sign. -/
def unsigned (n : Numeral) : List Char :=
  n.whole ++ (fractionChars n.fraction ++ exponentChars n.exponent)

def chars (n : Numeral) : List Char :=
  if n.negative then '-' :: n.unsigned else n.unsigned

/-- The number that is written, without its sign. -/
def magnitude (n : Numeral) : ℚ :=
  Nat.ofDigitChars 10 (n.whole ++ n.fraction) 0 *
    10 ^ (n.exponent.elim 0 Exponent.value - n.fraction.length : Int)

end Numeral

end Numbers

/-- What a text says apart from white space. -/
inductive Value where
  | null
  | boolean (value : Bool)
  | number (numeral : Numeral)
  | string (body : Body)
  | list (items : List Value)
  | object (members : List (Body × Value))

/-- A key with its colon, from its quote on. -/
inductive SpellsKey : Body → List Char → Prop
  | intro {gap : List Char} (body : Body) (hgap : Blanks gap) :
      SpellsKey body (body.quoted ++ (gap ++ [':']))

mutual

/-- The texts of a value, from its first character to its last. -/
inductive Spells : Value → List Char → Prop
  | null : Spells .null "null".toList
  | boolean (value : Bool) : Spells (.boolean value) (toString value).toList
  | number (n : Numeral) : Spells (.number n) n.chars
  | string (body : Body) : Spells (.string body) body.quoted
  | emptyList {gap : List Char} (hgap : Blanks gap) : Spells (.list []) ('[' :: (gap ++ [']']))
  | list {items : List Value} {before chars after : List Char} (hbefore : Blanks before)
      (hitems : SpellsItems items chars) (hafter : Blanks after) :
      Spells (.list items) ('[' :: (before ++ (chars ++ (after ++ [']']))))
  | emptyObject {gap : List Char} (hgap : Blanks gap) :
      Spells (.object []) ('\x7b' :: (gap ++ ['\x7d']))
  | object {members : List (Body × Value)} {before chars after : List Char}
      (hbefore : Blanks before) (hmembers : SpellsMembers members chars)
      (hafter : Blanks after) :
      Spells (.object members) ('\x7b' :: (before ++ (chars ++ (after ++ ['\x7d']))))

/-- The elements of a list with the commas between them. -/
inductive SpellsItems : List Value → List Char → Prop
  | last {v : Value} {chars : List Char} (h : Spells v chars) : SpellsItems [v] chars
  | more {v : Value} {items : List Value} {chars before after rest : List Char}
      (h : Spells v chars) (hbefore : Blanks before) (hafter : Blanks after)
      (hrest : SpellsItems items rest) :
      SpellsItems (v :: items) (chars ++ (before ++ ',' :: (after ++ rest)))

/-- The members of an object with the commas between them. -/
inductive SpellsMembers : List (Body × Value) → List Char → Prop
  | last {key : Body} {v : Value} {label gap chars : List Char} (hkey : SpellsKey key label)
      (hgap : Blanks gap) (h : Spells v chars) :
      SpellsMembers [(key, v)] (label ++ (gap ++ chars))
  | more {key : Body} {v : Value} {members : List (Body × Value)}
      {label gap chars before after rest : List Char} (hkey : SpellsKey key label)
      (hgap : Blanks gap) (h : Spells v chars) (hbefore : Blanks before)
      (hafter : Blanks after) (hrest : SpellsMembers members rest) :
      SpellsMembers ((key, v) :: members)
        (label ++ (gap ++ (chars ++ (before ++ ',' :: (after ++ rest)))))

end

/-- The keys of the members stand for these texts. -/
abbrev Decodes (raw : List (Body × Value)) (members : List (String × Value)) : Prop :=
  List.Forall₂ (fun written m => written.1.Means m.1 ∧ written.2 = m.2) raw members

/-- The text of an object with these members, whose keys all stand for texts. -/
def SpellsObject (members : List (String × Value)) (chars : List Char) : Prop :=
  ∃ raw, Spells (.object raw) chars ∧ Decodes raw members

end Abacus.Json
