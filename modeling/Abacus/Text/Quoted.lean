import Abacus.Text.Printable

/-!
Texts and characters in quotes, as they are shown in messages. A character
that would not be seen as itself is written by its code point.
-/

namespace Abacus.Text

def hex (n : Nat) : String :=
  String.ofList (Nat.toDigits 16 n)

/-- One character between quotes of the kind `quote`. -/
def quotedChar (quote c : Char) : String :=
  match c with
  | '\x00' => "\\0"
  | '\t' => "\\t"
  | '\n' => "\\n"
  | '\r' => "\\r"
  | '\\' => "\\\\"
  | _ =>
    if c = quote then "\\" ++ c.toString
    else if isPrintable c then c.toString
    else "\\u\x7b" ++ hex c.toNat ++ "\x7d"

def singleQuote : Char := Char.ofNat 39

def quoted (text : String) : String :=
  "\"" ++ String.join (text.toList.map (quotedChar '"')) ++ "\""

def quotedSingle (c : Char) : String :=
  singleQuote.toString ++ quotedChar singleQuote c ++ singleQuote.toString

end Abacus.Text
