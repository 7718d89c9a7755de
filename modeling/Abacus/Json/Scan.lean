import Abacus.Json.Fault

/-!
Reading the small parts of a JSON text: blanks, words, colons and strings.
Each reader gives what it read and the cursor behind it, or the place where
it failed. Loops are repetitions of a step, and a step that goes on must have
read something.
-/

namespace Abacus.Json

open Text

/-- What was read, and the cursor behind it. -/
abbrev Read (α : Type) := α × Cursor

def failHere {α : Type} (cause : Cause) (c : Cursor) : Except Failure α :=
  .error ⟨cause, c.offset⟩

/-- Fails behind the next byte, or at the end of the text. -/
def failPast {α : Type} (cause : Cause) (c : Cursor) : Except Failure α :=
  .error ⟨cause, if c.atEnd then c.offset else c.offset + 1⟩

inductive Next (σ α : Type) where
  | more (state : σ)
  | done (result : α)

def repeatStep {σ α : Type} (step : σ → Cursor → Except Failure (Read (Next σ α)))
    (state : σ) (c : Cursor) : Except Failure (Read α) :=
  match step state c with
  | .error failure => .error failure
  | .ok (.done result, after) => .ok (result, after)
  | .ok (.more state, after) =>
    if after.rest.length < c.rest.length then repeatStep step state after
    else failHere .expectedValue after
termination_by c.rest.length

def isBlank (c : Char) : Bool :=
  c == ' ' || c == '\n' || c == '\t' || c == '\r'

def skipBlanks (c : Cursor) : Cursor :=
  c.skipWhile isBlank

/-- Reads the letters of a word whose first letter is behind the cursor. -/
def readWord : List Char → Cursor → Except Failure (Read Unit)
  | [], c => .ok ((), c)
  | letter :: word, c =>
    match c.peek with
    | none => failHere .endInValue c
    | some ch => if ch = letter then readWord word c.next else failPast .expectedWord c

def readColon (c : Cursor) : Except Failure (Read Unit) :=
  let c := skipBlanks c
  match c.peek with
  | some ':' => .ok ((), c.next)
  | some _ => failPast .expectedColon c
  | none => failPast .endInObject c

def hexDigit? (c : Char) : Option Nat :=
  if c.isDigit then some (c.toNat - '0'.toNat)
  else if 'a' ≤ c ∧ c ≤ 'f' then some (c.toNat - 'a'.toNat + 10)
  else if 'A' ≤ c ∧ c ≤ 'F' then some (c.toNat - 'A'.toNat + 10)
  else none

/-- Reads four hexadecimal digits. Four bytes are taken for them also when
they are no digits. -/
def readHex (c : Cursor) : Except Failure (Read Nat) :=
  match (c.rest.take 4).mapM hexDigit? with
  | some [k₃, k₂, k₁, k₀] =>
    .ok (((k₃ * 16 + k₂) * 16 + k₁) * 16 + k₀, ⟨c.offset + 4, c.rest.drop 4⟩)
  | _ =>
    if 4 ≤ width c.rest then .error ⟨.invalidEscape, c.offset + 4⟩
    else .error ⟨.endInString, c.offset + width c.rest⟩

def isLeadingSurrogate (n : Nat) : Bool :=
  0xd800 ≤ n && n ≤ 0xdbff

def isTrailingSurrogate (n : Nat) : Bool :=
  0xdc00 ≤ n && n ≤ 0xdfff

def joinSurrogates (leading trailing : Nat) : Char :=
  Char.ofNat (0x10000 + (leading - 0xd800) * 0x400 + (trailing - 0xdc00))

/-- Reads a character that belongs to the escape of a trailing surrogate. -/
def readMark (mark : Char) (c : Cursor) : Except Failure (Read Unit) :=
  match c.peek with
  | none => failHere .endInString c
  | some ch => if ch = mark then .ok ((), c.next) else failPast .unfinishedSurrogates c

def readCodePoint (c : Cursor) : Except Failure (Read Char) := do
  let (first, c) ← readHex c
  if isTrailingSurrogate first then failHere .loneSurrogate c
  else if isLeadingSurrogate first then
    let ((), c) ← readMark '\\' c
    let ((), c) ← readMark 'u' c
    let (second, c) ← readHex c
    if isTrailingSurrogate second then .ok (joinSurrogates first second, c)
    else failHere .loneSurrogate c
  else .ok (Char.ofNat first, c)

def letterEscape? : Char → Option Char
  | '"' => some '"'
  | '\\' => some '\\'
  | '/' => some '/'
  | 'b' => some '\x08'
  | 'f' => some '\x0c'
  | 'n' => some '\n'
  | 'r' => some '\r'
  | 't' => some '\t'
  | _ => none

/-- Reads the rest of an escape whose backslash is behind the cursor. -/
def readEscape (c : Cursor) : Except Failure (Read Char) :=
  match c.peek with
  | none => failHere .endInString c
  | some 'u' => readCodePoint c.next
  | some ch =>
    match letterEscape? ch with
    | some meant => .ok (meant, c.next)
    | none => failPast .invalidEscape c

/-- Four digits after a `u` are enough for an escape that is not decoded. -/
def skipEscape (c : Cursor) : Except Failure (Read Unit) :=
  match c.peek with
  | none => failHere .endInString c
  | some 'u' => do
    let (_, c) ← readHex c.next
    .ok ((), c)
  | some ch =>
    match letterEscape? ch with
    | some _ => .ok ((), c.next)
    | none => failPast .invalidEscape c

def isControl (c : Char) : Bool :=
  c.toNat < 0x20

def readStringStep (reversed : List Char) (c : Cursor) :
    Except Failure (Read (Next (List Char) String)) :=
  match c.peek with
  | none => failHere .endInString c
  | some '"' => .ok (.done (String.ofList reversed.reverse), c.next)
  | some '\\' => do
    let (ch, c) ← readEscape c.next
    .ok (.more (ch :: reversed), c)
  | some ch =>
    if isControl ch then failPast .controlCharacter c else .ok (.more (ch :: reversed), c.next)

/-- Reads and decodes a string whose opening quote is behind the cursor. -/
def readString (c : Cursor) : Except Failure (Read String) :=
  repeatStep readStringStep [] c

def skipStringStep (_ : Unit) (c : Cursor) : Except Failure (Read (Next Unit Unit)) :=
  match c.peek with
  | none => failHere .endInString c
  | some '"' => .ok (.done (), c.next)
  | some '\\' => do
    let ((), c) ← skipEscape c.next
    .ok (.more (), c)
  | some ch =>
    if isControl ch then failHere .controlCharacter c else .ok (.more (), c.next)

def skipString (c : Cursor) : Except Failure (Read Unit) :=
  repeatStep skipStringStep () c

end Abacus.Json
