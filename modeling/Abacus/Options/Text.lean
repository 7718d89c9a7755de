import Abacus.Json.Skip
import Abacus.Json.Write
import Abacus.Options

/-!
Options as a JSON text. They are written as an object with all members. They
are read from an object, whose unknown members are skipped, or from a list
with the values in the order of the members; what is missing has its default.
-/

namespace Abacus.Options

open Text Json

def write (options : Options) : String :=
  writeObject
    [(Member.nonFinite.name, writeString options.nonFinite.name),
      (Member.angle.name, writeString options.angle.name),
      (Member.substituteConstants.name, toString options.substituteConstants)]

/-- Reads the name of one of two choices; its opening quote is behind the
cursor. -/
def readName {α : Type} (name : α → String) (first second : α) (c : Cursor) :
    Except Failure (Read α) := do
  let (text, c) ← readString c
  if text = name first then .ok (first, c)
  else if text = name second then .ok (second, c)
  else failHere (.unknownVariant text (name first) (name second)) c

def readUnit (c : Cursor) : Except Failure (Read Unit) :=
  let c := skipBlanks c
  match c.peek with
  | some 'n' => readWord "ull".toList c.next
  | some _ => refuse "unit" c
  | none => failPast .endInValue c

/-- Reads a choice as the only member, without a value, of an object whose
brace is behind the cursor. -/
def readTagged {α : Type} (name : α → String) (first second : α) (c : Cursor) :
    Except Failure (Read α) := do
  let c := skipBlanks c
  match c.peek with
  | some '"' =>
    let (choice, c) ← readName name first second c.next
    let ((), c) ← readColon c
    let ((), c) ← readUnit c
    let c := skipBlanks c
    match c.peek with
    | some '\x7d' => .ok (choice, c.next)
    | some _ => failHere .expectedValue c
    | none => failHere .endInObject c
  | some '\x7d' => failPast .expectedValue c
  | some _ => failPast .keyNotString c
  | none => failPast .endInObject c

def readChoice {α : Type} (name : α → String) (first second : α) (c : Cursor) :
    Except Failure (Read α) :=
  let c := skipBlanks c
  match c.peek with
  | some '"' => readName name first second c.next
  | some '\x7b' => readTagged name first second c.next
  | some _ => failPast .expectedValue c
  | none => failPast .endInValue c

def readNonFinite (c : Cursor) : Except Failure (Read NonFinitePolicy) :=
  readChoice NonFinitePolicy.name .reject .allow c

def readAngle (c : Cursor) : Except Failure (Read AngleUnit) :=
  readChoice AngleUnit.name .degrees .radians c

def readFlag (c : Cursor) : Except Failure (Read Bool) :=
  let c := skipBlanks c
  match c.peek with
  | some 't' => do
    let ((), c) ← readWord "rue".toList c.next
    .ok (true, c)
  | some 'f' => do
    let ((), c) ← readWord "alse".toList c.next
    .ok (false, c)
  | some _ => refuse "a boolean" c
  | none => failPast .endInValue c

/-- The members that were read so far. -/
structure Draft where
  nonFinite : Option NonFinitePolicy := none
  angle : Option AngleUnit := none
  substituteConstants : Option Bool := none

namespace Draft

def has (draft : Draft) : Member → Bool
  | .nonFinite => draft.nonFinite.isSome
  | .angle => draft.angle.isSome
  | .substituteConstants => draft.substituteConstants.isSome

def finish (draft : Draft) : Options :=
  let default : Options := {}
  { nonFinite := draft.nonFinite.getD default.nonFinite
    angle := draft.angle.getD default.angle
    substituteConstants := draft.substituteConstants.getD default.substituteConstants }

def readMember (draft : Draft) (member : Member) (c : Cursor) : Except Failure (Read Draft) :=
  match member with
  | .nonFinite => do
    let (value, c) ← readNonFinite c
    .ok (⟨some value, draft.angle, draft.substituteConstants⟩, c)
  | .angle => do
    let (value, c) ← readAngle c
    .ok (⟨draft.nonFinite, some value, draft.substituteConstants⟩, c)
  | .substituteConstants => do
    let (value, c) ← readFlag c
    .ok (⟨draft.nonFinite, draft.angle, some value⟩, c)

end Draft

/-- The opening quote of the next key, where the object does not end. -/
def nextKey (first : Bool) (c : Cursor) : Except Failure Cursor :=
  if first then
    if c.peek = some '"' then .ok c else failPast .keyNotString c
  else if c.peek = some ',' then
    let c := skipBlanks c.next
    match c.peek with
    | some '"' => .ok c
    | some '\x7d' => failPast .trailingComma c
    | some _ => failPast .keyNotString c
    | none => failPast .endInValue c
  else failPast .expectedObjectSeparator c

/-- A repeated member is reported behind its key, and behind the end of the
object if that follows. -/
def refuseRepeated {α : Type} (member : Member) (c : Cursor) : Except Failure α :=
  let c := skipBlanks c
  failHere (.repeatedMember member.name) (if c.peek = some '\x7d' then c.next else c)

def readMemberStep (state : Draft × Bool) (c : Cursor) :
    Except Failure (Read (Next (Draft × Bool) Draft)) := do
  let (draft, first) := state
  let c := skipBlanks c
  match c.peek with
  | none => failPast .endInObject c
  | some '\x7d' => .ok (.done draft, c.next)
  | some _ =>
    let c ← nextKey first c
    let (key, c) ← readString c.next
    match Member.ofName? key with
    | none =>
      let ((), c) ← readColon c
      let ((), c) ← skipValue c
      .ok (.more (draft, false), c)
    | some member =>
      if draft.has member then refuseRepeated member c
      else
        let ((), c) ← readColon c
        let (draft, c) ← draft.readMember member c
        .ok (.more (draft, false), c)

/-- Reads an object whose opening brace is behind the cursor. -/
def readObject (c : Cursor) : Except Failure (Read Options) := do
  let (draft, c) ← repeatStep readMemberStep (⟨none, none, none⟩, true) c
  .ok (draft.finish, c)

/-- Reads the next element of a list, or stays at the end of the list. -/
def readElement {α : Type} (read : Cursor → Except Failure (Read α)) (first : Bool)
    (c : Cursor) : Except Failure (Read (Option α)) := do
  let c := skipBlanks c
  match c.peek with
  | none => failPast .endInList c
  | some ']' => .ok (none, c)
  | some ch =>
    if first then
      let (value, c) ← read c
      .ok (some value, c)
    else if ch = ',' then
      let c := skipBlanks c.next
      match c.peek with
      | some ']' => failPast .trailingComma c
      | some _ =>
        let (value, c) ← read c
        .ok (some value, c)
      | none => failPast .endInValue c
    else failPast .expectedListSeparator c

def readListEnd (c : Cursor) : Except Failure (Read Unit) :=
  let c := skipBlanks c
  match c.peek with
  | some ']' => .ok ((), c.next)
  | some ',' =>
    let c := skipBlanks c.next
    failPast (if c.peek = some ']' then .trailingComma else .trailingCharacters) c
  | some _ => failPast .trailingCharacters c
  | none => failPast .endInList c

/-- Reads a list whose opening bracket is behind the cursor. -/
def readList (c : Cursor) : Except Failure (Read Options) := do
  let (nonFinite, c) ← readElement readNonFinite true c
  let (angle, c) ← readElement readAngle false c
  let (substituteConstants, c) ← readElement readFlag false c
  let ((), c) ← readListEnd c
  .ok ((Draft.mk nonFinite angle substituteConstants).finish, c)

def readValue (c : Cursor) : Except Failure (Read Options) :=
  let c := skipBlanks c
  match c.peek with
  | some '\x7b' => readObject c.next
  | some '[' => readList c.next
  | some _ => refuse "struct Options" c
  | none => failPast .endInValue c

def readText (text : String) : Except Failure Options := do
  let (options, c) ← readValue (Cursor.start text)
  let c := skipBlanks c
  if c.atEnd then .ok options else failPast .trailingCharacters c

def ofJson (text : String) : Except Json.Fault Options :=
  (readText text).mapError fun failure => failure.locate text

end Abacus.Options
