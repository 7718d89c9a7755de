import Abacus.Proofs.Tokens

/-!
Markers in a text. A marker keeps a byte offset and the character there, and takes what it
looks at next from the text, which it cuts at the new offset. A cut through a character is
not possible, and then a move gives nothing.
-/

namespace Abacus.Text

/-- The characters between two byte offsets, if no character is cut apart. -/
def piece? (text : String) (start stop : Nat) : Option String :=
  if h : String.Pos.Raw.IsValid text ⟨start⟩ ∧ String.Pos.Raw.IsValid text ⟨stop⟩ ∧
      start ≤ stop then
    some (text.slice (.mk ⟨start⟩ h.1) (.mk ⟨stop⟩ h.2.1) h.2.2).copy
  else none

section Pieces

variable {text piece : String} {start stop : Nat}

theorem piece?_eq_some_iff : piece? text start stop = some piece ↔
    ∃ before behind, text = before ++ piece ++ behind ∧ before.utf8ByteSize = start ∧
      start + piece.utf8ByteSize = stop := by
  unfold piece?
  constructor
  · intro h
    split at h
    · rename_i hvalid
      obtain ⟨before, behind, hstart, hstop⟩ :=
        String.copy_slice_eq_iff_splits.mp ⟨hvalid.2.2, Option.some.inj h⟩
      have hsize := congrArg String.Pos.Raw.byteIdx hstart.offset_eq_rawEndPos
      have hsum := congrArg String.Pos.Raw.byteIdx hstop.offset_eq_rawEndPos
      simp only [String.byteIdx_rawEndPos, String.utf8ByteSize_append] at hsize hsum
      exact ⟨before, behind, hstop.eq_append, hsize.symm, by omega⟩
    · contradiction
  · rintro ⟨before, behind, htext, rfl, rfl⟩
    have hstart : String.Pos.Raw.IsValid text ⟨before.utf8ByteSize⟩ :=
      String.Pos.Raw.isValid_iff_exists_append.mpr
        ⟨before, piece ++ behind, by rw [htext, String.append_assoc], rfl⟩
    have hstop : String.Pos.Raw.IsValid text ⟨before.utf8ByteSize + piece.utf8ByteSize⟩ :=
      String.Pos.Raw.isValid_iff_exists_append.mpr
        ⟨before ++ piece, behind, htext, by simp [String.Pos.Raw.ext_iff]⟩
    rw [dif_pos ⟨hstart, hstop, Nat.le_add_right _ _⟩, Option.some_inj]
    have hsplits : ∃ h, (text.slice (.mk _ hstart) (.mk _ hstop) h).copy = piece := by
      apply String.copy_slice_eq_iff_splits.mpr
      exact ⟨before, behind, ⟨by rw [htext, String.append_assoc], rfl⟩,
        ⟨htext, by simp [String.Pos.Raw.ext_iff]⟩⟩
    exact hsplits.2

theorem le_of_piece? (h : piece? text start stop = some piece) :
    start ≤ stop ∧ stop ≤ text.utf8ByteSize := by
  obtain ⟨before, behind, rfl, rfl, rfl⟩ := piece?_eq_some_iff.mp h
  simp only [String.utf8ByteSize_append]
  omega

theorem isValid_of_piece? (h : piece? text start stop = some piece) :
    String.Pos.Raw.IsValid text ⟨start⟩ := by
  obtain ⟨before, behind, rfl, rfl, -⟩ := piece?_eq_some_iff.mp h
  apply String.Pos.Raw.isValid_iff_exists_append.mpr
  exact ⟨before, piece ++ behind, by rw [String.append_assoc], rfl⟩

theorem piece?_of_toList {before middle behind : List Char}
    (h : text.toList = before ++ middle ++ behind) :
    piece? text (width before) (width before + width middle) = some (String.ofList middle) := by
  apply piece?_eq_some_iff.mpr
  refine ⟨String.ofList before, String.ofList behind, ?_, ?_, ?_⟩
  · rw [← String.toList_inj, h]
    simp
  · rw [← width_toList, String.toList_ofList]
  · rw [← width_toList, String.toList_ofList]

end Pieces

/-- What can be asked of a cursor or a marker. -/
inductive Move where
  | next
  | eat (ch : Char)
  | scanNumber
deriving DecidableEq, Repr

/-- What is said to a move. -/
inductive Reply where
  | moved
  | eaten (found : Bool)
  | scanned (run : String)
deriving DecidableEq, Repr

/-- A byte offset in a text and the character looked at there. -/
structure Marker where
  offset : Nat
  looked : Option Char
deriving DecidableEq, Repr

namespace Marker

def start (text : String) : Marker :=
  ⟨0, text.toList.head?⟩

/-- Steps over the character looked at, and looks at the first one of the text that is cut
off behind it. -/
def next? (text : String) (m : Marker) : Option Marker :=
  match m.looked with
  | none => some m
  | some ch =>
    (piece? text (m.offset + ch.utf8Size) text.utf8ByteSize).map fun ahead =>
      ⟨m.offset + ch.utf8Size, ahead.toList.head?⟩

/-- A character that is stepped over lies within the text. -/
theorem offset_lt_of_next? {text : String} {p : Char → Bool} {m after : Marker}
    (hlooked : m.looked.any p = true) (h : m.next? text = some after) :
    m.offset < after.offset ∧ after.offset ≤ text.utf8ByteSize := by
  obtain ⟨ch, hch, -⟩ := Option.any_eq_true _ _ |>.mp hlooked
  simp only [next?, hch, Option.map_eq_some_iff] at h
  obtain ⟨ahead, hahead, rfl⟩ := h
  exact ⟨Nat.lt_add_of_pos_right ch.utf8Size_pos, (le_of_piece? hahead).1⟩

def skipWhile? (text : String) (p : Char → Bool) (m : Marker) : Option Marker :=
  if m.looked.any p then
    match _ : m.next? text with
    | none => none
    | some after => after.skipWhile? text p
  else some m
termination_by text.utf8ByteSize - m.offset
decreasing_by
  have hlt := offset_lt_of_next? ‹_› ‹_›
  omega

theorem skipWhile?_eq (text : String) (p : Char → Bool) (m : Marker) :
    m.skipWhile? text p =
      if m.looked.any p then (m.next? text).bind (skipWhile? text p) else some m := by
  rw [skipWhile?]
  split
  · split <;> simp_all
  · rfl

def atEnd (text : String) (m : Marker) : Bool :=
  text.utf8ByteSize ≤ m.offset

def eat? (text : String) (m : Marker) (ch : Char) : Option (Bool × Marker) := do
  let ahead ← m.skipWhile? text (· == ' ')
  if ahead.looked = some ch then
    let after ← ahead.next? text
    some (true, after)
  else some (false, ahead)

def scanNumber? (text : String) (m : Marker) : Option (String × Marker) := do
  let after ← m.skipWhile? text isNumberChar
  let run ← piece? text m.offset after.offset
  some (run, after)

def move? (text : String) (m : Marker) : Move → Option (Reply × Marker)
  | .next => (m.next? text).map fun after => (.moved, after)
  | .eat ch => (m.eat? text ch).map fun (found, after) => (.eaten found, after)
  | .scanNumber => (m.scanNumber? text).map fun (run, after) => (.scanned run, after)

def run? (text : String) (m : Marker) : List Move → Option (List Reply × Marker)
  | [] => some ([], m)
  | move :: moves => do
    let (reply, after) ← m.move? text move
    let (replies, last) ← after.run? text moves
    some (reply :: replies, last)

end Marker

end Abacus.Text
