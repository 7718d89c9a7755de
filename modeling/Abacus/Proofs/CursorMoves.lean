import Abacus.Proofs.CursorTokens
import Abacus.Proofs.TextMarkers

/-!
Cursors over whole runs of moves. What a cursor has ahead is always the text from its
offset on, so that a marker goes through every run in step with the cursor and never cuts
a character apart.
-/

namespace Abacus.Text

namespace Cursor

def move (c : Cursor) : Move → Reply × Cursor
  | .next => (.moved, c.next)
  | .eat ch => (.eaten (c.eat ch).1, (c.eat ch).2)
  | .scanNumber => (.scanned (String.ofList c.scanNumber.1), c.scanNumber.2)

/-- The replies to a sequence of moves and where they lead. -/
def run (c : Cursor) : List Move → List Reply × Cursor
  | [] => ([], c)
  | move :: moves =>
    ((c.move move).1 :: ((c.move move).2.run moves).1, ((c.move move).2.run moves).2)

/-- Going over `front` leads from `c` to `d`, which may stand inside a run. -/
structure GoesOver (c : Cursor) (front : List Char) (d : Cursor) : Prop where
  rest_eq : c.rest = front ++ d.rest
  offset_eq : d.offset = c.offset + width front

/-- The cursor has ahead what the text holds from its offset on. -/
def StandsIn (text : String) (c : Cursor) : Prop :=
  ∃ before, text.toList = before ++ c.rest ∧ c.offset = width before

section GoesOver

variable {c d e : Cursor} {front between : List Char} {ch : Char}

theorem GoesOver.refl (c : Cursor) : c.GoesOver [] c :=
  ⟨rfl, rfl⟩

theorem GoesOver.trans (h : c.GoesOver front d) (h' : d.GoesOver between e) :
    c.GoesOver (front ++ between) e where
  rest_eq := by rw [h.rest_eq, h'.rest_eq, List.append_assoc]
  offset_eq := by rw [h'.offset_eq, h.offset_eq, width_append, Nat.add_assoc]

theorem GoesOver.offset_le (h : c.GoesOver front d) : c.offset ≤ d.offset := by
  rw [h.offset_eq]
  exact Nat.le_add_right _ _

theorem goesOver_skipWhile (p : Char → Bool) (c : Cursor) :
    c.GoesOver (c.rest.takeWhile p) (c.skipWhile p) :=
  ⟨List.takeWhile_append_dropWhile.symm, rfl⟩

theorem goesOver_next (h : c.peek = some ch) : c.GoesOver [ch] c.next := by
  obtain ⟨offset, rest⟩ := c
  cases rest with
  | nil => contradiction
  | cons b tail =>
    obtain rfl : b = ch := by simpa [peek] using h
    exact ⟨rfl, rfl⟩

theorem next_of_peek (h : c.peek = none) : c.next = c := by
  obtain ⟨offset, rest⟩ := c
  cases rest with
  | nil => rfl
  | cons b tail => contradiction

theorem exists_goesOver_skipSpaces (c : Cursor) :
    ∃ n, c.GoesOver (List.replicate n ' ') c.skipSpaces := by
  refine ⟨(c.rest.takeWhile (· == ' ')).length, ?_⟩
  have hspaces : c.rest.takeWhile (· == ' ') =
      List.replicate (c.rest.takeWhile (· == ' ')).length ' ' := by
    apply List.eq_replicate_iff.mpr
    refine ⟨rfl, fun ch hch => ?_⟩
    simpa using List.all_eq_true.mp (List.all_takeWhile (p := (· == ' '))) ch hch
  rw [← hspaces]
  exact goesOver_skipWhile _ c

theorem eat_eq_true_iff : c.eat ch = (true, d) ↔
    c.skipSpaces.peek = some ch ∧ c.skipSpaces.next = d := by
  unfold eat
  split <;> simp_all

theorem eat_eq_false_iff : c.eat ch = (false, d) ↔
    c.skipSpaces.peek ≠ some ch ∧ c.skipSpaces = d := by
  unfold eat
  split <;> simp_all

theorem exists_goesOver_of_eat (h : c.eat ch = (true, d)) :
    ∃ n, c.GoesOver (List.replicate n ' ' ++ [ch]) d := by
  obtain ⟨hpeek, rfl⟩ := eat_eq_true_iff.mp h
  obtain ⟨n, hspaces⟩ := exists_goesOver_skipSpaces c
  exact ⟨n, hspaces.trans (goesOver_next hpeek)⟩

/-- No move goes back. -/
theorem exists_goesOver_move (c : Cursor) (move : Move) :
    ∃ front, c.GoesOver front (c.move move).2 := by
  cases move with
  | next =>
    cases hpeek : c.peek with
    | none =>
      refine ⟨[], ?_⟩
      rw [Cursor.move, next_of_peek hpeek]
      exact .refl c
    | some ch => exact ⟨[ch], goesOver_next hpeek⟩
  | eat ch =>
    rcases heat : c.eat ch with ⟨found, d⟩
    rw [Cursor.move, heat]
    cases found with
    | true =>
      obtain ⟨n, hover⟩ := exists_goesOver_of_eat heat
      exact ⟨_, hover⟩
    | false =>
      obtain ⟨-, rfl⟩ := eat_eq_false_iff.mp heat
      exact ⟨_, goesOver_skipWhile _ c⟩
  | scanNumber => exact ⟨_, goesOver_skipWhile _ c⟩

end GoesOver

section StandsIn

variable {text : String} {c d : Cursor} {front : List Char}

theorem standsIn_start (text : String) : (start text).StandsIn text :=
  ⟨[], rfl, rfl⟩

theorem StandsIn.of_goesOver (h : c.StandsIn text) (hover : c.GoesOver front d) :
    d.StandsIn text := by
  obtain ⟨before, htext, hoffset⟩ := h
  refine ⟨before ++ front, ?_, ?_⟩
  · rw [htext, hover.rest_eq, List.append_assoc]
  · rw [hover.offset_eq, hoffset, width_append]

theorem StandsIn.move (h : c.StandsIn text) (move : Move) : (c.move move).2.StandsIn text := by
  obtain ⟨front, hover⟩ := exists_goesOver_move c move
  exact h.of_goesOver hover

theorem StandsIn.run (h : c.StandsIn text) (moves : List Move) :
    (c.run moves).2.StandsIn text := by
  induction moves generalizing c with
  | nil => exact h
  | cons move moves ih => exact ih (h.move move)

theorem StandsIn.piece?_eq (h : c.StandsIn text) (hover : c.GoesOver front d) :
    piece? text c.offset d.offset = some (String.ofList front) := by
  obtain ⟨before, htext, hoffset⟩ := h
  have hsplit : text.toList = before ++ front ++ d.rest := by
    rw [htext, hover.rest_eq, List.append_assoc]
  rw [hover.offset_eq, hoffset]
  exact piece?_of_toList hsplit

/-- What is ahead is the text from the offset on. -/
theorem StandsIn.piece?_rest (h : c.StandsIn text) :
    piece? text c.offset text.utf8ByteSize = some (String.ofList c.rest) := by
  obtain ⟨before, htext, hoffset⟩ := h
  have hsplit : text.toList = before ++ c.rest ++ [] := by
    rw [htext, List.append_nil]
  rw [← width_toList, htext, width_append, hoffset]
  exact piece?_of_toList hsplit

theorem StandsIn.size_le_iff (h : c.StandsIn text) :
    text.utf8ByteSize ≤ c.offset ↔ c.peek = none := by
  obtain ⟨before, htext, hoffset⟩ := h
  rw [← width_toList, htext, width_append, hoffset, peek, List.head?_eq_none_iff]
  constructor
  · intro hle
    exact eq_nil_of_width (by omega)
  · intro hrest
    simp [hrest, width]

end StandsIn

section Eating

variable {c d : Cursor} {ch : Char}

theorem peek_skipSpaces (c : Cursor) : c.skipSpaces.peek = c.rest.find? (· ≠ ' ') := by
  obtain ⟨offset, rest⟩ := c
  simp only [peek, skipSpaces, skipWhile]
  induction rest with
  | nil => rfl
  | cons b tail ih =>
    by_cases hb : b = ' '
    · subst b
      simpa using ih
    · simp [hb]

/-- A space is never found. -/
theorem eat_fst_iff : (c.eat ch).1 = true ↔ ch ≠ ' ' ∧ c.rest.find? (· ≠ ' ') = some ch := by
  have hfound : (c.eat ch).1 = true ↔ c.rest.find? (· ≠ ' ') = some ch := by
    rw [← peek_skipSpaces, eat]
    split <;> simp_all
  rw [hfound]
  constructor
  · intro h
    have hspace := List.find?_some h
    exact ⟨by simpa using hspace, h⟩
  · exact And.right

theorem skipSpaces_of_settled (h : c.Settled) : c.skipSpaces = c := by
  obtain ⟨offset, rest⟩ := c
  cases rest with
  | nil => rfl
  | cons b tail =>
    have hb : b ≠ ' ' := by
      rintro rfl
      exact h rfl
    simp [skipSpaces, skipWhile, hb, width]

theorem skipSpaces_skipSpaces (c : Cursor) : c.skipSpaces.skipSpaces = c.skipSpaces :=
  skipSpaces_of_settled (settled_skipSpaces c)

/-- Spaces that are skipped already change nothing for a character to be eaten. -/
theorem eat_skipSpaces (c : Cursor) (ch : Char) : c.skipSpaces.eat ch = c.eat ch := by
  rw [eat, eat, skipSpaces_skipSpaces]

/-- Characters that are not found one after the other are each not found at the start, and
all they do is to skip the spaces. -/
theorem run_eats (chars : List Char) (c : Cursor)
    (h : ∀ reply ∈ (c.run (chars.map .eat)).1, reply = .eaten false) :
    (∀ ch ∈ chars, c.eat ch = (false, c.skipSpaces)) ∧
      (chars ≠ [] → (c.run (chars.map .eat)).2 = c.skipSpaces) := by
  induction chars generalizing c with
  | nil => simp
  | cons a chars ih =>
    simp only [List.map_cons, run, Cursor.move, List.forall_mem_cons, Reply.eaten.injEq] at h
    obtain ⟨hfound, hreplies⟩ := h
    have hfirst : c.eat a = (false, c.skipSpaces) := by
      obtain ⟨-, hskip⟩ := eat_eq_false_iff.mp (Prod.ext hfound rfl)
      rw [hskip, ← hfound]
    rw [hfirst] at hreplies
    obtain ⟨heach, hlast⟩ := ih c.skipSpaces hreplies
    simp only [eat_skipSpaces, skipSpaces_skipSpaces] at heach hlast
    refine ⟨List.forall_mem_cons.mpr ⟨hfirst, heach⟩, fun _ => ?_⟩
    simp only [List.map_cons, run, Cursor.move, hfirst]
    cases chars with
    | nil => rfl
    | cons b chars => exact hlast (by simp)

end Eating

/-- What a marker keeps of a cursor. -/
def marker (c : Cursor) : Marker :=
  ⟨c.offset, c.peek⟩

section InStep

variable {text : String} {c : Cursor}

theorem StandsIn.next?_marker (h : c.StandsIn text) :
    c.marker.next? text = some c.next.marker := by
  cases hpeek : c.peek with
  | none => rw [next_of_peek hpeek, Marker.next?, marker, hpeek]
  | some ch =>
    have hoffset : c.next.offset = c.offset + ch.utf8Size := (goesOver_next hpeek).offset_eq
    have hrest := (h.move .next).piece?_rest
    rw [Cursor.move, hoffset] at hrest
    have hlooked : c.marker.looked = some ch := hpeek
    have hmarker : c.marker.offset = c.offset := rfl
    simp only [Marker.next?, hlooked, hmarker, hrest, Option.map_some, String.toList_ofList]
    rw [← hoffset]
    rfl

theorem skipWhile_of_peek {p : Char → Bool} {ch : Char} (h : c.peek = some ch) (hch : p ch = true) :
    c.skipWhile p = c.next.skipWhile p := by
  obtain ⟨offset, rest⟩ := c
  cases rest with
  | nil => contradiction
  | cons b tail =>
    obtain rfl : b = ch := by simpa [peek] using h
    simp [skipWhile, next, hch, width, Nat.add_assoc]

theorem skipWhile_of_not {p : Char → Bool} (h : c.peek.any p = false) : c.skipWhile p = c := by
  obtain ⟨offset, rest⟩ := c
  cases rest with
  | nil => rfl
  | cons b tail =>
    have hb : p b = false := h
    simp [skipWhile, hb, width]

theorem skipWhile?_marker_of_not (text : String) {p : Char → Bool} (h : c.peek.any p = false) :
    c.marker.skipWhile? text p = some (c.skipWhile p).marker := by
  have hlooked : c.marker.looked.any p = false := h
  rw [Marker.skipWhile?_eq, hlooked, skipWhile_of_not h]
  rfl

theorem StandsIn.skipWhile?_marker (p : Char → Bool) (h : c.StandsIn text) :
    c.marker.skipWhile? text p = some (c.skipWhile p).marker := by
  induction hrest : c.rest generalizing c with
  | nil => exact skipWhile?_marker_of_not text (by simp [peek, hrest])
  | cons b tail ih =>
    have hpeek : c.peek = some b := by simp [peek, hrest]
    cases hb : p b with
    | false => exact skipWhile?_marker_of_not text (by simp [hpeek, hb])
    | true =>
      have hover := (goesOver_next hpeek).rest_eq
      rw [hrest] at hover
      have htail : c.next.rest = tail := (List.cons.inj hover).2.symm
      have hlooked : c.marker.looked.any p = true := by simp [marker, hpeek, hb]
      rw [Marker.skipWhile?_eq, hlooked, h.next?_marker, skipWhile_of_peek hpeek hb]
      exact ih (h.move .next) htail

theorem StandsIn.skipWhile (p : Char → Bool) (h : c.StandsIn text) :
    (c.skipWhile p).StandsIn text :=
  h.of_goesOver (goesOver_skipWhile p c)

theorem StandsIn.eat?_marker (ch : Char) (h : c.StandsIn text) :
    c.marker.eat? text ch = some ((c.eat ch).1, (c.eat ch).2.marker) := by
  have hspaces := h.skipWhile?_marker (· == ' ')
  have hnext := (h.skipWhile (· == ' ')).next?_marker
  have hlooked : (c.skipWhile (· == ' ')).marker.looked = c.skipSpaces.peek := rfl
  simp only [Marker.eat?, hspaces, hnext, hlooked, Option.bind_eq_bind, Option.bind_some, eat]
  split <;> rfl

theorem StandsIn.scanNumber?_marker (h : c.StandsIn text) :
    c.marker.scanNumber? text =
      some (String.ofList c.scanNumber.1, c.scanNumber.2.marker) := by
  have hskip := h.skipWhile?_marker isNumberChar
  have hrun := h.piece?_eq (goesOver_skipWhile isNumberChar c)
  have hstart : c.marker.offset = c.offset := rfl
  have hstop : (c.skipWhile isNumberChar).marker.offset = (c.skipWhile isNumberChar).offset := rfl
  simp only [Marker.scanNumber?, hskip, hstart, hstop, hrun, Option.bind_eq_bind,
    Option.bind_some, scanNumber]

theorem StandsIn.move?_marker (move : Move) (h : c.StandsIn text) :
    c.marker.move? text move = some ((c.move move).1, (c.move move).2.marker) := by
  cases move with
  | next =>
    rw [Marker.move?, h.next?_marker]
    rfl
  | eat ch =>
    rw [Marker.move?, h.eat?_marker]
    rfl
  | scanNumber =>
    rw [Marker.move?, h.scanNumber?_marker]
    rfl

theorem StandsIn.run?_marker (moves : List Move) (h : c.StandsIn text) :
    c.marker.run? text moves = some ((c.run moves).1, (c.run moves).2.marker) := by
  induction moves generalizing c with
  | nil => rfl
  | cons move moves ih =>
    have hmove := h.move?_marker move
    have hmoves := ih (h.move move)
    simp only [Marker.run?, hmove, hmoves, Option.bind_eq_bind, Option.bind_some, Cursor.run]

end InStep

/-- After any moves, the offset of a cursor is the start of a character or the end of the
text, the character looked at is the first one from there, and there is none exactly at the
end. A marker makes the same moves with the same replies, so that no cut fails. No move goes
back. A character is eaten exactly if it is no space and the first one ahead that is none,
and the spaces in front of it go with it. If it is not eaten, only the spaces are gone, and
failures in a row do together what each of them does alone. A number is the longest run of
digits and dots ahead. -/
theorem run_inStep (text : String) (moves : List Move) :
    let c := ((start text).run moves).2
    (Marker.start text).run? text moves = some (((start text).run moves).1, c.marker) ∧
    c.offset ≤ text.utf8ByteSize ∧ String.Pos.Raw.IsValid text ⟨c.offset⟩ ∧
    ∃ ahead, piece? text c.offset text.utf8ByteSize = some ahead ∧
      c.peek = ahead.toList.head? ∧
      (c.atEnd = true ↔ c.peek = none) ∧ (c.marker.atEnd text = true ↔ c.peek = none) ∧
      (∀ move, c.offset ≤ (c.move move).2.offset) ∧
      (∀ ch, (c.eat ch).1 = true ↔ ch ≠ ' ' ∧ ahead.toList.find? (· ≠ ' ') = some ch) ∧
      (∀ ch after, c.eat ch = (true, after) →
        ∃ n, piece? text c.offset after.offset =
          some (String.ofList (List.replicate n ' ' ++ [ch]))) ∧
      (∀ ch after, c.eat ch = (false, after) →
        (∃ n, piece? text c.offset after.offset = some (String.ofList (List.replicate n ' '))) ∧
        after.peek = ahead.toList.find? (· ≠ ' ')) ∧
      (∀ chars replies after, chars ≠ [] → c.run (chars.map .eat) = (replies, after) →
        (∀ reply ∈ replies, reply = .eaten false) → ∀ ch ∈ chars, c.eat ch = (false, after)) ∧
      ∀ run after, c.scanNumber = (run, after) →
        piece? text c.offset after.offset = some (String.ofList run) ∧
        (∀ ch ∈ run, isNumberChar ch = true) ∧
        ∀ front, front <+: ahead.toList → (∀ ch ∈ front, isNumberChar ch = true) →
          front <+: run := by
  intro c
  have h : c.StandsIn text := (standsIn_start text).run moves
  have hahead := h.piece?_rest
  have hpeek : c.peek = none ↔ c.rest = [] := List.head?_eq_none_iff
  refine ⟨(standsIn_start text).run?_marker moves, (le_of_piece? hahead).1,
    isValid_of_piece? hahead, String.ofList c.rest, hahead, ?_⟩
  rw [String.toList_ofList]
  refine ⟨rfl, ?_, ?_, ?_, fun ch => eat_fst_iff, ?_, ?_, ?_, ?_⟩
  · rw [atEnd, List.isEmpty_iff, hpeek]
  · rw [← h.size_le_iff, Marker.atEnd, decide_eq_true_iff]
    rfl
  · intro move
    obtain ⟨front, hover⟩ := exists_goesOver_move c move
    exact hover.offset_le
  · intro ch after heat
    obtain ⟨n, hover⟩ := exists_goesOver_of_eat heat
    exact ⟨n, h.piece?_eq hover⟩
  · intro ch after heat
    obtain ⟨-, rfl⟩ := eat_eq_false_iff.mp heat
    obtain ⟨n, hover⟩ := exists_goesOver_skipSpaces c
    exact ⟨⟨n, h.piece?_eq hover⟩, peek_skipSpaces c⟩
  · intro chars replies after hne heats hreplies ch hch
    have hfailed : ∀ reply ∈ (c.run (chars.map .eat)).1, reply = .eaten false := by
      rw [heats]
      exact hreplies
    obtain ⟨heach, hlast⟩ := run_eats chars c hfailed
    rw [heach ch hch, ← hlast hne, heats]
  · rintro run after hscan
    obtain ⟨rfl, rfl⟩ := Prod.mk.inj hscan
    refine ⟨h.piece?_eq (goesOver_skipWhile isNumberChar c), ?_, ?_⟩
    · exact fun ch hch => List.all_eq_true.mp List.all_takeWhile ch hch
    · rintro front ⟨behind, hrest⟩ hfront
      rw [← hrest, List.takeWhile_append_of_pos hfront]
      exact List.prefix_append _ _

end Cursor

end Abacus.Text
