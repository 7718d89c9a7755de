import Abacus.Json.Write
import Abacus.Proofs.Json.Grammar

/-!
What is written is spelled by the grammar. A text is written as a string that stands for it,
an object as its members without white space between them, and there is no control
character in any of it.
-/

namespace Abacus.Json

section Strings

/-- The unit of a number below 256. -/
def CodeUnit.ofByte (n : Nat) : CodeUnit where
  first := ⟨0, false⟩
  second := ⟨0, false⟩
  third := ⟨Fin.ofNat 16 (n / 16), false⟩
  fourth := ⟨Fin.ofNat 16 n, false⟩

/-- The piece that the writer takes for a character. -/
def Piece.ofChar (c : Char) : Piece :=
  if hquote : c = '"' then .letter .quote
  else if hbackslash : c = '\\' then .letter .backslash
  else if hplain : 0x20 ≤ c.toNat then .plain c ⟨hquote, hbackslash, hplain⟩
  else
    match c with
    | '\x08' => .letter .backspace
    | '\t' => .letter .tab
    | '\n' => .letter .newline
    | '\x0c' => .letter .formFeed
    | '\r' => .letter .carriageReturn
    | _ => .unit (.ofByte c.toNat)

/-- What the writer puts between the quotes. -/
def Body.ofText (text : String) : Body :=
  text.toList.map Piece.ofChar

/-- The character that a piece stands for alone. -/
def Piece.meaning? : Piece → Option Char
  | plain c _ => some c
  | letter l => some l.meaning
  | unit u => if u.Trailing ∨ u.Leading then none else some (Char.ofNat u.value)

theorem decode?_cons_of_meaning {piece : Piece} {c : Char} (h : piece.meaning? = some c)
    (body : Body) : Body.decode? (piece :: body) = (Body.decode? body).map (c :: ·) := by
  cases piece with
  | plain c' h' =>
    obtain rfl := Option.some.inj h
    rfl
  | letter l =>
    obtain rfl := Option.some.inj h
    rfl
  | unit u =>
    rw [Piece.meaning?] at h
    split at h
    · contradiction
    · rename_i hsurrogate
      obtain rfl := Option.some.inj h
      rw [Body.decode?.eq_def]
      simp only [if_neg fun htrailing => hsurrogate (.inl htrailing),
        if_neg fun hleading => hsurrogate (.inr hleading)]

theorem escapeChar_control (n : Fin 32) :
    escapeChar (Char.ofNat n) = (Piece.ofChar (Char.ofNat n)).chars ∧
      (Piece.ofChar (Char.ofNat n)).meaning? = some (Char.ofNat n) := by
  revert n
  decide

theorem escapeChar_spells (c : Char) :
    escapeChar c = (Piece.ofChar c).chars ∧ (Piece.ofChar c).meaning? = some c := by
  rcases Nat.lt_or_ge c.toNat 0x20 with hcontrol | hplain
  · have h := escapeChar_control ⟨c.toNat, hcontrol⟩
    rwa [Char.ofNat_toNat] at h
  · by_cases hquote : c = '"'
    · subst hquote
      exact ⟨rfl, rfl⟩
    · by_cases hbackslash : c = '\\'
      · subst hbackslash
        exact ⟨rfl, rfl⟩
      · rw [Piece.ofChar, dif_neg hquote, dif_neg hbackslash, dif_pos hplain]
        refine ⟨?_, rfl⟩
        rw [escapeChar.eq_def]
        split
        · exact absurd rfl hquote
        · exact absurd rfl hbackslash
        · exact absurd hplain (by decide)
        · exact absurd hplain (by decide)
        · exact absurd hplain (by decide)
        · exact absurd hplain (by decide)
        · exact absurd hplain (by decide)
        · exact if_neg (not_lt.mpr hplain)

theorem means_ofText (text : String) : (Body.ofText text).Means text := by
  rw [Body.Means, Body.ofText]
  induction text.toList with
  | nil => rfl
  | cons c chars ih =>
    rw [List.map_cons, decode?_cons_of_meaning (escapeChar_spells c).2, ih]
    rfl

theorem toList_writeString (text : String) :
    (writeString text).toList = (Body.ofText text).quoted := by
  have hchars : text.toList.flatMap escapeChar = (Body.ofText text).chars := by
    rw [Body.chars, Body.ofText, List.flatMap_map]
    exact List.flatMap_congr fun c _ => (escapeChar_spells c).1
  simp [writeString, Body.quoted, hchars]

theorem spells_writeString (text : String) :
    Spells (.string (Body.ofText text)) (writeString text).toList := by
  rw [toList_writeString]
  exact .string _

end Strings

section Objects

theorem spellsKey_ofText (name : String) :
    SpellsKey (Body.ofText name) ((writeString name).toList ++ [':']) := by
  rw [toList_writeString]
  exact .intro (Body.ofText name) blanks_nil

/-- The members of a written object, with the values that their texts spell. -/
def written (members : List (String × String)) (values : List Value) : List (Body × Value) :=
  List.zipWith (fun m v => (Body.ofText m.1, v)) members values

theorem toList_writeMember (m : String × String) : (writeMember m).toList =
    (writeString m.1).toList ++ [':'] ++ ([] ++ m.2.toList) := by
  simp [writeMember]

theorem spellsMembers_write {m : String × String} {members : List (String × String)} {v : Value}
    {values : List Value} (h : Spells v m.2.toList)
    (hrest : List.Forall₂ (fun m v => Spells v m.2.toList) members values) :
    SpellsMembers (written (m :: members) (v :: values))
      (String.intercalate "," ((m :: members).map writeMember)).toList := by
  rw [String.toList_intercalate]
  induction hrest generalizing m v with
  | nil =>
    rw [List.map_singleton, List.map_singleton, List.intercalate_singleton, toList_writeMember]
    exact .last (spellsKey_ofText m.1) blanks_nil h
  | @cons next value members values hnext hrest ih =>
    have hrest' := ih hnext
    simp only [List.map_cons, List.intercalate_cons_cons, toList_writeMember] at hrest' ⊢
    have hmore := SpellsMembers.more (spellsKey_ofText m.1) blanks_nil h blanks_nil blanks_nil
      hrest'
    simpa [written] using hmore

theorem decodes_written {members : List (String × String)} {values : List Value}
    (h : List.Forall₂ (fun m v => Spells v m.2.toList) members values) :
    Decodes (written members values) (List.zipWith (fun m v => (m.1, v)) members values) := by
  induction h with
  | nil => exact .nil
  | cons _ _ ih => exact .cons ⟨means_ofText _, rfl⟩ ih

/-- What is written for members with spelled values is an object with these members. -/
theorem spellsObject_writeObject {m : String × String} {members : List (String × String)}
    {v : Value} {values : List Value} (h : Spells v m.2.toList)
    (hrest : List.Forall₂ (fun m v => Spells v m.2.toList) members values) :
    SpellsObject (List.zipWith (fun m v => (m.1, v)) (m :: members) (v :: values))
      (writeObject (m :: members)).toList := by
  refine ⟨written (m :: members) (v :: values), ?_, decodes_written (.cons h hrest)⟩
  have hobject := Spells.object blanks_nil (spellsMembers_write h hrest) blanks_nil
  simpa [writeObject] using hobject

end Objects

section Characters

/-- There is no control character among these. -/
def NoControl (chars : List Char) : Prop :=
  ∀ c ∈ chars, 0x20 ≤ c.toNat

theorem noControl_append {a b : List Char} : NoControl (a ++ b) ↔ NoControl a ∧ NoControl b :=
  List.forall_mem_append

theorem noControl_cons {c : Char} {chars : List Char} :
    NoControl (c :: chars) ↔ 0x20 ≤ c.toNat ∧ NoControl chars :=
  List.forall_mem_cons

theorem noControl_nil : NoControl [] :=
  List.forall_mem_nil _

theorem le_toNat_hexDigit (digit : HexDigit) : 0x20 ≤ digit.char.toNat := by
  obtain ⟨value, capital⟩ := digit
  revert value capital
  decide

theorem noControl_piece (piece : Piece) : NoControl piece.chars := by
  cases piece with
  | plain c h => exact noControl_cons.mpr ⟨h.2.2, noControl_nil⟩
  | letter l =>
    cases l <;> exact noControl_cons.mpr ⟨by decide, noControl_cons.mpr ⟨by decide, noControl_nil⟩⟩
  | unit u =>
    simp only [Piece.chars, CodeUnit.chars, noControl_cons, le_toNat_hexDigit, noControl_nil]
    decide

theorem noControl_quoted (body : Body) : NoControl body.quoted := by
  have hbody : NoControl body.chars := by
    intro c hc
    obtain ⟨piece, -, hpiece⟩ := List.mem_flatMap.mp hc
    exact noControl_piece piece c hpiece
  have hquote : 0x20 ≤ '"'.toNat := by decide
  exact noControl_cons.mpr ⟨hquote, noControl_append.mpr
    ⟨hbody, noControl_cons.mpr ⟨hquote, noControl_nil⟩⟩⟩

theorem le_toNat_of_isDigit {c : Char} (h : c.isDigit = true) : 0x20 ≤ c.toNat := by
  simp only [Char.isDigit, Bool.and_eq_true, decide_eq_true_eq, ge_iff_le,
    UInt32.le_iff_toNat_le] at h
  exact le_trans (by decide) h.1

theorem noControl_digits {digits : List Char} (h : ∀ c ∈ digits, c.isDigit = true) :
    NoControl digits :=
  fun c hc => le_toNat_of_isDigit (h c hc)

theorem noControl_exponent (exponent : Exponent) : NoControl exponent.chars := by
  obtain ⟨capital, sign, digits, hne, hdigits⟩ := exponent
  have hsign : NoControl (Exponent.signChars sign) := by
    rcases sign with _ | _ | _
    · exact noControl_nil
    · exact noControl_cons.mpr ⟨by decide, noControl_nil⟩
    · exact noControl_cons.mpr ⟨by decide, noControl_nil⟩
  refine noControl_cons.mpr ⟨?_, noControl_append.mpr ⟨hsign, noControl_digits hdigits⟩⟩
  split <;> decide

theorem noControl_numeral (n : Numeral) : NoControl n.chars := by
  obtain ⟨negative, whole, fraction, exponent, hne, hdigits, hzero⟩ := n
  obtain ⟨hwhole, hfraction⟩ := noControl_append.mp (noControl_digits hdigits)
  have hdot : NoControl (Numeral.fractionChars fraction) := by
    cases fraction with
    | nil => exact noControl_nil
    | cons d digits => exact noControl_cons.mpr ⟨by decide, hfraction⟩
  have hexponent : NoControl (Numeral.exponentChars exponent) := by
    cases exponent with
    | none => exact noControl_nil
    | some exponent => exact noControl_exponent exponent
  have hunsigned : NoControl (whole ++ (Numeral.fractionChars fraction ++
      Numeral.exponentChars exponent)) :=
    noControl_append.mpr ⟨hwhole, noControl_append.mpr ⟨hdot, hexponent⟩⟩
  cases negative with
  | false => exact hunsigned
  | true => exact noControl_cons.mpr ⟨by decide, hunsigned⟩

theorem noControl_intercalate {separator : List Char} (hseparator : NoControl separator)
    {parts : List (List Char)} (h : ∀ part ∈ parts, NoControl part) :
    NoControl (separator.intercalate parts) := by
  induction parts with
  | nil => exact noControl_nil
  | cons part parts ih =>
    obtain ⟨hpart, hparts⟩ := List.forall_mem_cons.mp h
    cases parts with
    | nil => simpa using hpart
    | cons next parts =>
      rw [List.intercalate_cons_cons]
      exact noControl_append.mpr ⟨noControl_append.mpr ⟨hpart, hseparator⟩, ih hparts⟩

theorem noControl_writeObject {members : List (String × String)}
    (h : ∀ m ∈ members, NoControl m.2.toList) : NoControl (writeObject members).toList := by
  have hmembers : NoControl ([','].intercalate ((members.map writeMember).map String.toList)) := by
    refine noControl_intercalate (noControl_cons.mpr ⟨by decide, noControl_nil⟩) ?_
    intro part hpart
    obtain ⟨_, htext, rfl⟩ := List.mem_map.mp hpart
    obtain ⟨m, hm, rfl⟩ := List.mem_map.mp htext
    have hcolon : NoControl [':'] := noControl_cons.mpr ⟨by decide, noControl_nil⟩
    rw [toList_writeMember, toList_writeString]
    exact noControl_append.mpr ⟨noControl_append.mpr ⟨noControl_quoted _, hcolon⟩, h m hm⟩
  have hobject : (writeObject members).toList =
      '\x7b' :: ([','].intercalate ((members.map writeMember).map String.toList) ++ ['\x7d']) := by
    simp [writeObject, String.toList_intercalate]
  rw [hobject]
  exact noControl_cons.mpr ⟨by decide, noControl_append.mpr
    ⟨hmembers, noControl_cons.mpr ⟨by decide, noControl_nil⟩⟩⟩

end Characters

end Abacus.Json
