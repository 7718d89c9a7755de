import Abacus.Proofs.Grammar
import Abacus.Proofs.Simulation

/-!
Syntax errors and the texts they are about. An error cuts the text in two where it
stands: it knows the first character behind the cut, and its message says something
about the text there. What a message says is read off the token at which the machine
stops, since the place of an error is the start of that token. A factor that is open
too deep stops the machine at any token, and its message says nothing about the text.
-/

namespace Abacus.Expression

open Text Text.Cursor Automaton

section Messages

theorem getElem?_toList_append {a b : String} {i : Nat} {c : Char} (h : a.toList[i]? = some c) :
    (a ++ b).toList[i]? = some c := by
  obtain ⟨hi, -⟩ := List.getElem?_eq_some_iff.mp h
  rw [String.toList_append, List.getElem?_append_left hi, h]

/-- A character of the message by which the messages of different causes differ. -/
def Cause.mark : Cause → Option Char
  | unexpectedCharacter _ => some 'c'
  | unexpectedEnd => some 'e'
  | missingParenthesis => none
  | malformedNumber _ => some 'u'
  | nestedTooDeeply => some 'n'

theorem Cause.getElem?_message (cause : Cause) : cause.message.toList[11]? = cause.mark := by
  cases cause with
  | unexpectedCharacter c =>
    exact getElem?_toList_append (getElem?_toList_append (by decide +kernel))
  | malformedNumber literal =>
    exact getElem?_toList_append (getElem?_toList_append (by decide +kernel))
  | unexpectedEnd | missingParenthesis | nestedTooDeeply => decide +kernel

theorem append_quoted_injective {front quoted quoted' behind : String}
    (h : front ++ quoted ++ behind = front ++ quoted' ++ behind) : quoted = quoted' := by
  have hlist := congrArg String.toList h
  simp only [String.toList_append] at hlist
  exact String.toList_inj.mp (List.append_cancel_left (List.append_cancel_right hlist))

/-- A message names its cause. -/
theorem Cause.message_injective {cause cause' : Cause} (h : cause.message = cause'.message) :
    cause = cause' := by
  have hmark : cause.mark = cause'.mark := by
    rw [← cause.getElem?_message, ← cause'.getElem?_message, h]
  cases cause <;> cases cause' <;>
    simp only [mark, Option.some.injEq, Char.reduceEq, reduceCtorEq] at hmark
  case unexpectedCharacter.unexpectedCharacter c c' =>
    have hc := congrArg String.toList (append_quoted_injective h)
    simpa using hc
  case malformedNumber.malformedNumber literal literal' =>
    rw [append_quoted_injective h]
  all_goals rfl

end Messages

/-- The characters that may stand behind an operand and go on with it. -/
def operators : List Char :=
  ['+', '-', '*', '/', '%', '^']

theorem notMem_operators_of_closes {c : Char} (h : Closes c) : c ∉ operators := by
  obtain ⟨⟨hpower, hproduct⟩, hsum⟩ := h
  intro hmem
  simp only [operators, List.mem_cons, List.not_mem_nil, or_false] at hmem
  rcases hmem with rfl | rfl | rfl | rfl | rfl | rfl <;> contradiction

/-- What a cause says about a text that is cut at the error. -/
def Cause.Fits (before behind : List Char) : Cause → Prop
  | unexpectedCharacter c => behind.head? = some c ∧ c ≠ ' '
  | unexpectedEnd => behind.head? = none
  | missingParenthesis => ∀ c ∈ behind.head?, c ≠ ')' ∧ c ≠ ' ' ∧ c ∉ operators
  | malformedNumber literal =>
    literal.toList = behind.takeWhile isNumberChar ∧ literal ≠ "" ∧
      (∀ c ∈ before.getLast?, isNumberChar c = false) ∧
      ((∀ c ∈ literal.toList, c.isDigit = false) ∨ 1 < literal.toList.count '.')
  | nestedTooDeeply => True

namespace Automaton

section Stopping

variable {s : State} {t : Token} {cause : Cause} {limit : Nat}

theorem State.readBehind_eq_error {x : Float} {c : Char} (h : s.readBehind x c = .error cause) :
    Closes c ∧ s.leave x c = .error cause := by
  have hcloses : Closes c := by
    simp only [State.readBehind] at h
    split at h
    · contradiction
    · rename_i hpower
      split at h
      · contradiction
      · rename_i hproduct
        split at h
        · contradiction
        · rename_i hsum
          exact ⟨⟨hpower, hproduct⟩, hsum⟩
  rw [readBehind_of_closes hcloses] at h
  exact ⟨hcloses, h⟩

theorem State.leave_eq_error {x : Float} {c : Char} (h : s.leave x c = .error cause) :
    cause = .unexpectedCharacter c ∨ cause = .missingParenthesis ∧ c ≠ ')' := by
  rw [State.leave] at h
  split at h
  · cases h
    exact .inl rfl
  · split at h
    · contradiction
    · rename_i hclose
      cases h
      exact .inr ⟨rfl, hclose⟩

theorem State.readOperand_eq_error (h : s.readOperand t = .error cause) :
    cause = .unexpectedCharacter t.head ∨
      ∃ first rest, t = .run first rest ∧ Literal.ofRun? (first :: rest) = none ∧
        cause = .malformedNumber (String.ofList (first :: rest)) := by
  unfold State.readOperand at h
  split at h
  · rename_i first rest
    split at h
    · contradiction
    · rename_i hliteral
      cases h
      exact .inr ⟨first, rest, rfl, hliteral, rfl⟩
  · contradiction
  · contradiction
  · contradiction
  · cases h
    exact .inl rfl

/-- A token that is not read is no operand where one is expected, or stands behind an
operand where only an operator or the end of a group could stand. -/
theorem State.read_eq_error (h : s.read t = .error cause) :
    cause = .unexpectedCharacter t.head ∨
      cause = .missingParenthesis ∧ t.head ≠ ')' ∧ Closes t.head ∨
      ∃ first rest, t = .run first rest ∧ Literal.ofRun? (first :: rest) = none ∧
        cause = .malformedNumber (String.ofList (first :: rest)) := by
  obtain ⟨outer, level, operand⟩ := s
  cases operand with
  | none => exact (readOperand_eq_error h).imp_right .inr
  | some x =>
    obtain ⟨hcloses, hleave⟩ := readBehind_eq_error h
    exact (leave_eq_error hleave).imp_right fun ⟨hcause, hclose⟩ =>
      .inl ⟨hcause, hclose, hcloses⟩

theorem State.finish_eq_error (h : s.finish = .error cause) :
    cause = .unexpectedEnd ∨ cause = .missingParenthesis := by
  obtain ⟨outer, level, operand⟩ := s
  cases operand with
  | none =>
    cases h
    exact .inl rfl
  | some x =>
    cases outer with
    | nil => contradiction
    | cons level' outer' =>
      cases h
      exact .inr rfl

end Stopping

end Automaton

namespace Cause

variable {before : List Char} {d : Cursor}

/-- A run that is the next token is all that can be scanned, and has no digit or a
second dot if it is no literal. -/
theorem fits_malformedNumber {first : Char} {rest : List Char} {ts : List Token}
    (hd : d.Settled) (hapart : Apart before d.rest) (htokens : d.tokens = .run first rest :: ts)
    (hliteral : Literal.ofRun? (first :: rest) = none) :
    (malformedNumber (String.ofList (first :: rest))).Fits before d.rest := by
  have hpeek : d.peek = some first := by
    rw [peek_of_settled hd, htokens]
    rfl
  have hnumber : isNumberChar first = true := by
    by_contra hnot
    have hspace : first ≠ ' ' := by
      rintro rfl
      exact hd hpeek
    rw [tokens_next hpeek ⟨hspace, by simpa using hnot⟩] at htokens
    simp at htokens
  obtain ⟨run, after, hscan, -, hrun⟩ := exists_scanNumber hpeek hnumber
  rw [htokens] at hrun
  simp only [List.cons.injEq, Token.run.injEq, true_and] at hrun
  obtain ⟨rfl, -⟩ := hrun
  have hall : first :: rest = d.rest.takeWhile isNumberChar := (congrArg Prod.fst hscan).symm
  have hnumeral : ¬IsNumeral (first :: rest) := by
    rw [← isSome_ofRun?_iff, hliteral]
    simp
  refine ⟨by rw [String.toList_ofList, hall], by simp, fun c hc => ?_, ?_⟩
  · by_contra hnot
    have hfirst := hapart c hc first hpeek (by simpa using hnot)
    rw [hnumber] at hfirst
    contradiction
  · rw [String.toList_ofList]
    by_contra hboth
    push Not at hboth
    obtain ⟨⟨c, hc, hdigit⟩, hdots⟩ := hboth
    refine hnumeral ⟨?_, ⟨c, hc, by simpa using hdigit⟩, hdots⟩
    rw [hall]
    exact List.all_eq_true.mp List.all_takeWhile

/-- Where the machine stops the cause fits the text. -/
theorem fits_of_stops {s : State} {cause : Cause} {limit : Nat}
    (hstop : Stops limit s cause d.tokens) (hplace : cause ≠ .nestedTooDeeply → d.Settled)
    (hapart : Apart before d.rest) : cause.Fits before d.rest := by
  by_cases hdeep : cause = .nestedTooDeeply
  · rw [hdeep]
    trivial
  have hd : d.Settled := hplace hdeep
  have hpeek : d.rest.head? = d.tokens.head?.map Token.head := peek_of_settled hd
  generalize htokens : d.tokens = ts at hstop hpeek
  cases hstop with
  | tooDeep => contradiction
  | atEnd _ hfinish =>
    rcases State.finish_eq_error hfinish with rfl | rfl
    · exact hpeek
    · intro c hc
      rw [hpeek] at hc
      contradiction
  | @atToken _ t rest _ hread =>
    have hspace : t.head ≠ ' ' := by
      intro h
      rw [List.head?_cons, Option.map_some, h] at hpeek
      exact hd hpeek
    rcases State.read_eq_error hread with rfl | ⟨rfl, hclose, hcloses⟩ |
      ⟨first, run, rfl, hliteral, rfl⟩
    · exact ⟨hpeek, hspace⟩
    · intro c hc
      obtain rfl : t.head = c := by simpa [hpeek] using hc
      exact ⟨hclose, hspace, notMem_operators_of_closes hcloses⟩
    · exact fits_malformedNumber hd hapart htokens hliteral

end Cause

/-- The message of an error is true of the text that is cut at the error. -/
structure Explained (message : String) (found : Option Char) (before behind : String) :
    Prop where
  character : ∀ c : Char, message = "unexpected character '" ++ c.toString ++ "'" →
    found = some c ∧ c ≠ ' '
  ended : message = "unexpected end of input" → found = none
  unclosed : message = "missing ')'" → ∀ c ∈ found, c ∉ [')', ' ', '+', '-', '*', '/', '%', '^']
  malformed : ∀ literal : String, message = "malformed number '" ++ literal ++ "'" →
    literal.toList = behind.toList.takeWhile isNumberChar ∧ literal ≠ "" ∧
      (∀ c ∈ before.toList.getLast?, isNumberChar c = false) ∧
      ((∀ c ∈ literal.toList, c.isDigit = false) ∨ 1 < literal.toList.count '.')
  listed : (∃ c : Char, message = "unexpected character '" ++ c.toString ++ "'") ∨
    message = "unexpected end of input" ∨ message = "missing ')'" ∨
    (∃ literal, message = "malformed number '" ++ literal ++ "'") ∨
    message = "expression nested too deeply"

theorem Cause.Fits.explained {before behind : String} {cause : Cause}
    (h : cause.Fits before.toList behind.toList) :
    Explained cause.message behind.toList.head? before behind := by
  have hfits : ∀ cause' : Cause, cause.message = cause'.message →
      cause'.Fits before.toList behind.toList := by
    intro cause' hmessage
    rwa [← Cause.message_injective hmessage]
  refine ⟨fun c hc => hfits (.unexpectedCharacter c) hc, fun hend => hfits .unexpectedEnd hend,
    fun hmissing c hc => ?_, fun literal hliteral => hfits (.malformedNumber literal) hliteral,
    ?_⟩
  · obtain ⟨hclose, hspace, hoperator⟩ := hfits .missingParenthesis hmissing c hc
    simpa [operators, hclose, hspace] using hoperator
  · cases cause with
    | unexpectedCharacter c => exact .inl ⟨c, rfl⟩
    | unexpectedEnd => exact .inr (.inl rfl)
    | missingParenthesis => exact .inr (.inr (.inl rfl))
    | malformedNumber literal => exact .inr (.inr (.inr (.inl ⟨literal, rfl⟩)))
    | nestedTooDeeply => exact .inr (.inr (.inr (.inr rfl)))

/-- An error cuts its text at a character. The first character behind the cut is the
one found, and the message is true of the text. -/
theorem evaluate_error_explained {s : String} {e : SyntaxError} (h : evaluate s = .error e) :
    ∃ before behind : String, s = before ++ behind ∧ e.position = before.utf8ByteSize ∧
      e.position ≤ s.utf8ByteSize ∧ e.found = behind.toList.head? ∧
      (e.found = none ↔ e.position = s.utf8ByteSize) ∧
      Explained e.message e.found before behind := by
  obtain ⟨before, d, state, hlead, he, hstop, -, hplace⟩ := exists_state_of_error h
  have hfits : e.cause.Fits before d.rest := by
    refine Cause.fits_of_stops hstop (fun hne => ?_) hlead.apart
    rwa [if_neg hne] at hplace
  have hs : s = String.ofList before ++ String.ofList d.rest := by
    have hsplit : s.toList = before ++ d.rest := hlead.rest_eq
    rw [← String.ofList_append, ← hsplit, String.ofList_toList]
  have hposition : e.position = (String.ofList before).utf8ByteSize := by
    have hoffset : d.offset = 0 + width before := hlead.offset_eq
    rw [he, ← width_toList, String.toList_ofList]
    simpa [failAt] using hoffset
  have hsize : s.utf8ByteSize = e.position + width d.rest := by
    rw [hs, String.utf8ByteSize_append, ← hposition, ← width_toList, String.toList_ofList]
  have hfound : e.found = d.rest.head? := congrArg SyntaxError.found he
  refine ⟨_, _, hs, hposition, by omega, by rw [hfound, String.toList_ofList], ?_, ?_⟩
  · rw [hfound, List.head?_eq_none_iff]
    constructor
    · intro hnil
      rw [hsize, hnil]
      rfl
    · intro hend
      exact eq_nil_of_width (by omega)
  · have hfits' : e.cause.Fits (String.ofList before).toList (String.ofList d.rest).toList := by
      rwa [String.toList_ofList, String.toList_ofList]
    have hexplained := hfits'.explained
    rwa [String.toList_ofList, ← hfound] at hexplained

/-- A second dot in a group, in front of a character of two bytes. -/
theorem evaluate_error_explained_second_dot :
    evaluate "(2 *1.2.5π" = .error ⟨.malformedNumber "1.2.5", 4, some '1'⟩ ∧
      ∃ before behind : String, "(2 *1.2.5π" = before ++ behind ∧ 4 = before.utf8ByteSize ∧
        4 ≤ "(2 *1.2.5π".utf8ByteSize ∧ some '1' = behind.toList.head? ∧
        (some '1' = none ↔ 4 = "(2 *1.2.5π".utf8ByteSize) ∧
        Explained "malformed number '1.2.5'" (some '1') before behind :=
  have h : evaluate "(2 *1.2.5π" = .error ⟨.malformedNumber "1.2.5", 4, some '1'⟩ := by
    with_unfolding_all rfl
  ⟨h, evaluate_error_explained h⟩

end Abacus.Expression
