import Abacus.Proofs.Simulation

/-!
Evaluation depends on the tokens of a text alone. Two texts with the same
tokens have the same value or fail for the same cause, and then the places of
the two errors are the same place between the tokens: the start of a token, or
the end of one when too many factors are open.
-/

namespace Abacus.Text

/-- The byte offset at which the token with index `k` starts, and the length of
the text when `k` is past the last token. -/
def startOf (text : String) (k : Nat) : Nat :=
  match (lexemes text)[k]? with
  | some lexeme => lexeme.start
  | none => text.utf8ByteSize

/-- The byte offset just past the token with index `k`, if there is one. -/
def stopOf? (text : String) (k : Nat) : Option Nat :=
  ((lexemes text)[k]?).map Lexeme.stop

namespace Cursor

variable {text : String} {before : List Char} {d : Cursor}

theorem Leads.length_tokensOf (h : (start text).Leads before d) :
    (lexemesFrom 0 before).length = (Text.tokens text).length - d.tokens.length := by
  have hlength := congrArg List.length h.lexemes_eq
  rw [length_lexemes, List.length_append, length_lexemes] at hlength
  change (Text.tokens text).length = (lexemesFrom 0 before).length + d.tokens.length at hlength
  omega

/-- A settled cursor stands at the start of the token that is next. -/
theorem Leads.startOf_eq (h : (start text).Leads before d) (hd : d.Settled) :
    startOf text ((Text.tokens text).length - d.tokens.length) = d.offset := by
  have hlexemes : Text.lexemes text = lexemesFrom 0 before ++ d.lexemes := h.lexemes_eq
  rw [startOf, hlexemes, ← h.length_tokensOf, List.getElem?_append_right (Nat.le_refl _),
    Nat.sub_self, ← List.head?_eq_getElem?]
  by_cases hrest : d.rest = []
  · have hnil : d.lexemes = [] := by
      rw [List.eq_nil_iff_length_eq_zero, length_lexemes, (rest_eq_nil_iff hd).mp hrest]
      rfl
    have hend := h.end_eq
    rw [hrest] at hend
    have hsize : width (start text).rest = text.utf8ByteSize := width_toList text
    rw [hsize] at hend
    simp only [hnil, List.head?_nil]
    simpa [start, width] using hend.symm
  · obtain ⟨lexeme, hlexeme, hstart⟩ :=
      Option.map_eq_some_iff.mp (head_lexemes_of_settled hd hrest)
    simp only [hlexeme, hstart]

/-- A cursor just behind a single token stands at its end. -/
theorem Leads.stopOf?_eq {o : Char} (h : (start text).Leads (before ++ [o]) d)
    (ho : StandsAlone o) :
    stopOf? text ((Text.tokens text).length - d.tokens.length - 1) = some d.offset := by
  have hlexemes : Text.lexemes text =
      lexemesFrom 0 before ++ [⟨width before, .single o⟩] ++ d.lexemes := by
    rw [← Nat.zero_add (width before), ← lexemesFrom_concat 0 before ho]
    exact h.lexemes_eq
  have hlength := h.length_tokensOf
  rw [lexemesFrom_concat 0 before ho, List.length_append] at hlength
  rw [stopOf?, hlexemes, ← hlength, List.length_singleton, Nat.add_sub_cancel]
  rw [List.append_assoc, List.getElem?_append_right (Nat.le_refl _), Nat.sub_self]
  have hoffset := h.offset_eq
  simp only [start, width_append] at hoffset
  simp [Lexeme.stop, Token.chars, hoffset]

end Cursor

end Abacus.Text

namespace Abacus.Expression

open Text Text.Cursor Automaton

theorem head?_toList_append {a b : String} {c : Char} (h : a.toList.head? = some c) :
    (a ++ b).toList.head? = some c := by
  rw [String.toList_append, List.head?_append, h]
  rfl

theorem Cause.message_eq_tooDeep_iff (cause : Cause) :
    cause.message = "expression nested too deeply" ↔ cause = .nestedTooDeeply := by
  constructor
  · intro h
    have hdeep : cause.message.toList.head? = some 'e' := by rw [h]; decide
    cases cause with
    | nestedTooDeeply => rfl
    | unexpectedCharacter c =>
      have hother : (Cause.unexpectedCharacter c).message.toList.head? = some 'u' :=
        head?_toList_append (head?_toList_append (by decide))
      rw [hother] at hdeep
      contradiction
    | malformedNumber literal =>
      have hother : (Cause.malformedNumber literal).message.toList.head? = some 'm' :=
        head?_toList_append (head?_toList_append (by decide))
      rw [hother] at hdeep
      contradiction
    | unexpectedEnd | missingParenthesis => contradiction
  · rintro rfl
    rfl

/-- The machine tells where an error stands: too deep a factor at the end of the
last token read, and anything else at the start of the token that is next. -/
theorem exists_run_of_evaluate {text : String} {e : SyntaxError}
    (h : evaluate text = .error e) :
    ∃ ahead, run maxDepth .start (tokens text) = .error (e.cause, ahead) ∧
      ahead.length ≤ (tokens text).length ∧
      if e.cause = .nestedTooDeeply then
        stopOf? text ((tokens text).length - ahead.length - 1) = some e.position
      else
        startOf text ((tokens text).length - ahead.length) = e.position ∧
          e.found = ahead.head?.map Token.head := by
  obtain ⟨before, d, hlead, he, hrun, hplace⟩ := fails_of_evaluateWithin h
  have hposition : e.position = d.offset := congrArg SyntaxError.position he
  have hfound : e.found = d.peek := congrArg SyntaxError.found he
  have hlength : d.tokens.length ≤ (tokens text).length := by
    have hsplit := congrArg List.length hlead.tokens_eq
    rw [tokens_start, List.length_append] at hsplit
    omega
  refine ⟨d.tokens, hrun, hlength, ?_⟩
  split
  · rename_i hdeep
    have hstart : ¬maxDepth < State.start.active := by decide
    simp only [if_pos hdeep, hstart, and_false, or_false] at hplace
    obtain ⟨o, ho, hopens⟩ := hplace
    obtain ⟨front, rfl⟩ := List.getLast?_eq_some_iff.mp ho
    rw [hlead.stopOf?_eq (standsAlone_of_isOpener hopens), hposition]
  · rename_i hdeep
    rw [if_neg hdeep] at hplace
    exact ⟨by rw [hlead.startOf_eq hplace, hposition], by rw [hfound, peek_of_settled hplace]⟩

/-- The outcomes of two texts match: they are the same value, or errors with the
same message at the same place between the tokens. An error about depth stands
behind a token, any other at the start of one or at the end of the text. -/
inductive Matching (s s' : String) :
    Except SyntaxError Float → Except SyntaxError Float → Prop where
  | value (x : Float) : Matching s s' (.ok x) (.ok x)
  | behindToken {e e' : SyntaxError} (k : Nat)
      (hmessage : e.message = "expression nested too deeply") (hsame : e'.message = e.message)
      (hstop : stopOf? s k = some e.position) (hstop' : stopOf? s' k = some e'.position) :
      Matching s s' (.error e) (.error e')
  | atToken {e e' : SyntaxError} (k : Nat) (hle : k ≤ (tokens s).length)
      (hmessage : e.message ≠ "expression nested too deeply") (hsame : e'.message = e.message)
      (hfound : e'.found = e.found) (hend : e.found = none ↔ k = (tokens s).length)
      (hstart : startOf s k = e.position) (hstart' : startOf s' k = e'.position) :
      Matching s s' (.error e) (.error e')

/-- Evaluation factors through the tokens of a text. -/
theorem evaluate_matching_of_tokens_eq {s s' : String} (h : tokens s = tokens s') :
    Matching s s' (evaluate s) (evaluate s') := by
  cases hs : evaluate s with
  | ok x =>
    have hs' : evaluate s' = .ok x := by
      apply evaluateWithin_eq_ok_iff.mpr
      rw [← h]
      exact evaluateWithin_eq_ok_iff.mp hs
    rw [hs']
    exact .value x
  | error e =>
    obtain ⟨ahead, hrun, hlength, hplace⟩ := exists_run_of_evaluate hs
    obtain ⟨e', hs', hcause⟩ : ∃ e', evaluate s' = .error e' ∧ e'.cause = e.cause :=
      exists_of_run_error (h ▸ hrun)
    obtain ⟨ahead', hrun', -, hplace'⟩ := exists_run_of_evaluate hs'
    rw [hcause, ← h, hrun] at hrun'
    obtain rfl : ahead = ahead' := by simpa using hrun'
    have hmessage : e'.message = e.message := congrArg Cause.message hcause
    rw [hs']
    by_cases hdeep : e.cause = .nestedTooDeeply
    · rw [if_pos hdeep] at hplace
      rw [if_pos (hcause.trans hdeep), ← h] at hplace'
      exact .behindToken _ ((Cause.message_eq_tooDeep_iff _).mpr hdeep) hmessage hplace hplace'
    · rw [if_neg hdeep] at hplace
      rw [if_neg (hcause ▸ hdeep), ← h] at hplace'
      have hend : e.found = none ↔
          (tokens s).length - ahead.length = (tokens s).length := by
        rw [hplace.2, Option.map_eq_none_iff, List.head?_eq_none_iff,
          List.eq_nil_iff_length_eq_zero]
        omega
      exact .atToken _ (Nat.sub_le _ _) (mt (Cause.message_eq_tooDeep_iff _).mp hdeep) hmessage
        (hplace'.2.trans hplace.2.symm) hend hplace.1 hplace'.1

theorem evaluate_matching_spread_group :
    tokens "1 +(2.5 4" = tokens " 1+ ( 2.5  4 " ∧
      Matching "1 +(2.5 4" " 1+ ( 2.5  4 " (evaluate "1 +(2.5 4") (evaluate " 1+ ( 2.5  4 ") :=
  have h : tokens "1 +(2.5 4" = tokens " 1+ ( 2.5  4 " := by decide +kernel
  ⟨h, evaluate_matching_of_tokens_eq h⟩

end Abacus.Expression
