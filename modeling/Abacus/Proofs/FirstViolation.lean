import Abacus.Proofs.Simulation

/-!
A syntax error stands where the text first stops being the beginning of an
expression. The text before the error can be completed: an operand, if one is
expected, and the missing parentheses. The character at the error cannot be
read whatever follows it. Numbers that are no literals and factors that are
open too deep have errors of another kind.
-/

namespace Abacus.Expression

open Text Text.Cursor Automaton

/-- The causes that refuse the character at the error, or the end of the text. -/
def Cause.isViolation : Cause → Bool
  | unexpectedCharacter _ | unexpectedEnd | missingParenthesis => true
  | malformedNumber _ | nestedTooDeeply => false

namespace Automaton

variable {limit : Nat}

/-- What is left to write when an expression is complete but for its groups. -/
def closing (outer : List Level) : List Char :=
  List.replicate outer.length ')'

theorem tokensOf_closing (level : Level) (outer : List Level) :
    tokensOf (closing (level :: outer)) = .single ')' :: tokensOf (closing outer) :=
  tokensOf_single _ (by decide)

theorem exists_run_closing (outer : List Level) (level : Level) (x : Float)
    (h : State.active ⟨outer, level, some x⟩ ≤ limit) :
    ∃ y, run limit ⟨outer, level, some x⟩ (tokensOf (closing outer)) = .ok y := by
  induction outer generalizing level x with
  | nil =>
    refine ⟨level.expression x, ?_⟩
    rw [closing, List.length_nil, List.replicate_zero, tokensOf_nil]
    exact run_nil h
  | cons level' outer ih =>
    have hactive : State.active ⟨outer, level', some (level.expression x)⟩ ≤ limit := by
      simp only [State.active, State.activeIn] at h ⊢
      omega
    obtain ⟨y, hy⟩ := ih level' (level.expression x) hactive
    refine ⟨y, ?_⟩
    rw [tokensOf_closing, run_cons_of_ok h rfl, hy]

/-- From every state within the limit some text completes the expression. The
space in front keeps its number apart from the text before. -/
theorem exists_completion {s : State} (h : s.active ≤ limit) :
    ∃ w x, run limit s (tokensOf (' ' :: w)) = .ok x := by
  obtain ⟨outer, level, operand⟩ := s
  cases operand with
  | some x =>
    obtain ⟨y, hy⟩ := exists_run_closing outer level x h
    exact ⟨closing outer, y, by rw [tokensOf_space, hy]⟩
  | none =>
    obtain ⟨literal, hliteral⟩ : ∃ literal, Literal.ofRun? ['1'] = some literal := ⟨_, rfl⟩
    obtain ⟨y, hy⟩ := exists_run_closing outer level literal.value h
    refine ⟨'1' :: closing outer, y, ?_⟩
    have htokens : tokensOf ('1' :: closing outer) =
        .run '1' [] :: tokensOf (closing outer) := by
      rw [tokensOf_run _ (by decide)]
      cases outer <;> simp [closing, List.replicate_succ, isNumberChar]
    have hread : State.read ⟨outer, level, none⟩ (.run '1' []) =
        .ok ⟨outer, level, some literal.value⟩ := by
      simp only [State.read, State.readOperand, hliteral]
      rfl
    rw [tokensOf_space, htokens, run_cons_of_ok h hread, hy]

theorem Stops.active_le_of_violation {s : State} {cause : Cause} {ahead : List Token}
    (hcause : cause.isViolation = true) (h : Stops limit s cause ahead) :
    s.active ≤ limit := by
  cases h with
  | tooDeep => contradiction
  | atEnd hactive _ => exact hactive
  | atToken _ hactive _ => exact hactive

/-- A violation is seen from the first character of the token. -/
theorem exists_stops_of_head {s : State} {cause : Cause} {c : Char} {rest : List Char}
    (hcause : cause.isViolation = true) (hc : c ≠ ' ')
    (h : Stops limit s cause (tokensOf (c :: rest))) (w : List Char) :
    Stops limit s cause (tokensOf (c :: w)) := by
  by_cases hnumber : isNumberChar c = true
  · rw [tokensOf_run _ hnumber] at h ⊢
    cases h with
    | tooDeep _ hdeep => exact .tooDeep _ hdeep
    | atToken _ hactive hread =>
      refine .atToken _ hactive ?_
      obtain ⟨outer, level, operand⟩ := s
      cases operand with
      | some x => exact hread
      | none =>
        simp only [State.read, State.readOperand] at hread
        split at hread
        · contradiction
        · cases hread
          contradiction
  · rw [tokensOf_single _ ⟨hc, by simpa using hnumber⟩] at h ⊢
    cases h with
    | tooDeep _ hdeep => exact .tooDeep _ hdeep
    | atToken _ hactive hread => exact .atToken _ hactive hread

end Automaton

/-- The error is the same for every text that begins with the text before the
error and the character found. -/
theorem evaluate_eq_of_found {before : List Char} {d : Cursor} {s : State} {cause : Cause}
    {c : Char} (hlead : Cursor.Leads ⟨0, before ++ d.rest⟩ before d) (hd : d.Settled)
    (hcause : cause.isViolation = true) (hstop : Stops maxDepth s cause d.tokens)
    (hrun : ∀ w, Apart before w →
      run maxDepth .start (tokensOf (before ++ w)) = run maxDepth s (tokensOf w))
    (hfound : d.peek = some c) (w : List Char) :
    evaluate (String.ofList (before ++ c :: w)) = .error (failAt cause d) := by
  obtain ⟨rest, hrest⟩ := List.head?_eq_some_iff.mp hfound
  have hc : c ≠ ' ' := by
    rintro rfl
    exact hd hfound
  have hapart : Apart before (c :: w) := by
    intro a ha b hb
    apply hlead.apart a ha
    rw [hrest]
    exact hb
  have hplace : (Cursor.start (String.ofList (before ++ c :: w))).Leads before
      ⟨d.offset, c :: w⟩ := by
    refine ⟨?_, hlead.offset_eq, hapart⟩
    simp [Cursor.start, String.toList_ofList]
  have hstop' : Stops maxDepth s cause (tokensOf (c :: w)) := by
    rw [Cursor.tokens, hrest] at hstop
    exact exists_stops_of_head hcause hc hstop w
  have hne : cause ≠ .nestedTooDeeply := by
    rintro rfl
    contradiction
  have hsettled : Cursor.Settled ⟨d.offset, c :: w⟩ := by
    simpa [Cursor.Settled, Cursor.peek] using hc
  have hrun' : run maxDepth .start (Text.tokens (String.ofList (before ++ c :: w))) =
      .error (cause, tokensOf (c :: w)) := by
    rw [Text.tokens, String.toList_ofList, hrun _ hapart]
    exact hstop'.run_eq
  have herror := evaluateWithin_eq_error hplace hsettled hne hrun'
  rw [evaluate, herror]
  simp [failAt, Cursor.peek, hrest]

/-- The text before a syntax error is the beginning of an expression, and with
the character found it is the beginning of none. -/
theorem evaluate_violation {s : String} {e : SyntaxError} (h : evaluate s = .error e)
    (hcause : e.cause.isViolation = true) :
    ∃ before behind : String, s = before ++ behind ∧ e.position = before.utf8ByteSize ∧
      e.found = behind.toList.head? ∧
      (∃ w x, evaluate (before ++ w) = .ok x) ∧
      (∀ c, e.found = some c →
        ∀ w, evaluate (before ++ String.singleton c ++ w) = .error e) ∧
      (e.found = none → e.position = s.utf8ByteSize ∧ ∃ w x, evaluate (s ++ w) = .ok x) := by
  obtain ⟨before, d, state, hlead, he, hstop, hrun, hplace⟩ := exists_state_of_error h
  have hne : e.cause ≠ .nestedTooDeeply := by
    intro hdeep
    rw [hdeep] at hcause
    contradiction
  rw [if_neg hne] at hplace
  have hsplit : s.toList = before ++ d.rest := hlead.rest_eq
  have hs : s = String.ofList before ++ String.ofList d.rest := by
    rw [← String.ofList_append, ← hsplit, String.ofList_toList]
  have hposition : e.position = (String.ofList before).utf8ByteSize := by
    have hoffset : d.offset = 0 + width before := hlead.offset_eq
    rw [he, ← width_toList, String.toList_ofList]
    simpa [failAt] using hoffset
  have hfound : e.found = d.peek := congrArg SyntaxError.found he
  have hviable : ∃ w x, evaluate (String.ofList before ++ w) = .ok x := by
    obtain ⟨w, x, hx⟩ := exists_completion (Stops.active_le_of_violation hcause hstop)
    have hapart : Apart before (' ' :: w) := apart_of_head (by simp [isNumberChar])
    refine ⟨String.ofList (' ' :: w), x, evaluateWithin_eq_ok_iff.mpr ?_⟩
    rw [← String.ofList_append, Text.tokens, String.toList_ofList, hrun _ hapart, hx]
  refine ⟨String.ofList before, String.ofList d.rest, hs, hposition, ?_, hviable, ?_, ?_⟩
  · rw [hfound, String.toList_ofList]
    rfl
  · intro c hc w
    have hlead' : Cursor.Leads ⟨0, before ++ d.rest⟩ before d :=
      ⟨rfl, hlead.offset_eq, hlead.apart⟩
    have herror := evaluate_eq_of_found hlead' hplace hcause hstop hrun (hfound ▸ hc) w.toList
    rw [← he, ← List.singleton_append, String.ofList_append, String.ofList_append,
      String.ofList_toList, ← String.append_assoc, ← String.singleton_eq_ofList] at herror
    exact herror
  · intro hnone
    have hrest : d.rest = [] := by
      rw [hfound] at hnone
      simpa [Cursor.peek] using hnone
    rw [hrest, String.ofList_nil, String.append_empty] at hs
    rw [hs]
    exact ⟨hposition, hviable⟩

theorem evaluate_violation_in_group :
    evaluate "(2 3)" = .error ⟨.missingParenthesis, 3, some '3'⟩ ∧
      Cause.isViolation .missingParenthesis = true ∧
      ∃ before behind : String, "(2 3)" = before ++ behind ∧ 3 = before.utf8ByteSize ∧
        some '3' = behind.toList.head? ∧
        (∃ w x, evaluate (before ++ w) = .ok x) ∧
        (∀ c, some '3' = some c → ∀ w, evaluate (before ++ String.singleton c ++ w) =
          .error ⟨.missingParenthesis, 3, some '3'⟩) ∧
        (some '3' = none → 3 = "(2 3)".utf8ByteSize ∧ ∃ w x, evaluate ("(2 3)" ++ w) = .ok x) :=
  have h : evaluate "(2 3)" = .error ⟨.missingParenthesis, 3, some '3'⟩ := by
    with_unfolding_all rfl
  ⟨h, rfl, evaluate_violation h rfl⟩

end Abacus.Expression
