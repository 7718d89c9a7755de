import Abacus.Proofs.Simulation

/-!
What a state has to do with failure is its shape: whether an operand is expected
and how many factors are open between each pair of parentheses. The numbers that
are read and the operators that wait have no part in it. So behind an expression
and an operator a text fails as it does alone.
-/

namespace Abacus.Expression.Automaton

open Text Text.Cursor

/-- The error of an outcome, if it is one. -/
def failure? {ε α : Type} : Except ε α → Option ε
  | .ok _ => none
  | .error e => some e

theorem failure?_mapError {ε ε' α : Type} (f : ε → ε') (outcome : Except ε α) :
    failure? (outcome.mapError f) = (failure? outcome).map f := by
  cases outcome <;> rfl

/-- The number of factors that wait. -/
def Level.size (level : Level) : Nat :=
  level.factors.length

/-- The states differ at most in numbers and in the operators that wait. -/
structure Alike (s s' : State) : Prop where
  operand_eq : s.operand.isSome = s'.operand.isSome
  size_eq : s.level.size = s'.level.size
  outer_eq : s.outer.map Level.size = s'.outer.map Level.size

variable {s s' : State}

theorem activeIn_eq_of_map {outer outer' : List Level}
    (h : outer.map Level.size = outer'.map Level.size) :
    State.activeIn outer = State.activeIn outer' := by
  induction outer generalizing outer' with
  | nil =>
    obtain rfl : outer' = [] := by simpa using h.symm
    rfl
  | cons level outer ih =>
    cases outer' with
    | nil => contradiction
    | cons level' outer' =>
      obtain ⟨hlevel, houter⟩ := List.cons.inj h
      simp only [Level.size] at hlevel
      rw [State.activeIn, State.activeIn, hlevel, ih houter]

theorem Alike.active_eq (h : Alike s s') : s.active = s'.active := by
  have hsize := h.size_eq
  simp only [Level.size] at hsize
  rw [State.active, State.active, hsize, activeIn_eq_of_map h.outer_eq]

/-- The steps of the two states on one token fail alike or lead to states alike. -/
inductive AlikeSteps : Except Cause State → Except Cause State → Prop where
  | ok {s s' : State} (h : Alike s s') : AlikeSteps (.ok s) (.ok s')
  | error (cause : Cause) : AlikeSteps (.error cause) (.error cause)

theorem Alike.readOperand (h : Alike s s') (t : Token) :
    AlikeSteps (s.readOperand t) (s'.readOperand t) := by
  have hwait : ∀ waiting, AlikeSteps (.ok ⟨s.outer, s.level.wait waiting, none⟩)
      (.ok ⟨s'.outer, s'.level.wait waiting, none⟩) :=
    fun waiting => .ok ⟨rfl, congrArg Nat.succ h.size_eq, h.outer_eq⟩
  cases t with
  | run first rest =>
    simp only [State.readOperand]
    cases Literal.ofRun? (first :: rest) with
    | none => exact .error _
    | some literal => exact .ok ⟨rfl, h.size_eq, h.outer_eq⟩
  | single c =>
    by_cases hplus : c = '+'
    · subst hplus
      exact hwait _
    · by_cases hminus : c = '-'
      · subst hminus
        exact hwait _
      · by_cases hopen : c = '('
        · subst hopen
          refine .ok ⟨rfl, rfl, ?_⟩
          rw [List.map_cons, List.map_cons, h.size_eq, h.outer_eq]
        · rw [State.readOperand_single s ⟨hplus, hminus, hopen⟩,
            State.readOperand_single s' ⟨hplus, hminus, hopen⟩]
          exact .error _

theorem Alike.readBehind (h : Alike s s') (x x' : Float) (c : Char) :
    AlikeSteps (s.readBehind x c) (s'.readBehind x' c) := by
  simp only [State.readBehind]
  by_cases hpower : c = '^'
  · rw [if_pos hpower, if_pos hpower]
    exact .ok ⟨rfl, congrArg Nat.succ h.size_eq, h.outer_eq⟩
  · rw [if_neg hpower, if_neg hpower]
    cases multiplicative c with
    | some operation => exact .ok ⟨rfl, rfl, h.outer_eq⟩
    | none =>
      cases additive c with
      | some operation => exact .ok ⟨rfl, rfl, h.outer_eq⟩
      | none =>
        have houter := h.outer_eq
        simp only [State.leave]
        cases hs : s.outer with
        | nil =>
          rw [hs] at houter
          obtain hs' : s'.outer = [] := by simpa using houter.symm
          rw [hs']
          exact .error _
        | cons level outer =>
          cases hs' : s'.outer with
          | nil =>
            rw [hs, hs'] at houter
            contradiction
          | cons level' outer' =>
            rw [hs, hs'] at houter
            obtain ⟨hlevel, houter⟩ := List.cons.inj houter
            by_cases hclose : c = ')'
            · simp only [if_pos hclose]
              exact .ok ⟨rfl, hlevel, houter⟩
            · simp only [if_neg hclose]
              exact .error _

theorem Alike.read (h : Alike s s') (t : Token) : AlikeSteps (s.read t) (s'.read t) := by
  have hoperand := h.operand_eq
  simp only [State.read]
  cases hs : s.operand with
  | none =>
    cases hs' : s'.operand with
    | none => exact h.readOperand t
    | some x' => simp [hs, hs'] at hoperand
  | some x =>
    cases hs' : s'.operand with
    | none => simp [hs, hs'] at hoperand
    | some x' => exact h.readBehind x x' t.head

theorem Alike.outer_eq_nil_iff (h : Alike s s') : s.outer = [] ↔ s'.outer = [] := by
  rw [← List.map_eq_nil_iff (f := Level.size), h.outer_eq, List.map_eq_nil_iff]

theorem Alike.failure?_finish (h : Alike s s') : failure? s.finish = failure? s'.finish := by
  have hoperand := h.operand_eq
  have houter := h.outer_eq_nil_iff
  simp only [State.finish]
  cases hs : s.operand with
  | none =>
    cases hs' : s'.operand with
    | none => rfl
    | some x' => simp [hs, hs'] at hoperand
  | some x =>
    cases hs' : s'.operand with
    | none => simp [hs, hs'] at hoperand
    | some x' =>
      cases ho : s.outer with
      | nil =>
        rw [houter.mp ho]
        rfl
      | cons level outer =>
        cases ho' : s'.outer with
        | nil =>
          rw [houter.mpr ho'] at ho
          contradiction
        | cons level' outer' => rfl

/-- What makes a run fail is in the shape of its state alone. -/
theorem Alike.failure?_run {limit : Nat} (h : Alike s s') (ts : List Token) :
    failure? (run limit s ts) = failure? (run limit s' ts) := by
  have hactive := h.active_eq
  fun_induction run limit s ts generalizing s' with
  | case1 ts s hdeep => rw [run_tooDeep ts (hactive ▸ hdeep)]
  | case2 s hnot =>
    rw [run_nil (by omega), failure?_mapError, failure?_mapError, h.failure?_finish]
  | case3 s hnot t rest cause hread =>
    have hstep := h.read t
    rw [hread] at hstep
    generalize hread' : s'.read t = step at hstep
    cases hstep
    rw [run_cons_of_error (by omega) hread']
  | case4 s hnot t rest next hread ih =>
    have hstep := h.read t
    rw [hread] at hstep
    generalize hread' : s'.read t = step at hstep
    cases hstep with
    | ok hnext => rw [run_cons_of_ok (by omega) hread', ih hnext hnext.active_eq]

def isOperator (c : Char) : Bool :=
  (multiplicative c).isSome || (additive c).isSome

theorem standsAlone_of_isOperator {c : Char} (h : isOperator c = true) : StandsAlone c := by
  rw [isOperator, Bool.or_eq_true] at h
  rcases h with h | h
  · obtain ⟨operation, hc⟩ := Option.isSome_iff_exists.mp h
    exact separable_multiplicative hc
  · obtain ⟨operation, hc⟩ := Option.isSome_iff_exists.mp h
    exact separable_additive hc

/-- Behind a complete expression an operator leads to the shape of the start. -/
theorem exists_read_operator {s : State} {x : Float} {c : Char} (houter : s.outer = [])
    (hoperand : s.operand = some x) (hc : isOperator c = true) :
    ∃ s', s.read (.single c) = .ok s' ∧ Alike s' .start := by
  have hpower : c ≠ '^' := by
    rintro rfl
    contradiction
  simp only [State.read, hoperand, State.readBehind, Token.head, if_neg hpower, houter]
  cases hproduct : multiplicative c with
  | some operation => exact ⟨_, rfl, rfl, rfl, rfl⟩
  | none =>
    cases hsum : additive c with
    | some operation => exact ⟨_, rfl, rfl, rfl, rfl⟩
    | none => simp [isOperator, hproduct, hsum] at hc

theorem tokens_operator {c : Char} (hc : StandsAlone c) (s t : String) :
    tokens (s ++ String.singleton c ++ t) = tokens s ++ .single c :: tokens t := by
  have happend : (s ++ String.singleton c ++ t).toList = s.toList ++ (c :: t.toList) := by
    simp
  have hapart : Apart s.toList (c :: t.toList) := by
    apply apart_of_head
    intro b hb
    obtain rfl : c = b := by simpa using hb
    exact hc.2
  rw [Text.tokens, happend, tokensOf_append hapart, tokensOf_single _ hc]
  rfl

theorem cause_evaluateWithin (limit : Nat) (text : String) :
    (failure? (evaluateWithin limit text)).map SyntaxError.cause =
      (failure? (run limit .start (tokens text))).map Prod.fst := by
  cases hout : evaluateWithin limit text with
  | ok x =>
    rw [evaluateWithin_eq_ok_iff.mp hout]
    rfl
  | error e =>
    obtain ⟨before, d, -, -, hrun, -⟩ := fails_of_evaluateWithin hout
    rw [tokens_start] at hrun
    rw [hrun]
    rfl

/-- Behind an accepted text and an operator, a text fails for the cause for which it
fails alone, or not at all. -/
theorem cause_behind_operator {limit : Nat} {s : String} {x : Float} {c : Char}
    (h : evaluateWithin limit s = .ok x) (hc : isOperator c = true) (t : String) :
    (failure? (evaluateWithin limit (s ++ String.singleton c ++ t))).map SyntaxError.cause =
      (failure? (evaluateWithin limit t)).map SyntaxError.cause := by
  obtain ⟨s', y, hactive, houter, hoperand, hrun⟩ :=
    exists_state_of_run_ok (evaluateWithin_eq_ok_iff.mp h)
  obtain ⟨next, hread, halike⟩ := exists_read_operator houter hoperand hc
  rw [cause_evaluateWithin, cause_evaluateWithin, tokens_operator (standsAlone_of_isOperator hc),
    hrun, run_cons_of_ok hactive hread, halike.failure?_run]

end Abacus.Expression.Automaton
