import Abacus.Expression.Evaluate
import Abacus.Proofs.Tokens

/-!
The evaluation of an expression as a machine that reads one token at a time.
What the productions keep in their calls stands here on a stack: the groups
around the place of reading, and in each of them the sum, the product and the
factors that wait for a right operand. A step looks at no token but its own,
so a run over a list of tokens is settled by the tokens read so far. Evaluation
and machine are joined in the module on simulation.
-/

namespace Abacus.Expression.Automaton

open Text

/-- A factor that is open until the factor inside it is read. -/
inductive Waiting where
  | sign (negative : Bool)
  | exponent (base : Float)

def Waiting.close : Waiting → Float → Float
  | sign negative, x => if negative then -x else x
  | exponent base, x => Float.pow base x

/-- A left operand and its operator, or none. -/
abbrev Pending := Option (Float × Operation)

def combine : Pending → Float → Float
  | none, y => y
  | some (x, operation), y => operation x y

/-- What waits between one pair of parentheses; the innermost factor first. -/
structure Level where
  sum : Pending := none
  product : Pending := none
  factors : List Waiting := []

namespace Level

def factor (level : Level) (x : Float) : Float :=
  level.factors.foldl (fun y waiting => waiting.close y) x

def term (level : Level) (x : Float) : Float :=
  combine level.product (level.factor x)

def expression (level : Level) (x : Float) : Float :=
  combine level.sum (level.term x)

def wait (level : Level) (waiting : Waiting) : Level :=
  { level with factors := waiting :: level.factors }

end Level

/-- The levels around the current one stand innermost first. There is no
operand while one is expected. -/
structure State where
  outer : List Level
  level : Level
  operand : Option Float

namespace State

def start : State :=
  ⟨[], {}, none⟩

/-- A group stands in a factor of its own, which no entry of `factors` shows. -/
def activeIn : List Level → Nat
  | [] => 0
  | level :: outer => level.factors.length + 1 + activeIn outer

/-- The number of open factors, the one that is read now included. -/
def active (s : State) : Nat :=
  s.level.factors.length + 1 + activeIn s.outer

def holding (s : State) (x : Float) : State :=
  { s with operand := some x }

/-- Reads a token where an operand is expected. -/
def readOperand (s : State) : Token → Except Cause State
  | .run first rest =>
    match Literal.ofRun? (first :: rest) with
    | some literal => .ok (s.holding literal.value)
    | none => .error (.malformedNumber (String.ofList (first :: rest)))
  | .single '+' => .ok ⟨s.outer, s.level.wait (.sign false), none⟩
  | .single '-' => .ok ⟨s.outer, s.level.wait (.sign true), none⟩
  | .single '(' => .ok ⟨s.level :: s.outer, {}, none⟩
  | .single c => .error (.unexpectedCharacter c)

/-- What a character means where no operator takes it. -/
def leave (s : State) (x : Float) (c : Char) : Except Cause State :=
  match s.outer with
  | [] => .error (.unexpectedCharacter c)
  | level :: outer =>
    if c = ')' then .ok ⟨outer, level, some (s.level.expression x)⟩
    else .error .missingParenthesis

/-- Reads a character behind the operand `x`. -/
def readBehind (s : State) (x : Float) (c : Char) : Except Cause State :=
  if c = '^' then .ok ⟨s.outer, s.level.wait (.exponent x), none⟩
  else match multiplicative c with
    | some operation => .ok ⟨s.outer, ⟨s.level.sum, some (s.level.term x, operation), []⟩, none⟩
    | none => match additive c with
      | some operation => .ok ⟨s.outer, ⟨some (s.level.expression x, operation), none, []⟩, none⟩
      | none => s.leave x c

def read (s : State) (t : Token) : Except Cause State :=
  match s.operand with
  | none => s.readOperand t
  | some x => s.readBehind x t.head

/-- What the end of the text means. -/
def finish (s : State) : Except Cause Float :=
  match s.operand, s.outer with
  | none, _ => .error .unexpectedEnd
  | some _, _ :: _ => .error .missingParenthesis
  | some x, [] => .ok (s.level.expression x)

end State

/-- Reads tokens with at most `limit` factors open at once. An error comes
with the tokens that were still ahead. -/
def run (limit : Nat) (s : State) (ts : List Token) : Except (Cause × List Token) Float :=
  if limit < s.active then .error (.nestedTooDeeply, ts)
  else match ts with
    | [] => s.finish.mapError (·, [])
    | t :: rest =>
      match s.read t with
      | .error cause => .error (cause, t :: rest)
      | .ok s' => run limit s' rest
termination_by structural ts

namespace State

@[simp]
theorem active_holding (s : State) (x : Float) : (s.holding x).active = s.active := rfl

theorem active_wait (outer : List Level) (level : Level) (waiting : Waiting)
    (operand operand' : Option Float) :
    active ⟨outer, level.wait waiting, operand⟩ = active ⟨outer, level, operand'⟩ + 1 := by
  simp only [active, Level.wait, List.length_cons]
  omega

theorem active_group (outer : List Level) (level : Level) (operand operand' : Option Float) :
    active ⟨level :: outer, {}, operand⟩ = active ⟨outer, level, operand'⟩ + 1 := by
  simp only [active, activeIn, List.length_nil]
  omega

theorem readOperand_single {c : Char} (s : State) (h : c ≠ '+' ∧ c ≠ '-' ∧ c ≠ '(') :
    s.readOperand (.single c) = .error (.unexpectedCharacter c) := by
  unfold readOperand
  split <;> simp_all

/-- One token opens at most one factor. -/
theorem active_le_of_read {s s' : State} {t : Token} (h : s.read t = .ok s') :
    s'.active ≤ s.active + 1 := by
  obtain ⟨outer, level, operand⟩ := s
  cases operand with
  | none =>
    simp only [read, readOperand] at h
    split at h
    · split at h
      · cases h
        exact Nat.le_succ _
      · cases h
    · cases h
      exact Nat.le_of_eq (active_wait _ _ _ _ _)
    · cases h
      exact Nat.le_of_eq (active_wait _ _ _ _ _)
    · cases h
      exact Nat.le_of_eq (active_group _ _ _ _)
    · cases h
  | some x =>
    simp only [read, readBehind, leave] at h
    split at h
    · cases h
      exact Nat.le_of_eq (active_wait _ _ _ _ _)
    · split at h
      · cases h
        simp only [active, List.length_nil]
        omega
      · split at h
        · cases h
          simp only [active, List.length_nil]
          omega
        · cases outer with
          | nil => cases h
          | cons level' outer' =>
            simp only at h
            split at h
            · cases h
              simp only [active, activeIn]
              omega
            · cases h

theorem finish_ne_tooDeep (s : State) : s.finish ≠ .error .nestedTooDeeply := by
  obtain ⟨outer, level, operand⟩ := s
  cases operand <;> cases outer <;> simp [finish]

theorem readOperand_ne_tooDeep (s : State) (t : Token) :
    s.readOperand t ≠ .error .nestedTooDeeply := by
  unfold readOperand
  split
  · split <;> simp
  all_goals simp

theorem read_ne_tooDeep (s : State) (t : Token) : s.read t ≠ .error .nestedTooDeeply := by
  obtain ⟨outer, level, operand⟩ := s
  cases operand with
  | none => exact readOperand_ne_tooDeep _ t
  | some x =>
    simp only [read, readBehind, leave]
    split
    · simp
    · split
      · simp
      · split
        · simp
        · split
          · simp
          · split <;> simp

end State

section Run

variable {limit : Nat} {s s' : State} {t : Token} {ts : List Token} {cause : Cause}

theorem run_tooDeep (ts : List Token) (h : limit < s.active) :
    run limit s ts = .error (.nestedTooDeeply, ts) := by
  rw [run.eq_def, if_pos h]

theorem run_nil (h : s.active ≤ limit) :
    run limit s [] = s.finish.mapError (·, []) := by
  rw [run.eq_def, if_neg (by omega)]

theorem run_cons_of_ok (h : s.active ≤ limit) (hread : s.read t = .ok s') (ts : List Token) :
    run limit s (t :: ts) = run limit s' ts := by
  rw [run.eq_def, if_neg (by omega)]
  simp only [hread]

theorem run_cons_of_error (h : s.active ≤ limit) (hread : s.read t = .error cause)
    (ts : List Token) : run limit s (t :: ts) = .error (cause, t :: ts) := by
  rw [run.eq_def, if_neg (by omega)]
  simp only [hread]

/-- Only the next token and the end of the text tell two states apart. -/
theorem run_congr (h : s.active ≤ limit) (h' : s'.active ≤ limit)
    (hread : ∀ t ∈ ts.head?, s.read t = s'.read t) (hfinish : s.finish = s'.finish) :
    run limit s ts = run limit s' ts := by
  cases ts with
  | nil => rw [run_nil h, run_nil h', hfinish]
  | cons t rest =>
    have ht : s.read t = s'.read t := hread t (by simp)
    cases hs : s.read t with
    | error cause => rw [run_cons_of_error h hs, run_cons_of_error h' (ht ▸ hs)]
    | ok next => rw [run_cons_of_ok h hs, run_cons_of_ok h' (ht ▸ hs)]

/-- A machine that stops does so when too many factors are open, at the end of
the tokens, or at a token that it does not read. -/
inductive Stops (limit : Nat) (s : State) : Cause → List Token → Prop where
  | tooDeep (ahead : List Token) (h : limit < s.active) : Stops limit s .nestedTooDeeply ahead
  | atEnd {cause : Cause} (h : s.active ≤ limit) (hfinish : s.finish = .error cause) :
      Stops limit s cause []
  | atToken {cause : Cause} {t : Token} (rest : List Token) (h : s.active ≤ limit)
      (hread : s.read t = .error cause) : Stops limit s cause (t :: rest)

theorem Stops.run_eq {ahead : List Token} (h : Stops limit s cause ahead) :
    run limit s ahead = .error (cause, ahead) := by
  cases h with
  | tooDeep _ h => exact run_tooDeep _ h
  | atEnd h hfinish => rw [run_nil h, hfinish]; rfl
  | atToken rest h hread => exact run_cons_of_error h hread rest

theorem Stops.lt_active {ahead : List Token} (h : Stops limit s .nestedTooDeeply ahead) :
    limit < s.active := by
  cases h with
  | tooDeep _ hdeep => exact hdeep
  | atEnd _ hfinish => exact absurd hfinish s.finish_ne_tooDeep
  | atToken _ _ hread => exact absurd hread (s.read_ne_tooDeep _)

/-- It takes a token to open a factor. -/
theorem lt_of_run_tooDeep {ahead : List Token}
    (h : run limit s ts = .error (.nestedTooDeeply, ahead)) : limit < s.active + ts.length := by
  fun_induction run limit s ts with
  | case1 ts s hdeep => omega
  | case2 s _ =>
    cases hfinish : s.finish with
    | ok x =>
      rw [hfinish] at h
      contradiction
    | error cause =>
      rw [hfinish] at h
      cases h
      exact absurd hfinish s.finish_ne_tooDeep
  | case3 s _ t rest cause hread =>
    cases h
    exact absurd hread (s.read_ne_tooDeep t)
  | case4 s _ t rest next hread ih =>
    have hnext := ih h
    have hstep := State.active_le_of_read hread
    rw [List.length_cons]
    omega

/-- The tokens up to an error lead to a state that stops there, whatever would
have come behind them. -/
theorem exists_stops {ahead : List Token} (h : run limit s ts = .error (cause, ahead)) :
    ∃ behind s', ts = behind ++ ahead ∧ Stops limit s' cause ahead ∧
      ∀ more, run limit s (behind ++ more) = run limit s' more := by
  fun_induction run limit s ts with
  | case1 ts s hdeep =>
    cases h
    exact ⟨[], s, rfl, .tooDeep _ hdeep, fun _ => rfl⟩
  | case2 s hnot =>
    have hle : s.active ≤ limit := by omega
    cases hfinish : s.finish with
    | ok x =>
      rw [hfinish] at h
      contradiction
    | error cause' =>
      rw [hfinish] at h
      cases h
      exact ⟨[], s, rfl, .atEnd hle hfinish, fun _ => rfl⟩
  | case3 s hnot t rest cause' hread =>
    have hle : s.active ≤ limit := by omega
    cases h
    exact ⟨[], s, rfl, .atToken rest hle hread, fun _ => rfl⟩
  | case4 s hnot t rest next hread ih =>
    have hle : s.active ≤ limit := by omega
    obtain ⟨behind, s', hsplit, hstop, hrun⟩ := ih h
    refine ⟨t :: behind, s', by rw [hsplit, List.cons_append], hstop, fun more => ?_⟩
    rw [List.cons_append, run_cons_of_ok hle hread, hrun]

/-- The tokens of a run that succeeds lead to a complete expression. -/
theorem exists_state_of_run_ok {x : Float} (h : run limit s ts = .ok x) :
    ∃ s' y, s'.active ≤ limit ∧ s'.outer = [] ∧ s'.operand = some y ∧
      ∀ more, run limit s (ts ++ more) = run limit s' more := by
  fun_induction run limit s ts with
  | case1 ts s hdeep => contradiction
  | case2 s hnot =>
    have hle : s.active ≤ limit := by omega
    obtain ⟨outer, level, operand⟩ := s
    cases operand with
    | none => contradiction
    | some y =>
      cases outer with
      | nil => exact ⟨_, y, hle, rfl, rfl, fun _ => rfl⟩
      | cons level' outer' => contradiction
  | case3 s hnot t rest cause hread => contradiction
  | case4 s hnot t rest next hread ih =>
    have hle : s.active ≤ limit := by omega
    obtain ⟨s', y, hactive, houter, hoperand, hrun⟩ := ih h
    refine ⟨s', y, hactive, houter, hoperand, fun more => ?_⟩
    rw [List.cons_append, run_cons_of_ok hle hread, hrun]

end Run

end Abacus.Expression.Automaton
