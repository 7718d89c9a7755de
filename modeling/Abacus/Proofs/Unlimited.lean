import Abacus.Proofs.Simulation

/-!
Evaluation without a limit on depth. The productions are those of evaluation, but
a factor may always be entered, and a run records each factor that it enters: what
opened it, how many factors are open then, and where it stands. Recursion goes down
in the text that is left; `factor_eq` is the equation of a factor without the test
that the recursion needs.
-/

namespace Abacus.Expression.Unlimited

open Text Text.Cursor Automaton

/-- What stands in front of a factor. Behind an operator, as at the start of a text,
a factor is in no other factor than its neighbours are. -/
inductive Opener where
  | start
  | operator
  | sign
  | group
  | exponent
deriving DecidableEq, Repr

/-- The characters that put a factor inside the factor around it. -/
def Opener.takes : Opener → Char → Bool
  | start, _ | operator, _ => false
  | sign, c => c == '+' || c == '-'
  | group, c => c == '('
  | exponent, c => c == '^'

/-- A factor that is entered. It is one of the `active` factors. -/
structure Entry where
  opener : Opener
  active : Nat
  place : Cursor
deriving DecidableEq, Repr

/-- An outcome with the factors that were entered on the way, the first one first. -/
structure Run (α : Type) where
  entries : List Entry
  result : Except SyntaxError α

namespace Run

variable {α β : Type}

def ofResult (result : Except SyntaxError α) : Run α :=
  ⟨[], result⟩

def enter (entry : Entry) : Run Unit :=
  ⟨[entry], .ok ()⟩

instance : Monad Run where
  pure x := ofResult (.ok x)
  bind r f :=
    match r.result with
    | .ok x => ⟨r.entries ++ (f x).entries, (f x).result⟩
    | .error e => ⟨r.entries, .error e⟩

theorem bind_of_ok {r : Run α} {x : α} (f : α → Run β) (h : r.result = .ok x) :
    r >>= f = ⟨r.entries ++ (f x).entries, (f x).result⟩ := by
  simp only [bind, h]

theorem bind_of_error {r : Run α} {e : SyntaxError} (f : α → Run β) (h : r.result = .error e) :
    r >>= f = ⟨r.entries, .error e⟩ := by
  simp only [bind, h]

theorem result_bind_eq_ok {r : Run α} {f : α → Run β} {y : β}
    (h : (r >>= f).result = .ok y) : ∃ x, r.result = .ok x ∧ (f x).result = .ok y := by
  cases hr : r.result with
  | error e =>
    rw [bind_of_error f hr] at h
    contradiction
  | ok x =>
    rw [bind_of_ok f hr] at h
    exact ⟨x, rfl, h⟩

theorem bind_congr_of_ok {r : Run α} {f g : α → Run β}
    (h : ∀ x, r.result = .ok x → f x = g x) : r >>= f = r >>= g := by
  cases hr : r.result with
  | error e => rw [bind_of_error f hr, bind_of_error g hr]
  | ok x => rw [bind_of_ok f hr, bind_of_ok g hr, h x hr]

end Run

open Run

abbrev Traced := Cursor → Run (Float × Cursor)

def chainFrom (operation? : Char → Option Operation) (operand : Traced) (x : Float)
    (c : Cursor) : Run (Float × Cursor) :=
  let ahead := c.skipSpaces
  match ahead.peek.bind operation? with
  | none => pure (x, ahead)
  | some operation => do
    let (y, after) ← operand ahead.next
    if after.rest.length < c.rest.length then
      chainFrom operation? operand (operation x y) after
    else pure (operation x y, after)
termination_by c.rest.length

/-- The first operand has what stands in front of the chain in front of it. -/
def chain (operation? : Char → Option Operation) (first operand : Traced) : Traced :=
  fun c => do
    let (x, after) ← first c
    chainFrom operation? operand x after

def expression (first factor : Traced) : Traced :=
  chain additive (chain multiplicative first factor) (chain multiplicative factor factor)

def primary (inner : Traced) : Traced := fun c =>
  match c.eat '(' with
  | (true, inside) => do
    let (x, after) ← inner inside
    match after.eat ')' with
    | (true, outside) => pure (x, outside)
    | (false, stop) => ofResult (.error (failAt .missingParenthesis stop))
  | (false, ahead) => ofResult (number ahead)

def power (base exponent : Traced) : Traced := fun c => do
  let (x, after) ← base c
  match after.eat '^' with
  | (true, ahead) =>
    let (y, done) ← exponent ahead
    pure (Float.pow x y, done)
  | (false, ahead) => pure (x, ahead)

def negated (production : Traced) : Traced := fun c => do
  let (x, after) ← production c
  pure (-x, after)

/-- What a factor reads, with a production for the factors inside it. -/
def inFactor (inner : Opener → Traced) : Traced := fun c =>
  match c.eat '+' with
  | (true, ahead) => inner .sign ahead
  | (false, c) =>
    match c.eat '-' with
    | (true, ahead) => negated (inner .sign) ahead
    | (false, c) =>
      power (primary (expression (inner .group) (inner .operator))) (inner .exponent) c

/-- Every factor inside a factor starts behind a character of it, so the test
always succeeds. -/
def factor (opener : Opener) (active : Nat) (c : Cursor) : Run (Float × Cursor) := do
  enter ⟨opener, active, c⟩
  inFactor (fun opener d =>
    if d.rest.length < c.rest.length then factor opener (active + 1) d
    else ofResult (.error (unexpected d))) c
termination_by c.rest.length

section Advances

/-- A production that succeeds ends behind the text that it reads. -/
def Advances (production : Traced) : Prop :=
  ∀ ⦃c x d⦄, (production c).result = .ok (x, d) → ∃ before, c.Leads before d

variable {operation? : Char → Option Operation} {first operand inner base exponent : Traced}

theorem ofResult_number_advances : Advances fun c => ofResult (number c) := by
  intro c x d h
  have hspec := number_spec c
  have hout : number c = .ok (x, d) := h
  rw [hout] at hspec
  cases hspec with
  | literal _ hlead _ => exact ⟨_, hlead⟩

theorem chainFrom_advances (hseparable : Separable operation?) (hoperand : Advances operand)
    (x : Float) : Advances (chainFrom operation? operand x) := by
  intro c y d h
  induction x, c using chainFrom.induct operation? with
  | case1 x c ahead hbind =>
    rw [chainFrom, hbind] at h
    cases h
    exact ⟨_, leads_skipSpaces c⟩
  | case2 x c ahead operation hbind ih =>
    rw [chainFrom, hbind] at h
    obtain ⟨before, ch, -, hlead, -⟩ := hseparable.exists_operator hbind
    obtain ⟨⟨z, after⟩, hout, h⟩ := result_bind_eq_ok h
    obtain ⟨between, hbetween⟩ := hoperand hout
    by_cases hlt : after.rest.length < c.rest.length
    · simp only [if_pos hlt] at h
      obtain ⟨behind, hbehind⟩ := ih z after hlt h
      exact ⟨_, (hlead.trans hbetween).trans hbehind⟩
    · simp only [if_neg hlt] at h
      cases h
      exact ⟨_, hlead.trans hbetween⟩

theorem chain_advances
    (hseparable : Separable operation?)
    (hfirst : Advances first) (hoperand : Advances operand) :
    Advances (chain operation? first operand) := by
  intro c x d h
  obtain ⟨⟨y, after⟩, hout, h⟩ := result_bind_eq_ok h
  obtain ⟨before, hbefore⟩ := hfirst hout
  obtain ⟨between, hbetween⟩ := chainFrom_advances hseparable hoperand _ h
  exact ⟨_, hbefore.trans hbetween⟩

theorem expression_advances (hfirst : Advances first) (hoperand : Advances operand) :
    Advances (expression first operand) :=
  chain_advances separable_additive (chain_advances separable_multiplicative hfirst hoperand)
    (chain_advances separable_multiplicative hoperand hoperand)

theorem primary_advances (hinner : Advances inner) : Advances (primary inner) := by
  intro c x d h
  rcases c.eat_cases '(' (by decide) with
    ⟨before, inside, heat, hlead, -⟩ | ⟨heat, -⟩
  · simp only [primary, heat] at h
    obtain ⟨⟨y, after⟩, hout, h⟩ := result_bind_eq_ok h
    obtain ⟨between, hbetween⟩ := hinner hout
    rcases after.eat_cases ')' (by decide) with
      ⟨behind, outside, heat', hlead', -⟩ | ⟨heat', -⟩
    · simp only [heat'] at h
      cases h
      exact ⟨_, (hlead.trans hbetween).trans hlead'⟩
    · simp only [heat'] at h
      contradiction
  · simp only [primary, heat] at h
    obtain ⟨before, hbefore⟩ := ofResult_number_advances h
    exact ⟨_, (leads_skipSpaces c).trans hbefore⟩

theorem power_advances (hbase : Advances base) (hexponent : Advances exponent) :
    Advances (power base exponent) := by
  intro c x d h
  obtain ⟨⟨y, after⟩, hout, h⟩ := result_bind_eq_ok h
  obtain ⟨before, hbefore⟩ := hbase hout
  rcases after.eat_cases '^' (by decide) with
    ⟨between, ahead, heat, hlead, -⟩ | ⟨heat, -⟩
  · simp only [heat] at h
    obtain ⟨⟨z, done⟩, hout', h⟩ := result_bind_eq_ok h
    obtain ⟨behind, hbehind⟩ := hexponent hout'
    cases h
    exact ⟨_, (hbefore.trans hlead).trans hbehind⟩
  · simp only [heat] at h
    cases h
    exact ⟨_, hbefore.trans (leads_skipSpaces after)⟩

theorem negated_advances (hinner : Advances inner) : Advances (negated inner) := by
  intro c x d h
  obtain ⟨⟨y, after⟩, hout, h⟩ := result_bind_eq_ok h
  cases h
  exact hinner hout

theorem inFactor_advances {inner : Opener → Traced} (hinner : ∀ opener, Advances (inner opener)) :
    Advances (inFactor inner) := by
  intro c x d h
  rcases c.eat_cases '+' (by decide) with
    ⟨before, ahead, heat, hlead, -⟩ | ⟨heat, -⟩
  · simp only [inFactor, heat] at h
    obtain ⟨between, hbetween⟩ := hinner _ h
    exact ⟨_, hlead.trans hbetween⟩
  · have hspaces := leads_skipSpaces c
    rcases c.skipSpaces.eat_cases '-' (by decide) with
      ⟨before, ahead, heat', hlead, -⟩ | ⟨heat', -⟩
    · simp only [inFactor, heat, heat'] at h
      obtain ⟨between, hbetween⟩ := negated_advances (hinner _) h
      exact ⟨_, (hspaces.trans hlead).trans hbetween⟩
    · simp only [inFactor, heat, heat'] at h
      obtain ⟨between, hbetween⟩ := power_advances
        (primary_advances (expression_advances (hinner .group) (hinner .operator)))
        (hinner .exponent) h
      exact ⟨_, (hspaces.trans (leads_skipSpaces _)).trans hbetween⟩

theorem factor_advances (opener : Opener) (active : Nat) : Advances (factor opener active) := by
  intro c x d h
  induction hlength : c.rest.length using Nat.strongRecOn generalizing opener active c x d with
  | ind n ih =>
    subst hlength
    rw [factor] at h
    obtain ⟨_, -, h⟩ := result_bind_eq_ok h
    refine inFactor_advances (fun opener c' y e h' => ?_) h
    by_cases hlt : c'.rest.length < c.rest.length
    · rw [if_pos hlt] at h'
      exact ih _ hlt opener (active + 1) h' rfl
    · rw [if_neg hlt] at h'
      contradiction

end Advances

section Equation

variable {operation? : Char → Option Operation} {n : Nat}
  {first first' operand operand' inner inner' base base' exponent exponent' : Traced}

/-- The two productions read texts shorter than `n` alike. -/
def AlikeBelow (n : Nat) (p q : Traced) : Prop :=
  ∀ c, c.rest.length < n → p c = q c

theorem chainFrom_congr (hseparable : Separable operation?)
    (hoperand : AlikeBelow n operand operand') {x : Float} {c : Cursor}
    (hc : c.rest.length ≤ n) :
    chainFrom operation? operand x c = chainFrom operation? operand' x c := by
  induction x, c using chainFrom.induct operation? with
  | case1 x c ahead hbind => rw [chainFrom, chainFrom, hbind]
  | case2 x c ahead operation hbind ih =>
    obtain ⟨before, ch, -, hlead, -⟩ := hseparable.exists_operator hbind
    have hnext := hoperand _ (Nat.lt_of_lt_of_le hlead.length_lt hc)
    rw [chainFrom, chainFrom, hbind]
    simp only [hnext]
    apply bind_congr_of_ok
    intro result _
    obtain ⟨y, after⟩ := result
    by_cases hlt : after.rest.length < c.rest.length
    · simp only [if_pos hlt]
      exact ih y after hlt (by omega)
    · simp only [if_neg hlt]

theorem chain_congr
    (hseparable : Separable operation?)
    (hfirst : AlikeBelow n first first') (hadvances : Advances first')
    (hoperand : AlikeBelow n operand operand') :
    AlikeBelow n (chain operation? first operand) (chain operation? first' operand') := by
  intro c hc
  simp only [chain, hfirst c hc]
  apply bind_congr_of_ok
  intro result hout
  obtain ⟨x, after⟩ := result
  obtain ⟨before, hlead⟩ := hadvances hout
  exact chainFrom_congr hseparable hoperand (Nat.le_trans hlead.length_le (Nat.le_of_lt hc))

theorem expression_congr (hfirst : AlikeBelow n first first') (hfirst' : Advances first')
    (hoperand : AlikeBelow n operand operand') (hoperand' : Advances operand') :
    AlikeBelow n (expression first operand) (expression first' operand') :=
  chain_congr separable_additive
    (chain_congr separable_multiplicative hfirst hfirst' hoperand)
    (chain_advances separable_multiplicative hfirst' hoperand')
    (chain_congr separable_multiplicative hoperand hoperand' hoperand)

theorem primary_congr (hinner : AlikeBelow n inner inner') {c : Cursor}
    (hc : c.rest.length ≤ n) : primary inner c = primary inner' c := by
  rcases c.eat_cases '(' (by decide) with
    ⟨before, inside, heat, hlead, -⟩ | ⟨heat, -⟩
  · have hlt := hlead.length_lt
    simp only [primary, heat, hinner inside (by omega)]
  · simp only [primary, heat]

theorem power_congr {c : Cursor} (hbase : base c = base' c) (hadvances : Advances base')
    (hexponent : AlikeBelow n exponent exponent') (hc : c.rest.length ≤ n) :
    power base exponent c = power base' exponent' c := by
  simp only [power, hbase]
  apply bind_congr_of_ok
  intro result hout
  obtain ⟨x, after⟩ := result
  obtain ⟨before, hlead⟩ := hadvances hout
  have hle := hlead.length_le
  rcases after.eat_cases '^' (by decide) with
    ⟨between, ahead, heat, hlead', -⟩ | ⟨heat, -⟩
  · have hlt := hlead'.length_lt
    simp only [heat, hexponent ahead (by omega)]
  · simp only [heat]

theorem inFactor_congr {inner inner' : Opener → Traced} {c : Cursor}
    (hinner : ∀ opener, AlikeBelow c.rest.length (inner opener) (inner' opener))
    (hadvances : ∀ opener, Advances (inner' opener)) : inFactor inner c = inFactor inner' c := by
  rcases c.eat_cases '+' (by decide) with
    ⟨before, ahead, heat, hlead, -⟩ | ⟨heat, -⟩
  · simp only [inFactor, heat]
    exact hinner _ ahead hlead.length_lt
  · have hspaces := (leads_skipSpaces c).length_le
    rcases c.skipSpaces.eat_cases '-' (by decide) with
      ⟨before, ahead, heat', hlead, -⟩ | ⟨heat', -⟩
    · have hlt := hlead.length_lt
      simp only [inFactor, heat, heat', negated, hinner .sign ahead (by omega)]
    · have hspaces' := (leads_skipSpaces c.skipSpaces).length_le
      simp only [inFactor, heat, heat']
      have hexpression := expression_congr (hinner .group) (hadvances .group)
        (hinner .operator) (hadvances .operator)
      exact power_congr (primary_congr hexpression (by omega))
        (primary_advances (expression_advances (hadvances .group) (hadvances .operator)))
        (hinner .exponent) (by omega)

/-- A factor is entered and then read with the factors inside it one level deeper. -/
theorem factor_eq (opener : Opener) (active : Nat) (c : Cursor) :
    factor opener active c = (do
      enter ⟨opener, active, c⟩
      inFactor (fun opener => factor opener (active + 1)) c) := by
  rw [factor]
  apply bind_congr_of_ok
  intro _ _
  refine inFactor_congr (fun opener d hd => ?_) fun opener => factor_advances opener (active + 1)
  rw [if_pos hd]

end Equation

end Abacus.Expression.Unlimited

namespace Abacus.Expression

open Text Unlimited Unlimited.Run

/-- Evaluation without a limit. -/
def unlimited (text : String) : Run Float := do
  let (x, after) ←
    Unlimited.expression (Unlimited.factor .start 1) (Unlimited.factor .operator 1)
      (Cursor.start text)
  if after.atEnd then pure x else ofResult (.error (unexpected after))

end Abacus.Expression
