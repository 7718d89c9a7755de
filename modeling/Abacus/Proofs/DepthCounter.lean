import Abacus.Proofs.Derivation

/-!
The depth counter. Here the productions have the reader as their state: a cursor,
and a counter of the open factors that is raised when a factor is entered and
lowered when it is left. A counted production need not return: it has no outcome
when more factors are entered inside one another than there are frames for, when
an operator loop goes round without moving, and when the counter would be lowered
below zero. Within the limit none of this happens, and what is returned is what the
productions of evaluation give with the room that the counter leaves.
-/

namespace Abacus.Expression

open Text Text.Cursor Automaton

structure Reader where
  cursor : Cursor
  depth : Nat
deriving DecidableEq, Repr

inductive Event where
  /-- The counter takes the value `depth`. -/
  | counter (depth : Nat)
  /-- An operator loop that was at `start` goes round again at `finish`. -/
  | round (start finish : Cursor)
deriving DecidableEq, Repr

/-- A result with the reader as it is left, and what happened on the way. An error
leaves the reader as it is when the error occurs. -/
structure Return (α : Type) where
  result : Except SyntaxError α
  reader : Reader
  events : List Event

namespace Return

variable {α : Type}

def after (earlier : List Event) (out : Return α) : Return α :=
  { out with events := earlier ++ out.events }

/-- The result as a production of evaluation gives it, with the cursor behind it. -/
def outcome (out : Return α) : Except SyntaxError (α × Cursor) :=
  out.result.map (·, out.reader.cursor)

end Return

/-- A computation on the reader that may fail to return. -/
def Counted (α : Type) : Type :=
  Reader → Option (Return α)

namespace Counted

variable {α β : Type}

def ofResult (result : Except SyntaxError α) : Counted α := fun r =>
  some ⟨result, r, []⟩

instance : Monad Counted where
  pure x := ofResult (.ok x)
  bind m f := fun r =>
    (m r).bind fun out =>
      match out.result with
      | .error e => some ⟨.error e, out.reader, out.events⟩
      | .ok x => (f x out.reader).map (·.after out.events)

def failWith (error : Cursor → SyntaxError) : Counted α := fun r =>
  ofResult (.error (error r.cursor)) r

/-- Moves the cursor and gives what was found on the way. -/
def move (step : Cursor → α × Cursor) : Counted α := fun r =>
  some ⟨.ok (step r.cursor).1, ⟨(step r.cursor).2, r.depth⟩, []⟩

def eat (ch : Char) : Counted Bool :=
  move (·.eat ch)

/-- Takes the next character if it is an operator. -/
def operator (operation? : Char → Option Operation) : Counted (Option Operation) :=
  move fun c =>
    match c.skipSpaces.peek.bind operation? with
    | none => (none, c.skipSpaces)
    | some operation => (some operation, c.skipSpaces.next)

/-- A loop that goes round where it was before would go round for ever. -/
def chainFrom (operation? : Char → Option Operation) (operand : Counted Float) (x : Float) :
    Counted Float := fun start =>
  (do
    match ← operator operation? with
    | none => pure x
    | some operation =>
      let y ← operand
      fun r =>
        if r.cursor.rest.length < start.cursor.rest.length then
          (chainFrom operation? operand (operation x y) r).map
            (·.after [.round start.cursor r.cursor])
        else none : Counted Float) start
termination_by start => start.cursor.rest.length

def chain (operation? : Char → Option Operation) (operand : Counted Float) : Counted Float := do
  let x ← operand
  chainFrom operation? operand x

def expression (factor : Counted Float) : Counted Float :=
  chain additive (chain multiplicative factor)

/-- A run of number characters is left behind even where it is no literal. -/
def number : Counted Float := fun r =>
  if r.cursor.peek.any isNumberChar then
    let (run, after) := r.cursor.scanNumber
    match Literal.ofRun? run with
    | some literal => some ⟨.ok literal.value, ⟨after, r.depth⟩, []⟩
    | none =>
      some ⟨.error (failAt (.malformedNumber (String.ofList run)) r.cursor), ⟨after, r.depth⟩, []⟩
  else failWith unexpected r

def primary (inner : Counted Float) : Counted Float := do
  if ← eat '(' then
    let x ← inner
    if ← eat ')' then pure x else failWith (failAt .missingParenthesis)
  else number

def power (base exponent : Counted Float) : Counted Float := do
  let x ← base
  if ← eat '^' then
    let y ← exponent
    pure (Float.pow x y)
  else pure x

/-- What a factor reads between the two changes of the counter. -/
def inFactor (inner : Counted Float) : Counted Float := do
  if ← eat '+' then inner
  else if ← eat '-' then
    let x ← inner
    pure (-x)
  else power (primary (expression inner)) inner

/-- Raises the counter for as long as `inside` runs and lowers it when `inside` returns,
with a value or an error. A counter at zero cannot be lowered. -/
def opened (inside : Counted α) : Counted α := fun r =>
  (inside ⟨r.cursor, r.depth + 1⟩).bind fun out =>
    match out.reader.depth with
    | 0 => none
    | depth + 1 =>
      some ⟨out.result, ⟨out.reader.cursor, depth⟩,
        .counter (r.depth + 1) :: out.events ++ [.counter depth]⟩

/-- A factor that is entered needs a frame; one that is refused needs none. -/
def factor : Nat → Counted Float
  | 0 => fun r => if maxDepth ≤ r.depth then failWith (failAt .nestedTooDeeply) r else none
  | frames + 1 => fun r =>
    if maxDepth ≤ r.depth then failWith (failAt .nestedTooDeeply) r
    else opened (inFactor (factor frames)) r

/-- Reads a whole text, to its end. -/
def whole (frames : Nat) : Counted Float := do
  let x ← expression (factor frames)
  if ← move fun c => (c.atEnd, c) then pure x else failWith unexpected

end Counted

/-- A return that leaves the counter as it was and the cursor further on in the text. On
the way the counter stays between its value at the start and the limit, and loops go
round only when they have moved. -/
structure Return.Sound {α : Type} (r : Reader) (out : Return α) : Prop where
  depth_eq : out.reader.depth = r.depth
  counter_le : ∀ n, .counter n ∈ out.events → r.depth ≤ n ∧ n ≤ maxDepth
  round_lt : ∀ c d, .round c d ∈ out.events → c.offset < d.offset
  leads : ∃ before, r.cursor.Leads before out.reader.cursor

section Sound

variable {α β : Type} {r : Reader} {c d : Cursor} {before : List Char}

theorem Return.Sound.of_leads (hlead : r.cursor.Leads before d) (result : Except SyntaxError α) :
    Return.Sound r ⟨result, ⟨d, r.depth⟩, []⟩ where
  depth_eq := rfl
  counter_le := by simp
  round_lt := by simp
  leads := ⟨before, hlead⟩

theorem Return.Sound.andThen {out : Return α} {last : Return β} (h : out.Sound r)
    (hlast : last.Sound out.reader) : (last.after out.events).Sound r where
  depth_eq := hlast.depth_eq.trans h.depth_eq
  counter_le := by
    intro n hn
    rcases List.mem_append.mp hn with hn | hn
    · exact h.counter_le n hn
    · rw [← h.depth_eq]
      exact hlast.counter_le n hn
  round_lt := by
    intro c d hround
    rcases List.mem_append.mp hround with hround | hround
    · exact h.round_lt c d hround
    · exact hlast.round_lt c d hround
  leads := by
    obtain ⟨before, hbefore⟩ := h.leads
    obtain ⟨between, hbetween⟩ := hlast.leads
    exact ⟨_, hbefore.trans hbetween⟩

end Sound

namespace Counted

/-- The computation returns with the outcome, and the return is sound. -/
def Returns {α : Type} (m : Counted α) (r : Reader)
    (outcome : Except SyntaxError (α × Cursor)) : Prop :=
  ∃ out, m r = some out ∧ out.Sound r ∧ out.outcome = outcome

section Returns

variable {α β : Type} {r : Reader} {c d : Cursor} {before : List Char}

theorem returns_ofResult (result : Except SyntaxError α) (r : Reader) :
    Returns (ofResult result) r (result.map (·, r.cursor)) :=
  ⟨_, rfl, .of_leads (.refl _) _, rfl⟩

theorem returns_pure (x : α) (r : Reader) : Returns (pure x) r (.ok (x, r.cursor)) :=
  returns_ofResult (.ok x) r

theorem returns_failWith (error : Cursor → SyntaxError) (r : Reader) :
    Returns (failWith error : Counted α) r (.error (error r.cursor)) :=
  returns_ofResult (.error (error r.cursor)) r

theorem returns_move {step : Cursor → α × Cursor}
    (hlead : r.cursor.Leads before (step r.cursor).2) :
    Returns (move step) r (.ok (step r.cursor)) :=
  ⟨_, rfl, .of_leads hlead _, rfl⟩

theorem returns_bind_error {m : Counted α} {e : SyntaxError} (f : α → Counted β)
    (hm : Returns m r (.error e)) : Returns (m >>= f) r (.error e) := by
  obtain ⟨⟨result, reader, events⟩, hout, hsound, houtcome⟩ := hm
  cases result with
  | error e' =>
    cases houtcome
    refine ⟨⟨.error e, reader, events⟩, by simp [bind, hout], ?_, rfl⟩
    exact ⟨hsound.depth_eq, hsound.counter_le, hsound.round_lt, hsound.leads⟩
  | ok x => contradiction

/-- The second computation starts at the depth of the first, because the first kept it. -/
theorem returns_bind_ok {m : Counted α} {f : α → Counted β} {x : α}
    {outcome : Except SyntaxError (β × Cursor)} (hm : Returns m r (.ok (x, c)))
    (hf : Returns (f x) ⟨c, r.depth⟩ outcome) : Returns (m >>= f) r outcome := by
  obtain ⟨⟨result, reader, events⟩, hout, hsound, houtcome⟩ := hm
  cases result with
  | error e => contradiction
  | ok x' =>
    cases houtcome
    have hreader : (⟨reader.cursor, r.depth⟩ : Reader) = reader := by
      rw [← hsound.depth_eq]
    rw [hreader] at hf
    obtain ⟨last, hlast, hsound', houtcome⟩ := hf
    exact ⟨last.after events, by simp [bind, hout, hlast], hsound.andThen hsound', houtcome⟩

/-- What is read one after the other returns as its parts do. -/
theorem returns_bind {m : Counted α} {f : α → Counted β}
    {outcome : Except SyntaxError (α × Cursor)}
    {rest : α × Cursor → Except SyntaxError (β × Cursor)} (hm : Returns m r outcome)
    (hf : ∀ x c, outcome = .ok (x, c) → Returns (f x) ⟨c, r.depth⟩ (rest (x, c))) :
    Returns (m >>= f) r (outcome >>= rest) := by
  cases outcome with
  | error e => exact returns_bind_error f hm
  | ok result => exact returns_bind_ok hm (hf _ _ rfl)

theorem Returns.leads {m : Counted α} {x : α} (h : Returns m r (.ok (x, c))) :
    ∃ before, r.cursor.Leads before c := by
  obtain ⟨⟨result, reader, events⟩, -, hsound, houtcome⟩ := h
  cases result with
  | error e => contradiction
  | ok x' =>
    cases houtcome
    exact hsound.leads

theorem Returns.exists_result {m : Counted α} {outcome : Except SyntaxError (α × Cursor)}
    (h : Returns m r outcome) :
    ∃ out, m r = some out ∧ out.Sound r ∧ out.result = outcome.map (·.1) := by
  obtain ⟨out, hout, hsound, rfl⟩ := h
  refine ⟨out, hout, hsound, ?_⟩
  rw [Return.outcome]
  cases out.result <;> rfl

theorem returns_eat (ch : Char) (hch : StandsAlone ch) (r : Reader) :
    Returns (eat ch) r (.ok (r.cursor.eat ch)) := by
  rcases r.cursor.eat_cases ch hch with ⟨before, after, heat, hlead, -⟩ | ⟨heat, -⟩
  · have hlead : r.cursor.Leads (before ++ [ch]) (r.cursor.eat ch).2 := by rwa [heat]
    exact returns_move hlead
  · have hlead := leads_skipSpaces r.cursor
    have hmove : r.cursor.skipSpaces = (r.cursor.eat ch).2 := by rw [heat]
    rw [hmove] at hlead
    exact returns_move hlead

/-- Where the next character is an operator the cursor moves behind it. -/
theorem returns_operator {operation? : Char → Option Operation} (hseparable : Separable operation?)
    (r : Reader) :
    Returns (operator operation?) r
      (match r.cursor.skipSpaces.peek.bind operation? with
      | none => .ok (none, r.cursor.skipSpaces)
      | some operation => .ok (some operation, r.cursor.skipSpaces.next)) := by
  cases hbind : r.cursor.skipSpaces.peek.bind operation? with
  | none =>
    refine ⟨⟨.ok none, ⟨r.cursor.skipSpaces, r.depth⟩, []⟩, ?_,
      .of_leads (leads_skipSpaces _) _, rfl⟩
    simp [operator, move, hbind]
  | some operation =>
    obtain ⟨before, ch, -, hlead, -⟩ := hseparable.exists_operator hbind
    refine ⟨⟨.ok (some operation), ⟨r.cursor.skipSpaces.next, r.depth⟩, []⟩, ?_,
      .of_leads hlead _, rfl⟩
    simp [operator, move, hbind]

end Returns

/-- At every cursor the computation returns as the production does, from this depth. -/
def Follows (depth : Nat) (m : Counted Float) (production : Production) : Prop :=
  ∀ c, Returns m ⟨c, depth⟩ (production c)

section Productions

variable {depth : Nat} {operation? : Char → Option Operation}
  {operand inner base exponent : Counted Float}
  {operand' inner' base' exponent' : Production}

/-- A loop goes round again from where it has moved to. -/
theorem returns_round {start d : Cursor} {loop : Counted Float} {outcome : Outcome}
    {before : List Char} (hlead : start.Leads before d) (hbefore : before ≠ [])
    (hloop : Returns loop ⟨d, depth⟩ outcome) :
    ∃ out, (loop ⟨d, depth⟩).map (·.after [.round start d]) = some out ∧
      out.Sound ⟨d, depth⟩ ∧ out.outcome = outcome := by
  obtain ⟨out, hout, hsound, houtcome⟩ := hloop
  refine ⟨out.after [.round start d], by rw [hout, Option.map_some], ?_, houtcome⟩
  refine ⟨hsound.depth_eq, ?_, ?_, hsound.leads⟩
  · intro n hn
    rcases List.mem_cons.mp hn with hn | hn
    · contradiction
    · exact hsound.counter_le n hn
  · intro c e hround
    rcases List.mem_cons.mp hround with hround | hround
    · cases hround
      exact hlead.offset_lt hbefore
    · exact hsound.round_lt c e hround

/-- A round goes over its operator, whatever its operand reads. -/
theorem chainFrom_follows (hseparable : Separable operation?)
    (hoperand : Follows depth operand operand') (x : Float) :
    Follows depth (chainFrom operation? operand x)
      (Expression.chainFrom operation? operand' x) := by
  intro c
  induction hlength : c.rest.length using Nat.strong_induction_on generalizing x c with
  | _ length ih =>
    have hoperator := returns_operator hseparable ⟨c, depth⟩
    rw [Expression.chainFrom]
    unfold Returns
    rw [chainFrom]
    cases hbind : c.skipSpaces.peek.bind operation? with
    | none =>
      simp only [hbind] at hoperator ⊢
      exact returns_bind_ok hoperator (returns_pure x _)
    | some operation =>
      simp only [hbind] at hoperator ⊢
      apply returns_bind_ok hoperator
      have hy := hoperand c.skipSpaces.next
      cases hout : operand' c.skipSpaces.next with
      | error e =>
        rw [hout] at hy
        exact returns_bind_error _ hy
      | ok result =>
        obtain ⟨y, after⟩ := result
        rw [hout] at hy
        apply returns_bind_ok hy
        obtain ⟨before, ch, -, hlead, -⟩ := hseparable.exists_operator hbind
        obtain ⟨between, hbetween⟩ := hy.leads
        have hlt : after.rest.length < c.rest.length :=
          Nat.lt_of_le_of_lt hbetween.length_le hlead.length_lt
        unfold Returns
        simp only [if_pos hlt]
        exact returns_round (hlead.trans hbetween) (by simp) (ih _ (hlength ▸ hlt) _ after rfl)

theorem chain_follows (hseparable : Separable operation?)
    (hoperand : Follows depth operand operand') :
    Follows depth (chain operation? operand) (Expression.chain operation? operand') := by
  intro c
  exact returns_bind (hoperand c) fun x after _ =>
    chainFrom_follows hseparable hoperand x after

theorem expression_follows (hoperand : Follows depth operand operand') :
    Follows depth (expression operand) (Expression.expression operand') :=
  chain_follows separable_additive (chain_follows separable_multiplicative hoperand)

theorem number_follows : Follows depth number Expression.number := by
  intro c
  cases hpeek : c.peek with
  | none =>
    simp only [Returns, number, Expression.number, hpeek, Option.any_none]
    exact returns_failWith unexpected ⟨c, depth⟩
  | some ch =>
    by_cases hch : isNumberChar ch = true
    · obtain ⟨run, after, hscan, hlead, -⟩ := exists_scanNumber hpeek hch
      simp only [Returns, number, Expression.number, hpeek, Option.any_some, if_pos hch, hscan]
      cases Literal.ofRun? (ch :: run) with
      | none => exact ⟨_, rfl, .of_leads hlead _, rfl⟩
      | some literal => exact ⟨_, rfl, .of_leads hlead _, rfl⟩
    · simp only [Returns, number, Expression.number, hpeek, Option.any_some, if_neg hch]
      exact returns_failWith unexpected ⟨c, depth⟩

theorem primary_follows (hinner : Follows depth inner inner') :
    Follows depth (primary inner) (Expression.primary inner') := by
  intro c
  have hopen := returns_eat '(' (by decide) ⟨c, depth⟩
  rcases c.eat_cases '(' (by decide) with ⟨-, inside, heat, -⟩ | ⟨heat, -⟩
  · simp only [heat] at hopen
    simp only [Expression.primary, heat]
    apply returns_bind_ok hopen
    apply returns_bind (hinner inside)
    intro x after _
    have hclose := returns_eat ')' (by decide) ⟨after, depth⟩
    rcases after.eat_cases ')' (by decide) with ⟨-, outside, heat', -⟩ | ⟨heat', -⟩
    · simp only [heat'] at hclose ⊢
      exact returns_bind_ok hclose (returns_pure x _)
    · simp only [heat'] at hclose ⊢
      exact returns_bind_ok hclose (returns_failWith _ _)
  · simp only [heat] at hopen
    simp only [Expression.primary, heat]
    exact returns_bind_ok hopen (number_follows _)

theorem power_follows (hbase : Follows depth base base')
    (hexponent : Follows depth exponent exponent') :
    Follows depth (power base exponent) (Expression.power base' exponent') := by
  intro c
  apply returns_bind (hbase c)
  intro x after _
  have hcaret := returns_eat '^' (by decide) ⟨after, depth⟩
  rcases after.eat_cases '^' (by decide) with ⟨-, ahead, heat, -⟩ | ⟨heat, -⟩
  · simp only [heat] at hcaret ⊢
    apply returns_bind_ok hcaret
    exact returns_bind (hexponent ahead) fun y done _ => returns_pure (Float.pow x y) _
  · simp only [heat] at hcaret ⊢
    exact returns_bind_ok hcaret (returns_pure x _)

theorem negated_follows (hinner : Follows depth inner inner') :
    Follows depth (do pure (-(← inner))) (negated inner') := by
  intro c
  exact returns_bind (hinner c) fun x after _ => returns_pure (-x) _

theorem inFactor_follows {room : Nat} (hinner : Follows depth inner (Expression.factor room)) :
    Follows depth (inFactor inner) (Expression.factor (room + 1)) := by
  intro c
  have hplus := returns_eat '+' (by decide) ⟨c, depth⟩
  rcases c.eat_cases '+' (by decide) with ⟨-, ahead, heat, -⟩ | ⟨heat, -⟩
  · simp only [heat] at hplus
    simp only [Expression.factor, heat]
    exact returns_bind_ok hplus (hinner ahead)
  · simp only [heat] at hplus
    apply returns_bind_ok hplus
    have hminus := returns_eat '-' (by decide) ⟨c.skipSpaces, depth⟩
    rcases c.skipSpaces.eat_cases '-' (by decide) with ⟨-, ahead, heat', -⟩ | ⟨heat', -⟩
    · simp only [heat'] at hminus
      simp only [Expression.factor, heat, heat']
      exact returns_bind_ok hminus (negated_follows hinner ahead)
    · simp only [heat'] at hminus
      simp only [Expression.factor, heat, heat']
      apply returns_bind_ok hminus
      exact power_follows (primary_follows (expression_follows hinner)) hinner _

/-- Whatever way the inside of a factor is left, the counter is lowered to where it was. -/
theorem opened_follows (hdepth : depth < maxDepth) (hinner : Follows (depth + 1) inner inner') :
    Follows depth (opened inner) inner' := by
  intro c
  obtain ⟨out, hout, hsound, houtcome⟩ := hinner c
  have hleft : out.reader.depth = depth + 1 := hsound.depth_eq
  refine ⟨⟨out.result, ⟨out.reader.cursor, depth⟩,
    .counter (depth + 1) :: out.events ++ [.counter depth]⟩, ?_, ⟨rfl, ?_, ?_, hsound.leads⟩,
    houtcome⟩
  · simp only [opened, hout, Option.bind_some, hleft]
  · intro n hn
    simp only [List.cons_append, List.mem_cons, List.mem_append, List.not_mem_nil, or_false,
      Event.counter.injEq] at hn
    rcases hn with rfl | hn | rfl
    · exact ⟨Nat.le_succ depth, hdepth⟩
    · obtain ⟨hle, hle'⟩ := hsound.counter_le n hn
      exact ⟨Nat.le_of_succ_le hle, hle'⟩
    · exact ⟨Nat.le_refl _, Nat.le_of_lt hdepth⟩
  · intro d e hround
    have hinside : Event.round d e ∈ out.events := by simpa using hround
    exact hsound.round_lt d e hinside

/-- A factor has the room that the counter leaves, and needs a frame for each factor
that there is room for. At the limit it is refused before anything is counted. -/
theorem factor_follows (frames : Nat) (hdepth : depth ≤ maxDepth)
    (hframes : maxDepth ≤ depth + frames) :
    Follows depth (factor frames) (Expression.factor (maxDepth - depth)) := by
  induction frames generalizing depth with
  | zero =>
    intro c
    have hfull : maxDepth ≤ depth := hframes
    rw [Nat.sub_eq_zero_of_le hfull, Expression.factor]
    simp only [Returns, factor, if_pos hfull]
    exact returns_failWith _ ⟨c, depth⟩
  | succ frames ih =>
    intro c
    by_cases hfull : maxDepth ≤ depth
    · rw [Nat.sub_eq_zero_of_le hfull, Expression.factor]
      simp only [Returns, factor, if_pos hfull]
      exact returns_failWith _ ⟨c, depth⟩
    · have hroom : maxDepth - depth = maxDepth - (depth + 1) + 1 := by omega
      have hinner : Follows (depth + 1) (factor frames)
          (Expression.factor (maxDepth - (depth + 1))) := ih (by omega) (by omega)
      rw [hroom]
      simp only [Returns, factor, if_neg hfull]
      exact opened_follows (by omega) (inFactor_follows hinner) c

end Productions

end Counted

/-- The productions of the grammar. -/
inductive Part where
  | expression
  | term
  | factor
  | power
  | primary
deriving DecidableEq, Repr

namespace Part

/-- The counted production, with frames for the factors that are entered in it. -/
def counted (frames : Nat) : Part → Counted Float
  | expression => Counted.expression (Counted.factor frames)
  | term => Counted.chain multiplicative (Counted.factor frames)
  | factor => Counted.factor frames
  | power =>
    Counted.power (Counted.primary (Counted.expression (Counted.factor frames)))
      (Counted.factor frames)
  | primary => Counted.primary (Counted.expression (Counted.factor frames))

/-- The production of evaluation, with room for the factors that are entered in it. -/
def production (room : Nat) : Part → Production
  | expression => Expression.expression (Expression.factor room)
  | term => chain multiplicative (Expression.factor room)
  | factor => Expression.factor room
  | power =>
    Expression.power (Expression.primary (Expression.expression (Expression.factor room)))
      (Expression.factor room)
  | primary => Expression.primary (Expression.expression (Expression.factor room))

theorem follows (part : Part) {depth frames : Nat} (hdepth : depth ≤ maxDepth)
    (hframes : maxDepth ≤ depth + frames) :
    Counted.Follows depth (part.counted frames) (part.production (maxDepth - depth)) := by
  have hfactor := Counted.factor_follows frames hdepth hframes
  have hexpression := Counted.expression_follows hfactor
  cases part with
  | expression => exact hexpression
  | term => exact Counted.chain_follows separable_multiplicative hfactor
  | factor => exact hfactor
  | power => exact Counted.power_follows (Counted.primary_follows hexpression) hfactor
  | primary => exact Counted.primary_follows hexpression

/-- What a production reads has a token. -/
theorem gives (part : Part) (room : Nat) :
    Gives (part.production room) fun _ ts => ts ≠ [] := by
  intro c x d h
  have hfactor := factor_gives room
  have hexpression := expression_gives hfactor
  cases part with
  | expression =>
    obtain ⟨_, htokens, tree, -, -, rfl⟩ := hexpression h
    exact ⟨_, htokens, tree.tokens_ne_nil⟩
  | term =>
    obtain ⟨_, htokens, tree, -, -, rfl⟩ := term_gives hfactor h
    exact ⟨_, htokens, tree.tokens_ne_nil⟩
  | factor =>
    obtain ⟨_, htokens, tree, -, -, rfl⟩ := hfactor h
    exact ⟨_, htokens, tree.tokens_ne_nil⟩
  | power =>
    obtain ⟨_, htokens, tree, -, -, rfl⟩ := power_gives (primary_gives hexpression) hfactor h
    exact ⟨_, htokens, tree.tokens_ne_nil⟩
  | primary =>
    obtain ⟨_, htokens, tree, -, -, rfl⟩ := primary_gives hexpression h
    exact ⟨_, htokens, tree.tokens_ne_nil⟩

end Part

theorem Gives.offset_lt {production : Production} {c d : Cursor} {x : Float} {before : List Char}
    (hgives : Gives production fun _ ts => ts ≠ []) (h : production c = .ok (x, d))
    (hlead : c.Leads before d) : c.offset < d.offset := by
  apply hlead.offset_lt
  rintro rfl
  obtain ⟨ts, htokens, hts⟩ := hgives h
  have hsame : [] ++ d.tokens = ts ++ d.tokens := by
    rw [← htokens, hlead.tokens_eq, tokensOf_nil]
  exact hts (List.append_cancel_right hsame).symm

namespace Counted

/-- Evaluation is what the counted productions return for a whole text, with no more frames
than factors may be open. -/
theorem whole_returns (text : String) :
    ∃ out, whole maxDepth ⟨Cursor.start text, 0⟩ = some out ∧
      out.Sound ⟨Cursor.start text, 0⟩ ∧ out.result = evaluate text := by
  have hexpression : Returns (expression (factor maxDepth)) ⟨Cursor.start text, 0⟩
      (Expression.expression (Expression.factor maxDepth) (Cursor.start text)) :=
    Part.expression.follows (Nat.zero_le _) (Nat.le_add_left _ _) _
  have hwhole : Returns (whole maxDepth) ⟨Cursor.start text, 0⟩
      (Expression.expression (Expression.factor maxDepth) (Cursor.start text) >>= fun result =>
        if result.2.atEnd then .ok result else .error (unexpected result.2)) := by
    apply returns_bind hexpression
    intro x after _
    have hend : Returns (move fun c => (c.atEnd, c)) ⟨after, 0⟩ (.ok (after.atEnd, after)) :=
      returns_move (.refl after)
    apply returns_bind_ok hend
    by_cases hatEnd : after.atEnd = true
    · simp only [if_pos hatEnd]
      exact returns_pure x _
    · simp only [if_neg hatEnd]
      exact returns_failWith unexpected _
  obtain ⟨out, hout, hsound, hresult⟩ := hwhole.exists_result
  refine ⟨out, hout, hsound, hresult.trans ?_⟩
  rw [evaluate, evaluateWithin]
  cases Expression.expression (Expression.factor maxDepth) (Cursor.start text) with
  | error e => rfl
  | ok result =>
    simp only [bind, Except.bind]
    split <;> rfl

/-- Every production returns from every reader within the limit, whether it succeeds or
fails. It leaves the counter at its value on entry, never raises it above the limit or
lowers it below that value, and moves the cursor only forward, strictly so if it succeeds
and with every round of an operator loop. It needs no more frames than the counter leaves
room for, so a whole text is evaluated with as many frames as factors may be open. -/
theorem part_returns (part : Part) (r : Reader) (frames : Nat) (hdepth : r.depth ≤ maxDepth)
    (hframes : maxDepth ≤ r.depth + frames) :
    (∃ out, part.counted frames r = some out ∧
      out.reader.depth = r.depth ∧
      (∀ n, .counter n ∈ out.events → r.depth ≤ n ∧ n ≤ maxDepth) ∧
      (∀ c d, .round c d ∈ out.events → c.offset < d.offset) ∧
      r.cursor.offset ≤ out.reader.cursor.offset ∧
      (∀ x, out.result = .ok x → r.cursor.offset < out.reader.cursor.offset) ∧
      out.outcome = part.production (maxDepth - r.depth) r.cursor) ∧
    ∀ text, ∃ out, whole maxDepth ⟨Cursor.start text, 0⟩ = some out ∧
      out.reader.depth = 0 ∧ (∀ n, .counter n ∈ out.events → n ≤ maxDepth) ∧
      out.result = evaluate text := by
  refine ⟨?_, fun text => ?_⟩
  · obtain ⟨out, hout, hsound, houtcome⟩ := part.follows hdepth hframes r.cursor
    obtain ⟨before, hlead⟩ := hsound.leads
    refine ⟨out, hout, hsound.depth_eq, hsound.counter_le, hsound.round_lt, hlead.offset_le,
      fun x hx => ?_, houtcome⟩
    have hok : part.production (maxDepth - r.depth) r.cursor = .ok (x, out.reader.cursor) := by
      rw [← houtcome, Return.outcome, hx]
      rfl
    exact (part.gives _).offset_lt hok hlead
  · obtain ⟨out, hout, hsound, hresult⟩ := whole_returns text
    exact ⟨out, hout, hsound.depth_eq, fun n hn => (hsound.counter_le n hn).2, hresult⟩

/-- A parenthesis that is never closed, two factors below the limit. -/
theorem part_returns_unclosed :
    let r : Reader := ⟨⟨4, " (1 + -2".toList⟩, 510⟩
    r.depth ≤ maxDepth ∧ maxDepth ≤ r.depth + 2 ∧
      ∃ out, Part.primary.counted 2 r = some out ∧ out.reader.depth = 510 ∧
        ∀ n, .counter n ∈ out.events → 510 ≤ n ∧ n ≤ maxDepth := by
  have hdepth : 510 ≤ maxDepth := by decide
  have hframes : maxDepth ≤ 510 + 2 := by decide
  obtain ⟨out, hout, hleft, hcounter, -⟩ :=
    (part_returns .primary ⟨⟨4, " (1 + -2".toList⟩, 510⟩ 2 hdepth hframes).1
  exact ⟨hdepth, hframes, out, hout, hleft, hcounter⟩

end Counted
end Abacus.Expression
