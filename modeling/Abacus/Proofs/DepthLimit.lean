import Abacus.Proofs.Shape
import Abacus.Proofs.Unlimited

/-!
The limit on depth cuts off what is too deep and nothing else. Evaluation with room
for `n` factors is the run without a limit, stopped at the first factor that is
entered while `n` others are open. Such a factor stands just behind the sign, the
parenthesis or the power that opens it, never behind an operator between factors.
-/

namespace Abacus.Expression.Unlimited

open Text Text.Cursor Automaton Run

section Limited

variable {α β : Type}

/-- Never more than `n` factors are open. -/
def Run.Within (n : Nat) (r : Run α) : Prop :=
  ∀ entry ∈ r.entries, entry.active ≤ n

/-- The first factor that is entered while `n` others are open. -/
def Run.firstBeyond (n : Nat) (r : Run α) : Option Entry :=
  r.entries.find? (n < ·.active)

/-- The run stopped at the first factor beyond the limit. -/
def Run.limited (n : Nat) (r : Run α) : Except SyntaxError α :=
  match r.firstBeyond n with
  | some entry => .error (failAt .nestedTooDeeply entry.place)
  | none => r.result

variable {n : Nat}

theorem firstBeyond_bind_of_ok {r : Run α} {f : α → Run β} {x : α} (h : r.result = .ok x) :
    (r >>= f).firstBeyond n = (r.firstBeyond n).or ((f x).firstBeyond n) := by
  rw [bind_of_ok f h]
  exact List.find?_append

theorem firstBeyond_bind_of_error {r : Run α} {f : α → Run β} {e : SyntaxError}
    (h : r.result = .error e) : (r >>= f).firstBeyond n = r.firstBeyond n := by
  rw [bind_of_error f h]
  rfl

theorem limited_bind (r : Run α) (f : α → Run β) :
    (r >>= f).limited n = (r.limited n).bind fun x => (f x).limited n := by
  cases hr : r.result with
  | error e =>
    rw [limited, limited, firstBeyond_bind_of_error hr]
    cases r.firstBeyond n with
    | some entry => rfl
    | none =>
      rw [bind_of_error f hr]
      simp only [hr]
      rfl
  | ok x =>
    rw [limited, limited, firstBeyond_bind_of_ok hr]
    cases r.firstBeyond n with
    | some entry => rfl
    | none =>
      rw [bind_of_ok f hr]
      simp only [hr, Option.none_or]
      rfl

theorem limited_pure (x : α) : (pure x : Run α).limited n = .ok x := rfl

theorem limited_ofResult (result : Except SyntaxError α) : (ofResult result).limited n = result :=
  rfl

theorem firstBeyond_eq_none_iff {r : Run α} : r.firstBeyond n = none ↔ r.Within n := by
  simp [firstBeyond, Within]

theorem limited_of_within {r : Run α} (h : r.Within n) : r.limited n = r.result := by
  rw [limited, firstBeyond_eq_none_iff.mpr h]

variable {operation? : Char → Option Operation} {first operand inner base exponent : Traced}
  {operand' inner' base' exponent' : Production}

theorem chainFrom_limited (hoperand : ∀ c, (operand c).limited n = operand' c) (x : Float)
    (c : Cursor) :
    (chainFrom operation? operand x c).limited n =
      Expression.chainFrom operation? operand' x c := by
  induction x, c using chainFrom.induct operation? with
  | case1 x c ahead hbind =>
    rw [chainFrom, Expression.chainFrom, hbind]
    rfl
  | case2 x c ahead operation hbind ih =>
    rw [chainFrom, Expression.chainFrom, hbind]
    simp only [limited_bind, hoperand]
    cases hout : operand' c.skipSpaces.next with
    | error e => rfl
    | ok result =>
      obtain ⟨y, after⟩ := result
      simp only [Except.bind]
      by_cases hlt : after.rest.length < c.rest.length
      · simp only [if_pos hlt]
        exact ih y after hlt
      · simp only [if_neg hlt]
        rfl

theorem chain_limited (hfirst : ∀ c, (first c).limited n = operand' c)
    (hoperand : ∀ c, (operand c).limited n = operand' c) (c : Cursor) :
    (chain operation? first operand c).limited n = Expression.chain operation? operand' c := by
  simp only [chain, Expression.chain, limited_bind, hfirst, chainFrom_limited hoperand]
  rfl

theorem expression_limited (hfirst : ∀ c, (first c).limited n = operand' c)
    (hoperand : ∀ c, (operand c).limited n = operand' c) (c : Cursor) :
    (expression first operand c).limited n = Expression.expression operand' c :=
  chain_limited (chain_limited hfirst hoperand) (chain_limited hoperand hoperand) c

theorem primary_limited (hinner : ∀ c, (inner c).limited n = inner' c) (c : Cursor) :
    (primary inner c).limited n = Expression.primary inner' c := by
  rcases c.eat_cases '(' (by decide) with ⟨-, inside, heat, -⟩ | ⟨heat, -⟩
  · simp only [primary, Expression.primary, heat, limited_bind, hinner]
    cases hout : inner' inside with
    | error e => rfl
    | ok result =>
      obtain ⟨x, after⟩ := result
      simp only [Except.bind, bind]
      rcases after.eat_cases ')' (by decide) with ⟨-, outside, heat', -⟩ | ⟨heat', -⟩
      · simp only [heat', limited_pure]
      · simp only [heat', limited_ofResult]
  · simp only [primary, Expression.primary, heat, limited_ofResult]

theorem power_limited (hbase : ∀ c, (base c).limited n = base' c)
    (hexponent : ∀ c, (exponent c).limited n = exponent' c) (c : Cursor) :
    (power base exponent c).limited n = Expression.power base' exponent' c := by
  simp only [power, Expression.power, limited_bind, hbase]
  cases hout : base' c with
  | error e => rfl
  | ok result =>
    obtain ⟨x, after⟩ := result
    rcases after.eat_cases '^' (by decide) with ⟨-, ahead, heat, -⟩ | ⟨heat, -⟩
    · simp only [Except.bind, heat, limited_bind, hexponent]
      simp only [bind, Except.bind, heat, limited_pure]
    · simp only [Except.bind, heat, limited_pure]
      simp only [bind, Except.bind, heat]

theorem negated_limited (hinner : ∀ c, (inner c).limited n = inner' c) (c : Cursor) :
    (negated inner c).limited n = Expression.negated inner' c := by
  simp only [negated, Expression.negated, limited_bind, hinner]
  rfl

/-- A limited factor has the room that the limit leaves. -/
theorem factor_limited (room : Nat) {active : Nat} (hroom : active + room = n + 1)
    (opener : Opener) (c : Cursor) :
    (factor opener active c).limited n = Expression.factor room c := by
  induction room generalizing active opener c with
  | zero =>
    have hdeep : n < active := by omega
    rw [factor_eq, limited_bind]
    simp [limited, firstBeyond, enter, hdeep, Except.bind, Expression.factor]
  | succ room ih =>
    have hactive : ¬n < active := by omega
    have hinner : ∀ opener c, (factor opener (active + 1) c).limited n =
        Expression.factor room c := fun opener c => ih (by omega) opener c
    have henter : (enter ⟨opener, active, c⟩).limited n = .ok () := by
      simp [limited, firstBeyond, enter, hactive]
    rw [factor_eq, limited_bind, henter]
    simp only [Except.bind]
    rcases c.eat_cases '+' (by decide) with ⟨-, ahead, heat, -⟩ | ⟨heat, -⟩
    · simp only [inFactor, Expression.factor, heat, hinner]
    · rcases c.skipSpaces.eat_cases '-' (by decide) with
        ⟨-, ahead, heat', -⟩ | ⟨heat', -⟩
      · simp only [inFactor, Expression.factor, heat, heat', negated_limited (hinner .sign)]
      · simp only [inFactor, Expression.factor, heat, heat']
        exact power_limited
          (primary_limited (expression_limited (hinner .group) (hinner .operator)))
          (hinner .exponent) _

end Limited

section Opened

variable {α β : Type} {n : Nat} {c d : Cursor} {before : List Char}

/-- The entry makes `n + 1` open factors and stands behind what opens it. -/
structure Opened (n : Nat) (c : Cursor) (entry : Entry) : Prop where
  active_eq : entry.active = n + 1
  opener : ∃ before o, entry.opener.takes o = true ∧ c.Leads (before ++ [o]) entry.place

/-- The first factor of the run beyond the limit, if there is one, is opened by a
character behind `c`. -/
def Opens (n : Nat) (c : Cursor) (r : Run α) : Prop :=
  ∀ entry, r.firstBeyond n = some entry → Opened n c entry

theorem Opens.behind {r : Run α} (hlead : c.Leads before d) (h : Opens n d r) : Opens n c r := by
  intro entry hentry
  obtain ⟨hactive, between, o, ho, hplace⟩ := h entry hentry
  refine ⟨hactive, before ++ between, o, ho, ?_⟩
  rw [List.append_assoc]
  exact hlead.trans hplace

theorem opens_ofResult (result : Except SyntaxError α) : Opens n c (ofResult result) := by
  intro entry hentry
  contradiction

theorem opens_bind {r : Run α} {f : α → Run β} (hr : Opens n c r)
    (hf : ∀ x, r.result = .ok x → Opens n c (f x)) : Opens n c (r >>= f) := by
  intro entry hentry
  cases hout : r.result with
  | error e =>
    rw [firstBeyond_bind_of_error hout] at hentry
    exact hr entry hentry
  | ok x =>
    rw [firstBeyond_bind_of_ok hout] at hentry
    rcases Option.or_eq_some_iff.mp hentry with hfirst | ⟨-, hrest⟩
    · exact hr entry hfirst
    · exact hf x hout entry hrest

variable {operation? : Char → Option Operation} {first operand inner base exponent : Traced}

theorem chainFrom_opens (hseparable : Separable operation?) (hadvances : Advances operand)
    (hoperand : ∀ c, Opens n c (operand c)) (x : Float) (c : Cursor) :
    Opens n c (chainFrom operation? operand x c) := by
  induction x, c using chainFrom.induct operation? with
  | case1 x c ahead hbind =>
    rw [chainFrom, hbind]
    exact opens_ofResult _
  | case2 x c ahead operation hbind ih =>
    rw [chainFrom, hbind]
    obtain ⟨before, ch, -, hlead, -⟩ := hseparable.exists_operator hbind
    apply opens_bind ((hoperand _).behind hlead)
    intro result hout
    obtain ⟨y, after⟩ := result
    obtain ⟨between, hbetween⟩ := hadvances hout
    by_cases hlt : after.rest.length < c.rest.length
    · simp only [if_pos hlt]
      exact (ih y after hlt).behind (hlead.trans hbetween)
    · simp only [if_neg hlt]
      exact opens_ofResult _

theorem chain_opens
    (hseparable : Separable operation?)
    (hfirst : Advances first) (hoperand : Advances operand)
    (hfirst' : ∀ c, Opens n c (first c)) (hoperand' : ∀ c, Opens n c (operand c))
    (c : Cursor) : Opens n c (chain operation? first operand c) := by
  apply opens_bind (hfirst' c)
  intro result hout
  obtain ⟨x, after⟩ := result
  obtain ⟨before, hlead⟩ := hfirst hout
  exact (chainFrom_opens hseparable hoperand hoperand' x after).behind hlead

theorem expression_opens (hfirst : Advances first) (hoperand : Advances operand)
    (hfirst' : ∀ c, Opens n c (first c)) (hoperand' : ∀ c, Opens n c (operand c))
    (c : Cursor) : Opens n c (expression first operand c) :=
  chain_opens separable_additive
    (chain_advances separable_multiplicative hfirst hoperand)
    (chain_advances separable_multiplicative hoperand hoperand)
    (chain_opens separable_multiplicative hfirst hoperand hfirst' hoperand')
    (chain_opens separable_multiplicative hoperand hoperand hoperand' hoperand') c

theorem primary_opens
    (hinner : ∀ {c before d}, c.Leads (before ++ ['(']) d → Opens n c (inner d)) (c : Cursor) :
    Opens n c (primary inner c) := by
  rcases c.eat_cases '(' (by decide) with
    ⟨before, inside, heat, hlead, -⟩ | ⟨heat, -⟩
  · simp only [primary, heat]
    apply opens_bind (hinner hlead)
    intro result _
    obtain ⟨x, after⟩ := result
    rcases after.eat_cases ')' (by decide) with ⟨-, outside, heat', -⟩ | ⟨heat', -⟩
    · simp only [heat']
      exact opens_ofResult _
    · simp only [heat']
      exact opens_ofResult _
  · simp only [primary, heat]
    exact opens_ofResult _

theorem power_opens (hadvances : Advances base) (hbase : ∀ c, Opens n c (base c))
    (hexponent : ∀ {c before d}, c.Leads (before ++ ['^']) d → Opens n c (exponent d))
    (c : Cursor) : Opens n c (power base exponent c) := by
  apply opens_bind (hbase c)
  intro result hout
  obtain ⟨x, after⟩ := result
  obtain ⟨before, hlead⟩ := hadvances hout
  rcases after.eat_cases '^' (by decide) with
    ⟨between, ahead, heat, hlead', -⟩ | ⟨heat, -⟩
  · simp only [heat]
    exact opens_bind ((hexponent hlead').behind hlead) fun _ _ => opens_ofResult _
  · simp only [heat]
    exact opens_ofResult _

/-- What stands in a factor is opened behind its start if all that is inside it is:
the factors behind a sign or a power and the expression of a group. -/
theorem inFactor_opens {inner : Opener → Traced} (hadvances : ∀ opener, Advances (inner opener))
    (hinner : ∀ {opener c before o d}, opener.takes o = true → c.Leads (before ++ [o]) d →
      Opens n c (inner opener d))
    (hgroup : ∀ {c before d}, c.Leads (before ++ ['(']) d →
      Opens n c (expression (inner .group) (inner .operator) d)) (c : Cursor) :
    Opens n c (inFactor inner c) := by
  rcases c.eat_cases '+' (by decide) with ⟨before, ahead, heat, hlead, -⟩ | ⟨heat, -⟩
  · simp only [inFactor, heat]
    exact hinner rfl hlead
  · rcases c.skipSpaces.eat_cases '-' (by decide) with
      ⟨before, ahead, heat', hlead, -⟩ | ⟨heat', -⟩
    · simp only [inFactor, heat, heat']
      have hsign : Opens n c.skipSpaces (inner .sign ahead) := hinner rfl hlead
      apply Opens.behind (leads_skipSpaces c)
      exact opens_bind hsign fun _ _ => opens_ofResult _
    · simp only [inFactor, heat, heat']
      apply Opens.behind ((leads_skipSpaces c).trans (leads_skipSpaces _))
      have hexpression := expression_advances (hadvances .group) (hadvances .operator)
      exact power_opens (primary_advances hexpression) (primary_opens hgroup)
        (hinner rfl) _

theorem firstBeyond_bind_of_some {r : Run α} {f : α → Run β} {entry : Entry}
    (h : r.firstBeyond n = some entry) : (r >>= f).firstBeyond n = some entry := by
  cases hout : r.result with
  | error e => rw [firstBeyond_bind_of_error hout, h]
  | ok x => rw [firstBeyond_bind_of_ok hout, h, Option.some_or]

theorem firstBeyond_factor (opener : Opener) (c : Cursor) :
    (factor opener (n + 1) c).firstBeyond n = some ⟨opener, n + 1, c⟩ := by
  rw [factor_eq]
  apply firstBeyond_bind_of_some
  simp [firstBeyond, enter]

theorem opened_of_leads {opener : Opener} {o : Char} (ho : opener.takes o = true)
    (hlead : c.Leads (before ++ [o]) d) : Opened n c ⟨opener, n + 1, d⟩ :=
  ⟨rfl, before, o, ho, hlead⟩

/-- A factor within the limit is opened as what is inside it. -/
theorem factor_opens_of_inside {opener : Opener} {active : Nat} (hactive : active ≤ n)
    (hinner : ∀ {opener c before o d}, opener.takes o = true → c.Leads (before ++ [o]) d →
      Opens n c (factor opener (active + 1) d))
    (hgroup : ∀ {c before d}, c.Leads (before ++ ['(']) d → Opens n c
      (expression (factor .group (active + 1)) (factor .operator (active + 1)) d))
    (c : Cursor) : Opens n c (factor opener active c) := by
  rw [factor_eq]
  apply opens_bind
  · intro entry hentry
    have hnot : ¬n < active := by omega
    simp [firstBeyond, enter, hnot] at hentry
  · intro _ _
    exact inFactor_opens (fun opener => factor_advances opener (active + 1)) hinner hgroup c

/-- No factor that is entered within the limit leads beyond it but through a sign,
a group or a power. -/
theorem factor_opens (room : Nat) {active : Nat} (hroom : active + room = n) (opener : Opener)
    (c : Cursor) : Opens n c (factor opener active c) := by
  induction room generalizing active opener c with
  | zero =>
    obtain rfl : active = n := hroom
    apply factor_opens_of_inside (Nat.le_refl _)
    · intro opener c before o d ho hlead entry hentry
      rw [firstBeyond_factor] at hentry
      obtain rfl := Option.some.inj hentry
      exact opened_of_leads ho hlead
    · intro c before d hlead entry hentry
      have hfirst : (expression (factor .group (active + 1)) (factor .operator (active + 1))
          d).firstBeyond active = some ⟨.group, active + 1, d⟩ :=
        firstBeyond_bind_of_some (firstBeyond_bind_of_some (firstBeyond_factor .group d))
      rw [hfirst] at hentry
      obtain rfl := Option.some.inj hentry
      exact opened_of_leads rfl hlead
  | succ room ih =>
    have hinside : ∀ opener c, Opens n c (factor opener (active + 1) c) :=
      fun opener c => ih (by omega) opener c
    apply factor_opens_of_inside (by omega)
    · intro opener c before o d _ hlead
      exact (hinside opener d).behind hlead
    · intro c before d hlead
      have hexpression := expression_opens (factor_advances .group (active + 1))
        (factor_advances .operator (active + 1)) (hinside .group) (hinside .operator) d
      exact hexpression.behind hlead

end Opened

end Abacus.Expression.Unlimited

namespace Abacus.Expression

open Text Text.Cursor Automaton Unlimited

/-- Evaluation is the run without a limit, stopped at the first factor beyond it. -/
theorem limited_unlimited (n : Nat) (text : String) :
    (unlimited text).limited n = evaluateWithin n text := by
  have hfactor : ∀ opener c, (Unlimited.factor opener 1 c).limited n = factor n c :=
    fun opener c => factor_limited n (Nat.add_comm 1 n) opener c
  rw [unlimited, limited_bind, expression_limited (hfactor .start) (hfactor .operator),
    evaluateWithin]
  cases hout : expression (factor n) (Cursor.start text) with
  | error e => rfl
  | ok result =>
    obtain ⟨x, after⟩ := result
    simp only [Except.bind, bind]
    split <;> rfl

theorem unlimited_opens {n : Nat} (hn : 0 < n) (text : String) :
    Opens n (Cursor.start text) (unlimited text) := by
  have hfactor : ∀ opener c, Opens n c (Unlimited.factor opener 1 c) :=
    fun opener c => factor_opens (n - 1) (by omega) opener c
  apply opens_bind
  · exact expression_opens (factor_advances .start 1) (factor_advances .operator 1)
      (hfactor .start) (hfactor .operator) _
  · intro result _
    obtain ⟨x, after⟩ := result
    simp only
    split <;> exact opens_ofResult _

/-- Room for as many factors as there are tokens, and one more, is no limit. -/
theorem evaluateWithin_eq_unlimited {n : Nat} {text : String} (h : (tokens text).length < n) :
    evaluateWithin n text = (unlimited text).result := by
  have hlimited := limited_unlimited n text
  cases hfirst : (unlimited text).firstBeyond n with
  | none => rw [← hlimited, limited_of_within (firstBeyond_eq_none_iff.mp hfirst)]
  | some entry =>
    rw [Run.limited, hfirst] at hlimited
    obtain ⟨before, d, -, -, hrun, -⟩ := fails_of_evaluateWithin hlimited.symm
    rw [tokens_start] at hrun
    have hlt := lt_of_run_tooDeep hrun
    have hone : State.start.active = 1 := rfl
    omega

theorem isOpener_of_takes {opener : Opener} {o : Char} (h : opener.takes o = true) :
    isOpener o = true := by
  cases opener with
  | start | operator => contradiction
  | sign =>
    simp only [Opener.takes, Bool.or_eq_true, beq_iff_eq] at h
    rcases h with rfl | rfl <;> rfl
  | group =>
    obtain rfl : o = '(' := beq_iff_eq.mp h
    rfl
  | exponent =>
    obtain rfl : o = '^' := beq_iff_eq.mp h
    rfl

/-- Where a factor is too deep, the text up to it is too deep with any text behind. -/
theorem evaluateWithin_of_firstBeyond {n : Nat} (hn : 0 < n) {s : String} {entry : Entry}
    (h : (unlimited s).firstBeyond n = some entry) :
    entry.active = n + 1 ∧ ∃ (before : String) (o : Char) (behind : String),
      s = before ++ String.singleton o ++ behind ∧ entry.opener.takes o = true ∧
      entry.place.offset = (before ++ String.singleton o).utf8ByteSize ∧
      ∀ w, evaluateWithin n (before ++ String.singleton o ++ w) =
        .error ⟨.nestedTooDeeply, entry.place.offset, w.toList.head?⟩ := by
  have herror : evaluateWithin n s = .error (failAt .nestedTooDeeply entry.place) := by
    rw [← limited_unlimited, Run.limited, h]
  obtain ⟨hactive, front, o, ho, hlead⟩ := unlimited_opens hn s entry h
  have hopens := isOpener_of_takes ho
  obtain ⟨before, d, state, hlead', he, hstop, hrun, -⟩ := exists_state_of_error herror
  have hoffset : entry.place.offset = d.offset := congrArg SyntaxError.position he
  obtain ⟨rfl, hplace⟩ := hlead.unique hlead' hoffset
  have hsplit : s.toList = front ++ [o] ++ entry.place.rest := hlead.rest_eq
  have hposition : entry.place.offset = width (front ++ [o]) := by
    have hend := hlead.offset_eq
    simpa [Cursor.start] using hend
  have hfront : (String.ofList front ++ String.singleton o).toList = front ++ [o] := by
    simp
  refine ⟨hactive, String.ofList front, o, String.ofList entry.place.rest, ?_, ho, ?_, ?_⟩
  · rw [← String.toList_inj, hsplit]
    simp
  · rw [← width_toList, hfront, hposition]
  · intro w
    have htext : (String.ofList front ++ String.singleton o ++ w).toList =
        front ++ [o] ++ w.toList := by
      rw [String.toList_append, hfront]
    have hbehind : (Cursor.start (String.ofList front ++ String.singleton o ++ w)).Leads
        (front ++ [o]) ⟨entry.place.offset, w.toList⟩ := by
      refine ⟨htext, ?_, apart_concat _ _ (standsAlone_of_isOpener hopens).2⟩
      simpa [Cursor.start] using hposition
    have htokens : run n .start (tokens (String.ofList front ++ String.singleton o ++ w)) =
        .error (.nestedTooDeeply, tokensOf w.toList) := by
      rw [Text.tokens, htext, hrun _ (apart_concat _ _ (standsAlone_of_isOpener hopens).2)]
      exact run_tooDeep _ hstop.lt_active
    exact evaluateWithin_eq_tooDeep hbehind hopens (by omega) htokens

/-- The limit on depth cuts off what is too deep and nothing else. A text that never
has more than `maxDepth` factors open has the outcome that it has without a limit.
In any other text the first factor beyond the limit is the error; what opens it is a
sign, a group or a power, and what stands behind that does not matter. Operators
between factors open nothing. -/
theorem evaluate_eq_unlimited_or_tooDeep (s : String) :
    ((unlimited s).Within maxDepth → evaluate s = (unlimited s).result) ∧
    (¬(unlimited s).Within maxDepth →
      ∃ entry, (unlimited s).firstBeyond maxDepth = some entry ∧
        entry.active = maxDepth + 1 ∧ ∃ (before : String) (o : Char) (behind : String),
          s = before ++ String.singleton o ++ behind ∧ entry.opener.takes o = true ∧
          entry.place.offset = (before ++ String.singleton o).utf8ByteSize ∧
          ∀ w, evaluate (before ++ String.singleton o ++ w) =
            .error ⟨.nestedTooDeeply, entry.place.offset, w.toList.head?⟩) ∧
    (∀ x c t, evaluate s = .ok x → isOperator c = true →
      (failure? (evaluate (s ++ String.singleton c ++ t))).map SyntaxError.cause =
        (failure? (evaluate t)).map SyntaxError.cause) := by
  refine ⟨fun h => ?_, fun h => ?_, fun x c t hs hc => cause_behind_operator hs hc t⟩
  · rw [evaluate, ← limited_unlimited, limited_of_within h]
  · cases hfirst : (unlimited s).firstBeyond maxDepth with
    | none => exact absurd (firstBeyond_eq_none_iff.mp hfirst) h
    | some entry =>
      have hpos : 0 < maxDepth := by decide
      exact ⟨entry, rfl, evaluateWithin_of_firstBeyond hpos hfirst⟩

end Abacus.Expression
