import Abacus.Proofs.Grammar
import Abacus.Proofs.Simulation

/-!
Evaluation and the grammar. What a production reads are the tokens of a tree
that has the value of the production and no more factors inside one another than
it has room for. In the other direction the machine reads the tokens of a tree to
the value of the tree, if the token behind them does not go on with it.
-/

namespace Abacus.Expression

open Text Text.Cursor Automaton

section Soundness

/-- The value and the tokens of whatever the production reads are in the relation. -/
def Gives (production : Production) (phrase : Float → List Token → Prop) : Prop :=
  ∀ ⦃c x d⦄, production c = .ok (x, d) → ∃ ts, c.tokens = ts ++ d.tokens ∧ phrase x ts

/-- Some tree that fits into `room` has the value and the tokens. -/
def Phrase {Tree : Type} (depth : Tree → Nat) (value : Tree → Float)
    (tokens : Tree → List Token) (room : Nat) (x : Float) (ts : List Token) : Prop :=
  ∃ tree, depth tree ≤ room ∧ value tree = x ∧ tokens tree = ts

abbrev FactorPhrase := Phrase Grammar.Factor.depth Grammar.Factor.value Grammar.Factor.tokens

abbrev TermPhrase := Phrase Grammar.Term.depth Grammar.Term.value Grammar.Term.tokens

abbrev ExpressionPhrase :=
  Phrase Grammar.Expression.depth Grammar.Expression.value Grammar.Expression.tokens

abbrev PowerPhrase := Phrase Grammar.Power.depth Grammar.Power.value Grammar.Power.tokens

abbrev PrimaryPhrase :=
  Phrase Grammar.Primary.depth Grammar.Primary.value Grammar.Primary.tokens

variable {room : Nat}

theorem exists_sign {c : Char} {operation : Operation} (h : additive c = some operation) :
    ∃ sign : Grammar.Sign, sign.char = c ∧ sign.combine = operation := by
  rcases additive_eq_some h with rfl | rfl <;> cases h
  · exact ⟨.plus, rfl, rfl⟩
  · exact ⟨.minus, rfl, rfl⟩

theorem exists_scaling {c : Char} {operation : Operation}
    (h : multiplicative c = some operation) :
    ∃ scaling : Grammar.Scaling, scaling.char = c ∧ scaling.combine = operation := by
  rcases multiplicative_eq_some h with rfl | rfl | rfl <;> cases h
  · exact ⟨.multiply, rfl, rfl⟩
  · exact ⟨.divide, rfl, rfl⟩
  · exact ⟨.modulo, rfl, rfl⟩

theorem number_gives (room : Nat) : Gives number (PrimaryPhrase room) := by
  intro c x d h
  have hspec := number_spec c
  rw [h] at hspec
  cases hspec with
  | @literal ch run literal _ hliteral _ htokens =>
    have hsome : (Literal.ofRun? (ch :: run)).isSome = true := by simp [hliteral]
    refine ⟨[.run ch run], htokens,
      .number ⟨ch, run, (isSome_ofRun?_iff _).mp hsome⟩, Nat.zero_le _, ?_, rfl⟩
    simp [Grammar.Primary.value, Numeral.literal, hliteral]

theorem primary_gives {inner : Production} (hinner : Gives inner (ExpressionPhrase room)) :
    Gives (primary inner) (PrimaryPhrase room) := by
  intro c x d h
  rcases c.eat_cases '(' (by decide) with
    ⟨-, inside, heat, -, htokens⟩ | ⟨heat, -⟩
  · simp only [primary, heat, bind, Except.bind] at h
    cases hout : inner inside with
    | error e => simp [hout] at h
    | ok result =>
      obtain ⟨y, after⟩ := result
      obtain ⟨_, hinside, tree, hdepth, rfl, rfl⟩ := hinner hout
      rcases after.eat_cases ')' (by decide) with
        ⟨-, outside, heat', -, htokens'⟩ | ⟨heat', -⟩
      · simp only [hout, heat', Except.ok.injEq, Prod.mk.injEq] at h
        obtain ⟨rfl, rfl⟩ := h
        refine ⟨_, ?_, .group tree, hdepth, rfl, rfl⟩
        rw [htokens, hinside, htokens', Grammar.Primary.tokens]
        simp only [List.cons_append, List.append_assoc, List.nil_append]
      · simp [hout, heat'] at h
  · simp only [primary, heat] at h
    obtain ⟨ts, htokens, hphrase⟩ := number_gives room h
    exact ⟨ts, by rw [← tokens_skipSpaces, htokens], hphrase⟩

theorem power_gives {base exponent : Production} (hbase : Gives base (PrimaryPhrase room))
    (hexponent : Gives exponent (FactorPhrase room)) :
    Gives (power base exponent) (PowerPhrase room) := by
  intro c x d h
  simp only [power, bind, Except.bind] at h
  cases hout : base c with
  | error e => simp [hout] at h
  | ok result =>
    obtain ⟨y, after⟩ := result
    obtain ⟨_, hc, tree, hdepth, rfl, rfl⟩ := hbase hout
    rcases after.eat_cases '^' (by decide) with
      ⟨-, ahead, heat, -, htokens⟩ | ⟨heat, -⟩
    · cases hout' : exponent ahead with
      | error e => simp [hout, heat, hout'] at h
      | ok result' =>
        obtain ⟨z, done⟩ := result'
        obtain ⟨_, hahead, tree', hdepth', rfl, rfl⟩ := hexponent hout'
        simp only [hout, heat, hout', Except.ok.injEq, Prod.mk.injEq] at h
        obtain ⟨rfl, rfl⟩ := h
        refine ⟨_, ?_, .raised tree tree', Nat.max_le.mpr ⟨hdepth, hdepth'⟩, rfl, rfl⟩
        rw [hc, htokens, hahead, Grammar.Power.tokens]
        simp only [List.cons_append, List.append_assoc]
    · simp only [hout, heat, Except.ok.injEq, Prod.mk.injEq] at h
      obtain ⟨rfl, rfl⟩ := h
      exact ⟨_, by rw [hc, tokens_skipSpaces, Grammar.Power.tokens], .plain tree, hdepth, rfl, rfl⟩

/-- A chain reads a list of operators and operands. `tails x z` relates the value
`x` in front of the list to the value `z` of the chain. -/
theorem chainFrom_gives {operation? : Char → Option Operation} {operand : Production}
    {phrase : Float → List Token → Prop} {tails : Float → Float → List Token → Prop}
    (hoperand : Gives operand phrase)
    (hseparable : Separable operation?)
    (hnil : ∀ x, tails x x [])
    (hcons : ∀ {ch operation x y z ts us}, operation? ch = some operation → phrase y ts →
      tails (operation x y) z us → tails x z (.single ch :: (ts ++ us))) (x : Float) :
    Gives (chainFrom operation? operand x) (tails x) := by
  intro c z d h
  fun_induction chainFrom operation? operand x c with
  | case1 x c ahead hbind =>
    simp only [Except.ok.injEq, Prod.mk.injEq] at h
    obtain ⟨rfl, hd⟩ := h
    refine ⟨[], ?_, hnil x⟩
    rw [← hd]
    exact (tokens_skipSpaces c).symm
  | case2 x c ahead operation hbind e hout => contradiction
  | case3 x c ahead operation hbind y after hout _ ih =>
    obtain ⟨-, ch, hch, -, htokens⟩ := hseparable.exists_operator hbind
    obtain ⟨ts, hts, hphrase⟩ := hoperand hout
    obtain ⟨us, hus, htails⟩ := ih h
    refine ⟨_, ?_, hcons hch hphrase htails⟩
    rw [htokens, hts, hus, List.cons_append, List.append_assoc]
  | case4 x c ahead operation hbind y after hout _ =>
    obtain ⟨-, ch, hch, -, htokens⟩ := hseparable.exists_operator hbind
    obtain ⟨ts, hts, hphrase⟩ := hoperand hout
    cases h
    refine ⟨_, ?_, hcons hch hphrase (hnil _)⟩
    rw [htokens, hts, List.append_nil, List.cons_append]

theorem chain_gives {operation? : Char → Option Operation} {operand : Production}
    {phrase whole : Float → List Token → Prop} (tails : Float → Float → List Token → Prop)
    (hoperand : Gives operand phrase)
    (htails : ∀ x, Gives (chainFrom operation? operand x) (tails x))
    (hwhole : ∀ {x z ts us}, phrase x ts → tails x z us → whole z (ts ++ us)) :
    Gives (chain operation? operand) whole := by
  intro c z d h
  simp only [chain, bind, Except.bind] at h
  cases hout : operand c with
  | error e => simp [hout] at h
  | ok result =>
    obtain ⟨x, after⟩ := result
    obtain ⟨ts, hc, hphrase⟩ := hoperand hout
    simp only [hout] at h
    obtain ⟨us, hafter, htail⟩ := htails x h
    exact ⟨_, by rw [hc, hafter, List.append_assoc], hwhole hphrase htail⟩

theorem term_gives {factor : Production} (hfactor : Gives factor (FactorPhrase room)) :
    Gives (chain multiplicative factor) (TermPhrase room) := by
  apply chain_gives
    (fun x => Phrase Grammar.Products.depth (·.fold x) Grammar.Products.tokens room) hfactor
  · apply chainFrom_gives hfactor separable_multiplicative
    · exact fun x => ⟨.nil, Nat.zero_le _, rfl, rfl⟩
    · rintro ch operation x y z _ _ hch ⟨head, hhead, rfl, rfl⟩ ⟨tail, htail, rfl, rfl⟩
      obtain ⟨scaling, rfl, rfl⟩ := exists_scaling hch
      exact ⟨.cons scaling head tail, Nat.max_le.mpr ⟨hhead, htail⟩, rfl, rfl⟩
  · rintro x z _ _ ⟨head, hhead, rfl, rfl⟩ ⟨tail, htail, rfl, rfl⟩
    exact ⟨.mk head tail, Nat.max_le.mpr ⟨hhead, htail⟩, rfl, rfl⟩

theorem expression_gives {factor : Production} (hfactor : Gives factor (FactorPhrase room)) :
    Gives (expression factor) (ExpressionPhrase room) := by
  have hterm := term_gives hfactor
  apply chain_gives (fun x => Phrase Grammar.Sums.depth (·.fold x) Grammar.Sums.tokens room) hterm
  · apply chainFrom_gives hterm separable_additive
    · exact fun x => ⟨.nil, Nat.zero_le _, rfl, rfl⟩
    · rintro ch operation x y z _ _ hch ⟨head, hhead, rfl, rfl⟩ ⟨tail, htail, rfl, rfl⟩
      obtain ⟨sign, rfl, rfl⟩ := exists_sign hch
      exact ⟨.cons sign head tail, Nat.max_le.mpr ⟨hhead, htail⟩, rfl, rfl⟩
  · rintro x z _ _ ⟨head, hhead, rfl, rfl⟩ ⟨tail, htail, rfl, rfl⟩
    exact ⟨.mk head tail, Nat.max_le.mpr ⟨hhead, htail⟩, rfl, rfl⟩

theorem factor_gives (room : Nat) : Gives (factor room) (FactorPhrase room) := by
  induction room with
  | zero =>
    intro c x d h
    contradiction
  | succ room ih =>
    intro c x d h
    rcases factor_succ_cases room c with
      ⟨-, ahead, -, htokens, hfactor⟩ | ⟨-, ahead, -, htokens, hfactor⟩ | ⟨-, hfactor⟩
    · rw [hfactor] at h
      obtain ⟨_, hahead, tree, hdepth, rfl, rfl⟩ := ih h
      refine ⟨_, ?_, .signed .plus tree, Nat.succ_le_succ hdepth, rfl, rfl⟩
      rw [htokens, hahead]
      rfl
    · simp only [hfactor, negated, bind, Except.bind] at h
      cases hout : factor room ahead with
      | error e => simp [hout] at h
      | ok result =>
        obtain ⟨y, after⟩ := result
        obtain ⟨_, hahead, tree, hdepth, rfl, rfl⟩ := ih hout
        simp only [hout, Except.ok.injEq, Prod.mk.injEq] at h
        obtain ⟨rfl, rfl⟩ := h
        refine ⟨_, ?_, .signed .minus tree, Nat.succ_le_succ hdepth, rfl, rfl⟩
        rw [htokens, hahead]
        rfl
    · rw [hfactor] at h
      obtain ⟨_, hc, tree, hdepth, rfl, rfl⟩ :=
        power_gives (primary_gives (expression_gives ih)) ih h
      rw [tokens_skipSpaces, tokens_skipSpaces] at hc
      exact ⟨_, hc, .power tree, Nat.succ_le_succ hdepth, rfl, rfl⟩

end Soundness

section Completeness

variable {limit : Nat} {outer : List Level}

def waitingOf : Grammar.Sign → Waiting
  | .plus => .sign false
  | .minus => .sign true

theorem close_waitingOf (sign : Grammar.Sign) (x : Float) :
    (waitingOf sign).close x = sign.apply x := by
  cases sign <;> rfl

theorem read_sign (sign : Grammar.Sign) (level : Level) :
    State.read ⟨outer, level, none⟩ (.single sign.char) =
      .ok ⟨outer, level.wait (waitingOf sign), none⟩ := by
  cases sign <;> rfl

theorem read_scaling (scaling : Grammar.Scaling) (sum : Pending) (x : Float) :
    State.read ⟨outer, ⟨sum, none, []⟩, some x⟩ (.single scaling.char) =
      .ok ⟨outer, ⟨sum, some (x, scaling.combine), []⟩, none⟩ := by
  cases scaling <;> rfl

theorem read_sum (sign : Grammar.Sign) (x : Float) :
    State.read ⟨outer, {}, some x⟩ (.single sign.char) =
      .ok ⟨outer, ⟨some (x, sign.combine), none, []⟩, none⟩ := by
  cases sign <;> rfl

theorem read_numeral (numeral : Numeral) (level : Level) :
    State.read ⟨outer, level, none⟩ (.run numeral.first numeral.rest) =
      .ok ⟨outer, level, some numeral.literal.value⟩ := by
  simp only [State.read, State.readOperand, numeral.ofRun?_eq]
  rfl

theorem forall_head_single {p : Char → Prop} {c : Char} (h : p c) (ts : List Token) :
    ∀ t ∈ (Token.single c :: ts).head?, p t.head := by
  intro t ht
  obtain rfl : Token.single c = t := by simpa using ht
  exact h

theorem closes_parenthesis : Closes ')' :=
  ⟨⟨by decide, rfl⟩, rfl⟩

theorem products_head (tree : Grammar.Products) {ts : List Token}
    (h : ∀ t ∈ ts.head?, t.head ≠ '^') : ∀ t ∈ (tree.tokens ++ ts).head?, t.head ≠ '^' := by
  cases tree with
  | nil => exact h
  | cons scaling head tail =>
    apply forall_head_single (p := (· ≠ '^'))
    cases scaling <;> decide

theorem sums_head (tree : Grammar.Sums) {ts : List Token}
    (h : ∀ t ∈ ts.head?, t.head ≠ '^' ∧ multiplicative t.head = none) :
    ∀ t ∈ (tree.tokens ++ ts).head?, t.head ≠ '^' ∧ multiplicative t.head = none := by
  cases tree with
  | nil => exact h
  | cons sign head tail =>
    apply forall_head_single (p := fun c => c ≠ '^' ∧ multiplicative c = none)
    cases sign <;> exact ⟨by decide, rfl⟩

mutual
theorem run_expression : ∀ (tree : Grammar.Expression) {outer : List Level} {ts : List Token},
    State.active ⟨outer, {}, none⟩ + tree.depth ≤ limit + 1 → (∀ t ∈ ts.head?, Closes t.head) →
      run limit ⟨outer, {}, none⟩ (tree.tokens ++ ts) =
        run limit ⟨outer, {}, some tree.value⟩ ts
  | .mk head tail, outer, ts, hroom, hts => by
    have hpos := head.depth_pos
    simp only [Grammar.Expression.depth] at hroom
    have hhead : ∀ t ∈ ts.head?, t.head ≠ '^' ∧ multiplicative t.head = none :=
      fun t ht => (hts t ht).1
    calc run limit ⟨outer, {}, none⟩ ((Grammar.Expression.mk head tail).tokens ++ ts)
      _ = run limit ⟨outer, {}, none⟩ (head.tokens ++ (tail.tokens ++ ts)) := by
        rw [Grammar.Expression.tokens, List.append_assoc]
      _ = run limit ⟨outer, {}, some head.value⟩ (tail.tokens ++ ts) :=
        run_term head (by omega) (sums_head tail hhead)
      _ = run limit ⟨outer, {}, some (tail.fold head.value)⟩ ts :=
        run_sums tail (by omega) (by omega) hhead

theorem run_sums : ∀ (tree : Grammar.Sums) {outer : List Level} {x : Float} {ts : List Token},
    State.active ⟨outer, {}, none⟩ ≤ limit →
    State.active ⟨outer, {}, none⟩ + tree.depth ≤ limit + 1 →
    (∀ t ∈ ts.head?, t.head ≠ '^' ∧ multiplicative t.head = none) →
      run limit ⟨outer, {}, some x⟩ (tree.tokens ++ ts) =
        run limit ⟨outer, {}, some (tree.fold x)⟩ ts
  | .nil, _, _, _, _, _, _ => rfl
  | .cons sign head tail, outer, x, ts, hactive, hroom, hts => by
    simp only [Grammar.Sums.depth] at hroom
    have hbehind : State.active ⟨outer, {}, some x⟩ ≤ limit := hactive
    have hwait : State.active ⟨outer, ⟨some (x, sign.combine), none, []⟩, none⟩ =
        State.active ⟨outer, {}, none⟩ := rfl
    calc run limit ⟨outer, {}, some x⟩ ((Grammar.Sums.cons sign head tail).tokens ++ ts)
      _ = run limit ⟨outer, ⟨some (x, sign.combine), none, []⟩, none⟩
            (head.tokens ++ (tail.tokens ++ ts)) := by
        rw [Grammar.Sums.tokens, List.cons_append, List.append_assoc]
        exact run_cons_of_ok hbehind (read_sum sign x) _
      _ = run limit ⟨outer, ⟨some (x, sign.combine), none, []⟩, some head.value⟩
            (tail.tokens ++ ts) :=
        run_term head (by omega) (sums_head tail hts)
      _ = run limit ⟨outer, {}, some (sign.combine x head.value)⟩ (tail.tokens ++ ts) :=
        run_sum hactive (sums_head tail hts)
      _ = run limit ⟨outer, {}, some (tail.fold (sign.combine x head.value))⟩ ts :=
        run_sums tail hactive (by omega) hts

theorem run_term : ∀ (tree : Grammar.Term) {outer : List Level} {sum : Pending}
    {ts : List Token}, State.active ⟨outer, ⟨sum, none, []⟩, none⟩ + tree.depth ≤ limit + 1 →
    (∀ t ∈ ts.head?, t.head ≠ '^' ∧ multiplicative t.head = none) →
      run limit ⟨outer, ⟨sum, none, []⟩, none⟩ (tree.tokens ++ ts) =
        run limit ⟨outer, ⟨sum, none, []⟩, some tree.value⟩ ts
  | .mk head tail, outer, sum, ts, hroom, hts => by
    have hpos := head.depth_pos
    simp only [Grammar.Term.depth] at hroom
    have hhead : ∀ t ∈ ts.head?, t.head ≠ '^' := fun t ht => (hts t ht).1
    calc run limit ⟨outer, ⟨sum, none, []⟩, none⟩ ((Grammar.Term.mk head tail).tokens ++ ts)
      _ = run limit ⟨outer, ⟨sum, none, []⟩, none⟩ (head.tokens ++ (tail.tokens ++ ts)) := by
        rw [Grammar.Term.tokens, List.append_assoc]
      _ = run limit ⟨outer, ⟨sum, none, []⟩, some head.value⟩ (tail.tokens ++ ts) :=
        run_factor head (by omega) (products_head tail hhead)
      _ = run limit ⟨outer, ⟨sum, none, []⟩, some (tail.fold head.value)⟩ ts :=
        run_products tail (by omega) (by omega) hhead

theorem run_products : ∀ (tree : Grammar.Products) {outer : List Level} {sum : Pending}
    {x : Float} {ts : List Token}, State.active ⟨outer, ⟨sum, none, []⟩, none⟩ ≤ limit →
    State.active ⟨outer, ⟨sum, none, []⟩, none⟩ + tree.depth ≤ limit + 1 →
    (∀ t ∈ ts.head?, t.head ≠ '^') →
      run limit ⟨outer, ⟨sum, none, []⟩, some x⟩ (tree.tokens ++ ts) =
        run limit ⟨outer, ⟨sum, none, []⟩, some (tree.fold x)⟩ ts
  | .nil, _, _, _, _, _, _, _ => rfl
  | .cons scaling head tail, outer, sum, x, ts, hactive, hroom, hts => by
    simp only [Grammar.Products.depth] at hroom
    have hbehind : State.active ⟨outer, ⟨sum, none, []⟩, some x⟩ ≤ limit := hactive
    have hwait : State.active ⟨outer, ⟨sum, some (x, scaling.combine), []⟩, none⟩ =
        State.active ⟨outer, ⟨sum, none, []⟩, none⟩ := rfl
    calc run limit ⟨outer, ⟨sum, none, []⟩, some x⟩
          ((Grammar.Products.cons scaling head tail).tokens ++ ts)
      _ = run limit ⟨outer, ⟨sum, some (x, scaling.combine), []⟩, none⟩
            (head.tokens ++ (tail.tokens ++ ts)) := by
        rw [Grammar.Products.tokens, List.cons_append, List.append_assoc]
        exact run_cons_of_ok hbehind (read_scaling scaling sum x) _
      _ = run limit ⟨outer, ⟨sum, some (x, scaling.combine), []⟩, some head.value⟩
            (tail.tokens ++ ts) :=
        run_factor head (by omega) (products_head tail hts)
      _ = run limit ⟨outer, ⟨sum, none, []⟩, some (scaling.combine x head.value)⟩
            (tail.tokens ++ ts) :=
        run_product hactive (products_head tail hts)
      _ = run limit ⟨outer, ⟨sum, none, []⟩, some (tail.fold (scaling.combine x head.value))⟩
            ts :=
        run_products tail hactive (by omega) hts

theorem run_factor : ∀ (tree : Grammar.Factor) {outer : List Level} {level : Level}
    {ts : List Token}, State.active ⟨outer, level, none⟩ + tree.depth ≤ limit + 1 →
    (∀ t ∈ ts.head?, t.head ≠ '^') →
      run limit ⟨outer, level, none⟩ (tree.tokens ++ ts) =
        run limit ⟨outer, level, some tree.value⟩ ts
  | .signed sign inner, outer, level, ts, hroom, hts => by
    have hpos := inner.depth_pos
    simp only [Grammar.Factor.depth] at hroom
    have hwait := State.active_wait outer level (waitingOf sign) none none
    calc run limit ⟨outer, level, none⟩ ((Grammar.Factor.signed sign inner).tokens ++ ts)
      _ = run limit ⟨outer, level.wait (waitingOf sign), none⟩ (inner.tokens ++ ts) :=
        run_cons_of_ok (by omega) (read_sign sign level) _
      _ = run limit ⟨outer, level.wait (waitingOf sign), some inner.value⟩ ts :=
        run_factor inner (by omega) hts
      _ = run limit ⟨outer, level, some ((waitingOf sign).close inner.value)⟩ ts :=
        run_close (by omega) hts
      _ = run limit ⟨outer, level, some (sign.apply inner.value)⟩ ts := by
        rw [close_waitingOf]
  | .power inner, outer, level, ts, hroom, hts =>
    run_power inner (Nat.le_of_succ_le_succ hroom) hts

theorem run_power : ∀ (tree : Grammar.Power) {outer : List Level} {level : Level}
    {ts : List Token}, State.active ⟨outer, level, none⟩ + tree.depth ≤ limit →
    (∀ t ∈ ts.head?, t.head ≠ '^') →
      run limit ⟨outer, level, none⟩ (tree.tokens ++ ts) =
        run limit ⟨outer, level, some tree.value⟩ ts
  | .plain base, _, _, _, hroom, _ => run_primary base hroom
  | .raised base exponent, outer, level, ts, hroom, hts => by
    have hpos := exponent.depth_pos
    simp only [Grammar.Power.depth] at hroom
    have hwait := State.active_wait outer level (.exponent base.value) none none
    have hactive : State.active ⟨outer, level, some base.value⟩ =
        State.active ⟨outer, level, none⟩ := rfl
    calc run limit ⟨outer, level, none⟩ ((Grammar.Power.raised base exponent).tokens ++ ts)
      _ = run limit ⟨outer, level, none⟩
            (base.tokens ++ (.single '^' :: (exponent.tokens ++ ts))) := by
        rw [Grammar.Power.tokens, List.append_assoc, List.cons_append]
      _ = run limit ⟨outer, level, some base.value⟩ (.single '^' :: (exponent.tokens ++ ts)) :=
        run_primary base (by omega)
      _ = run limit ⟨outer, level.wait (.exponent base.value), none⟩ (exponent.tokens ++ ts) :=
        run_cons_of_ok (by omega) rfl _
      _ = run limit ⟨outer, level.wait (.exponent base.value), some exponent.value⟩ ts :=
        run_factor exponent (by omega) hts
      _ = run limit ⟨outer, level, some (Float.pow base.value exponent.value)⟩ ts :=
        run_close (by omega) hts

theorem run_primary : ∀ (tree : Grammar.Primary) {outer : List Level} {level : Level}
    {ts : List Token}, State.active ⟨outer, level, none⟩ + tree.depth ≤ limit →
      run limit ⟨outer, level, none⟩ (tree.tokens ++ ts) =
        run limit ⟨outer, level, some tree.value⟩ ts
  | .number numeral, _, level, ts, hroom =>
    run_cons_of_ok (Nat.le_of_add_right_le hroom) (read_numeral numeral level) ts
  | .group inner, outer, level, ts, hroom => by
    have hpos := inner.depth_pos
    simp only [Grammar.Primary.depth] at hroom
    have hgroup := State.active_group outer level none none
    have hinside : State.active ⟨level :: outer, {}, some inner.value⟩ =
        State.active ⟨level :: outer, {}, none⟩ := rfl
    calc run limit ⟨outer, level, none⟩ ((Grammar.Primary.group inner).tokens ++ ts)
      _ = run limit ⟨level :: outer, {}, none⟩ (inner.tokens ++ (.single ')' :: ts)) := by
        rw [Grammar.Primary.tokens, List.cons_append, List.append_assoc]
        exact run_cons_of_ok (by omega) rfl _
      _ = run limit ⟨level :: outer, {}, some inner.value⟩ (.single ')' :: ts) :=
        run_expression inner (by omega) (forall_head_single closes_parenthesis ts)
      _ = run limit ⟨outer, level, some inner.value⟩ ts :=
        run_cons_of_ok (by omega) rfl ts
end

end Completeness

theorem exists_tree_of_evaluateWithin {room : Nat} {text : String} {x : Float}
    (h : evaluateWithin room text = .ok x) :
    ∃ tree : Grammar.Expression, Spaced tree.tokens text.toList ∧ tree.depth ≤ room ∧
      tree.value = x := by
  simp only [evaluateWithin, bind, Except.bind] at h
  cases hout : expression (factor room) (Cursor.start text) with
  | error e => simp [hout] at h
  | ok result =>
    obtain ⟨y, after⟩ := result
    obtain ⟨_, htokens, tree, hdepth, rfl, rfl⟩ := expression_gives (factor_gives room) hout
    simp only [hout] at h
    split at h
    · rename_i hend
      have hrest : after.rest = [] := List.isEmpty_iff.mp hend
      have hall : tokensOf text.toList = tree.tokens := by
        rw [Cursor.tokens, Cursor.tokens, hrest, tokensOf_nil, List.append_nil] at htokens
        exact htokens
      refine ⟨tree, ?_, hdepth, Except.ok.inj h⟩
      rw [← hall]
      exact spaced_tokensOf text.toList
    · contradiction

theorem evaluateWithin_of_tree {room : Nat} {text : String} {tree : Grammar.Expression}
    (hspaced : Spaced tree.tokens text.toList) (hdepth : tree.depth ≤ room) :
    evaluateWithin room text = .ok tree.value := by
  have hseparated : Separated tree.tokens := by
    have hnil : Grammar.Follows [] := ⟨by simp, trivial⟩
    have happend := tree.separated hnil
    rwa [List.append_nil] at happend
  have htokens : tokens text = tree.tokens := hspaced.tokensOf_eq hseparated
  have hone : State.active .start = 1 := rfl
  have hpos := tree.depth_pos
  have hrun : run room .start (tree.tokens ++ []) =
      run room (State.start.holding tree.value) [] :=
    run_expression tree (show State.active .start + tree.depth ≤ room + 1 by omega) (by simp)
  have hactive : (State.start.holding tree.value).active ≤ room := by
    rw [State.active_holding]
    omega
  apply evaluateWithin_eq_ok_iff.mpr
  rw [htokens, ← List.append_nil tree.tokens, hrun]
  exact run_nil hactive

/-- A text has a value if and only if it spaces out the tokens of a tree that has
the value, with at most `maxDepth` factors inside one another. -/
theorem evaluate_eq_ok_iff_exists_tree (text : String) (x : Float) :
    evaluate text = .ok x ↔
      ∃ tree : Grammar.Expression, Spaced tree.tokens text.toList ∧
        tree.depth ≤ maxDepth ∧ tree.value = x := by
  constructor
  · exact exists_tree_of_evaluateWithin
  · intro h
    obtain ⟨tree, hspaced, hdepth, rfl⟩ := h
    exact evaluateWithin_of_tree hspaced hdepth

end Abacus.Expression
