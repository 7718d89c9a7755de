import Abacus.Proofs.Substitution

/-!
The grammar with named constants and the calculator. A derivation becomes a tree of
the plain grammar when a group takes the place of each constant, and it is found
again from the tree. A calculator therefore gives a text the values that are
derived from the tokens of the text.
-/

namespace Abacus.Grammar

open Text Abacus.Expression Constant

section Snoc

def Sums.snoc : Sums → Sign → Term → Sums
  | .nil, sign, last => .cons sign last .nil
  | .cons sign' head tail, sign, last => .cons sign' head (tail.snoc sign last)

def Products.snoc : Products → Scaling → Factor → Products
  | .nil, scaling, last => .cons scaling last .nil
  | .cons scaling' head tail, scaling, last => .cons scaling' head (tail.snoc scaling last)

variable (sign : Sign) (scaling : Scaling) (last : Term) (lastFactor : Factor)

theorem Sums.tokens_snoc (tree : Sums) :
    (tree.snoc sign last).tokens = tree.tokens ++ .single sign.char :: last.tokens := by
  cases tree with
  | nil => simp [snoc, Sums.tokens]
  | cons _ _ tail => simp [snoc, Sums.tokens, Sums.tokens_snoc tail]

theorem Sums.depth_snoc (tree : Sums) :
    (tree.snoc sign last).depth = max tree.depth last.depth := by
  cases tree with
  | nil => simp [snoc, Sums.depth]
  | cons _ _ tail => simp [snoc, Sums.depth, Sums.depth_snoc tail, Nat.max_assoc]

theorem Sums.fold_snoc : ∀ (tree : Sums) (x : Float),
    (tree.snoc sign last).fold x = sign.combine (tree.fold x) last.value
  | .nil, _ => rfl
  | .cons _ _ tail, _ => Sums.fold_snoc tail _

theorem Products.tokens_snoc (tree : Products) :
    (tree.snoc scaling lastFactor).tokens =
      tree.tokens ++ .single scaling.char :: lastFactor.tokens := by
  cases tree with
  | nil => simp [snoc, Products.tokens]
  | cons _ _ tail => simp [snoc, Products.tokens, Products.tokens_snoc tail]

theorem Products.depth_snoc (tree : Products) :
    (tree.snoc scaling lastFactor).depth = max tree.depth lastFactor.depth := by
  cases tree with
  | nil => simp [snoc, Products.depth]
  | cons _ _ tail => simp [snoc, Products.depth, Products.depth_snoc tail, Nat.max_assoc]

theorem Products.fold_snoc : ∀ (tree : Products) (x : Float),
    (tree.snoc scaling lastFactor).fold x = scaling.combine (tree.fold x) lastFactor.value
  | .nil, _ => rfl
  | .cons _ _ tail, _ => Products.fold_snoc tail _

end Snoc

/-- Between a numeral and the parenthesis behind it stands nothing else. -/
theorem Expression.eq_numeral {tree : Expression} {numeral : Numeral} {rest more : List Token}
    (h : tree.tokens ++ .single ')' :: rest =
      .run numeral.first numeral.rest :: .single ')' :: more) :
    tree.value = numeral.literal.value ∧ rest = more := by
  obtain ⟨⟨factor, products⟩, sums⟩ := tree
  simp only [Expression.tokens, Term.tokens, List.append_assoc] at h
  cases factor with
  | signed sign inner => simp [Factor.tokens] at h
  | power power =>
    cases power with
    | plain base =>
      cases base with
      | group inner => simp [Factor.tokens, Power.tokens, Primary.tokens] at h
      | number other =>
        simp only [Factor.tokens, Power.tokens, Primary.tokens, List.singleton_append,
          List.cons.injEq, Token.run.injEq] at h
        obtain ⟨⟨hfirst, hrest⟩, hbehind⟩ := h
        obtain rfl : other = numeral := by
          cases other
          cases numeral
          simp_all
        cases products with
        | cons scaling head tail =>
          cases scaling <;> simp [Products.tokens, Scaling.char] at hbehind
        | nil =>
          cases sums with
          | cons sign head tail =>
            cases sign <;> simp [Products.tokens, Sums.tokens, Sign.char] at hbehind
          | nil => exact ⟨rfl, by simpa [Products.tokens, Sums.tokens] using hbehind⟩
    | raised base exponent =>
      cases base <;> simp [Factor.tokens, Power.tokens, Primary.tokens] at h

/-- Some tree for the nonterminal fits into the room and has the value and the tokens. -/
def Spelled : Nonterminal → Nat → Float → List Token → Prop
  | .expression => ExpressionPhrase
  | .term => TermPhrase
  | .factor => FactorPhrase
  | .power => PowerPhrase
  | .primary => PrimaryPhrase

section Derivations

variable {constants : List Constant} (hconstants : constants ⊆ all)

include hconstants

theorem flatMap_operator {c : Char} (hc : IsPlain c) (ts us : List Token) :
    (ts ++ .single c :: us).flatMap (tokenImage constants) =
      ts.flatMap (tokenImage constants) ++ .single c :: us.flatMap (tokenImage constants) := by
  rw [List.flatMap_append, List.flatMap_cons, tokenImage_of_plain hconstants hc,
    List.singleton_append]

/-- With a group in the place of each constant, a derivation is that of a tree. -/
theorem Derives.spelled {nonterminal : Nonterminal} {room : Nat} {ts : List Token} {x : Float}
    (h : Derives constants nonterminal room ts x) :
    Spelled nonterminal room x (ts.flatMap (tokenImage constants)) := by
  induction h with
  | term _ ih =>
    obtain ⟨tree, hdepth, rfl, htokens⟩ := ih
    exact ⟨.mk tree .nil, Nat.max_le.mpr ⟨hdepth, Nat.zero_le _⟩, rfl,
      (List.append_nil _).trans htokens⟩
  | sum sign _ _ ih ih' =>
    obtain ⟨⟨head, tail⟩, hdepth, rfl, htokens⟩ := ih
    obtain ⟨last, hdepth', rfl, htokens'⟩ := ih'
    refine ⟨.mk head (tail.snoc sign last), ?_, Sums.fold_snoc _ _ _ _, ?_⟩
    · rw [Expression.depth, Sums.depth_snoc, ← Nat.max_assoc]
      exact Nat.max_le.mpr ⟨hdepth, hdepth'⟩
    · rw [Expression.tokens, Sums.tokens_snoc, flatMap_operator hconstants sign.isPlain, ← htokens,
        ← htokens', Expression.tokens, List.append_assoc]
  | factor _ ih =>
    obtain ⟨tree, hdepth, rfl, htokens⟩ := ih
    exact ⟨.mk tree .nil, Nat.max_le.mpr ⟨hdepth, Nat.zero_le _⟩, rfl,
      (List.append_nil _).trans htokens⟩
  | product scaling _ _ ih ih' =>
    obtain ⟨⟨head, tail⟩, hdepth, rfl, htokens⟩ := ih
    obtain ⟨last, hdepth', rfl, htokens'⟩ := ih'
    refine ⟨.mk head (tail.snoc scaling last), ?_, Products.fold_snoc _ _ _ _, ?_⟩
    · rw [Term.depth, Products.depth_snoc, ← Nat.max_assoc]
      exact Nat.max_le.mpr ⟨hdepth, hdepth'⟩
    · rw [Term.tokens, Products.tokens_snoc, flatMap_operator hconstants scaling.isPlain,
        ← htokens, ← htokens', Term.tokens, List.append_assoc]
  | signed sign _ ih =>
    obtain ⟨tree, hdepth, rfl, htokens⟩ := ih
    refine ⟨.signed sign tree, Nat.succ_le_succ hdepth, rfl, ?_⟩
    rw [Factor.tokens, htokens]
    exact (flatMap_operator hconstants sign.isPlain [] _).symm
  | power _ ih =>
    obtain ⟨tree, hdepth, rfl, htokens⟩ := ih
    exact ⟨.power tree, Nat.succ_le_succ hdepth, rfl, htokens⟩
  | plain _ ih =>
    obtain ⟨tree, hdepth, rfl, htokens⟩ := ih
    exact ⟨.plain tree, hdepth, rfl, htokens⟩
  | raised _ _ ih ih' =>
    obtain ⟨base, hdepth, rfl, htokens⟩ := ih
    obtain ⟨exponent, hdepth', rfl, htokens'⟩ := ih'
    refine ⟨.raised base exponent, Nat.max_le.mpr ⟨hdepth, hdepth'⟩, rfl, ?_⟩
    rw [Power.tokens, htokens, htokens', flatMap_operator hconstants (Or.inr (by decide))]
  | number room numeral => exact ⟨.number numeral, Nat.zero_le _, rfl, rfl⟩
  | group _ ih =>
    obtain ⟨tree, hdepth, rfl, htokens⟩ := ih
    refine ⟨.group tree, hdepth, rfl, ?_⟩
    have hopen : tokenImage constants (.single '(') = [.single '('] :=
      tokenImage_of_plain hconstants (Or.inr (by decide))
    have hclose : tokenImage constants (.single ')') = [.single ')'] :=
      tokenImage_of_plain hconstants (Or.inr (by decide))
    rw [Primary.tokens, htokens, List.flatMap_cons, List.flatMap_append, List.flatMap_singleton,
      hopen, hclose]
    rfl
  | @constant room constant hmem =>
    obtain ⟨numeral, himage, hvalue⟩ := tokenImage_symbol hconstants hmem
    refine ⟨.group (.ofFactor (.ofNumeral numeral)), ?_, hvalue, ?_⟩
    · exact Nat.succ_le_succ (Nat.zero_le room)
    · rw [List.flatMap_singleton, himage]
      rfl

theorem eq_nil_of_flatMap {ts : List Token} (h : ts.flatMap (tokenImage constants) = []) :
    ts = [] := by
  cases ts with
  | nil => rfl
  | cons t ts =>
    rw [List.flatMap_cons] at h
    rcases tokenImage_cases hconstants t with himage | ⟨constant, hmem, rfl⟩
    · simp [himage] at h
    · obtain ⟨numeral, himage, -⟩ := tokenImage_symbol hconstants hmem
      simp [himage] at h

/-- A token that opens no group is its own image. -/
theorem eq_cons_of_flatMap {t : Token} {ts rest : List Token} (ht : t ≠ .single '(')
    (h : ts.flatMap (tokenImage constants) = t :: rest) :
    ∃ behind, ts = t :: behind ∧ behind.flatMap (tokenImage constants) = rest := by
  cases ts with
  | nil => contradiction
  | cons u behind =>
    rw [List.flatMap_cons] at h
    rcases tokenImage_cases hconstants u with himage | ⟨constant, hmem, rfl⟩
    · rw [himage] at h
      obtain ⟨rfl, rfl⟩ := List.cons.inj h
      exact ⟨behind, rfl, rfl⟩
    · obtain ⟨numeral, himage, -⟩ := tokenImage_symbol hconstants hmem
      rw [himage] at h
      exact absurd (List.cons.inj h).1.symm ht

/-- A parenthesis is its own image or the first token of the image of a constant. -/
theorem open_cases {ts rest : List Token}
    (h : ts.flatMap (tokenImage constants) = .single '(' :: rest) :
    (∃ behind, ts = .single '(' :: behind ∧ behind.flatMap (tokenImage constants) = rest) ∨
      ∃ constant ∈ constants, ∃ (numeral : Numeral) (behind : List Token),
        ts = .single constant.symbol :: behind ∧ numeral.literal.value = constant.value ∧
        rest = .run numeral.first numeral.rest :: .single ')' ::
          behind.flatMap (tokenImage constants) := by
  cases ts with
  | nil => contradiction
  | cons u behind =>
    rw [List.flatMap_cons] at h
    rcases tokenImage_cases hconstants u with himage | ⟨constant, hmem, rfl⟩
    · rw [himage] at h
      obtain ⟨rfl, rfl⟩ := List.cons.inj h
      exact Or.inl ⟨behind, rfl, rfl⟩
    · obtain ⟨numeral, himage, hvalue⟩ := tokenImage_symbol hconstants hmem
      rw [himage] at h
      exact Or.inr ⟨constant, hmem, numeral, behind, rfl, hvalue, (List.cons.inj h).2.symm⟩

end Derivations

section Recovery

variable {constants : List Constant}

/-- The tokens begin with ones that the nonterminal derives, together with those in front
of them, and the image of what is behind them is `rest`. -/
def Recovers (constants : List Constant) (nonterminal : Nonterminal) (room : Nat)
    (front : List Token) (x : Float) (ts rest : List Token) : Prop :=
  ∃ before behind, ts = before ++ behind ∧ behind.flatMap (tokenImage constants) = rest ∧
    Derives constants nonterminal room (front ++ before) x

mutual
/-- Whatever has the tokens of a tree as its image has a derivation. -/
theorem Expression.recovers (hconstants : constants ⊆ all) :
    ∀ (tree : Expression) {room : Nat} {ts rest : List Token}, tree.depth ≤ room →
      ts.flatMap (tokenImage constants) = tree.tokens ++ rest →
        Recovers constants .expression room [] tree.value ts rest
  | .mk head tail, room, ts, rest, hroom, h => by
    obtain ⟨hhead, htail⟩ := Nat.max_le.mp hroom
    rw [Expression.tokens, List.append_assoc] at h
    obtain ⟨front, ahead, rfl, hahead, hfront⟩ := head.recovers hconstants hhead h
    obtain ⟨before, behind, rfl, hbehind, hderives⟩ :=
      tail.recovers hconstants htail hfront.term hahead
    exact ⟨front ++ before, behind, (List.append_assoc _ _ _).symm, hbehind, hderives⟩

theorem Sums.recovers (hconstants : constants ⊆ all) :
    ∀ (tree : Sums) {room : Nat} {front ts rest : List Token} {x : Float}, tree.depth ≤ room →
      Derives constants .expression room front x →
        ts.flatMap (tokenImage constants) = tree.tokens ++ rest →
          Recovers constants .expression room front (tree.fold x) ts rest
  | .nil, room, front, ts, rest, x, _, hfront, h =>
    ⟨[], ts, rfl, h, by rwa [List.append_nil]⟩
  | .cons sign head tail, room, front, ts, rest, x, hroom, hfront, h => by
    obtain ⟨hhead, htail⟩ := Nat.max_le.mp hroom
    rw [Sums.tokens, List.cons_append, List.append_assoc] at h
    have hsign : Token.single sign.char ≠ .single '(' := by cases sign <;> decide
    obtain ⟨operands, rfl, hoperands⟩ := eq_cons_of_flatMap hconstants hsign h
    obtain ⟨term, ahead, rfl, hahead, hterm⟩ := head.recovers hconstants hhead hoperands
    obtain ⟨before, behind, rfl, hbehind, hderives⟩ :=
      tail.recovers hconstants htail (.sum sign hfront hterm) hahead
    refine ⟨.single sign.char :: (term ++ before), behind, by simp, hbehind, ?_⟩
    rw [Sums.fold]
    simpa using hderives

theorem Term.recovers (hconstants : constants ⊆ all) :
    ∀ (tree : Term) {room : Nat} {ts rest : List Token}, tree.depth ≤ room →
      ts.flatMap (tokenImage constants) = tree.tokens ++ rest →
        Recovers constants .term room [] tree.value ts rest
  | .mk head tail, room, ts, rest, hroom, h => by
    obtain ⟨hhead, htail⟩ := Nat.max_le.mp hroom
    rw [Term.tokens, List.append_assoc] at h
    obtain ⟨front, ahead, rfl, hahead, hfront⟩ := head.recovers hconstants hhead h
    obtain ⟨before, behind, rfl, hbehind, hderives⟩ :=
      tail.recovers hconstants htail hfront.factor hahead
    exact ⟨front ++ before, behind, (List.append_assoc _ _ _).symm, hbehind, hderives⟩

theorem Products.recovers (hconstants : constants ⊆ all) :
    ∀ (tree : Products) {room : Nat} {front ts rest : List Token} {x : Float},
      tree.depth ≤ room → Derives constants .term room front x →
        ts.flatMap (tokenImage constants) = tree.tokens ++ rest →
          Recovers constants .term room front (tree.fold x) ts rest
  | .nil, room, front, ts, rest, x, _, hfront, h =>
    ⟨[], ts, rfl, h, by rwa [List.append_nil]⟩
  | .cons scaling head tail, room, front, ts, rest, x, hroom, hfront, h => by
    obtain ⟨hhead, htail⟩ := Nat.max_le.mp hroom
    rw [Products.tokens, List.cons_append, List.append_assoc] at h
    have hscaling : Token.single scaling.char ≠ .single '(' := by cases scaling <;> decide
    obtain ⟨operands, rfl, hoperands⟩ := eq_cons_of_flatMap hconstants hscaling h
    obtain ⟨factor, ahead, rfl, hahead, hfactor⟩ := head.recovers hconstants hhead hoperands
    obtain ⟨before, behind, rfl, hbehind, hderives⟩ :=
      tail.recovers hconstants htail (.product scaling hfront hfactor) hahead
    refine ⟨.single scaling.char :: (factor ++ before), behind, by simp, hbehind, ?_⟩
    rw [Products.fold]
    simpa using hderives

theorem Factor.recovers (hconstants : constants ⊆ all) :
    ∀ (tree : Factor) {room : Nat} {ts rest : List Token}, tree.depth ≤ room →
      ts.flatMap (tokenImage constants) = tree.tokens ++ rest →
        Recovers constants .factor room [] tree.value ts rest
  | .signed sign inner, room + 1, ts, rest, hroom, h => by
    have hsign : Token.single sign.char ≠ .single '(' := by cases sign <;> decide
    obtain ⟨operand, rfl, hoperand⟩ := eq_cons_of_flatMap hconstants hsign h
    obtain ⟨before, behind, rfl, hbehind, hderives⟩ :=
      inner.recovers hconstants (Nat.le_of_succ_le_succ hroom) hoperand
    exact ⟨.single sign.char :: before, behind, rfl, hbehind, .signed sign hderives⟩
  | .power inner, room + 1, ts, rest, hroom, h => by
    obtain ⟨before, behind, rfl, hbehind, hderives⟩ :=
      inner.recovers hconstants (Nat.le_of_succ_le_succ hroom) h
    exact ⟨before, behind, rfl, hbehind, hderives.power⟩

theorem Power.recovers (hconstants : constants ⊆ all) :
    ∀ (tree : Power) {room : Nat} {ts rest : List Token}, tree.depth ≤ room →
      ts.flatMap (tokenImage constants) = tree.tokens ++ rest →
        Recovers constants .power room [] tree.value ts rest
  | .plain base, room, ts, rest, hroom, h => by
    obtain ⟨before, behind, rfl, hbehind, hderives⟩ := base.recovers hconstants hroom h
    exact ⟨before, behind, rfl, hbehind, hderives.plain⟩
  | .raised base exponent, room, ts, rest, hroom, h => by
    obtain ⟨hbase, hexponent⟩ := Nat.max_le.mp hroom
    rw [Power.tokens, List.append_assoc] at h
    obtain ⟨front, ahead, rfl, hahead, hfront⟩ := base.recovers hconstants hbase h
    obtain ⟨operand, rfl, hoperand⟩ := eq_cons_of_flatMap hconstants (by decide) hahead
    obtain ⟨before, behind, rfl, hbehind, hderives⟩ :=
      exponent.recovers hconstants hexponent hoperand
    have hraised : Derives constants .power room (front ++ .single '^' :: before)
        (Float.pow base.value exponent.value) := .raised hfront hderives
    exact ⟨front ++ .single '^' :: before, behind, by simp, hbehind, hraised⟩

theorem Primary.recovers (hconstants : constants ⊆ all) :
    ∀ (tree : Primary) {room : Nat} {ts rest : List Token}, tree.depth ≤ room →
      ts.flatMap (tokenImage constants) = tree.tokens ++ rest →
        Recovers constants .primary room [] tree.value ts rest
  | .number numeral, room, ts, rest, _, h => by
    obtain ⟨behind, rfl, hbehind⟩ := eq_cons_of_flatMap hconstants (by simp) h
    exact ⟨[.run numeral.first numeral.rest], behind, rfl, hbehind, .number room numeral⟩
  | .group inner, room, ts, rest, hroom, h => by
    rw [Primary.tokens, List.cons_append, List.append_assoc] at h
    rcases open_cases hconstants h with
      ⟨inside, rfl, hinside⟩ | ⟨constant, hmem, numeral, behind, rfl, hvalue, hinside⟩
    · obtain ⟨before, ahead, rfl, hahead, hderives⟩ := inner.recovers hconstants hroom hinside
      obtain ⟨behind, rfl, hbehind⟩ := eq_cons_of_flatMap hconstants (by decide) hahead
      have hgroup : Derives constants .primary room (.single '(' :: (before ++ [.single ')']))
          inner.value := .group hderives
      exact ⟨.single '(' :: (before ++ [Token.single ')']), behind, by simp, hbehind, hgroup⟩
    · obtain ⟨hinner, rfl⟩ := Expression.eq_numeral hinside
      obtain ⟨room, rfl⟩ := Nat.exists_eq_add_of_le' (inner.depth_pos.trans_le hroom)
      refine ⟨[.single constant.symbol], behind, rfl, rfl, ?_⟩
      rw [Primary.value, hinner, hvalue]
      exact .constant room hmem
end

end Recovery

end Abacus.Grammar

namespace Abacus.Calculator

open Text Grammar Constant

/-- The constants that an expression may name. -/
def constants (calculator : Calculator) : List Constant :=
  if calculator.options.substituteConstants then Constant.all else []

section Resolution

variable (calculator : Calculator)

theorem constants_subset : calculator.constants ⊆ Constant.all := by
  rw [constants]
  split
  · exact List.Subset.refl _
  · exact List.nil_subset _

/-- The tokens that are evaluated are the images of those of the input. -/
theorem tokens_resolve (input : String) :
    tokens (calculator.resolve input) =
      (tokens input).flatMap (tokenImage calculator.constants) := by
  rw [resolve, constants]
  split
  · rw [tokens, substitute, String.toList_ofList]
    exact tokensOf_flatMap_image input.toList
  · have himage : tokenImage [] = fun t => [t] := by
      funext t
      cases t <;> rfl
    rw [himage, List.flatMap_singleton']

variable {calculator}

theorem exists_tree_of_calculate {text : String} {x : Float}
    (hallow : calculator.options.nonFinite = .allow) (h : calculator.calculate text = .ok x) :
    ∃ tree : Grammar.Expression,
      tokens (calculator.resolve (trim text)) = tree.tokens ∧
        tree.depth ≤ Expression.maxDepth ∧ tree.value = x := by
  have hne : trim text ≠ "" := by
    intro hempty
    rw [calculate, hempty] at h
    contradiction
  rw [calculate_of_allow calculator hallow hne] at h
  cases hout : Expression.evaluate (calculator.resolve (trim text)) with
  | error e => simp [hout, Except.mapError] at h
  | ok y =>
    obtain ⟨tree, hspaced, hdepth, hvalue⟩ := Expression.exists_tree_of_evaluateWithin hout
    refine ⟨tree, hspaced.tokensOf_eq tree.separated_tokens, hdepth, hvalue.trans ?_⟩
    simpa [hout, Except.mapError] using h

theorem derives_of_calculate {text : String} {x : Float}
    (hallow : calculator.options.nonFinite = .allow) (h : calculator.calculate text = .ok x) :
    Derives calculator.constants .expression Expression.maxDepth (tokens (trim text)) x := by
  obtain ⟨tree, htokens, hdepth, rfl⟩ := exists_tree_of_calculate hallow h
  rw [tokens_resolve, ← List.append_nil tree.tokens] at htokens
  obtain ⟨before, behind, hsplit, hbehind, hderives⟩ :=
    tree.recovers calculator.constants_subset hdepth htokens
  rwa [hsplit, eq_nil_of_flatMap calculator.constants_subset hbehind, List.append_nil]

theorem calculate_of_derives {text : String} {ts : List Token} {x : Float}
    (hallow : calculator.options.nonFinite = .allow) (hspaced : Spaced ts (trim text).toList)
    (h : Derives calculator.constants .expression Expression.maxDepth ts x) :
    calculator.calculate text = .ok x := by
  have hconstants := calculator.constants_subset
  have hseparated : Separated ts := h.separated fun _ hmem => standsAlone (hconstants hmem)
  obtain ⟨tree, hdepth, rfl, htree⟩ := h.spelled hconstants
  have htokens : tokens (calculator.resolve (trim text)) = tree.tokens := by
    rw [tokens_resolve, tokens, hspaced.tokensOf_eq hseparated, htree]
  have hresolved : Spaced tree.tokens (calculator.resolve (trim text)).toList := by
    rw [← htokens]
    exact spaced_tokensOf _
  rw [calculator.calculate_of_resolved hresolved hdepth]
  exact Options.check_of_allow hallow _

end Resolution

/-- Where every value is allowed, the values of a text are those that the grammar with
named constants derives from it, in at most `maxDepth` factors inside one another. Two
operands without an operator between them have no value. -/
theorem calculate_eq_ok_iff_derives (calculator : Calculator)
    (hallow : calculator.options.nonFinite = .allow) (text : String) :
    (∀ x, calculator.calculate text = .ok x ↔
      ∃ ts, Spaced ts (trim text).toList ∧
        Derives calculator.constants .expression Expression.maxDepth ts x) ∧
    ∀ before a b behind, tokens (trim text) = before ++ a :: b :: behind →
      EndsOperand a → StartsOperand b → ∀ x, calculator.calculate text ≠ .ok x := by
  refine ⟨fun x => ⟨fun h => ?_, ?_⟩, fun before a b behind htokens ha hb x h => ?_⟩
  · exact ⟨_, spaced_tokensOf _, derives_of_calculate hallow h⟩
  · rintro ⟨ts, hspaced, hderives⟩
    exact calculate_of_derives hallow hspaced hderives
  · have hchain := (derives_of_calculate hallow h).isChain
    rw [htokens, List.isChain_append_cons_cons] at hchain
    exact hchain.2.1 ⟨ha, hb⟩

theorem calculate_eq_ok_iff_derives_turn :
    let calculator : Calculator := { options := { nonFinite := .allow } }
    let two : Expression.Numeral := .ofDigit '2' (by decide)
    calculator.options.nonFinite = .allow ∧
      calculator.calculate " 2*π" = .ok (Float.mul two.literal.value Constant.pi.value) := by
  intro calculator two
  have hspaced : Spaced [.run '2' [], .single '*', .single 'π'] (trim " 2*π").toList := by
    have htokens : tokensOf (trim " 2*π").toList = [.run '2' [], .single '*', .single 'π'] := by
      decide +kernel
    rw [← htokens]
    exact spaced_tokensOf _
  have hderives : Derives calculator.constants .expression Expression.maxDepth
      [.run '2' [], .single '*', .single 'π'] (Float.mul two.literal.value Constant.pi.value) :=
    .term (.product .multiply (.factor (.power (.plain (.number 511 two))))
      (.power (.plain (.constant 510 List.mem_cons_self))))
  exact ⟨rfl, ((calculate_eq_ok_iff_derives calculator rfl " 2*π").1 _).mpr ⟨_, hspaced, hderives⟩⟩

end Abacus.Calculator
