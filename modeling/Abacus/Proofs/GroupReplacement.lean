import Abacus.Proofs.ReadBack
import Abacus.Proofs.Shape

/-!
Groups inside a tree. A group stands between the tokens in front of its parentheses
and those behind them, and its own factor has a place in the chain of factors around
it. Another expression of the same value may be put between the parentheses: the
tree keeps its value and becomes deeper only as far as the new expression is deeper.
So a group may be replaced by its value as it is displayed, if there is room for a
literal and a sign.
-/

namespace Abacus.Grammar

open Text

mutual
/-- The tree has a group of `inner` between the tokens `before` and `behind`. The
factor that the group is stands inside `n - 1` other factors of the tree. -/
inductive Expression.HasGroup : Expression → Nat → List Token → Expression → List Token → Prop
  | head {head : Term} {n : Nat} {before behind : List Token} {inner : Expression}
      (h : Term.HasGroup head n before inner behind) (tail : Sums) :
      Expression.HasGroup (.mk head tail) n before inner (behind ++ tail.tokens)
  | tail {tail : Sums} {n : Nat} {before behind : List Token} {inner : Expression}
      (head : Term) (h : Sums.HasGroup tail n before inner behind) :
      Expression.HasGroup (.mk head tail) n (head.tokens ++ before) inner behind

inductive Sums.HasGroup : Sums → Nat → List Token → Expression → List Token → Prop
  | head {head : Term} {n : Nat} {before behind : List Token} {inner : Expression}
      (sign : Sign) (h : Term.HasGroup head n before inner behind) (tail : Sums) :
      Sums.HasGroup (.cons sign head tail) n (.single sign.char :: before) inner
        (behind ++ tail.tokens)
  | tail {tail : Sums} {n : Nat} {before behind : List Token} {inner : Expression}
      (sign : Sign) (head : Term) (h : Sums.HasGroup tail n before inner behind) :
      Sums.HasGroup (.cons sign head tail) n (.single sign.char :: (head.tokens ++ before))
        inner behind

inductive Term.HasGroup : Term → Nat → List Token → Expression → List Token → Prop
  | head {head : Factor} {n : Nat} {before behind : List Token} {inner : Expression}
      (h : Factor.HasGroup head n before inner behind) (tail : Products) :
      Term.HasGroup (.mk head tail) n before inner (behind ++ tail.tokens)
  | tail {tail : Products} {n : Nat} {before behind : List Token} {inner : Expression}
      (head : Factor) (h : Products.HasGroup tail n before inner behind) :
      Term.HasGroup (.mk head tail) n (head.tokens ++ before) inner behind

inductive Products.HasGroup : Products → Nat → List Token → Expression → List Token → Prop
  | head {head : Factor} {n : Nat} {before behind : List Token} {inner : Expression}
      (scaling : Scaling) (h : Factor.HasGroup head n before inner behind) (tail : Products) :
      Products.HasGroup (.cons scaling head tail) n (.single scaling.char :: before) inner
        (behind ++ tail.tokens)
  | tail {tail : Products} {n : Nat} {before behind : List Token} {inner : Expression}
      (scaling : Scaling) (head : Factor) (h : Products.HasGroup tail n before inner behind) :
      Products.HasGroup (.cons scaling head tail) n
        (.single scaling.char :: (head.tokens ++ before)) inner behind

inductive Factor.HasGroup : Factor → Nat → List Token → Expression → List Token → Prop
  | signed {factor : Factor} {n : Nat} {before behind : List Token} {inner : Expression}
      (sign : Sign) (h : Factor.HasGroup factor n before inner behind) :
      Factor.HasGroup (.signed sign factor) (n + 1) (.single sign.char :: before) inner behind
  | power {power : Power} {n : Nat} {before behind : List Token} {inner : Expression}
      (h : Power.HasGroup power n before inner behind) :
      Factor.HasGroup (.power power) (n + 1) before inner behind

inductive Power.HasGroup : Power → Nat → List Token → Expression → List Token → Prop
  | plain {base : Primary} {n : Nat} {before behind : List Token} {inner : Expression}
      (h : Primary.HasGroup base n before inner behind) :
      Power.HasGroup (.plain base) n before inner behind
  | base {base : Primary} {n : Nat} {before behind : List Token} {inner : Expression}
      (h : Primary.HasGroup base n before inner behind) (exponent : Factor) :
      Power.HasGroup (.raised base exponent) n before inner
        (behind ++ .single '^' :: exponent.tokens)
  | exponent {exponent : Factor} {n : Nat} {before behind : List Token} {inner : Expression}
      (base : Primary) (h : Factor.HasGroup exponent n before inner behind) :
      Power.HasGroup (.raised base exponent) n (base.tokens ++ [.single '^'] ++ before)
        inner behind

inductive Primary.HasGroup : Primary → Nat → List Token → Expression → List Token → Prop
  | here (inner : Expression) : Primary.HasGroup (.group inner) 0 [] inner []
  | group {expression : Expression} {n : Nat} {before behind : List Token} {inner : Expression}
      (h : Expression.HasGroup expression n before inner behind) :
      Primary.HasGroup (.group expression) n (.single '(' :: before) inner
        (behind ++ [.single ')'])
end

/-- What a tree becomes when `other` is put into its group of `inner`. -/
structure Fills {Tree Value : Type} (tokens : Tree → List Token) (value : Tree → Value)
    (depth : Tree → Nat) (tree : Tree) (n : Nat) (before : List Token) (inner : Expression)
    (behind : List Token) (fill : Expression → Tree) : Prop where
  fill_inner : fill inner = tree
  tokens_fill : ∀ other, tokens (fill other) =
    before ++ .single '(' :: (other.tokens ++ .single ')' :: behind)
  value_fill : ∀ other, other.value = inner.value → value (fill other) = value tree
  depth_fill_le : ∀ other, depth (fill other) ≤ max (depth tree) (n + other.depth)
  depth_inner_le : n + inner.depth ≤ depth tree

section Fills

variable {Tree Tree' Value Value' : Type} {tokens : Tree → List Token} {value : Tree → Value}
  {depth : Tree → Nat} {tokens' : Tree' → List Token} {value' : Tree' → Value'}
  {depth' : Tree' → Nat} {tree : Tree} {n : Nat} {before behind : List Token}
  {inner : Expression} {fill : Expression → Tree}

/-- A tree in which another one stands is filled where the other one is. -/
theorem Fills.inside (h : Fills tokens value depth tree n before inner behind fill)
    (wrap : Tree → Tree') (front back : List Token) (k : Nat) {d : Nat}
    (htokens : ∀ t, tokens' (wrap t) = front ++ (tokens t ++ back))
    (hvalue : ∀ t t', value t = value t' → value' (wrap t) = value' (wrap t'))
    (hdepth : ∀ t, depth' (wrap t) = max (depth t + k) d) :
    Fills tokens' value' depth' (wrap tree) (n + k) (front ++ before) inner (behind ++ back)
      (fun other => wrap (fill other)) where
  fill_inner := by rw [h.fill_inner]
  tokens_fill := by
    intro other
    rw [htokens, h.tokens_fill]
    simp only [List.append_assoc, List.cons_append]
  value_fill := by
    intro other hother
    exact hvalue _ _ (h.value_fill other hother)
  depth_fill_le := by
    intro other
    have hfill := h.depth_fill_le other
    rw [hdepth, hdepth]
    omega
  depth_inner_le := by
    have hinner := h.depth_inner_le
    rw [hdepth]
    omega

/-- So is a tree that the other one ends. -/
theorem Fills.atEnd (h : Fills tokens value depth tree n before inner behind fill)
    (wrap : Tree → Tree') (front : List Token) (k : Nat) {d : Nat}
    (htokens : ∀ t, tokens' (wrap t) = front ++ tokens t)
    (hvalue : ∀ t t', value t = value t' → value' (wrap t) = value' (wrap t'))
    (hdepth : ∀ t, depth' (wrap t) = max (depth t + k) d) :
    Fills tokens' value' depth' (wrap tree) (n + k) (front ++ before) inner behind
      (fun other => wrap (fill other)) := by
  have hfront : ∀ t, tokens' (wrap t) = front ++ (tokens t ++ []) := by
    simpa using htokens
  have hinside : Fills tokens' value' depth' (wrap tree) (n + k) (front ++ before) inner
      (behind ++ []) (fun other => wrap (fill other)) :=
    h.inside wrap front [] k hfront hvalue hdepth
  rwa [List.append_nil] at hinside

end Fills

mutual
/-- Every group of a tree may be filled anew. -/
theorem Expression.exists_fills : ∀ {tree : Expression} {n : Nat} {before behind : List Token}
    {inner : Expression}, tree.HasGroup n before inner behind →
      ∃ fill, Fills Expression.tokens Expression.value Expression.depth tree n before inner
        behind fill
  | _, _, _, _, _, .head h tail => by
    obtain ⟨fill, hfill⟩ := Term.exists_fills h
    refine ⟨_, hfill.inside (Expression.mk · tail) [] tail.tokens 0 (fun _ => rfl) ?_
      fun _ => rfl⟩
    intro t t' ht
    simp only [Expression.value, ht]
  | _, _, _, _, _, .tail head h => by
    obtain ⟨fill, hfill⟩ := Sums.exists_fills h
    refine ⟨_, hfill.atEnd (Expression.mk head ·) head.tokens 0 (fun _ => rfl) ?_
      fun _ => Nat.max_comm _ _⟩
    intro t t' ht
    simp only [Expression.value, ht]

theorem Sums.exists_fills : ∀ {tree : Sums} {n : Nat} {before behind : List Token}
    {inner : Expression}, tree.HasGroup n before inner behind →
      ∃ fill, Fills Sums.tokens Sums.fold Sums.depth tree n before inner behind fill
  | _, _, _, _, _, .head sign h tail => by
    obtain ⟨fill, hfill⟩ := Term.exists_fills h
    refine ⟨_, hfill.inside (Sums.cons sign · tail) [.single sign.char] tail.tokens 0
      (fun _ => rfl) ?_ fun _ => rfl⟩
    intro t t' ht
    funext x
    simp only [Sums.fold, ht]
  | _, _, _, _, _, .tail sign head h => by
    obtain ⟨fill, hfill⟩ := Sums.exists_fills h
    refine ⟨_, hfill.atEnd (Sums.cons sign head ·) (.single sign.char :: head.tokens) 0
      (fun _ => rfl) ?_ fun _ => Nat.max_comm _ _⟩
    intro t t' ht
    funext x
    simp only [Sums.fold, ht]

theorem Term.exists_fills : ∀ {tree : Term} {n : Nat} {before behind : List Token}
    {inner : Expression}, tree.HasGroup n before inner behind →
      ∃ fill, Fills Term.tokens Term.value Term.depth tree n before inner behind fill
  | _, _, _, _, _, .head h tail => by
    obtain ⟨fill, hfill⟩ := Factor.exists_fills h
    refine ⟨_, hfill.inside (Term.mk · tail) [] tail.tokens 0 (fun _ => rfl) ?_ fun _ => rfl⟩
    intro t t' ht
    simp only [Term.value, ht]
  | _, _, _, _, _, .tail head h => by
    obtain ⟨fill, hfill⟩ := Products.exists_fills h
    refine ⟨_, hfill.atEnd (Term.mk head ·) head.tokens 0 (fun _ => rfl) ?_
      fun _ => Nat.max_comm _ _⟩
    intro t t' ht
    simp only [Term.value, ht]

theorem Products.exists_fills : ∀ {tree : Products} {n : Nat} {before behind : List Token}
    {inner : Expression}, tree.HasGroup n before inner behind →
      ∃ fill, Fills Products.tokens Products.fold Products.depth tree n before inner behind fill
  | _, _, _, _, _, .head scaling h tail => by
    obtain ⟨fill, hfill⟩ := Factor.exists_fills h
    refine ⟨_, hfill.inside (Products.cons scaling · tail) [.single scaling.char] tail.tokens 0
      (fun _ => rfl) ?_ fun _ => rfl⟩
    intro t t' ht
    funext x
    simp only [Products.fold, ht]
  | _, _, _, _, _, .tail scaling head h => by
    obtain ⟨fill, hfill⟩ := Products.exists_fills h
    refine ⟨_, hfill.atEnd (Products.cons scaling head ·) (.single scaling.char :: head.tokens) 0
      (fun _ => rfl) ?_ fun _ => Nat.max_comm _ _⟩
    intro t t' ht
    funext x
    simp only [Products.fold, ht]

theorem Factor.exists_fills : ∀ {tree : Factor} {n : Nat} {before behind : List Token}
    {inner : Expression}, tree.HasGroup n before inner behind →
      ∃ fill, Fills Factor.tokens Factor.value Factor.depth tree n before inner behind fill
  | _, _, _, _, _, .signed sign h => by
    obtain ⟨fill, hfill⟩ := Factor.exists_fills h
    refine ⟨_, hfill.atEnd (Factor.signed sign ·) [.single sign.char] 1 (fun _ => rfl) ?_
      fun _ => (Nat.max_zero _).symm⟩
    intro t t' ht
    simp only [Factor.value, ht]
  | _, _, _, _, _, .power h => by
    obtain ⟨fill, hfill⟩ := Power.exists_fills h
    refine ⟨_, hfill.atEnd Factor.power [] 1 (fun _ => rfl) ?_ fun _ => (Nat.max_zero _).symm⟩
    intro t t' ht
    simp only [Factor.value, ht]

theorem Power.exists_fills : ∀ {tree : Power} {n : Nat} {before behind : List Token}
    {inner : Expression}, tree.HasGroup n before inner behind →
      ∃ fill, Fills Power.tokens Power.value Power.depth tree n before inner behind fill
  | _, _, _, _, _, .plain h => by
    obtain ⟨fill, hfill⟩ := Primary.exists_fills h
    refine ⟨_, hfill.atEnd Power.plain [] 0 (fun _ => rfl) ?_ fun _ => (Nat.max_zero _).symm⟩
    intro t t' ht
    simp only [Power.value, ht]
  | _, _, _, _, _, .base h exponent => by
    obtain ⟨fill, hfill⟩ := Primary.exists_fills h
    refine ⟨_, hfill.inside (Power.raised · exponent) [] (.single '^' :: exponent.tokens) 0
      (fun _ => rfl) ?_ fun _ => rfl⟩
    intro t t' ht
    simp only [Power.value, ht]
  | _, _, _, _, _, .exponent base h => by
    obtain ⟨fill, hfill⟩ := Factor.exists_fills h
    refine ⟨_, hfill.atEnd (Power.raised base ·) (base.tokens ++ [.single '^']) 0 ?_ ?_
      fun _ => Nat.max_comm _ _⟩
    · intro t
      rw [Power.tokens, List.append_assoc, List.singleton_append]
    · intro t t' ht
      simp only [Power.value, ht]

theorem Primary.exists_fills : ∀ {tree : Primary} {n : Nat} {before behind : List Token}
    {inner : Expression}, tree.HasGroup n before inner behind →
      ∃ fill, Fills Primary.tokens Primary.value Primary.depth tree n before inner behind fill
  | _, _, _, _, _, .here inner => by
    refine ⟨.group, rfl, fun _ => rfl, fun _ h => h, fun other => ?_, ?_⟩
    · rw [Nat.zero_add]
      exact Nat.le_max_right _ _
    · exact Nat.le_of_eq (Nat.zero_add _)
  | _, _, _, _, _, .group h => by
    obtain ⟨fill, hfill⟩ := Expression.exists_fills h
    refine ⟨_, hfill.inside Primary.group [.single '('] [.single ')'] 0 (fun _ => rfl) ?_
      fun _ => (Nat.max_zero _).symm⟩
    intro t t' ht
    simp only [Primary.value, ht]
end

end Abacus.Grammar

namespace Abacus.Expression

open Text Double

/-- The parentheses around `a` are a group of the parse of the text. The factor that the
group is stands inside `n - 1` other factors. -/
def IsGroup (n : Nat) (l a r : String) : Prop :=
  ∃ tree inner : Grammar.Expression,
    Spaced tree.tokens (l ++ "(" ++ a ++ ")" ++ r).toList ∧ tree.depth ≤ maxDepth ∧
      tree.HasGroup n (tokens l) inner (tokens r)

theorem tokens_group (l a r : String) :
    tokens (l ++ "(" ++ a ++ ")" ++ r) =
      tokens l ++ .single '(' :: (tokens a ++ .single ')' :: tokens r) := by
  have hclose := Automaton.tokens_operator (c := ')') (by decide) (l ++ "(" ++ a) r
  have hopen := Automaton.tokens_operator (c := '(') (by decide) l a
  calc tokens (l ++ "(" ++ a ++ ")" ++ r)
    _ = tokens (l ++ "(" ++ a) ++ .single ')' :: tokens r := hclose
    _ = tokens l ++ .single '(' :: tokens a ++ .single ')' :: tokens r := by
      rw [← hopen]
      rfl
    _ = tokens l ++ .single '(' :: (tokens a ++ .single ')' :: tokens r) := by
      rw [List.append_assoc, List.cons_append]

section Texts

variable {tree inner : Grammar.Expression} {n : Nat} {l r : String}
  {fill : Grammar.Expression → Grammar.Expression}

/-- A text that spells what is put into a group makes the text of the filled tree. -/
theorem spaced_fill
    (h : Grammar.Fills Grammar.Expression.tokens Grammar.Expression.value
      Grammar.Expression.depth tree n (tokens l) inner (tokens r) fill)
    {other : Grammar.Expression} {b : String} (hspaced : Spaced other.tokens b.toList) :
    Spaced (fill other).tokens (l ++ "(" ++ b ++ ")" ++ r).toList := by
  have hother : tokens b = other.tokens := hspaced.tokensOf_eq other.separated_tokens
  rw [h.tokens_fill, ← hother, ← tokens_group]
  exact spaced_tokensOf _

/-- The text between the parentheses of a group spells what stands in the group. -/
theorem spaced_inner
    (h : Grammar.Fills Grammar.Expression.tokens Grammar.Expression.value
      Grammar.Expression.depth tree n (tokens l) inner (tokens r) fill)
    {a : String} (hspaced : Spaced tree.tokens (l ++ "(" ++ a ++ ")" ++ r).toList) :
    Spaced inner.tokens a.toList := by
  have htokens : tree.tokens = tokens (l ++ "(" ++ a ++ ")" ++ r) :=
    (hspaced.tokensOf_eq tree.separated_tokens).symm
  rw [← h.fill_inner, h.tokens_fill, tokens_group] at htokens
  have hbehind := List.append_cancel_left htokens
  rw [List.cons.injEq] at hbehind
  have hinner : inner.tokens = tokens a := List.append_cancel_right hbehind.2
  rw [hinner]
  exact spaced_tokensOf a.toList

end Texts

/-- A group that is replaced by its value as it is displayed leaves the value of the whole
text as it was, if two more factors may be open inside the group. -/
theorem evaluate_display_in_group {n : Nat} {l a r : String} {u v : Float}
    (hgroup : IsGroup n l a r) (hn : n + 2 ≤ maxDepth)
    (hv : evaluate (l ++ "(" ++ a ++ ")" ++ r) = .ok v) (hu : evaluate a = .ok u)
    (hfinite : u.isFinite = true) :
    evaluate (l ++ "(" ++ Style.display.write u ++ ")" ++ r) = .ok v := by
  obtain ⟨tree, inner, hspaced, hdepth, hhas⟩ := hgroup
  obtain ⟨fill, hfill⟩ := Grammar.Expression.exists_fills hhas
  have hvalue : tree.value = v := by
    have htree : evaluate (l ++ "(" ++ a ++ ")" ++ r) = .ok tree.value :=
      evaluateWithin_of_tree hspaced hdepth
    exact Except.ok.inj (htree.symm.trans hv)
  have hinner : inner.value = u := by
    have hle := hfill.depth_inner_le
    have halone : evaluate a = .ok inner.value :=
      evaluateWithin_of_tree (spaced_inner hfill hspaced) (by omega)
    exact Except.ok.inj (halone.symm.trans hu)
  obtain ⟨negative, m, e, hread⟩ := (isFinite_iff u).mp hfinite
  obtain ⟨shown, hshown, hsmall, hshownValue⟩ := exists_signed_tree_of_read hread
  have hfilled : (fill shown).value = v := by
    rw [hfill.value_fill shown (hshownValue.trans hinner.symm), hvalue]
  have hle := hfill.depth_fill_le shown
  rw [← hfilled]
  exact evaluateWithin_of_tree (spaced_fill hfill hshown) (by omega)

/-- The group is an exponent behind a sign, and its value is shown with a sign. -/
theorem evaluate_display_in_exponent :
    let digit (c : Char) (h : c.isDigit = true) : Grammar.Primary := .number (.ofDigit c h)
    let four : Grammar.Term := .mk (.power (.plain (digit '4' (by decide)))) .nil
    let one : Grammar.Term := .mk (.power (.plain (digit '1' (by decide)))) .nil
    let inner : Grammar.Expression := .mk one (.cons .minus four .nil)
    let exponent : Grammar.Factor := .signed .minus (.power (.plain (.group inner)))
    let tree : Grammar.Expression :=
      .ofFactor (.power (.raised (digit '2' (by decide)) exponent))
    IsGroup 3 "2^ -" "1 - 4" " " ∧ 3 + 2 ≤ maxDepth ∧
      evaluate ("2^ -" ++ "(" ++ "1 - 4" ++ ")" ++ " ") = .ok tree.value ∧
      evaluate "1 - 4" = .ok inner.value ∧ inner.value.isFinite = true ∧
      evaluate ("2^ -" ++ "(" ++ Style.display.write inner.value ++ ")" ++ " ") =
        .ok tree.value := by
  intro digit four one inner exponent tree
  have hspaced : Spaced tree.tokens ("2^ -" ++ "(" ++ "1 - 4" ++ ")" ++ " ").toList := by
    have htokens : tokensOf ("2^ -" ++ "(" ++ "1 - 4" ++ ")" ++ " ").toList = tree.tokens := by
      decide +kernel
    rw [← htokens]
    exact spaced_tokensOf _
  have hinner : Spaced inner.tokens "1 - 4".toList := by
    have htokens : tokensOf "1 - 4".toList = inner.tokens := by decide +kernel
    rw [← htokens]
    exact spaced_tokensOf _
  have hdepth : tree.depth ≤ maxDepth := by decide
  have hgroup : IsGroup 3 "2^ -" "1 - 4" " " := by
    refine ⟨tree, inner, hspaced, hdepth, ?_⟩
    have hbefore : tokens "2^ -" = [.run '2' []] ++ [.single '^'] ++ [.single '-'] := by
      decide +kernel
    have hbehind : tokens " " = [] := by decide +kernel
    rw [hbefore, hbehind]
    exact .head (.head (.power (.exponent _ (.signed .minus (.power (.plain (.here inner))))))
      .nil) .nil
  have hn : 3 + 2 ≤ maxDepth := by decide
  have hv : evaluate ("2^ -" ++ "(" ++ "1 - 4" ++ ")" ++ " ") = .ok tree.value :=
    evaluateWithin_of_tree hspaced hdepth
  have hu : evaluate "1 - 4" = .ok inner.value := evaluateWithin_of_tree hinner (by decide)
  have hfinite : inner.value.isFinite = true := by decide +kernel
  exact ⟨hgroup, hn, hv, hu, hfinite, evaluate_display_in_group hgroup hn hv hu hfinite⟩

end Abacus.Expression
