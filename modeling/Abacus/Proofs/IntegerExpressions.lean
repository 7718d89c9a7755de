import Abacus.Proofs.Double.Exact
import Abacus.Proofs.ReadBack

/-!
Expressions over integers. The integer of a tree follows its shape, as its value
does, with the integers in place of the doubles. It exists when no part of the tree
leaves the integers up to `2 ^ 53` in absolute value, and then no operation rounds.
-/

namespace Abacus.Grammar

open Text Abacus.Expression

/-- An integer that has a double of its own, as all integers between it and zero have. -/
def small? (n : Int) : Option Int :=
  if n.natAbs ≤ 2 ^ 53 then some n else none

theorem small?_eq_some {m n : Int} (h : small? m = some n) : n = m ∧ m.natAbs ≤ 2 ^ 53 := by
  rw [small?] at h
  split at h
  · exact ⟨(Option.some.inj h).symm, ‹_›⟩
  · contradiction

namespace Sign

def combineInt : Sign → Int → Int → Int
  | plus, m, n => m + n
  | minus, m, n => m - n

def applyInt : Sign → Int → Int
  | plus, n => n
  | minus, n => -n

end Sign

/-- The integer quotient exists if there is no remainder. The remainder has the sign of
the dividend. -/
def Scaling.combineInt? : Scaling → Int → Int → Option Int
  | multiply, m, n => some (m * n)
  | divide, m, n => if n ≠ 0 ∧ n ∣ m then some (m / n) else none
  | modulo, m, n => if n ≠ 0 then some (m.tmod n) else none

/-- The integer that a run of digits writes. -/
def integerOfNumeral? (numeral : Numeral) : Option Int :=
  if (numeral.first :: numeral.rest).all Char.isDigit then
    some (Nat.ofDigitChars 10 (numeral.first :: numeral.rest) 0)
  else none

mutual
/-- The integer of a tree, if all its parts are integers up to `2 ^ 53` in absolute value. -/
def Expression.integer? : Expression → Option Int
  | .mk head tail => do tail.integerFrom? (← head.integer?)

/-- Folds the terms from the left, from the integer in front of them. -/
def Sums.integerFrom? : Sums → Int → Option Int
  | .nil, m => some m
  | .cons sign head tail, m => do
    tail.integerFrom? (← small? (sign.combineInt m (← head.integer?)))

def Term.integer? : Term → Option Int
  | .mk head tail => do tail.integerFrom? (← head.integer?)

def Products.integerFrom? : Products → Int → Option Int
  | .nil, m => some m
  | .cons scaling head tail, m => do
    tail.integerFrom? (← small? (← scaling.combineInt? m (← head.integer?)))

def Factor.integer? : Factor → Option Int
  | .signed sign inner => do small? (sign.applyInt (← inner.integer?))
  | .power inner => inner.integer?

/-- Powers are left out. -/
def Power.integer? : Power → Option Int
  | .plain base => base.integer?
  | .raised _ _ => none

def Primary.integer? : Primary → Option Int
  | .number numeral => do small? (← integerOfNumeral? numeral)
  | .group inner => inner.integer?
end

section Steps

variable {x y : Float} {m n k : Int}

theorem combine_isInteger (sign : Sign) (hx : (Double.read x).IsInteger m)
    (hy : (Double.read y).IsInteger n) (h : small? (sign.combineInt m n) = some k) :
    (Double.read (sign.combine x y)).IsInteger k := by
  obtain ⟨rfl, hk⟩ := small?_eq_some h
  cases sign
  · exact Double.add_isInteger hx hy hk
  · exact Double.sub_isInteger hx hy hk

theorem apply_isInteger (sign : Sign) (hx : (Double.read x).IsInteger m)
    (h : small? (sign.applyInt m) = some k) : (Double.read (sign.apply x)).IsInteger k := by
  obtain ⟨rfl, -⟩ := small?_eq_some h
  cases sign
  · exact hx
  · exact Double.neg_isInteger hx

theorem scale_isInteger (scaling : Scaling) (hx : (Double.read x).IsInteger m)
    (hy : (Double.read y).IsInteger n) {l : Int} (h : scaling.combineInt? m n = some l)
    (hsmall : small? l = some k) : (Double.read (scaling.combine x y)).IsInteger k := by
  obtain ⟨rfl, hl⟩ := small?_eq_some hsmall
  cases scaling with
  | multiply =>
    obtain rfl : m * n = k := Option.some.inj h
    exact Double.mul_isInteger hx hy hl
  | divide =>
    rw [Scaling.combineInt?] at h
    split at h
    · rename_i hdivisor
      obtain rfl : m / n = k := Option.some.inj h
      exact Double.div_isInteger hx hy hdivisor.1 (Int.ediv_mul_cancel hdivisor.2).symm hl
    · contradiction
  | modulo =>
    rw [Scaling.combineInt?] at h
    split at h
    · rename_i hdivisor
      obtain rfl : m.tmod n = k := Option.some.inj h
      exact Double.remainder_isInteger hx hy hdivisor hl
    · contradiction

theorem numeral_isInteger {numeral : Numeral} (h : integerOfNumeral? numeral = some m)
    (hsmall : small? m = some k) : (Double.read numeral.literal.value).IsInteger k := by
  obtain ⟨rfl, hk⟩ := small?_eq_some hsmall
  rw [integerOfNumeral?] at h
  split at h
  · rename_i hdigits
    have hliteral : numeral.literal = ⟨numeral.first :: numeral.rest, []⟩ := by
      have hrun := numeral.ofRun?_eq
      rw [Literal.ofRun?_digits (List.all_eq_true.mp hdigits) (List.cons_ne_nil _ _)] at hrun
      exact (Option.some.inj hrun).symm
    have hvalue : numeral.literal.value =
        Double.nearest false (Nat.ofDigitChars 10 (numeral.first :: numeral.rest) 0) 1 := by
      rw [hliteral, Literal.value, Literal.digits, List.append_nil]
      rfl
    obtain rfl : (Nat.ofDigitChars 10 (numeral.first :: numeral.rest) 0 : Int) = k :=
      Option.some.inj h
    rw [hvalue]
    exact Double.nearest_isInteger false Nat.one_pos (by simp) hk
  · contradiction

end Steps

mutual
/-- The double that is the value of a tree is the integer of the tree. -/
theorem Expression.value_isInteger : ∀ (tree : Expression) {n : Int}, tree.integer? = some n →
    (Double.read tree.value).IsInteger n
  | .mk head tail, n, h => by
    obtain ⟨m, hhead, htail⟩ := Option.bind_eq_some_iff.mp h
    exact tail.fold_isInteger htail (head.value_isInteger hhead)

theorem Sums.fold_isInteger : ∀ (tree : Sums) {x : Float} {m n : Int},
    tree.integerFrom? m = some n → (Double.read x).IsInteger m →
      (Double.read (tree.fold x)).IsInteger n
  | .nil, x, m, n, h, hx => by
    obtain rfl : m = n := Option.some.inj h
    exact hx
  | .cons sign head tail, x, m, n, h, hx => by
    obtain ⟨l, hhead, hrest⟩ := Option.bind_eq_some_iff.mp h
    obtain ⟨k, hsmall, htail⟩ := Option.bind_eq_some_iff.mp hrest
    exact tail.fold_isInteger htail (combine_isInteger sign hx (head.value_isInteger hhead) hsmall)

theorem Term.value_isInteger : ∀ (tree : Term) {n : Int}, tree.integer? = some n →
    (Double.read tree.value).IsInteger n
  | .mk head tail, n, h => by
    obtain ⟨m, hhead, htail⟩ := Option.bind_eq_some_iff.mp h
    exact tail.fold_isInteger htail (head.value_isInteger hhead)

theorem Products.fold_isInteger : ∀ (tree : Products) {x : Float} {m n : Int},
    tree.integerFrom? m = some n → (Double.read x).IsInteger m →
      (Double.read (tree.fold x)).IsInteger n
  | .nil, x, m, n, h, hx => by
    obtain rfl : m = n := Option.some.inj h
    exact hx
  | .cons scaling head tail, x, m, n, h, hx => by
    obtain ⟨l, hhead, hrest⟩ := Option.bind_eq_some_iff.mp h
    obtain ⟨j, hcombine, hrest⟩ := Option.bind_eq_some_iff.mp hrest
    obtain ⟨k, hsmall, htail⟩ := Option.bind_eq_some_iff.mp hrest
    exact tail.fold_isInteger htail
      (scale_isInteger scaling hx (head.value_isInteger hhead) hcombine hsmall)

theorem Factor.value_isInteger : ∀ (tree : Factor) {n : Int}, tree.integer? = some n →
    (Double.read tree.value).IsInteger n
  | .signed sign inner, n, h => by
    obtain ⟨m, hinner, hsmall⟩ := Option.bind_eq_some_iff.mp h
    exact apply_isInteger sign (inner.value_isInteger hinner) hsmall
  | .power inner, n, h => inner.value_isInteger h

theorem Power.value_isInteger : ∀ (tree : Power) {n : Int}, tree.integer? = some n →
    (Double.read tree.value).IsInteger n
  | .plain base, n, h => base.value_isInteger h
  | .raised base exponent, n, h => by contradiction

theorem Primary.value_isInteger : ∀ (tree : Primary) {n : Int}, tree.integer? = some n →
    (Double.read tree.value).IsInteger n
  | .number numeral, n, h => by
    obtain ⟨m, hdigits, hsmall⟩ := Option.bind_eq_some_iff.mp h
    exact numeral_isInteger hdigits hsmall
  | .group inner, n, h => inner.value_isInteger h
end

end Abacus.Grammar

namespace Abacus.Expression

open Text

/-- An expression over integers is evaluated without an error and without rounding, and
a calculator gives the same double under all options. -/
theorem evaluate_integer {text : String} {tree : Grammar.Expression} {n : Int}
    (hspaced : Spaced tree.tokens text.toList) (hdepth : tree.depth ≤ maxDepth)
    (hinteger : tree.integer? = some n) :
    ∃ x, evaluate text = .ok x ∧ (Double.read x).value? = some (n : ℚ) ∧
      ∀ calculator : Calculator, calculator.calculate text = .ok x := by
  have hvalue := tree.value_isInteger hinteger
  have hfinite : tree.value.isFinite = true := by
    obtain ⟨negative, m, e, k, hread, -⟩ := hvalue
    exact (Double.isFinite_iff _).mpr ⟨negative, m, e, hread⟩
  exact ⟨tree.value, evaluateWithin_of_tree hspaced hdepth, hvalue.value?_eq,
    fun calculator => calculator.calculate_of_tree hspaced hdepth hfinite⟩

/-- Subtraction is folded from the left. -/
theorem evaluate_integer_differences :
    let eight : Grammar.Term := .mk (.ofNumeral (.ofDigit '8' (by decide))) .nil
    let five : Grammar.Term := .mk (.ofNumeral (.ofDigit '5' (by decide))) .nil
    let tree : Grammar.Expression := .mk eight (.cons .minus five (.cons .minus five .nil))
    Spaced tree.tokens "8 - 5-5".toList ∧ tree.depth ≤ maxDepth ∧ tree.integer? = some (-2) ∧
      ∃ x, evaluate "8 - 5-5" = .ok x ∧ (Double.read x).value? = some ((-2 : Int) : ℚ) ∧
        ∀ calculator : Calculator, calculator.calculate "8 - 5-5" = .ok x := by
  intro eight five tree
  have hspaced : Spaced tree.tokens "8 - 5-5".toList := by
    have htokens : tokensOf "8 - 5-5".toList = tree.tokens := by decide +kernel
    rw [← htokens]
    exact spaced_tokensOf _
  have hdepth : tree.depth ≤ maxDepth := by decide
  have hinteger : tree.integer? = some (-2) := by decide +kernel
  exact ⟨hspaced, hdepth, hinteger, evaluate_integer hspaced hdepth hinteger⟩

end Abacus.Expression
