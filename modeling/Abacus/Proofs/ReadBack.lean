import Abacus.Proofs.Calculation
import Abacus.Proofs.Derivation
import Abacus.Proofs.Double.Positional

/-!
Displayed values are read back. The text of a finite double is a numeral, with a
minus sign in front of it for a set sign bit, and the numeral lies in the cell of
the double. The names of the other values are no expressions.
-/

namespace Abacus.Expression

open Double

theorem Literal.value_of_cell {literal : Literal} {m : Nat} {e : Int} (hm : Canonical m e)
    (h : Cell m e literal.quotient) : literal.value = assemble false (magnitudeOf m e) := by
  rw [Literal.value]
  apply nearest_of_cell false hm (Nat.pow_pos (by decide))
  push_cast
  exact h

/-- A finite double is displayed as its sign and a numeral of its magnitude. -/
theorem exists_numeral_of_read {x : Float} {negative : Bool} {m : Nat} {e : Int}
    (h : read x = .finite negative m e) :
    ∃ numeral : Numeral,
      Style.display.write x =
        Style.signText negative ++ String.ofList (numeral.first :: numeral.rest) ∧
      numeral.literal.value = assemble false (magnitudeOf m e) := by
  obtain ⟨literal, hrun, hquotient⟩ :=
    Style.exists_literal_display (shortest Style.display.tie m e)
  have hcell : Cell m e literal.quotient := by
    rw [hquotient]
    exact cell_shortest _ m e
  have hnumeral :
      IsNumeral (Style.display.writeDecimal (shortest Style.display.tie m e)).toList := by
    rw [← isSome_ofRun?_iff, hrun]
    rfl
  cases hchars : (Style.display.writeDecimal (shortest Style.display.tie m e)).toList with
  | nil =>
    obtain ⟨-, ⟨c, hc, -⟩, -⟩ := hnumeral
    rw [hchars] at hc
    contradiction
  | cons first rest =>
    rw [hchars] at hnumeral hrun
    refine ⟨⟨first, rest, hnumeral⟩, ?_, ?_⟩
    · rw [Style.write, h, ← hchars, String.ofList_toList]
    · have hliteral : Numeral.literal ⟨first, rest, hnumeral⟩ = literal :=
        Option.some.inj ((Numeral.ofRun?_eq ⟨first, rest, hnumeral⟩).symm.trans hrun)
      rw [hliteral]
      exact Literal.value_of_cell (canonical_of_read h) hcell

/-- The numeral of one digit. -/
def Numeral.ofDigit (c : Char) (h : c.isDigit = true) : Numeral where
  first := c
  rest := []
  isNumeral := (isNumeral_digits_iff (by simpa using h)).mpr (List.cons_ne_nil c [])

end Abacus.Expression

namespace Abacus.Grammar

open Text Abacus.Expression

def Factor.ofNumeral (numeral : Numeral) : Factor :=
  .power (.plain (.number numeral))

def Factor.ofSigned (negative : Bool) (numeral : Numeral) : Factor :=
  if negative then .signed .minus (.ofNumeral numeral) else .ofNumeral numeral

def Expression.ofFactor (factor : Factor) : Expression :=
  .mk (.mk factor .nil) .nil

namespace Expression

variable (factor : Factor)

@[simp]
theorem tokens_ofFactor : (ofFactor factor).tokens = factor.tokens := by
  simp [ofFactor, Expression.tokens, Term.tokens, Sums.tokens, Products.tokens]

@[simp]
theorem depth_ofFactor : (ofFactor factor).depth = factor.depth := by
  simp [ofFactor, Expression.depth, Term.depth, Sums.depth, Products.depth]

@[simp]
theorem value_ofFactor : (ofFactor factor).value = factor.value := rfl

end Expression

namespace Factor

variable (numeral : Numeral)

theorem depth_ofSigned_le (negative : Bool) : (ofSigned negative numeral).depth ≤ 2 := by
  cases negative
  · exact Nat.le_succ 1
  · exact Nat.le_refl 2

/-- The tokens of a signed numeral, written without a space. -/
theorem spaced_ofSigned (negative : Bool) :
    Spaced (ofSigned negative numeral).tokens
      (Double.Style.signText negative ++ String.ofList (numeral.first :: numeral.rest)).toList := by
  rw [String.toList_append, String.toList_ofList]
  have hnumeral : Spaced [.run numeral.first numeral.rest] (numeral.first :: numeral.rest) := by
    have h := (Spaced.nil 0).token (.run numeral.first numeral.rest)
    simpa [Token.chars] using h
  cases negative
  · exact hnumeral
  · exact hnumeral.token (.single '-')

end Factor

end Abacus.Grammar

namespace Abacus.Expression

open Double Text

/-- The text of a finite double spells a tree that has this double as its value. It is
a literal, with at most a sign in front. -/
theorem exists_signed_tree_of_read {x : Float} {negative : Bool} {m : Nat} {e : Int}
    (h : read x = .finite negative m e) :
    ∃ tree : Grammar.Expression, Spaced tree.tokens (Style.display.write x).toList ∧
      tree.depth ≤ 2 ∧ tree.value = x := by
  obtain ⟨numeral, htext, hnumeral⟩ := exists_numeral_of_read h
  refine ⟨.ofFactor (.ofSigned negative numeral), ?_, ?_, ?_⟩
  · rw [htext, Grammar.Expression.tokens_ofFactor]
    exact Grammar.Factor.spaced_ofSigned numeral negative
  · rw [Grammar.Expression.depth_ofFactor]
    exact Grammar.Factor.depth_ofSigned_le numeral negative
  · rw [Grammar.Expression.value_ofFactor, eq_assemble_of_read h]
    cases negative
    · exact hnumeral
    · calc -numeral.literal.value
        _ = -assemble false (magnitudeOf m e) := by rw [hnumeral]
        _ = assemble true (magnitudeOf m e) := (canonical_of_read h).neg_assemble false

theorem exists_tree_of_read {x : Float} {negative : Bool} {m : Nat} {e : Int}
    (h : read x = .finite negative m e) :
    ∃ tree : Grammar.Expression, Spaced tree.tokens (Style.display.write x).toList ∧
      tree.depth ≤ maxDepth ∧ tree.value = x := by
  obtain ⟨tree, hspaced, hdepth, hvalue⟩ := exists_signed_tree_of_read h
  exact ⟨tree, hspaced, hdepth.trans (by decide), hvalue⟩

theorem evaluate_display_of_not_finite {x : Float} (h : x.isFinite = false) :
    ∃ e, evaluate (Style.display.write x) = .error e := by
  rw [Style.write]
  cases hread : read x with
  | notANumber => exact ⟨⟨.unexpectedCharacter 'N', 0, some 'N'⟩, rfl⟩
  | infinite negative =>
    cases negative
    · exact ⟨⟨.unexpectedCharacter 'I', 0, some 'I'⟩, rfl⟩
    · exact ⟨⟨.unexpectedCharacter 'I', 1, some 'I'⟩, rfl⟩
  | finite negative m e =>
    rw [(isFinite_iff x).mpr ⟨negative, m, e, hread⟩] at h
    contradiction

/-- Every finite double is read back from its text, under all options, and the text
of any other double is no expression. -/
theorem display_reads_back (x : Float) :
    if x.isFinite then
      evaluate (Style.display.write x) = .ok x ∧
        ∀ calculator : Calculator, calculator.calculate (Style.display.write x) = .ok x
    else
      ∃ e, evaluate (Style.display.write x) = .error e := by
  split
  · rename_i hfinite
    obtain ⟨negative, m, e, hread⟩ := (isFinite_iff x).mp hfinite
    obtain ⟨tree, hspaced, hdepth, hvalue⟩ := exists_tree_of_read hread
    subst hvalue
    exact ⟨evaluateWithin_of_tree hspaced hdepth,
      fun calculator => calculator.calculate_of_tree hspaced hdepth hfinite⟩
  · rename_i hfinite
    exact evaluate_display_of_not_finite (Bool.not_eq_true _ ▸ hfinite)

end Abacus.Expression
