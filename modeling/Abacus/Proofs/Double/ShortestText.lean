import Mathlib.Data.List.DropRight
import Abacus.Proofs.Double.FewestDigits
import Abacus.Proofs.Double.Positional

/-!
The text of a finite double is the shortest one. It is a literal without a zero that could
be left out, and behind a minus sign if the sign bit is set. The double is the one nearest to
the literal, no decimal with fewer digits has it as its nearest double, and none with as many
digits is nearer to it. The zeros that fill the places up to the dot do not count as digits.
-/

namespace Abacus.Expression.Literal

/-- The digits between the zeros outside. -/
def significant (literal : Literal) : List Char :=
  ((literal.whole ++ literal.fraction).dropWhile (· == '0')).rdropWhile (· == '0')

/-- No zero leads the whole part unless it is all of it, and none ends the fraction. -/
structure IsCanonical (literal : Literal) : Prop where
  isDigit : ∀ c ∈ literal.whole ++ literal.fraction, c.isDigit = true
  whole_ne_nil : literal.whole ≠ []
  zero_alone : literal.whole.head? = some '0' → literal.whole = ['0']
  getLast?_fraction : literal.fraction.getLast? ≠ some '0'

theorem all_zeros (n : Nat) : ∀ c ∈ List.replicate n '0', (c == '0') = true :=
  fun _ hc => beq_iff_eq.mpr (List.eq_of_mem_replicate hc)

theorem dropWhile_zeros {digits : List Char} (hne : digits ≠ [])
    (hhead : digits.head? ≠ some '0') (n : Nat) (behind : List Char) :
    (List.replicate n '0' ++ digits ++ behind).dropWhile (· == '0') = digits ++ behind := by
  obtain ⟨first, rest, rfl⟩ := List.exists_cons_of_ne_nil hne
  have hfirst : ¬(first == '0') = true := by simpa using hhead
  rw [List.append_assoc, List.dropWhile_append_of_pos (all_zeros n), List.cons_append,
    List.dropWhile_cons, if_neg hfirst]

/-- The zeros outside are all that is left out. -/
theorem Positional.significant {digits : List Char} {exponent : Int} {literal : Literal}
    (h : Positional digits exponent literal) (hne : digits ≠ [])
    (hhead : digits.head? ≠ some '0') (hlast : digits.getLast? ≠ some '0') :
    literal.significant = digits := by
  obtain ⟨before, behind, heq⟩ := h.exists_zeros
  have hback := dropWhile_zeros (List.reverse_ne_nil_iff.mpr hne)
    (by rwa [List.head?_reverse]) behind []
  rw [Literal.significant, heq, dropWhile_zeros hne hhead, List.rdropWhile, List.reverse_append,
    List.reverse_replicate]
  rw [List.append_nil, List.append_nil] at hback
  rw [hback, List.reverse_reverse]

end Abacus.Expression.Literal

namespace Abacus.Double

open Expression

theorem Decimal.digits_trimZeros_mod (d : Decimal) (h : 0 < d.digits) :
    d.trimZeros.digits % 10 ≠ 0 := by
  fun_induction Decimal.trimZeros d with
  | case1 d hzero ih => exact ih (Nat.div_pos (by omega) (by norm_num))
  | case2 d hlast => omega

theorem digits_shortest_mod (tie : Tie) {m : Nat} (hm : 0 < m) (e : Int) :
    (shortest tie m e).digits % 10 ≠ 0 := by
  have hpos := digits_shortest_pos tie hm e
  simp only [shortest, if_neg hm.ne'] at hpos ⊢
  apply Decimal.digits_trimZeros_mod
  exact hpos.trans_le (Decimal.digits_trimZeros_le _)

theorem negative_of_read {x : Float} {negative : Bool} {m : Nat} {e : Int}
    (h : read x = .finite negative m e) : negative = true ↔ signBit ≤ x.toBits.toNat := by
  have hsign : negative = decide (signBit ≤ x.toBits.toNat) := by
    rw [read, readBits, readMagnitude] at h
    split_ifs at h <;> cases h <;> rfl
  rw [hsign, decide_eq_true_eq]

section Shortest

variable {tie : Tie} {m : Nat} {e : Int} {literal : Literal}
  (h : literal.Positional (Nat.toDigits 10 (shortest tie m e).digits) (shortest tie m e).exponent)
include h

theorem canonical_of_shortest : literal.IsCanonical := by
  refine ⟨h.isDigit (isDigit_toDigits _), h.whole_ne_nil Nat.toDigits_ne_nil,
    h.leading_zero Nat.toDigits_ne_nil fun hhead => ?_,
    h.getLast?_fraction Nat.toDigits_ne_nil fun hneg => ?_⟩
  · have hzero : (shortest tie m e).digits = 0 := by
      by_contra hne
      exact head?_toDigits (Nat.pos_of_ne_zero hne) hhead
    exact ⟨by rw [hzero, Nat.toDigits_zero], exponent_shortest tie m e hzero⟩
  · apply getLast?_toDigits
    rcases Nat.eq_zero_or_pos m with rfl | hm
    · simp [shortest] at hneg
    · exact digits_shortest_mod tie hm e

theorem significant_of_shortest (hm : 0 < m) :
    literal.significant = Nat.toDigits 10 (shortest tie m e).digits :=
  h.significant Nat.toDigits_ne_nil (head?_toDigits (digits_shortest_pos tie hm e))
    (getLast?_toDigits (digits_shortest_mod tie hm e))

end Shortest

namespace Style

theorem exists_text_of_read {x : Float} {negative : Bool} {m : Nat} {e : Int}
    (h : read x = .finite negative m e) :
    ∃ literal : Literal,
      literal.Positional (Nat.toDigits 10 (shortest display.tie m e).digits)
        (shortest display.tie m e).exponent ∧
      (display.write x).toList = (if negative then ['-'] else []) ++ literal.text := by
  obtain ⟨literal, hlaid⟩ := Literal.exists_positional
    (Nat.toDigits 10 (shortest display.tie m e).digits) (shortest display.tie m e).exponent
  refine ⟨literal, hlaid, ?_⟩
  rw [write, h]
  simp only
  rw [String.toList_append, toList_display hlaid]
  cases negative <;> rfl

/-- A finite double is displayed with a minus sign if its sign bit is set, and then a literal
without an exponent and without needless zeros. The double is the one nearest to the text, and
unless it is zero there is no decimal with fewer digits of which this holds, nor one that has
as many digits and is nearer to the double. -/
theorem display_shortest {x : Float} (hx : x.isFinite = true) :
    ∃ (negative : Bool) (m : Nat) (e : Int) (literal : Literal),
      read x = .finite negative m e ∧
      (negative = true ↔ signBit ≤ x.toBits.toNat) ∧
      (display.write x).toList = (if negative then ['-'] else []) ++ literal.text ∧
      literal.IsCanonical ∧
      (∀ y, IsNearest negative literal.quotient y ↔ y = x) ∧
      (m ≠ 0 → ∀ (sign : Bool) (n d : Nat) (k : Int), d < 10 ^ n →
        IsNearest sign (d * 10 ^ k) x →
          sign = negative ∧ literal.significant.length ≤ n ∧
          (n = literal.significant.length →
            |literal.quotient - m * 2 ^ e| ≤ |(d * 10 ^ k : ℚ) - m * 2 ^ e|)) := by
  obtain ⟨negative, m, e, hread⟩ := (isFinite_iff x).mp hx
  obtain ⟨literal, hlaid, htext⟩ := exists_text_of_read hread
  have hquotient := quotient_of_positional hlaid
  refine ⟨negative, m, e, literal, hread, negative_of_read hread, htext,
    canonical_of_shortest hlaid, fun y => ?_, fun hm sign n d k hd hnearest => ?_⟩
  · have hnearest : IsNearest negative literal.quotient x := by
      rw [hquotient]
      exact isNearest_of_cell hread (cell_shortest _ m e)
    have hnonneg : 0 ≤ literal.quotient := by
      rw [Literal.quotient]
      positivity
    constructor
    · exact fun hy => hy.unique hnonneg hnearest
    · rintro rfl
      exact hnearest
  · have hm := Nat.pos_of_ne_zero hm
    obtain ⟨hsign, hcell⟩ := hnearest.cell (by positivity) hread
    rw [significant_of_shortest hlaid hm, hquotient]
    exact ⟨hsign, shortest_fewest _ hm hd hcell⟩

/-- The double nearest to `-0.3` is displayed with one digit. -/
theorem display_shortest_three_tenths :
    (assemble true 4599075939470750515).isFinite = true ∧ ∃ literal : Literal,
      (display.write (assemble true 4599075939470750515)).toList = '-' :: literal.text ∧
      literal.IsCanonical ∧ literal.significant.length ≤ 1 := by
  have hfinite : (assemble true 4599075939470750515).isFinite = true := by decide +kernel
  have hthreeTenths : read (assemble true 4599075939470750515) =
      .finite true 5404319552844595 (-54) := by decide +kernel
  obtain ⟨negative, m, e, literal, hread, -, htext, hcanonical, -, hfewest⟩ :=
    display_shortest hfinite
  rw [hthreeTenths] at hread
  cases hread
  have hcell : Cell 5404319552844595 (-54) ((3 : Nat) * 10 ^ (-1 : Int)) := by
    rw [Cell, lowerGap, if_neg (by decide)]
    norm_num
  obtain ⟨-, hlength, -⟩ := hfewest (by decide) true 1 3 (-1) (by norm_num)
    (isNearest_of_cell hthreeTenths hcell)
  exact ⟨hfinite, literal, htext, hcanonical, hlength⟩

end Style

end Abacus.Double
