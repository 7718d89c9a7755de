import Mathlib.Data.List.TakeWhile
import Abacus.Double.Style
import Abacus.Expression.Literal
import Abacus.Proofs.Double.ShortestInCell

/-!
Decimals written without an exponent. What is written is a literal, and the
literal stands for the same number as the decimal: the digits keep their places
on both sides of the dot, and zeros fill the places between the dot and them.
The layout of the digits is a relation with one constructor for each place of
the dot, and what holds of a literal laid out so is shown by its cases.
-/

namespace Abacus.Double

section Digits

variable {n : Nat}

theorem isDigit_toDigits (n : Nat) : ∀ c ∈ Nat.toDigits 10 n, c.isDigit = true :=
  fun _ hc => Nat.isDigit_of_mem_toDigits (by decide) (by decide) hc

theorem head?_toDigits (hn : 0 < n) : (Nat.toDigits 10 n).head? ≠ some '0' := by
  induction n using Nat.strong_induction_on with
  | _ n ih =>
    rw [Nat.toDigits_eq_if (by norm_num)]
    split
    · rename_i hlt
      revert hn
      interval_cases n <;> decide
    · rename_i hge
      rw [List.head?_append_of_ne_nil _ Nat.toDigits_ne_nil]
      exact ih (n / 10) (by omega) (by omega)

theorem getLast?_toDigits (hn : n % 10 ≠ 0) : (Nat.toDigits 10 n).getLast? ≠ some '0' := by
  have hlast : (Nat.toDigits 10 n).getLast? = some (Nat.digitChar (n % 10)) := by
    rw [Nat.toDigits_eq_if (by norm_num)]
    split
    · rename_i hlt
      rw [Nat.mod_eq_of_lt hlt]
      rfl
    · exact List.getLast?_concat
  have hlt := Nat.mod_lt n (show 0 < 10 by norm_num)
  rw [hlast]
  generalize n % 10 = last at *
  revert hn
  interval_cases last <;> decide

end Digits

end Abacus.Double

namespace Abacus.Expression.Literal

/-- The number that the literal writes, before any rounding. -/
def quotient (literal : Literal) : ℚ :=
  literal.digits / 10 ^ literal.scale

theorem ofRun?_digits {whole : List Char} (hwhole : ∀ c ∈ whole, c.isDigit = true)
    (hne : whole ≠ []) : ofRun? whole = some ⟨whole, []⟩ := by
  have htake : whole.takeWhile Char.isDigit = whole := List.takeWhile_eq_self_iff.mpr hwhole
  have hdrop : whole.dropWhile Char.isDigit = [] := List.dropWhile_eq_nil_iff.mpr hwhole
  simp [ofRun?, ofParts?, htake, hdrop, hne]

theorem ofRun?_dot {whole fraction : List Char} (hwhole : ∀ c ∈ whole, c.isDigit = true)
    (hfraction : ∀ c ∈ fraction, c.isDigit = true) (hne : whole ≠ []) :
    ofRun? (whole ++ '.' :: fraction) = some ⟨whole, fraction⟩ := by
  have htake : (whole ++ '.' :: fraction).takeWhile Char.isDigit = whole := by
    rw [List.takeWhile_append_of_pos hwhole, List.takeWhile_cons_of_neg (by decide),
      List.append_nil]
  have hdrop : (whole ++ '.' :: fraction).dropWhile Char.isDigit = '.' :: fraction := by
    rw [List.dropWhile_append_of_pos hwhole, List.dropWhile_cons_of_neg (by decide)]
  simp only [ofRun?, htake, hdrop, ofParts?]
  rw [if_pos]
  simp [hne, List.all_eq_true.mpr hfraction]

/-- The literal as it is written, with a dot if something is behind it. -/
def text (literal : Literal) : List Char :=
  if literal.fraction = [] then literal.whole else literal.whole ++ '.' :: literal.fraction

theorem ofRun?_text {literal : Literal} (hne : literal.whole ≠ [])
    (hdigits : ∀ c ∈ literal.whole ++ literal.fraction, c.isDigit = true) :
    ofRun? literal.text = some literal := by
  obtain ⟨whole, fraction⟩ := literal
  have hwhole := fun c hc => hdigits c (List.mem_append_left _ hc)
  rw [text]
  split
  · rename_i hnone
    obtain rfl : fraction = [] := hnone
    exact ofRun?_digits hwhole hne
  · exact ofRun?_dot hwhole (fun c hc => hdigits c (List.mem_append_right _ hc)) hne

/-- The literal `literal` has the digits `digits` with their last place at the power of ten
`exponent`. -/
inductive Positional (digits : List Char) : Int → Literal → Prop where
  | whole (n : Nat) : Positional digits n ⟨digits ++ List.replicate n '0', []⟩
  | between {n : Nat} (hpos : 0 < n) (hlt : n < digits.length) :
      Positional digits (-n)
        ⟨digits.take (digits.length - n), digits.drop (digits.length - n)⟩
  | behind {n : Nat} (hpos : 0 < n) (hle : digits.length ≤ n) :
      Positional digits (-n) ⟨['0'], List.replicate (n - digits.length) '0' ++ digits⟩

theorem exists_positional (digits : List Char) (exponent : Int) :
    ∃ literal, Positional digits exponent literal := by
  rcases le_or_gt 0 exponent with h | h
  · obtain ⟨n, rfl⟩ := Int.eq_ofNat_of_zero_le h
    exact ⟨_, .whole n⟩
  · obtain ⟨n, hn⟩ := Int.eq_ofNat_of_zero_le (show 0 ≤ -exponent by omega)
    obtain rfl : exponent = -(n : Int) := by omega
    rcases Nat.lt_or_ge n digits.length with hlt | hle
    · exact ⟨_, .between (by omega) hlt⟩
    · exact ⟨_, .behind (by omega) hle⟩

section Positional

variable {digits : List Char} {exponent : Int} {literal : Literal}

theorem isDigit_of_mem_zeros {c : Char} {n : Nat} (h : c ∈ List.replicate n '0') :
    c.isDigit = true := by
  rw [List.eq_of_mem_replicate h]
  rfl

/-- Nothing but zeros is added to the digits. -/
theorem Positional.exists_zeros (h : Positional digits exponent literal) :
    ∃ before behind : Nat, literal.whole ++ literal.fraction =
      List.replicate before '0' ++ digits ++ List.replicate behind '0' := by
  cases h with
  | whole n => exact ⟨0, n, by simp⟩
  | between hpos hlt => exact ⟨0, 0, by simp⟩
  | @behind n hpos hle => exact ⟨n - digits.length + 1, 0, by simp [List.replicate_succ]⟩

theorem Positional.isDigit (h : Positional digits exponent literal)
    (hdigits : ∀ c ∈ digits, c.isDigit = true) :
    ∀ c ∈ literal.whole ++ literal.fraction, c.isDigit = true := by
  obtain ⟨before, behind, heq⟩ := h.exists_zeros
  intro c hc
  rw [heq, List.mem_append, List.mem_append] at hc
  rcases hc with (hc | hc) | hc
  · exact isDigit_of_mem_zeros hc
  · exact hdigits c hc
  · exact isDigit_of_mem_zeros hc

theorem Positional.whole_ne_nil (h : Positional digits exponent literal) (hne : digits ≠ []) :
    literal.whole ≠ [] := by
  cases h with
  | whole n => simp [hne]
  | between hpos hlt =>
    apply List.ne_nil_of_length_pos
    rw [List.length_take]
    omega
  | behind hpos hle => simp

/-- A zero leads the whole part only if it is all of it. -/
theorem Positional.leading_zero (h : Positional digits exponent literal) (hne : digits ≠ [])
    (hzero : digits.head? = some '0' → digits = ['0'] ∧ exponent = 0) :
    literal.whole.head? = some '0' → literal.whole = ['0'] := by
  intro hhead
  cases h with
  | whole n =>
    rw [List.head?_append_of_ne_nil _ hne] at hhead
    obtain ⟨rfl, hn⟩ := hzero hhead
    obtain rfl : n = 0 := by omega
    rfl
  | between hpos hlt =>
    rw [List.head?_take, if_neg (by omega)] at hhead
    have := (hzero hhead).2
    omega
  | behind hpos hle => rfl

/-- The last place behind the dot is that of the last digit. -/
theorem Positional.getLast?_fraction (h : Positional digits exponent literal) (hne : digits ≠ [])
    (hlast : exponent < 0 → digits.getLast? ≠ some '0') :
    literal.fraction.getLast? ≠ some '0' := by
  cases h with
  | whole n => simp
  | between hpos hlt =>
    rw [List.getLast?_drop, if_neg (by omega)]
    exact hlast (by omega)
  | behind hpos hle =>
    rw [List.getLast?_append_of_ne_nil _ hne]
    exact hlast (by omega)

/-- The literal stands for the digits at their places. -/
theorem Positional.quotient (h : Positional digits exponent literal) :
    literal.quotient = Nat.ofDigitChars 10 digits 0 * 10 ^ exponent := by
  cases h with
  | whole n =>
    simp [Literal.quotient, Literal.digits, Literal.scale, Nat.ofDigitChars_append,
      Nat.ofDigitChars_replicate_zero, mul_comm]
  | @between n hpos hlt =>
    have hscale : (digits.drop (digits.length - n)).length = n := by
      rw [List.length_drop]
      omega
    rw [Literal.quotient, Literal.digits, Literal.scale, List.take_append_drop, hscale, zpow_neg,
      zpow_natCast, div_eq_mul_inv]
  | @behind n hpos hle =>
    have hscale : (List.replicate (n - digits.length) '0' ++ digits).length = n := by
      rw [List.length_append, List.length_replicate]
      omega
    rw [Literal.quotient, Literal.digits, Literal.scale, hscale, zpow_neg, zpow_natCast,
      div_eq_mul_inv, Nat.ofDigitChars_append, Nat.ofDigitChars_append,
      Nat.ofDigitChars_replicate_zero, show Nat.ofDigitChars 10 ['0'] 0 = 0 from rfl, mul_zero]

end Positional

end Abacus.Expression.Literal

namespace Abacus.Double.Style

open Expression

/-- What is written is the literal, and a whole number has the ending behind it. -/
theorem toList_writePositional {digits : List Char} {exponent : Int} {literal : Literal}
    (h : literal.Positional digits exponent) (ending : String) :
    (writePositional ending digits exponent).toList =
      literal.whole ++
        if literal.fraction = [] then ending.toList else '.' :: literal.fraction := by
  simp only [writePositional]
  cases h with
  | whole n => simp [zeros]
  | @between n hpos hlt =>
    have hwhole : (-(n : Int) + digits.length - 1).toNat + 1 = digits.length - n := by omega
    have hfraction : digits.drop (digits.length - n) ≠ [] := by
      apply List.ne_nil_of_length_pos
      rw [List.length_drop]
      omega
    rw [if_neg (by omega), if_pos (by omega), hwhole, if_neg hfraction]
    simp
  | @behind n hpos hle =>
    have hzeros : (-(-(n : Int) + digits.length - 1) - 1).toNat = n - digits.length := by omega
    have hfraction : List.replicate (n - digits.length) '0' ++ digits ≠ [] := by
      apply List.ne_nil_of_length_pos
      rw [List.length_append, List.length_replicate]
      omega
    rw [if_neg (by omega), if_neg (by omega), hzeros, if_neg hfraction]
    simp [zeros]

theorem quotient_of_positional {d : Decimal} {literal : Literal}
    (h : literal.Positional (Nat.toDigits 10 d.digits) d.exponent) :
    literal.quotient = d.value := by
  rw [h.quotient, Nat.ofDigitChars_ten_toDigits, Decimal.value]

theorem toList_display {d : Decimal} {literal : Literal}
    (h : literal.Positional (Nat.toDigits 10 d.digits) d.exponent) :
    (display.writeDecimal d).toList = literal.text := by
  have hwrite : display.writeDecimal d = writePositional "" (Nat.toDigits 10 d.digits) d.exponent :=
    rfl
  rw [hwrite, toList_writePositional h, Literal.text]
  split <;> simp

/-- What is displayed for a decimal is a literal with the value of the decimal. -/
theorem exists_literal_display (d : Decimal) :
    ∃ literal, Literal.ofRun? (display.writeDecimal d).toList = some literal ∧
      literal.quotient = d.value := by
  obtain ⟨literal, hpos⟩ := Literal.exists_positional (Nat.toDigits 10 d.digits) d.exponent
  refine ⟨literal, ?_, quotient_of_positional hpos⟩
  rw [toList_display hpos]
  exact Literal.ofRun?_text (hpos.whole_ne_nil Nat.toDigits_ne_nil)
    (hpos.isDigit (isDigit_toDigits d.digits))

end Abacus.Double.Style
