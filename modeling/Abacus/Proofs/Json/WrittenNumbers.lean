import Abacus.Json.Write
import Abacus.Proofs.Double.NearestDouble
import Abacus.Proofs.Double.Positional
import Abacus.Proofs.Json.Grammar

/-!
Numbers as they are written into JSON texts. A finite double is written as a number of the
grammar, with or without an exponent, and the number has the value of the shortest decimal of
the double. That lies in the cell of the double, so nothing but the double is nearest to it.
-/

namespace Abacus.Json

open Double Expression

/-- The power of ten behind an exponent mark, with its sign. -/
theorem exists_exponent (leading : Int) :
    ∃ k : Exponent, k.value = leading ∧
      (if leading < 0 then "e" ++ toString leading else "e+" ++ toString leading).toList =
        k.chars := by
  cases leading with
  | ofNat n =>
    have htext : (toString (Int.ofNat n)).toList = Nat.toDigits 10 n := Nat.toList_repr
    refine ⟨⟨false, some false, Nat.toDigits 10 n, Nat.toDigits_ne_nil, isDigit_toDigits n⟩, ?_, ?_⟩
    · simp [Exponent.value]
    · rw [if_neg (by simp), String.toList_append, htext]
      rfl
  | negSucc n =>
    have htext : (toString (Int.negSucc n)).toList = '-' :: Nat.toDigits 10 (n + 1) := by
      have hrepr : toString (Int.negSucc n) = "-" ++ (n + 1).repr := rfl
      rw [hrepr, String.toList_append, Nat.toList_repr]
      rfl
    refine ⟨⟨false, some true, Nat.toDigits 10 (n + 1), Nat.toDigits_ne_nil,
      isDigit_toDigits (n + 1)⟩, ?_, ?_⟩
    · simp [Exponent.value, Int.negSucc_eq]
    · rw [if_pos (Int.negSucc_lt_zero n), String.toList_append, htext]
      rfl

section Positional

variable {digits : List Char} (hdigits : ∀ c ∈ digits, c.isDigit = true)
include hdigits

/-- Digits and an exponent are written as a number with their value. -/
theorem exists_numeral_positional (hne : digits ≠ []) (negative : Bool) (exponent : Int)
    (hzero : digits.head? = some '0' → digits = ['0'] ∧ exponent = 0) :
    ∃ n : Numeral, n.negative = negative ∧
      (Style.writePositional ".0" digits exponent).toList = n.unsigned ∧
      n.magnitude = Nat.ofDigitChars 10 digits 0 * 10 ^ exponent := by
  obtain ⟨literal, hlaid⟩ := Literal.exists_positional digits exponent
  have htext := Style.toList_writePositional hlaid ".0"
  have hisDigit := hlaid.isDigit hdigits
  have hwhole := hlaid.whole_ne_nil hne
  have halone := hlaid.leading_zero hne hzero
  rw [htext, ← hlaid.quotient, Literal.quotient, Literal.digits, Literal.scale]
  obtain ⟨whole, fraction⟩ := literal
  cases fraction with
  | nil =>
    refine ⟨⟨negative, whole, ['0'], none, hwhole, ?_, halone⟩, rfl, ?_, ?_⟩
    · intro c hc
      rcases List.mem_append.mp hc with hc | hc
      · exact hisDigit c (List.mem_append_left _ hc)
      · rw [List.mem_singleton.mp hc]
        rfl
    · simp [Numeral.unsigned, Numeral.fractionChars, Numeral.exponentChars]
    · have hlast : ∀ n, Nat.ofDigitChars 10 ['0'] n = 10 * n := by simp [Nat.ofDigitChars_cons]
      have hone : (0 - (['0'].length : Int)) = -1 := rfl
      simp only [Numeral.magnitude, Option.elim_none, Nat.ofDigitChars_append, hlast, hone,
        zpow_neg_one, Nat.ofDigitChars_nil, List.length_nil, pow_zero, div_one]
      push_cast
      ring
  | cons first behind =>
    refine ⟨⟨negative, whole, first :: behind, none, hwhole, hisDigit, halone⟩, rfl, ?_, ?_⟩
    · simp [Numeral.unsigned, Numeral.fractionChars, Numeral.exponentChars]
    · simp only [Numeral.magnitude, Option.elim_none, zero_sub, zpow_neg, zpow_natCast,
        div_eq_mul_inv]

theorem exists_numeral_scientific (hne : digits ≠ []) (negative : Bool) (exponent : Int)
    (hzero : digits.head? ≠ some '0') :
    ∃ n : Numeral, n.negative = negative ∧
      (Style.writeScientific "e+" digits exponent).toList = n.unsigned ∧
      n.magnitude = Nat.ofDigitChars 10 digits 0 * 10 ^ exponent := by
  obtain ⟨k, hvalue, hchars⟩ := exists_exponent (exponent + digits.length - 1)
  obtain ⟨first, behind, rfl⟩ := List.exists_cons_of_ne_nil hne
  refine ⟨⟨negative, [first], behind, some k, by simp, by simpa using hdigits, ?_⟩, rfl, ?_, ?_⟩
  · intro hhead
    exact absurd hhead hzero
  · have hfraction : (if (first :: behind).length = 1 then ""
        else "." ++ String.ofList behind).toList = Numeral.fractionChars behind := by
      cases behind with
      | nil => rfl
      | cons second behind =>
        rw [if_neg (by simp)]
        simp [Numeral.fractionChars]
    simp only [Style.writeScientific, List.take_succ_cons, List.take_zero, List.drop_succ_cons,
      List.drop_zero, String.toList_append, hfraction, hchars, Numeral.unsigned,
      Numeral.exponentChars, String.toList_ofList, List.append_assoc]
  · have hpower : exponent + (first :: behind).length - 1 - behind.length = exponent := by
      rw [List.length_cons]
      push_cast
      ring
    simp only [Numeral.magnitude, Option.elim_some, hvalue, hpower, List.singleton_append]

end Positional

/-- What is written for a decimal is a number with the value of the decimal. -/
theorem exists_numeral_json (negative : Bool) (d : Decimal)
    (hzero : d.digits = 0 → d.exponent = 0) :
    ∃ n : Numeral, n.negative = negative ∧
      (Style.json.writeDecimal d).toList = n.unsigned ∧ n.magnitude = d.value := by
  have hdigits := isDigit_toDigits d.digits
  have hvalue : (Nat.ofDigitChars 10 (Nat.toDigits 10 d.digits) 0 * 10 ^ d.exponent : ℚ) =
      d.value := by rw [Nat.ofDigitChars_ten_toDigits, Decimal.value]
  rw [← hvalue]
  simp only [Style.writeDecimal]
  split
  · refine exists_numeral_positional hdigits Nat.toDigits_ne_nil negative d.exponent ?_
    intro hhead
    have hnone : d.digits = 0 := by
      by_contra hne
      exact head?_toDigits (Nat.pos_of_ne_zero hne) hhead
    rw [hnone]
    exact ⟨Nat.toDigits_zero 10, hzero hnone⟩
  · rename_i hpositional
    refine exists_numeral_scientific hdigits Nat.toDigits_ne_nil negative d.exponent ?_
    apply head?_toDigits
    by_contra hnone
    obtain hnone : d.digits = 0 := by omega
    rw [hnone, hzero hnone] at hpositional
    exact hpositional rfl

/-- A finite double is written as a number to which it alone is nearest. -/
theorem exists_numeral_writeFloat {x : Float} (h : x.isFinite = true) :
    ∃ n : Numeral, (writeFloat x).toList = n.chars ∧
      ∀ y, IsNearest n.negative n.magnitude y ↔ y = x := by
  obtain ⟨negative, m, e, hread⟩ := (isFinite_iff x).mp h
  obtain ⟨n, rfl, htext, hvalue⟩ :=
    exists_numeral_json negative _ (exponent_shortest Style.json.tie m e)
  refine ⟨n, ?_, fun y => ?_⟩
  · have hwrite : writeFloat x = Style.signText n.negative ++
        Style.json.writeDecimal (shortest Style.json.tie m e) := by
      simp [writeFloat, Style.write, hread, Reading.isFinite]
    rw [hwrite, String.toList_append, htext, Numeral.chars]
    cases n.negative <;> rfl
  · have hnonneg : 0 ≤ n.magnitude := by
      rw [hvalue, Decimal.value]
      positivity
    have hx : IsNearest n.negative n.magnitude x := by
      rw [hvalue]
      exact isNearest_of_cell hread (cell_shortest _ m e)
    constructor
    · exact fun hy => hy.unique hnonneg hx
    · rintro rfl
      exact hx

theorem writeFloat_of_not_finite {x : Float} (h : x.isFinite = false) :
    writeFloat x = "null" := by
  cases hread : read x with
  | notANumber => simp [writeFloat, hread, Reading.isFinite]
  | infinite negative => simp [writeFloat, hread, Reading.isFinite]
  | finite negative m e =>
    rw [(isFinite_iff x).mpr ⟨negative, m, e, hread⟩] at h
    contradiction

end Abacus.Json
