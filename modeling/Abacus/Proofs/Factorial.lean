import Mathlib.Data.Nat.Factorial.Basic
import Abacus.Proofs.Calculation
import Abacus.Proofs.Double.Comparison
import Abacus.Proofs.SharedRegistries

/-!
The factorial function. The product of words is the word of the factorial for every
number, and up to twenty no partial product leaves the words. The odd part of these
factorials has at most 53 bits, so that their doubles are exact. What is no integer up
to twenty is refused: numbers below zero first, numbers above twenty next, and then
fractions and what is no number.
-/

namespace Abacus

open Double

namespace Double

section Integers

variable {a k n : Nat}

/-- A short integer times a power of two has a double. -/
theorem exists_canonical (ha : 0 < a) (hle : a ≤ 2 ^ 53) (hk : k ≤ 970) :
    ∃ m e, Canonical m e ∧ (m * 2 ^ e : ℚ) = (a * 2 ^ k : Nat) := by
  obtain ⟨m, e, hw⟩ := exists_whole hle
  obtain ⟨hlow, hhigh, hleast, hmost⟩ := hw.normal ha
  refine ⟨m, e + k, ⟨hhigh, by omega, by omega, Or.inl hlow⟩, ?_⟩
  rw [two_zpow_add, ← mul_assoc, hw.value]
  push_cast
  rfl

theorem value?_ofInt (ha : 0 < a) (hle : a ≤ 2 ^ 53) (hk : k ≤ 970) (h : n = a * 2 ^ k) :
    (read (ofInt n)).value? = some (n : ℚ) := by
  obtain ⟨m, e, hm, hvalue⟩ := exists_canonical ha hle hk
  rw [← h] at hvalue
  have hcell : Cell m e ((n : ℚ) / (1 : Nat)) := by
    rw [Nat.cast_one, div_one, ← hvalue]
    exact cell_self m e
  have hsign : decide ((n : Int) < 0) = false := decide_eq_false (by omega)
  rw [ofInt, hsign, Int.natAbs_natCast, nearest_of_cell false hm Nat.one_pos hcell,
    hm.read_assemble]
  simp [Reading.value?, hvalue]

end Integers

end Double

namespace Function

variable {n : Nat}

/-- A mantissa and an exponent are a natural number when nothing is left behind the point. -/
theorem natural?_eq_some_iff {m : Nat} {e : Int} :
    natural? m e = some n ↔ (m * 2 ^ e : ℚ) = n := by
  rw [natural?]
  by_cases he : 0 ≤ e
  · obtain ⟨k, rfl⟩ := Int.eq_ofNat_of_zero_le he
    rw [if_pos he, Int.toNat_natCast, Nat.pow_eq, Option.some_inj, zpow_natCast]
    exact_mod_cast Iff.rfl
  · obtain ⟨k, hk⟩ := Int.eq_ofNat_of_zero_le (show 0 ≤ -e by omega)
    obtain rfl : e = -(k : Int) := by omega
    have hpos : 0 < 2 ^ k := Nat.two_pow_pos k
    have hscaled : (m * 2 ^ (-(k : Int)) : ℚ) = n ↔ m = n * 2 ^ k := by
      rw [zpow_neg, zpow_natCast, ← div_eq_mul_inv, div_eq_iff (by positivity)]
      exact_mod_cast Iff.rfl
    rw [if_neg he, hk, Int.toNat_natCast, Nat.pow_eq, hscaled]
    by_cases hmod : m % 2 ^ k = 0
    · rw [if_pos hmod, Option.some_inj,
        Nat.div_eq_iff_eq_mul_left hpos (Nat.dvd_of_mod_eq_zero hmod)]
    · rw [if_neg hmod]
      constructor
      · intro h
        contradiction
      · rintro rfl
        exact absurd (Nat.mul_mod_left n (2 ^ k)) hmod

/-- Words wrap around, and so does their product. -/
theorem factorialOf_eq (n : Nat) : factorialOf n = Int64.ofNat n.factorial := by
  induction n with
  | zero => rfl
  | succ n ih =>
    rw [factorialOf, ih, Nat.factorial_succ, Nat.mul_comm, Int64.ofNat_mul]
    rfl

theorem factorial_lt (h : n ≤ 20) : n.factorial < 2 ^ 63 :=
  calc n.factorial
    _ ≤ Nat.factorial 20 := Nat.factorial_le h
    _ < 2 ^ 63 := by decide

theorem toInt_factorialOf (h : n ≤ 20) : (factorialOf n).toInt = n.factorial := by
  rw [factorialOf_eq, Int64.toInt_ofNat_of_lt (factorial_lt h)]

/-- No partial product on the way to the factorial of `n` overflows. -/
def StaysInWords (n : Nat) : Prop :=
  ∀ k < n, BitVec.smulOverflow (factorialOf k).toBitVec (Int64.ofNat (k + 1)).toBitVec = false

theorem staysInWords (h : n ≤ 20) : StaysInWords n := by
  intro k hk
  have hleft : (factorialOf k).toBitVec.toInt = k.factorial := toInt_factorialOf (by omega)
  have hright : (Int64.ofNat (k + 1)).toBitVec.toInt = (k + 1 : Nat) :=
    Int64.toInt_ofNat_of_lt (by omega)
  have hproduct : (k.factorial : Int) * (k + 1 : Nat) = (k + 1).factorial := by
    rw [Nat.factorial_succ, Nat.mul_comm, Int.natCast_mul]
  have hlt : (k + 1).factorial < 2 ^ 63 := factorial_lt (by omega)
  rw [BitVec.smulOverflow, hleft, hright, hproduct]
  simp only [Bool.or_eq_false_iff, decide_eq_false_iff_not]
  omega

/-- Up to twenty, a factorial is a short integer times a power of two. -/
theorem exists_short (h : n ≤ 20) :
    ∃ a k, 0 < a ∧ a ≤ 2 ^ 53 ∧ k ≤ 970 ∧ n.factorial = a * 2 ^ k := by
  by_cases hshort : n ≤ 18
  · have hle : n.factorial ≤ Nat.factorial 18 := Nat.factorial_le hshort
    refine ⟨n.factorial, 0, n.factorial_pos, hle.trans (by decide), by omega, by omega⟩
  · obtain rfl | rfl : n = 19 ∨ n = 20 := by omega
    · exact ⟨Nat.factorial 19 / 2 ^ 16, 16, by decide, by decide, by omega, by decide⟩
    · exact ⟨Nat.factorial 20 / 2 ^ 16, 16, by decide, by decide, by omega, by decide⟩

/-- The factorial takes no rounding. -/
theorem value?_factorial (h : n ≤ 20) :
    (read (ofInt (factorialOf n).toInt)).value? = some (n.factorial : ℚ) := by
  obtain ⟨a, k, ha, hle, hk, hsplit⟩ := exists_short h
  rw [toInt_factorialOf h]
  exact value?_ofInt ha hle hk hsplit

/-- The double is an integer from zero to twenty. -/
def HasFactorial (x : Float) : Prop :=
  ∃ n : Nat, n ≤ 20 ∧ (read x).value? = some (n : ℚ)

/-- The second double is the factorial of the first, and the words have held it. -/
def IsFactorial (x y : Float) : Prop :=
  ∃ n : Nat, n ≤ 20 ∧ (read x).value? = some (n : ℚ) ∧ StaysInWords n ∧
    (factorialOf n).toInt = n.factorial ∧ (read y).value? = some (n.factorial : ℚ)

section Value

variable {x y : Float}

theorem IsFactorial.hasFactorial (h : IsFactorial x y) : HasFactorial x := by
  obtain ⟨n, hn, hvalue, -⟩ := h
  exact ⟨n, hn, hvalue⟩

theorem isFactorial_iff (hn : n ≤ 20) (h : (read x).value? = some (n : ℚ)) :
    IsFactorial x y ↔ y = ofInt (factorialOf n).toInt := by
  have hfactorial := value?_factorial hn
  constructor
  · rintro ⟨k, -, hk, -, -, hy⟩
    obtain rfl : n = k := by
      rw [h] at hk
      exact_mod_cast Option.some.inj hk
    exact eq_of_value? (Nat.cast_ne_zero.mpr n.factorial_ne_zero) hy hfactorial
  · rintro rfl
    exact ⟨n, hn, h, staysInWords hn, toInt_factorialOf hn, hfactorial⟩

theorem lt_zero_iff : x < 0 ↔ (read x).IsBelow 0 := by
  have hzero : read 0 = .finite false 0 (-1074) := rfl
  apply lt_iff_isBelow
  simp [hzero, Reading.value?]

theorem gt_maxFactorial_iff :
    x > nearest false maxFactorial 1 ↔ (read x).IsAbove 20 := by
  apply lt_iff_isAbove
  have htwenty : ((maxFactorial : Nat) / (1 : Nat) : ℚ) = (20 : Nat) := by norm_num [maxFactorial]
  exact (nearest_isInteger false Nat.one_pos htwenty (by norm_num)).value?_eq

theorem magnitude_eq {negative : Bool} {m : Nat} {e : Int} {v : ℚ}
    (h : (Reading.finite negative m e).value? = some v) (hv : 0 ≤ v) : (m * 2 ^ e : ℚ) = v := by
  have hpos : (0 : ℚ) ≤ m * 2 ^ e := by positivity
  cases negative with
  | false =>
    have heq : 1 * (m * 2 ^ e : ℚ) = v := Option.some.inj h
    linarith
  | true =>
    have heq : -1 * (m * 2 ^ e : ℚ) = v := Option.some.inj h
    linarith

theorem factorialValue_of_isBelow (h : (read x).IsBelow 0) :
    factorialValue x = .error (.domain "factorial of negative number") := by
  rw [factorialValue, if_pos (lt_zero_iff.mpr h)]

theorem factorialValue_of_isAbove (h : (read x).IsAbove 20) :
    factorialValue x = .error (.domain "value too large for factorial") := by
  have hbelow : ¬(read x).IsBelow 0 := fun hbelow => hbelow.not_isAbove (by norm_num) h
  rw [factorialValue, if_neg (mt lt_zero_iff.mp hbelow), if_pos (gt_maxFactorial_iff.mpr h)]

theorem HasFactorial.between (h : HasFactorial x) :
    ¬(read x).IsBelow 0 ∧ ¬(read x).IsAbove 20 := by
  obtain ⟨n, hn, hvalue⟩ := h
  have hle : (n : ℚ) ≤ 20 := by exact_mod_cast hn
  rw [Reading.isBelow_iff_lt hvalue, Reading.isAbove_iff_lt hvalue]
  exact ⟨(Nat.cast_nonneg n).not_gt, hle.not_gt⟩

theorem factorialValue_of_value? (hn : n ≤ 20) (h : (read x).value? = some (n : ℚ)) :
    factorialValue x = .ok (ofInt (factorialOf n).toInt) := by
  obtain ⟨hbelow, habove⟩ := HasFactorial.between ⟨n, hn, h⟩
  rw [factorialValue, if_neg (mt lt_zero_iff.mp hbelow), if_neg (mt gt_maxFactorial_iff.mp habove)]
  cases hread : read x with
  | notANumber | infinite negative => simp [hread, Reading.value?] at h
  | finite negative m e =>
    rw [hread] at h
    simp only [natural?_eq_some_iff.mpr (magnitude_eq h (Nat.cast_nonneg n))]

theorem factorialValue_of_not_integer (hbelow : ¬(read x).IsBelow 0)
    (habove : ¬(read x).IsAbove 20) (hnone : ¬HasFactorial x) :
    factorialValue x = .error (.domain "factorial requires an integer") := by
  rw [factorialValue, if_neg (mt lt_zero_iff.mp hbelow), if_neg (mt gt_maxFactorial_iff.mp habove)]
  cases hread : read x with
  | notANumber | infinite negative => rfl
  | finite negative m e =>
    rw [hread] at hbelow habove
    cases hnatural : natural? m e with
    | none => simp only [hnatural]
    | some n =>
      obtain ⟨v, hv⟩ : ∃ v, (Reading.finite negative m e).value? = some v := ⟨_, rfl⟩
      rw [Reading.isBelow_iff_lt hv, not_lt] at hbelow
      rw [Reading.isAbove_iff_lt hv, not_lt] at habove
      obtain rfl : (n : ℚ) = v :=
        (natural?_eq_some_iff.mp hnatural).symm.trans (magnitude_eq hv hbelow)
      exact absurd ⟨n, by exact_mod_cast habove, hread ▸ hv⟩ hnone

/-- What becomes of a double. -/
theorem factorialValue_cases (x : Float) :
    (read x).IsBelow 0 ∧ factorialValue x = .error (.domain "factorial of negative number") ∨
      (read x).IsAbove 20 ∧
        factorialValue x = .error (.domain "value too large for factorial") ∨
      HasFactorial x ∧ (∃ y, factorialValue x = .ok y ∧ ∀ z, IsFactorial x z ↔ z = y) ∨
      (¬(read x).IsBelow 0 ∧ ¬(read x).IsAbove 20 ∧ ¬HasFactorial x) ∧
        factorialValue x = .error (.domain "factorial requires an integer") := by
  by_cases hbelow : (read x).IsBelow 0
  · exact Or.inl ⟨hbelow, factorialValue_of_isBelow hbelow⟩
  by_cases habove : (read x).IsAbove 20
  · exact Or.inr (Or.inl ⟨habove, factorialValue_of_isAbove habove⟩)
  by_cases hinteger : HasFactorial x
  · obtain ⟨n, hn, hvalue⟩ := hinteger
    exact Or.inr (Or.inr (Or.inl ⟨⟨n, hn, hvalue⟩, _, factorialValue_of_value? hn hvalue,
      fun z => isFactorial_iff hn hvalue⟩))
  · exact Or.inr (Or.inr (Or.inr ⟨⟨hbelow, habove, hinteger⟩,
      factorialValue_of_not_integer hbelow habove hinteger⟩))

end Value

theorem get?_factorial :
    Registry.builtins.get? "factorial" = some ⟨"factorial", fun _ x => factorialValue x⟩ := by
  apply (Registry.get?_ofHistory_eq_some_iff builtins _ _).mpr
  refine ⟨rfl, builtins.take 9, builtins.drop 10, rfl, ?_⟩
  simp [builtins, trigonometric]

end Function

namespace Calculator

/-- A factorial is finite, so that the policy lets it pass. -/
theorem apply_factorial_eq (options : Options) (x : Float) :
    Calculator.apply { options := options } "factorial" x = Function.factorialValue x := by
  simp only [apply, Function.get?_factorial, applyFunction]
  rcases Function.factorialValue_cases x with
    ⟨-, heq⟩ | ⟨-, heq⟩ | ⟨-, y, heq, hfactorial⟩ | ⟨-, heq⟩
  · rw [heq]
    rfl
  · rw [heq]
    rfl
  · obtain ⟨n, -, -, -, -, hvalue⟩ := (hfactorial y).mpr rfl
    rw [heq]
    exact options.check_of_finite (isFinite_of_value? hvalue)
  · rw [heq]
    rfl

/-- A double has a factorial exactly if it is an integer from zero to twenty, and then no
product overflows and nothing is rounded. Any other double is refused: below zero, above
twenty or, a NaN included, as no integer. -/
theorem apply_factorial (options : Options) (x : Float) :
    let outcome := Calculator.apply { options := options } "factorial" x
    ((∃ y, outcome = .ok y) ↔ Function.HasFactorial x) ∧
    (∀ y, outcome = .ok y ↔ Function.IsFactorial x y) ∧
    (outcome = .error (.domain "factorial of negative number") ↔ (read x).IsBelow 0) ∧
    (outcome = .error (.domain "value too large for factorial") ↔ (read x).IsAbove 20) ∧
    (outcome = .error (.domain "factorial requires an integer") ↔
      ¬(read x).IsBelow 0 ∧ ¬(read x).IsAbove 20 ∧ ¬Function.HasFactorial x) ∧
    outcome ≠ .error .overflow ∧ outcome ≠ .error .notANumber := by
  intro outcome
  have houtcome : outcome = Function.factorialValue x := apply_factorial_eq options x
  have hnone : ¬Function.HasFactorial x → ∀ y, ¬Function.IsFactorial x y :=
    fun hinteger y hy => hinteger hy.hasFactorial
  rcases Function.factorialValue_cases x with
    ⟨hbelow, heq⟩ | ⟨habove, heq⟩ | ⟨hinteger, y, heq, hy⟩ | ⟨⟨hbelow, habove, hinteger⟩, heq⟩
  · have habove := hbelow.not_isAbove (show (0 : ℚ) ≤ 20 by norm_num)
    have hinteger : ¬Function.HasFactorial x := fun hinteger => hinteger.between.1 hbelow
    simp [houtcome, heq, hbelow, habove, hinteger, hnone hinteger]
  · have hbelow : ¬(read x).IsBelow 0 :=
      fun hbelow => hbelow.not_isAbove (show (0 : ℚ) ≤ 20 by norm_num) habove
    have hinteger : ¬Function.HasFactorial x := fun hinteger => hinteger.between.2 habove
    simp [houtcome, heq, hbelow, habove, hinteger, hnone hinteger]
  · obtain ⟨hbelow, habove⟩ := hinteger.between
    simp [houtcome, heq, hbelow, habove, hinteger, hy, eq_comm]
  · simp [houtcome, heq, hbelow, habove, hinteger, hnone hinteger]

end Calculator

end Abacus
