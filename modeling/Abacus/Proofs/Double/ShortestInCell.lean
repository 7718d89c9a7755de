import Abacus.Double.Shortest
import Abacus.Proofs.Double.Rounding

/-!
The shortest decimal of a double lies in the cell of the double. The interval that
is searched is the cell in units of a power of ten; whatever point the search
takes holds, and leaving out zeros at the end changes nothing.
-/

namespace Abacus.Double

def Decimal.value (d : Decimal) : ℚ :=
  d.digits * 10 ^ d.exponent

theorem Decimal.value_trimZeros (d : Decimal) : d.trimZeros.value = d.value := by
  fun_induction Decimal.trimZeros d with
  | case1 d h ih =>
    have hdigits : (d.digits : ℚ) = 10 * (d.digits / 10 : Nat) := by
      exact_mod_cast (show d.digits = 10 * (d.digits / 10) by omega)
    rw [ih, Decimal.value, Decimal.value, zpow_add_one₀ (by norm_num), hdigits]
    ring
  | case2 d h => rfl

namespace Interval

section Search

variable (i : Interval) (tie : Tie)

theorem holds_of_pick? {grid k : Nat} (h : i.pick? tie grid = some k) :
    i.holds (k * grid) = true := by
  simp only [pick?] at h
  split at h
  · rename_i hbelow habove
    repeat' split at h
    all_goals
      obtain rfl := Option.some.inj h
      assumption
  · rename_i hbelow _
    obtain rfl := Option.some.inj h
    exact hbelow
  · rename_i _ habove
    obtain rfl := Option.some.inj h
    exact habove
  · contradiction

/-- What the search finds is a point of the interval, counted in units. -/
theorem exists_holds_search (hcenter : i.holds i.center = true) (j : Nat) :
    ∃ n, i.holds n = true ∧ (i.search tie j).value = n * 10 ^ i.unitExponent := by
  induction j with
  | zero => exact ⟨i.center, hcenter, rfl⟩
  | succ j ih =>
    rw [search]
    split
    · rename_i k hk
      refine ⟨k * Nat.pow 10 (j + 1), i.holds_of_pick? tie hk, ?_⟩
      rw [Decimal.value, zpow_add₀ (by norm_num), zpow_natCast, Nat.pow_eq]
      push_cast
      ring
    · exact ih

end Search

section Cell

variable {m : Nat} {e : Int}

/-- The factor by which `ofMantissa` scales a mantissa to units. -/
def step (e : Int) : Nat :=
  if 0 ≤ e then Nat.pow 2 e.toNat else Nat.pow 5 (-e).toNat

theorem step_pos (e : Int) : 0 < step e := by
  rw [step]
  split <;> exact Nat.pow_pos (by norm_num)

theorem step_mul_unit (e : Int) : (step e : ℚ) * 10 ^ min e 0 = 2 ^ e := by
  rw [step]
  split
  · rename_i he
    obtain ⟨n, rfl⟩ := Int.eq_ofNat_of_zero_le he
    rw [min_eq_right he, Int.toNat_natCast, Nat.pow_eq]
    simp
  · rename_i he
    obtain ⟨n, hn⟩ := Int.eq_ofNat_of_zero_le (show 0 ≤ -e by omega)
    obtain rfl : e = -(n : Int) := by omega
    rw [min_eq_left (by omega), neg_neg, Int.toNat_natCast, Nat.pow_eq, zpow_neg, zpow_neg,
      zpow_natCast, zpow_natCast, show (10 : ℚ) = 5 * 2 by norm_num, mul_pow]
    push_cast
    field_simp

theorem ofMantissa_eq (m : Nat) (e : Int) :
    ofMantissa m e = { center := m * step e
                       low := (4 * m - lowerGap m e) * step e
                       high := (4 * m + 2) * step e
                       closed := m % 2 = 0
                       unitExponent := min e 0 } := rfl

/-- The points of the interval are those of the cell, counted in units. -/
theorem holds_iff_cell (hm : 0 < m) {n : Nat} :
    (ofMantissa m e).holds n = true ↔ Cell m e (n * 10 ^ (ofMantissa m e).unitExponent) := by
  have hunit : (0 : ℚ) < 10 ^ min e 0 := by positivity
  have hgap : lowerGap m e ≤ 4 * m := by
    have := lowerGap_le m e
    omega
  have hlow : (((4 * m - lowerGap m e) * step e : Nat) : ℚ) =
      4 * ((m - lowerGap m e / 4) * step e) := by
    rw [Nat.cast_mul, Nat.cast_sub hgap]
    push_cast
    ring
  have hhigh : (((4 * m + 2) * step e : Nat) : ℚ) = 4 * ((m + 1 / 2) * step e) := by
    push_cast
    ring
  have hcast : ((4 * n : Nat) : ℚ) = 4 * n := by push_cast; rfl
  rw [ofMantissa_eq]
  simp only [holds, decide_eq_true_eq, Cell, ← step_mul_unit e, ← mul_assoc,
    mul_le_mul_iff_of_pos_right hunit, mul_lt_mul_iff_of_pos_right hunit]
  split
  · rename_i heven
    simp only [Bool.and_eq_true, decide_eq_true_eq, ← Nat.cast_le (α := ℚ), hlow, hhigh, hcast]
    refine ⟨fun h => ⟨by linarith, by linarith, fun hodd => by omega⟩,
      fun h => ⟨by linarith, by linarith⟩⟩
  · rename_i hodd
    simp only [Bool.and_eq_true, decide_eq_true_eq, ← Nat.cast_lt (α := ℚ), hlow, hhigh, hcast]
    refine ⟨fun h => ⟨by linarith, by linarith, fun _ => ⟨by linarith, by linarith⟩⟩, fun h => ?_⟩
    obtain ⟨hlow, hhigh⟩ := h.2.2 (by omega)
    exact ⟨by linarith, by linarith⟩

theorem holds_center (hm : 0 < m) (e : Int) :
    (ofMantissa m e).holds (ofMantissa m e).center = true := by
  have hstep := step_pos e
  have hgap : 1 ≤ lowerGap m e ∧ lowerGap m e ≤ 4 * m := by
    rw [lowerGap]
    split <;> omega
  have hlow : (4 * m - lowerGap m e) * step e < 4 * (m * step e) := by
    rw [← Nat.mul_assoc]
    exact Nat.mul_lt_mul_of_pos_right (by omega) hstep
  have hhigh : 4 * (m * step e) < (4 * m + 2) * step e := by
    rw [← Nat.mul_assoc]
    exact Nat.mul_lt_mul_of_pos_right (by omega) hstep
  rw [ofMantissa_eq]
  simp only [holds]
  split <;> simp only [Bool.and_eq_true, decide_eq_true_eq] <;> omega

end Cell

end Interval

/-- The shortest decimal is in the cell of the double. -/
theorem cell_shortest (tie : Tie) (m : Nat) (e : Int) :
    Cell m e (shortest tie m e).value := by
  rcases Nat.eq_zero_or_pos m with rfl | hm
  · have hpos := two_zpow_pos e
    have hgap : (0 : ℚ) ≤ lowerGap 0 e := Nat.cast_nonneg _
    have hzero : (shortest tie 0 e).value = 0 := by
      simp [shortest, Decimal.value]
    rw [hzero]
    refine ⟨?_, ?_, fun h => by contradiction⟩ <;> push_cast <;> nlinarith
  · obtain ⟨n, hn, hvalue⟩ := (Interval.ofMantissa m e).exists_holds_search tie
      (Interval.holds_center hm e)
      ((Nat.toDigits 10 (Interval.ofMantissa m e).center).length - 1)
    simp only [shortest, if_neg hm.ne']
    rw [Decimal.value_trimZeros, hvalue]
    exact (Interval.holds_iff_cell hm).mp hn

theorem digits_shortest_pos (tie : Tie) {m : Nat} (hm : 0 < m) (e : Int) :
    0 < (shortest tie m e).digits := by
  have hpos := (cell_shortest tie m e).pos hm
  by_contra hzero
  rw [Decimal.value, Nat.eq_zero_of_not_pos hzero, Nat.cast_zero, zero_mul] at hpos
  exact hpos.false

/-- Zero is written as a single digit. -/
theorem exponent_shortest (tie : Tie) (m : Nat) (e : Int)
    (h : (shortest tie m e).digits = 0) : (shortest tie m e).exponent = 0 := by
  rcases Nat.eq_zero_or_pos m with rfl | hm
  · simp [shortest]
  · exact absurd h (digits_shortest_pos tie hm e).ne'

end Abacus.Double
