import Abacus.Proofs.Double.Encoding

/-!
The numbers that round to a given double. They fill a cell around it, which ends
halfway to the neighbours and holds its ends when the mantissa is even. Below a
power of two the neighbour is nearer, so the cell ends earlier there. A quotient
of natural numbers in the cell of a double is rounded to this double.
-/

namespace Abacus.Double

/-- The lower end of the cell of `m * 2 ^ e`, in quarters of `2 ^ e` below `m`. -/
def lowerGap (m : Nat) (e : Int) : Nat :=
  if m = hiddenBit ∧ leastExponent < e then 1 else 2

/-- The numbers that are rounded to the double `m * 2 ^ e`. -/
def Cell (m : Nat) (e : Int) (q : ℚ) : Prop :=
  (m - lowerGap m e / 4 : ℚ) * 2 ^ e ≤ q ∧ q ≤ (m + 1 / 2 : ℚ) * 2 ^ e ∧
    (m % 2 = 1 → (m - lowerGap m e / 4 : ℚ) * 2 ^ e < q ∧ q < (m + 1 / 2 : ℚ) * 2 ^ e)

theorem two_zpow_pos (e : Int) : (0 : ℚ) < 2 ^ e := by
  positivity

theorem two_zpow_succ (e : Int) : (2 : ℚ) ^ (e + 1) = 2 * 2 ^ e := by
  rw [zpow_add_one₀ (by norm_num), mul_comm]

theorem two_zpow_le {d e : Int} (h : d ≤ e) : (2 : ℚ) ^ d ≤ 2 ^ e :=
  zpow_le_zpow_right₀ (by norm_num) h

section Grid

variable {num den : Nat}

theorem descale_pos (hden : 0 < den) (e : Int) : 0 < (descale num den e).2 := by
  rw [descale]
  split
  · exact Nat.mul_pos hden (Nat.pow_pos (by norm_num))
  · exact hden

theorem descale_eq (hden : 0 < den) (e : Int) :
    ((descale num den e).1 : ℚ) / (descale num den e).2 = num / den / 2 ^ e := by
  have hne : (den : ℚ) ≠ 0 := by exact_mod_cast hden.ne'
  rw [descale]
  split
  · rename_i he
    obtain ⟨n, rfl⟩ := Int.eq_ofNat_of_zero_le he
    simp only [Int.toNat_natCast, Nat.pow_eq, Nat.cast_mul, Nat.cast_pow, Nat.cast_ofNat,
      zpow_natCast]
    rw [div_div]
  · rename_i he
    obtain ⟨n, hn⟩ := Int.eq_ofNat_of_zero_le (show 0 ≤ -e by omega)
    obtain rfl : e = -(n : Int) := by omega
    simp only [neg_neg, Int.toNat_natCast, Nat.pow_eq, Nat.cast_mul, Nat.cast_pow,
      Nat.cast_ofNat, zpow_neg, zpow_natCast]
    field_simp

theorem two_pow_log2_le (hnum : 0 < num) : (2 : ℚ) ^ (num.log2 : Int) ≤ num := by
  rw [zpow_natCast]
  exact_mod_cast Nat.log2_self_le hnum.ne'

theorem lt_two_pow_log2 : (num : ℚ) < 2 ^ ((num.log2 : Int) + 1) := by
  have h : num < 2 ^ (num.log2 + 1) := Nat.lt_log2_self
  exact_mod_cast h

/-- The exponent with which the search for the grid begins. -/
def guessedExponent (num den : Nat) : Int :=
  (Nat.log2 num : Int) - Nat.log2 den - 53

theorem lt_of_guessedExponent (hden : 0 < den) :
    (num / den : ℚ) < 2 ^ 54 * 2 ^ guessedExponent num den := by
  have hq : (0 : ℚ) < den := by exact_mod_cast hden
  rw [div_lt_iff₀ hq]
  calc (num : ℚ)
    _ < 2 ^ ((num.log2 : Int) + 1) := lt_two_pow_log2
    _ = 2 ^ 54 * 2 ^ guessedExponent num den * 2 ^ (den.log2 : Int) := by
      rw [← zpow_natCast (2 : ℚ) 54, ← zpow_add₀ (by norm_num), ← zpow_add₀ (by norm_num),
        guessedExponent]
      congr 1
      omega
    _ ≤ 2 ^ 54 * 2 ^ guessedExponent num den * den := by
      gcongr
      exact two_pow_log2_le hden

theorem le_of_guessedExponent (hnum : 0 < num) (hden : 0 < den) :
    (2 ^ 52 * 2 ^ guessedExponent num den : ℚ) ≤ num / den := by
  have hq : (0 : ℚ) < den := by exact_mod_cast hden
  rw [le_div_iff₀ hq]
  calc (2 ^ 52 * 2 ^ guessedExponent num den * den : ℚ)
    _ ≤ 2 ^ 52 * 2 ^ guessedExponent num den * 2 ^ ((den.log2 : Int) + 1) := by
      gcongr
      exact lt_two_pow_log2.le
    _ = 2 ^ (num.log2 : Int) := by
      rw [← zpow_natCast (2 : ℚ) 52, ← zpow_add₀ (by norm_num), ← zpow_add₀ (by norm_num),
        guessedExponent]
      congr 1
      omega
    _ ≤ num := two_pow_log2_le hnum

theorem le_descale_iff (hden : 0 < den) (e : Int) :
    2 * hiddenBit ≤ (descale num den e).1 / (descale num den e).2 ↔
      (2 ^ 53 * 2 ^ e : ℚ) ≤ num / den := by
  have hpos : (0 : ℚ) < (descale num den e).2 := by exact_mod_cast descale_pos hden e
  rw [Nat.le_div_iff_mul_le (descale_pos hden e), ← le_div_iff₀ (two_zpow_pos e),
    ← descale_eq hden, le_div_iff₀ hpos, hiddenBit_eq]
  norm_num
  exact_mod_cast Iff.rfl

theorem gridExponent_eq (hden : 0 < den) :
    gridExponent num den = max leastExponent
      (if (2 ^ 53 * 2 ^ guessedExponent num den : ℚ) ≤ num / den then
        guessedExponent num den + 1 else guessedExponent num den) := by
  simp only [← le_descale_iff hden]
  rfl

/-- On the grid that is taken, the quotient has at most 53 bits, and all 53 of
them unless the grid is the finest one. -/
theorem gridExponent_spec (hnum : 0 < num) (hden : 0 < den) :
    (num / den : ℚ) < 2 ^ 53 * 2 ^ gridExponent num den ∧
      (gridExponent num den = leastExponent ∨
        (2 ^ 52 * 2 ^ gridExponent num den : ℚ) ≤ num / den) := by
  have hupper := @lt_of_guessedExponent num den hden
  have hlower := le_of_guessedExponent hnum hden
  rw [gridExponent_eq hden]
  generalize guessedExponent num den = low at hupper hlower
  obtain ⟨e, he, hlt, hle⟩ : ∃ e,
      (if (2 ^ 53 * 2 ^ low : ℚ) ≤ num / den then low + 1 else low) = e ∧
      (num / den : ℚ) < 2 ^ 53 * 2 ^ e ∧ (2 ^ 52 * 2 ^ e : ℚ) ≤ num / den := by
    refine ⟨_, rfl, ?_⟩
    split
    · rw [two_zpow_succ]
      constructor <;> linarith
    · constructor <;> linarith
  rw [he]
  rcases le_total leastExponent e with h | h
  · rw [max_eq_right h]
    exact ⟨hlt, Or.inr hle⟩
  · rw [max_eq_left h]
    have hmono := two_zpow_le h
    exact ⟨by linarith, Or.inl rfl⟩

theorem leastExponent_le_gridExponent : leastExponent ≤ gridExponent num den := by
  rw [gridExponent]
  exact le_max_left _ _

end Grid

/-- The integer to which a quotient within half of it is rounded. -/
theorem roundQuotient_eq {n d r : Nat} (hd : 0 < d) (hlow : 2 * (r * d) ≤ 2 * n + d)
    (hhigh : 2 * n ≤ 2 * (r * d) + d)
    (hodd : r % 2 = 1 → 2 * (r * d) < 2 * n + d ∧ 2 * n < 2 * (r * d) + d) :
    roundQuotient n d = r := by
  have hsplit : n = n / d * d + n % d := (Nat.div_add_mod' n d).symm
  have hmod : n % d < d := Nat.mod_lt n hd
  generalize hq : n / d = q at hsplit
  generalize ht : n % d = t at hsplit hmod
  subst hsplit
  simp only [roundQuotient, hq, ht]
  have hcases : r = q ∨ r = q + 1 := by
    by_contra hne
    rcases Nat.lt_or_ge r q with h | h
    · have := Nat.mul_le_mul_right d (show r + 1 ≤ q from h)
      have : (r + 1) * d = r * d + d := Nat.succ_mul r d
      omega
    · have := Nat.mul_le_mul_right d (show q + 2 ≤ r by omega)
      have : (q + 2) * d = q * d + 2 * d := Nat.add_mul q 2 d
      omega
  rcases hcases with rfl | rfl
  · split
    · rfl
    · rw [if_neg (by omega)]
      omega
  · have : (q + 1) * d = q * d + d := Nat.succ_mul q d
    rw [if_neg (by omega)]
    split
    · rfl
    · omega

theorem roundQuotient_of_near {n d r : Nat} (hd : 0 < d) (hlow : (r - 1 / 2 : ℚ) ≤ n / d)
    (hhigh : (n / d : ℚ) ≤ r + 1 / 2)
    (hodd : r % 2 = 1 → (r - 1 / 2 : ℚ) < n / d ∧ (n / d : ℚ) < r + 1 / 2) :
    roundQuotient n d = r := by
  have hq : (0 : ℚ) < d := by exact_mod_cast hd
  rw [le_div_iff₀ hq] at hlow
  rw [div_le_iff₀ hq] at hhigh
  rw [lt_div_iff₀ hq, div_lt_iff₀ hq] at hodd
  apply roundQuotient_eq hd
  · have h : (2 * (r * d) : ℚ) ≤ 2 * n + d := by linarith
    exact_mod_cast h
  · have h : (2 * n : ℚ) ≤ 2 * (r * d) + d := by linarith
    exact_mod_cast h
  · intro h
    obtain ⟨hlow, hhigh⟩ := hodd h
    have hlow' : (2 * (r * d) : ℚ) < 2 * n + d := by linarith
    have hhigh' : (2 * n : ℚ) < 2 * (r * d) + d := by linarith
    exact ⟨by exact_mod_cast hlow', by exact_mod_cast hhigh'⟩

/-- The rounding on the grid that is taken. -/
theorem nearestMagnitude_of_near {num den r : Nat} {e : Int} (hnum : 0 < num) (hden : 0 < den)
    (he : gridExponent num den = e) (hlow : (r - 1 / 2 : ℚ) * 2 ^ e ≤ num / den)
    (hhigh : (num / den : ℚ) ≤ (r + 1 / 2) * 2 ^ e)
    (hodd : r % 2 = 1 →
      (r - 1 / 2 : ℚ) * 2 ^ e < num / den ∧ (num / den : ℚ) < (r + 1 / 2) * 2 ^ e)
    (hlt : magnitudeOf r e ≤ infiniteMagnitude) : nearestMagnitude num den = magnitudeOf r e := by
  have hpos := two_zpow_pos e
  have hr : roundQuotient (descale num den e).1 (descale num den e).2 = r := by
    apply roundQuotient_of_near (descale_pos hden e)
    · rwa [descale_eq hden, le_div_iff₀ hpos]
    · rwa [descale_eq hden, div_le_iff₀ hpos]
    · rwa [descale_eq hden, lt_div_iff₀ hpos, div_lt_iff₀ hpos]
  subst he hr
  simp only [nearestMagnitude, if_neg hnum.ne']
  exact min_eq_right hlt

theorem lowerGap_le (m : Nat) (e : Int) : lowerGap m e ≤ 2 := by
  rw [lowerGap]
  split <;> omega

/-- A double lies in its own cell. -/
theorem cell_self (m : Nat) (e : Int) : Cell m e (m * 2 ^ e) := by
  have hpos := two_zpow_pos e
  have hgap : (0 : ℚ) < lowerGap m e := by
    rw [lowerGap]
    split <;> norm_num
  have hbelow : (m - lowerGap m e / 4 : ℚ) * 2 ^ e < m * 2 ^ e :=
    mul_lt_mul_of_pos_right (by linarith) hpos
  have habove : (m * 2 ^ e : ℚ) < (m + 1 / 2) * 2 ^ e :=
    mul_lt_mul_of_pos_right (by linarith) hpos
  exact ⟨hbelow.le, habove.le, fun _ => ⟨hbelow, habove⟩⟩

theorem Cell.of_between {m : Nat} {e : Int} {a b q : ℚ} (ha : Cell m e a) (hb : Cell m e b)
    (haq : a ≤ q) (hqb : q ≤ b) : Cell m e q :=
  ⟨ha.1.trans haq, hqb.trans hb.2.1, fun hodd =>
    ⟨(ha.2.2 hodd).1.trans_le haq, hqb.trans_lt (hb.2.2 hodd).2⟩⟩

/-- Only zero has numbers in its cell that are not positive. -/
theorem Cell.pos {m : Nat} {e : Int} {q : ℚ} (hm : 0 < m) (h : Cell m e q) : 0 < q := by
  have hpos := two_zpow_pos e
  have hgap : (lowerGap m e : ℚ) ≤ 2 := by exact_mod_cast lowerGap_le m e
  have hm : (1 : ℚ) ≤ m := by exact_mod_cast hm
  have hlow := h.1
  nlinarith

/-- On a finer grid than that of `m * 2 ^ e`, only a power of two has numbers of
its cell, and these lie less than half a step below it. -/
theorem power_of_finer_grid {m : Nat} {e d : Int} {q : ℚ} (hm : Canonical m e)
    (hlow : (m - lowerGap m e / 4 : ℚ) * 2 ^ e ≤ q) (hfew : q < 2 ^ 53 * 2 ^ d)
    (hd : -1074 ≤ d) (hlt : d < e) :
    m = 4503599627370496 ∧ e = d + 1 ∧ (9007199254740992 - 1 / 2 : ℚ) * 2 ^ d ≤ q := by
  have hdpos := two_zpow_pos d
  have hgap : (lowerGap m e : ℚ) ≤ 2 := by exact_mod_cast lowerGap_le m e
  have hnormal := hm.normal.resolve_right (by omega)
  have hdouble : (2 : ℚ) * 2 ^ d ≤ 2 ^ e := by
    rw [← two_zpow_succ]
    exact two_zpow_le hlt
  obtain rfl : m = 4503599627370496 := by
    by_contra hne
    have habove : (4503599627370496 + 1 : ℚ) ≤ m := by
      exact_mod_cast (show 4503599627370496 + 1 ≤ m by omega)
    nlinarith
  have hone : lowerGap 4503599627370496 e = 1 := by
    rw [lowerGap, if_pos ⟨rfl, by rw [leastExponent_eq]; omega⟩]
  rw [hone] at hlow
  push_cast at hlow
  obtain rfl : e = d + 1 := by
    by_contra hne
    have hquadruple : (2 : ℚ) * (2 * 2 ^ d) ≤ 2 ^ e := by
      rw [← two_zpow_succ, ← two_zpow_succ]
      exact two_zpow_le (by omega)
    nlinarith
  rw [two_zpow_succ] at hlow
  exact ⟨rfl, rfl, by linarith⟩

/-- A quotient in the cell of a double is rounded to this double. -/
theorem nearestMagnitude_of_cell {num den m : Nat} {e : Int} (hm : Canonical m e)
    (hden : 0 < den) (hcell : Cell m e (num / den)) :
    nearestMagnitude num den = magnitudeOf m e := by
  obtain ⟨hlow, hhigh, hodd⟩ := hcell
  have hpos := two_zpow_pos e
  have hgap : (lowerGap m e : ℚ) ≤ 2 := by exact_mod_cast lowerGap_le m e
  rcases Nat.eq_zero_or_pos num with rfl | hnum
  · have hzero : m = 0 := by
      by_contra hne
      have hone : (1 : ℚ) ≤ m := by exact_mod_cast Nat.one_le_iff_ne_zero.mpr hne
      rw [Nat.cast_zero, zero_div] at hlow
      nlinarith
    obtain rfl : e = -1074 := hm.normal.resolve_left (by omega)
    subst hzero
    rfl
  obtain ⟨hfew, hmany⟩ := gridExponent_spec hnum hden
  have hleast := @leastExponent_le_gridExponent num den
  have hmlow := hm.low
  rw [leastExponent_eq] at hmany hleast
  rcases lt_trichotomy (gridExponent num den) e with hlt | heq | hgt
  · obtain ⟨rfl, rfl, hnear⟩ := power_of_finer_grid hm hlow hfew hleast hlt
    have hplace : magnitudeOf 4503599627370496 (gridExponent num den + 1) =
        magnitudeOf 9007199254740992 (gridExponent num den) := by
      rw [magnitudeOf, magnitudeOf, hiddenBit_eq, leastExponent_eq]
      omega
    have hmagnitude := hm.magnitudeOf_lt.le
    rw [hplace] at hmagnitude ⊢
    have hdpos := two_zpow_pos (gridExponent num den)
    apply nearestMagnitude_of_near hnum hden rfl
    · exact_mod_cast hnear
    · push_cast
      linarith
    · intro h
      contradiction
    · exact hmagnitude
  · subst heq
    apply nearestMagnitude_of_near hnum hden rfl
    · nlinarith
    · exact hhigh
    · intro h
      obtain ⟨hlow, hhigh⟩ := hodd h
      exact ⟨by nlinarith, hhigh⟩
    · exact hm.magnitudeOf_lt.le
  · have hmany := hmany.resolve_left (by omega)
    have hmlt : (m : ℚ) + 1 ≤ 9007199254740992 := by exact_mod_cast hm.lt
    have hdouble : (2 : ℚ) * 2 ^ e ≤ 2 ^ gridExponent num den := by
      rw [← two_zpow_succ]
      exact two_zpow_le hgt
    nlinarith

theorem nearest_of_cell {num den m : Nat} {e : Int} (negative : Bool) (hm : Canonical m e)
    (hden : 0 < den) (hcell : Cell m e (num / den)) :
    nearest negative num den = assemble negative (magnitudeOf m e) := by
  rw [nearest, nearestMagnitude_of_cell hm hden hcell]

end Abacus.Double
