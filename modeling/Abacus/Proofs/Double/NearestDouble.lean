import Abacus.Proofs.Double.Rounding

/-!
The double nearest to a number. The cells of the doubles of one sign cover all numbers
below half a step beyond the largest double, and a number in the cell of a double has
no nearer double: its neighbours are at least a step away. Rounding a quotient of
natural numbers therefore gives the one double that is nearest to the quotient, the
even one of two that are equally near, and infinity for what lies beyond.
-/

namespace Abacus.Double

/-- Half a step beyond the largest double. -/
def overflowBound : ℚ :=
  (2 ^ 53 - 1 / 2) * 2 ^ (971 : Int)

theorem overflowBound_pos : 0 < overflowBound :=
  mul_pos (by norm_num) (two_zpow_pos 971)

/-- No finite double is nearer to `q` in magnitude than `m * 2 ^ e`, and none is as near
if `m` is odd. -/
def Nearest (m : Nat) (e : Int) (q : ℚ) : Prop :=
  ∀ y sign n f, read y = .finite sign n f →
    |(m * 2 ^ e : ℚ) - q| ≤ |(n * 2 ^ f : ℚ) - q| ∧
      (|(m * 2 ^ e : ℚ) - q| = |(n * 2 ^ f : ℚ) - q| → (n * 2 ^ f : ℚ) ≠ m * 2 ^ e → m % 2 = 0)

/-- Of the doubles with the given sign, `x` is nearest to the number with this sign and the
magnitude `q`, and of two that are equally near it is the even one. It is infinite for a
magnitude beyond all that are rounded to the largest double. -/
def IsNearest (negative : Bool) (q : ℚ) (x : Float) : Prop :=
  if q < overflowBound then ∃ m e, read x = .finite negative m e ∧ Nearest m e q
  else read x = .infinite negative

section Spacing

variable {m n : Nat} {e f : Int} {q : ℚ}

/-- No other double lies nearer to a double than its neighbours do. -/
theorem spacing (hm : Canonical m e) (hn : Canonical n f) (hne : ¬(m = n ∧ e = f)) :
    (n * 2 ^ f : ℚ) ≤ (m - lowerGap m e / 2) * 2 ^ e ∨ (m + 1 : ℚ) * 2 ^ e ≤ n * 2 ^ f := by
  have hepos := two_zpow_pos e
  have hfpos := two_zpow_pos f
  have hgap : (lowerGap m e : ℚ) ≤ 2 := by exact_mod_cast lowerGap_le m e
  have hmlt : (m : ℚ) + 1 ≤ 9007199254740992 := by exact_mod_cast hm.lt
  have hnlt : (n : ℚ) + 1 ≤ 9007199254740992 := by exact_mod_cast hn.lt
  rcases lt_trichotomy f e with hlt | rfl | hgt
  · left
    have hnormal := hm.normal.resolve_right (by have := hn.low; omega)
    have hdouble : (2 : ℚ) * 2 ^ f ≤ 2 ^ e := by
      rw [← two_zpow_succ]
      exact two_zpow_le hlt
    have hbelow : (9007199254740992 : ℚ) / 2 - 1 / 2 ≤ m - lowerGap m e / 2 := by
      rw [lowerGap]
      split
      · rename_i h
        rw [h.1, hiddenBit_eq]
        norm_num
      · rename_i h
        have hnot : m ≠ 4503599627370496 := by
          rintro rfl
          exact h ⟨rfl, by rw [leastExponent_eq]; have := hn.low; omega⟩
        have habove : (4503599627370496 + 1 : ℚ) ≤ m := by
          exact_mod_cast (show 4503599627370496 + 1 ≤ m by omega)
        norm_num
        linarith
    calc (n * 2 ^ f : ℚ)
      _ ≤ (9007199254740992 - 1) * 2 ^ f := by nlinarith
      _ ≤ (9007199254740992 / 2 - 1 / 2) * 2 ^ e := by nlinarith
      _ ≤ (m - lowerGap m e / 2) * 2 ^ e := by nlinarith
  · have hmn : m ≠ n := fun h => hne ⟨h, rfl⟩
    rcases Nat.lt_or_ge n m with h | h
    · left
      have hn' : (n : ℚ) + 1 ≤ m := by exact_mod_cast h
      nlinarith
    · right
      have hn' : (m : ℚ) + 1 ≤ n := by exact_mod_cast (show m + 1 ≤ n by omega)
      nlinarith
  · right
    have hnormal := hn.normal.resolve_right (by have := hm.low; omega)
    have hdouble : (2 : ℚ) * 2 ^ e ≤ 2 ^ f := by
      rw [← two_zpow_succ]
      exact two_zpow_le hgt
    have hn' : (4503599627370496 : ℚ) ≤ n := by exact_mod_cast hnormal
    calc ((m + 1 : ℚ) * 2 ^ e)
      _ ≤ 4503599627370496 * (2 * 2 ^ e) := by nlinarith
      _ ≤ n * 2 ^ f := by nlinarith

/-- The next larger double, if there is one. -/
theorem Canonical.exists_above (hm : Canonical m e) (h : ¬(m = 9007199254740991 ∧ e = 971)) :
    ∃ n f, Canonical n f ∧ (n * 2 ^ f : ℚ) = (m + 1) * 2 ^ e := by
  obtain ⟨hlt, hlow, hhigh, hnormal⟩ := hm
  by_cases hlast : m = 9007199254740991
  · refine ⟨4503599627370496, e + 1, ⟨by omega, by omega, by omega, by omega⟩, ?_⟩
    rw [two_zpow_succ, hlast]
    push_cast
    ring
  · refine ⟨m + 1, e, ⟨by omega, by omega, by omega, by omega⟩, ?_⟩
    push_cast
    ring

/-- The next smaller double, if there is one. -/
theorem Canonical.exists_below (hm : Canonical m e) (hpos : 0 < m) :
    ∃ n f, Canonical n f ∧ (n * 2 ^ f : ℚ) = (m - lowerGap m e / 2) * 2 ^ e := by
  obtain ⟨hlt, hlow, hhigh, hnormal⟩ := hm
  rw [lowerGap, hiddenBit_eq, leastExponent_eq]
  split
  · rename_i hpower
    refine ⟨9007199254740991, e - 1, ⟨by omega, by omega, by omega, by omega⟩, ?_⟩
    have hstep : (2 : ℚ) ^ e = 2 * 2 ^ (e - 1) := by
      rw [← two_zpow_succ, sub_add_cancel]
    rw [hstep, hpower.1]
    push_cast
    ring
  · refine ⟨m - 1, e, ⟨by omega, by omega, by omega, by omega⟩, ?_⟩
    rw [Nat.cast_sub hpos]
    push_cast
    ring

end Spacing

section Distance

variable {v w q : ℚ}

theorem abs_sub_le_iff_of_lt (h : v < w) : |v - q| ≤ |w - q| ↔ 2 * q ≤ v + w := by
  rw [← sq_le_sq]
  constructor <;> intro hle <;> nlinarith

theorem abs_sub_le_iff_of_gt (h : w < v) : |v - q| ≤ |w - q| ↔ v + w ≤ 2 * q := by
  rw [← sq_le_sq]
  constructor <;> intro hle <;> nlinarith

theorem abs_sub_eq_iff_of_ne (h : v ≠ w) : |v - q| = |w - q| ↔ v + w = 2 * q := by
  rcases lt_or_gt_of_ne h with hlt | hgt
  · rw [le_antisymm_iff, abs_sub_le_iff_of_lt hlt, abs_sub_le_iff_of_gt hlt, le_antisymm_iff,
      and_comm, add_comm w v]
  · rw [le_antisymm_iff, abs_sub_le_iff_of_gt hgt, abs_sub_le_iff_of_lt hgt, le_antisymm_iff,
      add_comm w v]

end Distance

section Cells

variable {m : Nat} {e : Int} {q : ℚ}

theorem nearest_of_mem_cell (hm : Canonical m e) (hcell : Cell m e q) : Nearest m e q := by
  intro y sign n f hread
  have hn := canonical_of_read hread
  obtain ⟨hlow, hhigh, hodd⟩ := hcell
  have hpos := two_zpow_pos e
  have hgap : (0 : ℚ) < lowerGap m e := by
    rw [lowerGap]
    split <;> norm_num
  by_cases hsame : m = n ∧ e = f
  · obtain ⟨rfl, rfl⟩ := hsame
    exact ⟨le_rfl, fun _ hne => absurd rfl hne⟩
  · rcases spacing hm hn hsame with hbelow | habove
    · have hlt : (n * 2 ^ f : ℚ) < m * 2 ^ e := by nlinarith
      rw [abs_sub_le_iff_of_gt hlt, abs_sub_eq_iff_of_ne hlt.ne']
      refine ⟨by linarith, fun htie _ => ?_⟩
      by_contra hm
      have := (hodd (by omega)).1
      linarith
    · have hlt : (m * 2 ^ e : ℚ) < n * 2 ^ f := by nlinarith
      rw [abs_sub_le_iff_of_lt hlt, abs_sub_eq_iff_of_ne hlt.ne]
      refine ⟨by linarith, fun htie _ => ?_⟩
      by_contra hm
      have := (hodd (by omega)).2
      linarith

/-- Below the bound, a number to which a double is nearest is in the cell of the double. -/
theorem Nearest.cell (hm : Canonical m e) (hq : 0 ≤ q) (hlt : q < overflowBound)
    (h : Nearest m e q) : Cell m e q := by
  have hpos := two_zpow_pos e
  have hgap : (0 : ℚ) < lowerGap m e := by
    rw [lowerGap]
    split <;> norm_num
  have hhigh : q ≤ (m + 1 / 2) * 2 ^ e ∧ (m % 2 = 1 → q < (m + 1 / 2) * 2 ^ e) := by
    by_cases hlast : m = 9007199254740991 ∧ e = 971
    · have hbound : ((m : ℚ) + 1 / 2) * 2 ^ e = overflowBound := by
        rw [hlast.1, hlast.2, overflowBound]
        congr 1
        norm_num
      rw [hbound]
      exact ⟨hlt.le, fun _ => hlt⟩
    · obtain ⟨n, f, hn, hvalue⟩ := hm.exists_above hlast
      obtain ⟨hle, htie⟩ := h _ false n f (hn.read_assemble false)
      have hstep : (m * 2 ^ e : ℚ) < n * 2 ^ f := by nlinarith
      rw [abs_sub_le_iff_of_lt hstep] at hle
      rw [abs_sub_eq_iff_of_ne hstep.ne] at htie
      refine ⟨by linarith, fun hodd => ?_⟩
      by_contra hnot
      have := htie (by linarith) hstep.ne'
      omega
  have hlow : (m - lowerGap m e / 4) * 2 ^ e ≤ q ∧
      (m % 2 = 1 → (m - lowerGap m e / 4) * 2 ^ e < q) := by
    rcases Nat.eq_zero_or_pos m with rfl | hmpos
    · refine ⟨?_, fun hodd => by contradiction⟩
      push_cast
      nlinarith
    · obtain ⟨n, f, hn, hvalue⟩ := hm.exists_below hmpos
      obtain ⟨hle, htie⟩ := h _ false n f (hn.read_assemble false)
      have hstep : (n * 2 ^ f : ℚ) < m * 2 ^ e := by nlinarith
      rw [abs_sub_le_iff_of_gt hstep] at hle
      rw [abs_sub_eq_iff_of_ne hstep.ne'] at htie
      refine ⟨by linarith, fun hodd => ?_⟩
      by_contra hnot
      have := htie (by linarith) hstep.ne
      omega
  exact ⟨hlow.1, hhigh.1, fun hodd => ⟨hlow.2 hodd, hhigh.2 hodd⟩⟩

theorem lt_overflowBound_of_cell (hm : Canonical m e) (hcell : Cell m e q) :
    q < overflowBound := by
  obtain ⟨-, hhigh, hodd⟩ := hcell
  have hpos := two_zpow_pos e
  have hle : (2 : ℚ) ^ e ≤ 2 ^ (971 : Int) := two_zpow_le hm.high
  rw [overflowBound]
  generalize (2 : ℚ) ^ (971 : Int) = last at hle
  by_cases hlast : m = 9007199254740991
  · obtain ⟨-, hlt⟩ := hodd (by omega)
    rw [hlast] at hlt
    push_cast at hlt
    nlinarith
  · have hmlt : (m : ℚ) + 1 ≤ 9007199254740991 := by
      exact_mod_cast (show m + 1 ≤ 9007199254740991 by have := hm.lt; omega)
    nlinarith

end Cells

section Cover

variable {num den : Nat}

/-- A rounded quotient is half a step away at most, and less than that if it is odd: of two
neighbours equally near, the even one is taken. -/
theorem roundQuotient_near {n d : Nat} (hd : 0 < d) :
    (roundQuotient n d - 1 / 2 : ℚ) ≤ n / d ∧ (n / d : ℚ) ≤ roundQuotient n d + 1 / 2 ∧
      (roundQuotient n d % 2 = 1 →
        (roundQuotient n d - 1 / 2 : ℚ) < n / d ∧ (n / d : ℚ) < roundQuotient n d + 1 / 2) := by
  have hdpos : (0 : ℚ) < d := by exact_mod_cast hd
  have hsplit : (n : ℚ) = (n / d : Nat) * d + (n % d : Nat) := by
    exact_mod_cast (Nat.div_add_mod' n d).symm
  rw [le_div_iff₀ hdpos, div_le_iff₀ hdpos, lt_div_iff₀ hdpos, div_lt_iff₀ hdpos, hsplit]
  have hmod : ((n % d : Nat) : ℚ) < d := by exact_mod_cast Nat.mod_lt n hd
  have hnonneg : (0 : ℚ) ≤ (n % d : Nat) := Nat.cast_nonneg _
  simp only [roundQuotient]
  split
  · rename_i hbelow
    have hbelow : (2 * (n % d : Nat) : ℚ) < d := by exact_mod_cast hbelow
    refine ⟨by linarith, by linarith, fun _ => ⟨by linarith, by linarith⟩⟩
  · split
    · rename_i habove
      have habove : (d : ℚ) < 2 * (n % d : Nat) := by exact_mod_cast habove
      push_cast
      refine ⟨by linarith, by linarith, fun _ => ⟨by linarith, by linarith⟩⟩
    · have hhalf : (2 * (n % d : Nat) : ℚ) = d := by exact_mod_cast (by omega)
      rcases Nat.mod_two_eq_zero_or_one (n / d) with heven | hodd
      · rw [heven, Nat.add_zero]
        refine ⟨by linarith, by linarith, fun h => by omega⟩
      · rw [hodd]
        push_cast
        refine ⟨by linarith, by linarith, fun h => by omega⟩

/-- The multiple of the grid to which a quotient is rounded. -/
def rounded (num den : Nat) : Nat :=
  let (scaledNum, scaledDen) := descale num den (gridExponent num den)
  roundQuotient scaledNum scaledDen

theorem rounded_near (num : Nat) (hden : 0 < den) :
    (rounded num den - 1 / 2 : ℚ) * 2 ^ gridExponent num den ≤ num / den ∧
      (num / den : ℚ) ≤ (rounded num den + 1 / 2) * 2 ^ gridExponent num den ∧
      (rounded num den % 2 = 1 →
        (rounded num den - 1 / 2 : ℚ) * 2 ^ gridExponent num den < num / den ∧
          (num / den : ℚ) < (rounded num den + 1 / 2) * 2 ^ gridExponent num den) := by
  have hpos := two_zpow_pos (gridExponent num den)
  have hscaled : 0 < (descale num den (gridExponent num den)).2 := descale_pos hden _
  have hnear := roundQuotient_near (n := (descale num den (gridExponent num den)).1) hscaled
  rwa [descale_eq hden, le_div_iff₀ hpos, div_le_iff₀ hpos, lt_div_iff₀ hpos,
    div_lt_iff₀ hpos] at hnear

theorem nearestMagnitude_eq (hnum : 0 < num) :
    nearestMagnitude num den =
      min infiniteMagnitude (magnitudeOf (rounded num den) (gridExponent num den)) := by
  simp only [nearestMagnitude, if_neg hnum.ne']
  rfl

/-- What has 53 bits on a grid is rounded to a number with 53 bits. -/
theorem le_of_many_bits {r : Nat} {e : Int} {q : ℚ} (hmany : (2 ^ 52 * 2 ^ e : ℚ) ≤ q)
    (hhigh : q ≤ (r + 1 / 2) * 2 ^ e) : 4503599627370496 ≤ r := by
  have hpos := two_zpow_pos e
  by_contra hbelow
  have hr : (r + 1 : ℚ) ≤ 4503599627370496 := by
    exact_mod_cast (show r + 1 ≤ 4503599627370496 by omega)
  nlinarith

/-- The cell of a quotient that is rounded on its grid without reaching the next grid. -/
theorem cell_rounded (hnum : 0 < num) (hden : 0 < den) :
    Cell (rounded num den) (gridExponent num den) (num / den) := by
  obtain ⟨hlow, hhigh, hodd⟩ := rounded_near num hden
  obtain ⟨-, hmany⟩ := gridExponent_spec hnum hden
  have hpos := two_zpow_pos (gridExponent num den)
  rw [Cell, lowerGap, hiddenBit_eq]
  split
  · rename_i hpower
    have hmany := hmany.resolve_left (by omega)
    rw [hpower.1] at hhigh ⊢
    refine ⟨?_, hhigh, fun h => by contradiction⟩
    push_cast
    nlinarith
  · norm_num at hlow hodd ⊢
    exact ⟨hlow, hhigh, hodd⟩

/-- Every quotient below the bound is in the cell of a double. -/
theorem exists_cell (hden : 0 < den) (hlt : (num / den : ℚ) < overflowBound) :
    ∃ m e, Canonical m e ∧ Cell m e (num / den) := by
  rcases Nat.eq_zero_or_pos num with rfl | hnum
  · have hzero := cell_self 0 (-1074)
    refine ⟨0, -1074, ⟨by omega, by omega, by omega, by omega⟩, ?_⟩
    simpa using hzero
  obtain ⟨hlow, hhigh, -⟩ := rounded_near num hden
  obtain ⟨hfew, hmany⟩ := gridExponent_spec hnum hden
  have hcell := cell_rounded hnum hden
  have hleast : leastExponent ≤ gridExponent num den := leastExponent_le_gridExponent
  have hpos := two_zpow_pos (gridExponent num den)
  rw [leastExponent_eq] at hmany hleast
  rw [overflowBound] at hlt
  generalize gridExponent num den = e at *
  generalize rounded num den = r at *
  generalize (num / den : ℚ) = q at *
  have hmost : e ≤ 971 := by
    by_contra hbeyond
    have hdouble : (2 : ℚ) * 2 ^ (971 : Int) ≤ 2 ^ e := by
      rw [← two_zpow_succ]
      exact two_zpow_le (by omega)
    have hmany := hmany.resolve_left (by omega)
    have hlast := two_zpow_pos 971
    generalize (2 : ℚ) ^ (971 : Int) = last at *
    linarith
  have hr : r ≤ 9007199254740992 := by
    by_contra hbeyond
    have hr : (9007199254740992 + 1 : ℚ) ≤ r := by
      exact_mod_cast (show 9007199254740992 + 1 ≤ r by omega)
    nlinarith
  rcases Nat.lt_or_eq_of_le hr with hr | rfl
  · refine ⟨r, e, ⟨hr, hleast, hmost, ?_⟩, hcell⟩
    exact hmany.symm.imp_left fun hmany => le_of_many_bits hmany hhigh
  · have hmost' : e ≠ 971 := by
      rintro rfl
      generalize (2 : ℚ) ^ (971 : Int) = last at *
      push_cast at hlow
      linarith
    refine ⟨4503599627370496, e + 1, ⟨by omega, by omega, by omega, by omega⟩, ?_⟩
    rw [Cell, lowerGap, hiddenBit_eq, leastExponent_eq, if_pos ⟨rfl, by omega⟩, two_zpow_succ]
    push_cast at hlow ⊢
    exact ⟨by linarith, by linarith, fun h => by contradiction⟩

/-- Every other quotient is rounded to infinity. -/
theorem nearestMagnitude_of_le (hden : 0 < den) (hle : overflowBound ≤ (num / den : ℚ)) :
    nearestMagnitude num den = infiniteMagnitude := by
  have hnum : 0 < num := by
    by_contra hzero
    obtain rfl : num = 0 := by omega
    rw [Nat.cast_zero, zero_div] at hle
    exact absurd overflowBound_pos (not_lt.mpr hle)
  rw [nearestMagnitude_eq hnum]
  apply min_eq_left
  obtain ⟨hlow, hhigh, hodd⟩ := rounded_near num hden
  obtain ⟨hfew, hmany⟩ := gridExponent_spec hnum hden
  have hpos := two_zpow_pos (gridExponent num den)
  rw [overflowBound] at hle
  rw [leastExponent_eq] at hmany
  rw [magnitudeOf, infiniteMagnitude_eq, hiddenBit_eq, leastExponent_eq]
  generalize gridExponent num den = e at *
  generalize rounded num den = r at *
  generalize (num / den : ℚ) = q at *
  have hmost : 971 ≤ e := by
    by_contra hbelow
    have hdouble : (2 : ℚ) * 2 ^ e ≤ 2 ^ (971 : Int) := by
      rw [← two_zpow_succ]
      exact two_zpow_le (by omega)
    generalize (2 : ℚ) ^ (971 : Int) = last at *
    linarith
  have hmany := hmany.resolve_left (by omega)
  rcases Int.lt_or_eq_of_le hmost with hbeyond | heq
  · have hr := le_of_many_bits hmany hhigh
    omega
  · rw [heq] at hle
    have hr : 9007199254740992 ≤ r := by
      by_contra hbelow
      rcases Nat.lt_or_eq_of_le (show r ≤ 9007199254740991 by omega) with hr | rfl
      · have hr : (r + 1 : ℚ) ≤ 9007199254740991 := by exact_mod_cast hr
        nlinarith
      · have hlt := (hodd (by omega)).2
        push_cast at hlt
        linarith
    omega

/-- The rounded quotient is the nearest double, and no other double is. -/
theorem isNearest_iff (negative : Bool) (hden : 0 < den) (x : Float) :
    IsNearest negative (num / den) x ↔ x = nearest negative num den := by
  have hnonneg : (0 : ℚ) ≤ num / den := by positivity
  rw [IsNearest]
  split
  · rename_i hlt
    constructor
    · rintro ⟨m, e, hread, hnearest⟩
      have hm := canonical_of_read hread
      rw [nearest_of_cell negative hm hden (hnearest.cell hm hnonneg hlt)]
      exact eq_assemble_of_read hread
    · rintro rfl
      obtain ⟨m, e, hm, hcell⟩ := exists_cell hden hlt
      refine ⟨m, e, ?_, nearest_of_mem_cell hm hcell⟩
      rw [nearest_of_cell negative hm hden hcell, hm.read_assemble]
  · rename_i hle
    have hread : read (nearest negative num den) = .infinite negative := by
      rw [nearest, nearestMagnitude_of_le hden (not_lt.mp hle),
        read_assemble negative le_rfl]
      rfl
    constructor
    · intro h
      exact read_injective (h.trans hread.symm)
    · rintro rfl
      exact hread

end Cover

theorem isNearest_of_cell {negative : Bool} {q : ℚ} {x : Float} {m : Nat} {e : Int}
    (hread : read x = .finite negative m e) (hcell : Cell m e q) : IsNearest negative q x := by
  have hm := canonical_of_read hread
  rw [IsNearest, if_pos (lt_overflowBound_of_cell hm hcell)]
  exact ⟨m, e, hread, nearest_of_mem_cell hm hcell⟩

/-- What is rounded to a finite double lies in its cell. -/
theorem IsNearest.cell {negative sign : Bool} {q : ℚ} {x : Float} {m : Nat} {e : Int}
    (h : IsNearest sign q x) (hq : 0 ≤ q) (hread : read x = .finite negative m e) :
    sign = negative ∧ Cell m e q := by
  rw [IsNearest] at h
  split at h
  · rename_i hlt
    obtain ⟨n, f, hx, hnearest⟩ := h
    rw [hread] at hx
    cases hx
    exact ⟨rfl, hnearest.cell (canonical_of_read hread) hq hlt⟩
  · rw [hread] at h
    cases h

theorem IsNearest.unique {negative : Bool} {q : ℚ} {x y : Float} (hq : 0 ≤ q)
    (hx : IsNearest negative q x) (hy : IsNearest negative q y) : x = y := by
  have hquotient : q = (q.num.toNat : ℚ) / q.den := by
    have hnum : ((q.num.toNat : Int) : ℚ) = q.num := by
      rw [Int.toNat_of_nonneg (Rat.num_nonneg.mpr hq)]
    rw [← Int.cast_natCast, hnum, Rat.num_div_den]
  rw [hquotient, isNearest_iff negative q.den_pos] at hx hy
  exact hx.trans hy.symm

end Abacus.Double
