import Abacus.Proofs.Double.NearestDouble
import Abacus.Proofs.Double.ShortestInCell

/-!
The shortest decimal has the fewest digits. The search ends on the coarsest grid with a
point in the interval, next to the center. A decimal in the interval that has no more
digits than the one found is a point of the same grid, or it lies below the power of ten
that leads the center; then this power is in the interval too, and is nearer. So no
decimal in the cell has fewer digits, and none with as many digits is nearer.
-/

namespace Abacus.Double

namespace Interval

section Points

variable {i : Interval} {tie : Tie}

theorem holds_of_between {a b n : Nat} (ha : i.holds a = true) (hb : i.holds b = true)
    (han : a ≤ n) (hnb : n ≤ b) : i.holds n = true := by
  cases hclosed : i.closed <;>
    simp only [holds, hclosed, if_true, Bool.false_eq_true, if_false, Bool.and_eq_true,
      decide_eq_true_eq] at ha hb ⊢ <;>
    omega

/-- How far a point is from the center. -/
def distance (i : Interval) (n : Nat) : Nat :=
  ((n : Int) - i.center).natAbs

section Grid

variable {grid : Nat} (hgrid : 0 < grid)

theorem pick?_eq_none (h : i.pick? tie grid = none) :
    i.holds (i.center / grid * grid) = false ∧
      i.holds ((i.center / grid + 1) * grid) = false := by
  simp only [pick?] at h
  split at h
  · split_ifs at h
  · contradiction
  · contradiction
  · exact ⟨‹_›, ‹_›⟩

include hgrid

theorem lt_of_neighbour : i.center < (i.center / grid + 1) * grid := by
  rw [Nat.mul_comm]
  exact Nat.lt_mul_div_succ _ hgrid

/-- Of the two neighbours of the center, the nearer of those in the interval is taken. -/
theorem neighbour_of_pick? {k : Nat} (h : i.pick? tie grid = some k) :
    (k = i.center / grid ∨ k = i.center / grid + 1) ∧
      (i.holds (i.center / grid * grid) = true →
        i.distance (k * grid) ≤ i.distance (i.center / grid * grid)) ∧
      (i.holds ((i.center / grid + 1) * grid) = true →
        i.distance (k * grid) ≤ i.distance ((i.center / grid + 1) * grid)) := by
  have hsplit : i.center / grid * grid + i.center % grid = i.center := Nat.div_add_mod' _ _
  have hmod := Nat.mod_lt i.center hgrid
  have hnext : (i.center / grid + 1) * grid = i.center / grid * grid + grid := Nat.succ_mul _ _
  simp only [pick?] at h
  simp only [distance]
  split at h
  · split_ifs at h <;> obtain rfl := Option.some.inj h
    · refine ⟨.inl rfl, fun _ => le_rfl, fun _ => ?_⟩
      omega
    · refine ⟨.inr rfl, fun _ => ?_, fun _ => le_rfl⟩
      omega
    · refine ⟨.inr rfl, fun _ => ?_, fun _ => le_rfl⟩
      omega
    · refine ⟨.inl rfl, fun _ => le_rfl, fun _ => ?_⟩
      omega
  · rename_i hbelow habove
    obtain rfl := Option.some.inj h
    refine ⟨.inl rfl, fun _ => le_rfl, fun hholds => ?_⟩
    rw [habove] at hholds
    contradiction
  · rename_i hbelow habove
    obtain rfl := Option.some.inj h
    refine ⟨.inr rfl, fun hholds => ?_, fun _ => le_rfl⟩
    rw [hbelow] at hholds
    contradiction
  · contradiction

variable (hcenter : i.holds i.center = true)
include hcenter

/-- A point of the grid in the interval has one of the neighbours of the center in front
of it or is one itself. -/
theorem neighbour_between {n : Nat} (hn : i.holds (n * grid) = true) :
    (i.holds (i.center / grid * grid) = true ∧
        i.distance (i.center / grid * grid) ≤ i.distance (n * grid)) ∨
      i.holds ((i.center / grid + 1) * grid) = true ∧
        i.distance ((i.center / grid + 1) * grid) ≤ i.distance (n * grid) := by
  have hbelow : i.center / grid * grid ≤ i.center := Nat.div_mul_le_self _ _
  have habove := lt_of_neighbour (i := i) hgrid
  simp only [distance]
  rcases Nat.lt_or_ge (i.center / grid) n with hlt | hle
  · have hmono : (i.center / grid + 1) * grid ≤ n * grid := Nat.mul_le_mul_right grid hlt
    right
    exact ⟨holds_of_between hcenter hn habove.le hmono, by omega⟩
  · have hmono : n * grid ≤ i.center / grid * grid := Nat.mul_le_mul_right grid hle
    left
    exact ⟨holds_of_between hn hcenter hmono hbelow, by omega⟩

theorem holds_of_pick?_eq_none (h : i.pick? tie grid = none) (n : Nat) :
    i.holds (n * grid) = false := by
  obtain ⟨hbelow, habove⟩ := pick?_eq_none h
  by_contra hn
  rw [Bool.not_eq_false] at hn
  rcases neighbour_between hgrid hcenter hn with ⟨hholds, -⟩ | ⟨hholds, -⟩
  · rw [hbelow] at hholds
    contradiction
  · rw [habove] at hholds
    contradiction

theorem nearest_of_pick? {k n : Nat} (h : i.pick? tie grid = some k)
    (hn : i.holds (n * grid) = true) : i.distance (k * grid) ≤ i.distance (n * grid) := by
  obtain ⟨-, hbelow, habove⟩ := neighbour_of_pick? hgrid h
  rcases neighbour_between hgrid hcenter hn with ⟨hholds, hle⟩ | ⟨hholds, hle⟩
  · exact (hbelow hholds).trans hle
  · exact (habove hholds).trans hle

end Grid

/-- The search has ended at the multiple `k` of `10 ^ g`, on the coarsest grid up to
`10 ^ j` that has a point in the interval. -/
structure Found (i : Interval) (j g k : Nat) : Prop where
  le : g ≤ j
  bound : k ≤ i.center / 10 ^ g + 1
  nearest : ∀ n, i.holds (n * 10 ^ g) = true → i.distance (k * 10 ^ g) ≤ i.distance (n * 10 ^ g)
  coarsest : ∀ h, g < h → h ≤ j → ∀ n, i.holds (n * 10 ^ h) = false

theorem exists_found (hcenter : i.holds i.center = true) (tie : Tie) (j : Nat) :
    ∃ g k : Nat, i.search tie j = ⟨k, i.unitExponent + g⟩ ∧ i.Found j g k := by
  induction j with
  | zero =>
    refine ⟨0, i.center, by simp [search], le_rfl, by simp, fun n _ => ?_, fun h hlt hle => ?_⟩
    · simp [distance]
    · omega
  | succ j ih =>
    have hgrid : 0 < 10 ^ (j + 1) := Nat.pow_pos (by norm_num)
    have hpow : Nat.pow 10 (j + 1) = 10 ^ (j + 1) := Nat.pow_eq
    rw [search, hpow]
    cases hpick : i.pick? tie (10 ^ (j + 1)) with
    | some k =>
      refine ⟨j + 1, k, rfl, le_rfl, ?_, fun n => nearest_of_pick? hgrid hcenter hpick,
        fun h hlt hle => ?_⟩
      · rcases (neighbour_of_pick? hgrid hpick).1 with rfl | rfl <;> omega
      · omega
    | none =>
      obtain ⟨g, k, hsearch, hle, hbound, hnearest, hcoarsest⟩ := ih
      refine ⟨g, k, hsearch, by omega, hbound, hnearest, fun h hlt hle' n => ?_⟩
      rcases Nat.lt_or_eq_of_le hle' with hbefore | rfl
      · exact hcoarsest h hlt (by omega) n
      · exact holds_of_pick?_eq_none hgrid hcenter hpick n

end Points

/-- A point of the grid that has `n` places down from the top. -/
theorem Found.of_holds {i : Interval} {top g k n c : Nat} (h : i.Found top g k) (hn : 0 < n)
    (hle : n ≤ top + 1) (hc : i.holds (c * 10 ^ (top + 1 - n)) = true) :
    top + 1 - g ≤ n ∧ (n = top + 1 - g →
      i.distance (k * 10 ^ g) ≤ i.distance (c * 10 ^ (top + 1 - n))) := by
  have hg := h.le
  constructor
  · by_contra hfewer
    have hnot := h.coarsest (top + 1 - n) (by omega) (by omega) c
    rw [hc] at hnot
    contradiction
  · intro heq
    have hsame : top + 1 - n = g := by omega
    rw [hsame] at hc ⊢
    exact h.nearest c hc

/-- What the search finds has no more digits than the grid has places up to the center. -/
theorem Found.digits_le {i : Interval} {top g k : Nat} (h : i.Found top g k)
    (htop : i.center < 10 ^ (top + 1)) : k ≤ 10 ^ (top + 1 - g) := by
  have hle := h.le
  have hbound := h.bound
  have hsplit : 10 ^ (top + 1) = 10 ^ g * 10 ^ (top + 1 - g) := by
    rw [← pow_add]
    congr 1
    omega
  rw [hsplit] at htop
  have hlt : i.center / 10 ^ g < 10 ^ (top + 1 - g) := Nat.div_lt_of_lt_mul htop
  omega

end Interval

theorem lt_pow_length_toDigits (n : Nat) : n < 10 ^ (Nat.toDigits 10 n).length :=
  (Nat.length_toDigits_le_iff (by norm_num) Nat.length_toDigits_pos).mp le_rfl

/-- The place of the leading digit. -/
theorem exists_leading {n : Nat} (hn : 0 < n) :
    ∃ top : Nat, (Nat.toDigits 10 n).length - 1 = top ∧ 10 ^ top ≤ n ∧ n < 10 ^ (top + 1) := by
  have hlength : 0 < (Nat.toDigits 10 n).length := Nat.length_toDigits_pos
  refine ⟨_, rfl, ?_, ?_⟩
  · rcases Nat.eq_zero_or_pos ((Nat.toDigits 10 n).length - 1) with hzero | hpos
    · rw [hzero]
      exact hn
    · by_contra hlt
      have := (Nat.length_toDigits_le_iff (by norm_num) hpos).mpr (Nat.lt_of_not_le hlt)
      omega
  · rw [Nat.sub_add_cancel hlength]
    exact lt_pow_length_toDigits n

theorem Decimal.digits_trimZeros_le (d : Decimal) : d.trimZeros.digits ≤ d.digits := by
  fun_induction Decimal.trimZeros d with
  | case1 d h ih => exact ih.trans (Nat.div_le_self _ _)
  | case2 d h => exact le_rfl

/-- Of a power of ten, only the leading digit is left. -/
theorem Decimal.digits_trimZeros_lt {d : Decimal} {n : Nat} (hn : 0 < n) (h : d.digits ≤ 10 ^ n) :
    d.trimZeros.digits < 10 ^ n := by
  rcases Nat.lt_or_eq_of_le h with hlt | heq
  · exact d.digits_trimZeros_le.trans_lt hlt
  · obtain ⟨n, rfl⟩ := Nat.exists_eq_succ_of_ne_zero hn.ne'
    have hpos : 0 < 10 ^ n := Nat.pow_pos (by norm_num)
    have hpow : 10 ^ (n + 1) = 10 ^ n * 10 := pow_succ 10 n
    rw [Decimal.trimZeros, if_pos ⟨by omega, by omega⟩]
    have hle := Decimal.digits_trimZeros_le ⟨d.digits / 10, d.exponent + 1⟩
    simp only at hle
    omega

section Cell

variable {m : Nat} {e : Int}

theorem Interval.center_pos (hm : 0 < m) (e : Int) : 0 < (ofMantissa m e).center :=
  Nat.mul_pos hm (step_pos e)

theorem center_mul_unit (m : Nat) (e : Int) :
    ((Interval.ofMantissa m e).center : ℚ) * 10 ^ (Interval.ofMantissa m e).unitExponent =
      m * 2 ^ e := by
  rw [Interval.ofMantissa_eq]
  push_cast
  rw [mul_assoc, Interval.step_mul_unit]

theorem distance_mul_unit (m : Nat) (e : Int) (n : Nat) :
    ((Interval.ofMantissa m e).distance n : ℚ) * 10 ^ (Interval.ofMantissa m e).unitExponent =
      |(n : ℚ) * 10 ^ (Interval.ofMantissa m e).unitExponent - m * 2 ^ e| := by
  have hunit : (0 : ℚ) < 10 ^ (Interval.ofMantissa m e).unitExponent := by positivity
  rw [← center_mul_unit, ← sub_mul, abs_mul, abs_of_pos hunit, Interval.distance, Nat.cast_natAbs]
  push_cast
  rfl

/-- A decimal of `n` digits that is not below a power of ten is a point of the grid that
has `n` places down from there. -/
theorem exists_multiple {n d top : Nat} {f unit : Int} (hn : n ≤ top + 1) (hd : d < 10 ^ n)
    (hge : (10 : ℚ) ^ (unit + top) ≤ d * 10 ^ f) :
    ∃ c : Nat, (d * 10 ^ f : ℚ) = (c * 10 ^ (top + 1 - n) : Nat) * 10 ^ unit := by
  have hlt : (10 : ℚ) ^ (unit + top) < 10 ^ ((n : Int) + f) := by
    rw [zpow_add₀ (by norm_num) (n : Int) f, zpow_natCast]
    have hd : (d : ℚ) < 10 ^ n := by exact_mod_cast hd
    exact hge.trans_lt (mul_lt_mul_of_pos_right hd (by positivity))
  have hplaces : unit + top < n + f := (zpow_lt_zpow_iff_right₀ (by norm_num)).mp hlt
  obtain ⟨s, hs⟩ := Int.eq_ofNat_of_zero_le (show 0 ≤ f - unit - (top + 1 - n : Nat) by omega)
  refine ⟨d * 10 ^ s, ?_⟩
  have hf : f = (s : Int) + (top + 1 - n : Nat) + unit := by omega
  rw [hf, zpow_add₀ (by norm_num), zpow_add₀ (by norm_num), zpow_natCast, zpow_natCast]
  push_cast
  ring

/-- A decimal of `n` digits in the cell is not nearer to the center than some point in the
interval that is on the grid with `n` places. -/
theorem exists_grid_point {n d top : Nat} {f : Int} (hm : 0 < m) (hn : 0 < n)
    (hle : n ≤ top + 1) (hlow : 10 ^ top ≤ (Interval.ofMantissa m e).center) (hd : d < 10 ^ n)
    (hcell : Cell m e (d * 10 ^ f)) :
    ∃ c : Nat, (Interval.ofMantissa m e).holds (c * 10 ^ (top + 1 - n)) = true ∧
      ((Interval.ofMantissa m e).distance (c * 10 ^ (top + 1 - n)) : ℚ) *
          10 ^ (Interval.ofMantissa m e).unitExponent ≤ |(d * 10 ^ f : ℚ) - m * 2 ^ e| := by
  have hholds : ∀ {n : Nat}, (Interval.ofMantissa m e).holds n = true ↔ _ :=
    Interval.holds_iff_cell hm
  have hdistance := distance_mul_unit m e
  have hmiddle := center_mul_unit m e
  generalize Interval.ofMantissa m e = i at *
  rcases le_or_gt ((10 : ℚ) ^ (i.unitExponent + top)) (d * 10 ^ f) with hge | hlt
  · obtain ⟨c, hc⟩ := exists_multiple hle hd hge
    rw [hc] at hcell ⊢
    exact ⟨c, hholds.mpr hcell, (hdistance _).le⟩
  · have hpoint : 10 ^ (n - 1) * 10 ^ (top + 1 - n) = 10 ^ top := by
      rw [← pow_add]
      congr 1
      omega
    have hpower : ((10 ^ top : Nat) : ℚ) * 10 ^ i.unitExponent = 10 ^ (i.unitExponent + top) := by
      rw [zpow_add₀ (by norm_num), zpow_natCast, mul_comm]
      push_cast
      rfl
    have hbelow : (10 : ℚ) ^ (i.unitExponent + top) ≤ m * 2 ^ e := by
      rw [← hmiddle, ← hpower]
      gcongr
    refine ⟨10 ^ (n - 1), ?_, ?_⟩
    · rw [hpoint, hholds, hpower]
      exact hcell.of_between (cell_self m e) hlt.le hbelow
    · rw [hpoint, hdistance, hpower, abs_sub_comm, abs_sub_comm (d * 10 ^ f : ℚ),
        abs_of_nonneg (sub_nonneg.mpr hbelow)]
      exact (sub_le_sub_left hlt.le _).trans (le_abs_self _)

/-- The digits of the shortest decimal are no more than `fewest`, a decimal in the cell has
no fewer, and one that has as many is no nearer. -/
theorem exists_fewest (tie : Tie) (hm : 0 < m) (e : Int) :
    ∃ fewest : Nat, (shortest tie m e).digits < 10 ^ fewest ∧
      ∀ (n d : Nat) (f : Int), d < 10 ^ n → Cell m e (d * 10 ^ f) →
        fewest ≤ n ∧ (n = fewest →
          |(shortest tie m e).value - m * 2 ^ e| ≤ |(d * 10 ^ f : ℚ) - m * 2 ^ e|) := by
  obtain ⟨top, htop, hlow, hhigh⟩ := exists_leading (Interval.center_pos hm e)
  obtain ⟨g, k, hsearch, hfound⟩ :=
    (Interval.ofMantissa m e).exists_found (Interval.holds_center hm e) tie top
  have hshortest : shortest tie m e =
      Decimal.trimZeros ⟨k, (Interval.ofMantissa m e).unitExponent + g⟩ := by
    simp only [shortest, if_neg hm.ne', htop, hsearch]
  have hvalue : (shortest tie m e).value =
      (k * 10 ^ g : Nat) * 10 ^ (Interval.ofMantissa m e).unitExponent := by
    rw [hshortest, Decimal.value_trimZeros, Decimal.value, zpow_add₀ (by norm_num), zpow_natCast]
    push_cast
    ring
  refine ⟨top + 1 - g, ?_, fun n d f hd hcell => ?_⟩
  · have hle := hfound.le
    rw [hshortest]
    exact Decimal.digits_trimZeros_lt (by omega) (hfound.digits_le hhigh)
  have hn : 0 < n := by
    by_contra hzero
    obtain rfl : n = 0 := by omega
    obtain rfl : d = 0 := by omega
    simpa using hcell.pos hm
  rcases Nat.lt_or_ge (top + 1) n with hmany | hfew
  · exact ⟨by omega, fun heq => by omega⟩
  · obtain ⟨c, hc, hnear⟩ := exists_grid_point hm hn hfew hlow hd hcell
    obtain ⟨hle, hnearest⟩ := hfound.of_holds hn hfew hc
    refine ⟨hle, fun heq => ?_⟩
    rw [hvalue, ← distance_mul_unit]
    refine le_trans ?_ hnear
    gcongr
    exact hnearest heq

/-- No decimal in the cell has fewer digits than the shortest one, and of those with as
many digits none is nearer. -/
theorem shortest_fewest (tie : Tie) (hm : 0 < m) {n d : Nat} {f : Int} (hd : d < 10 ^ n)
    (hcell : Cell m e (d * 10 ^ f)) :
    (Nat.toDigits 10 (shortest tie m e).digits).length ≤ n ∧
      (n = (Nat.toDigits 10 (shortest tie m e).digits).length →
        |(shortest tie m e).value - m * 2 ^ e| ≤ |(d * 10 ^ f : ℚ) - m * 2 ^ e|) := by
  obtain ⟨fewest, hdigits, hfewest⟩ := exists_fewest tie hm e
  have hlength : (Nat.toDigits 10 (shortest tie m e).digits).length = fewest := by
    have hpos : 0 < fewest := by
      by_contra hzero
      obtain rfl : fewest = 0 := by omega
      have := digits_shortest_pos tie hm e
      omega
    apply le_antisymm
    · exact (Nat.length_toDigits_le_iff (by norm_num) hpos).mpr hdigits
    · exact (hfewest _ _ _ (lt_pow_length_toDigits _) (cell_shortest tie m e)).1
  rw [hlength]
  exact hfewest n d f hd hcell

end Cell

end Abacus.Double
