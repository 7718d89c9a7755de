import Abacus.Proofs.Double.Exact

/-!
Comparison of doubles. Finite doubles are compared as the numbers that they are: the
larger exponent decides, since only the least exponent has short mantissas, and then
the mantissa. Negative infinity is below every number, infinity is above, and a NaN is
neither.
-/

namespace Abacus.Double

open Float.Model Float.Model.UnpackedFloat

/-- The double is less than the number. -/
def Reading.IsBelow (reading : Reading) (q : ℚ) : Prop :=
  reading = .infinite true ∨ ∃ v, reading.value? = some v ∧ v < q

/-- The double is greater than the number. -/
def Reading.IsAbove (reading : Reading) (q : ℚ) : Prop :=
  reading = .infinite false ∨ ∃ v, reading.value? = some v ∧ q < v

section Readings

variable {reading : Reading} {q v : ℚ}

theorem Reading.isBelow_iff_lt (h : reading.value? = some v) : reading.IsBelow q ↔ v < q := by
  cases reading <;> simp_all [IsBelow, value?]

theorem Reading.isAbove_iff_lt (h : reading.value? = some v) : reading.IsAbove q ↔ q < v := by
  cases reading <;> simp_all [IsAbove, value?]

theorem Reading.isBelow_infinite_iff (negative : Bool) :
    (infinite negative).IsBelow q ↔ negative = true := by
  simp [IsBelow, value?]

theorem Reading.isAbove_infinite_iff (negative : Bool) :
    (infinite negative).IsAbove q ↔ negative = false := by
  simp [IsAbove, value?]

theorem Reading.not_isBelow_notANumber : ¬notANumber.IsBelow q := by
  simp [IsBelow, value?]

theorem Reading.not_isAbove_notANumber : ¬notANumber.IsAbove q := by
  simp [IsAbove, value?]

theorem Reading.IsBelow.not_isAbove {r : ℚ} (h : reading.IsBelow q) (hqr : q ≤ r) :
    ¬reading.IsAbove r := by
  rcases h with rfl | ⟨v, hv, hlt⟩
  · simp [isAbove_infinite_iff]
  · rw [isAbove_iff_lt hv]
    linarith

end Readings

section Canonical

variable {m n : Nat} {e f : Int}

theorem Canonical.lt_of_exponent_lt (hm : Canonical m e) (hn : Canonical n f) (h : e < f) :
    (m * 2 ^ e : ℚ) < n * 2 ^ f := by
  have hlow := hm.low
  have hnormal := hn.normal.resolve_right (by omega)
  have hmlt : (m : ℚ) < 9007199254740992 := by exact_mod_cast hm.lt
  have hnle : (4503599627370496 : ℚ) ≤ n := by exact_mod_cast hnormal
  have hpos := two_zpow_pos e
  have hdouble : (2 * 2 ^ e : ℚ) ≤ 2 ^ f := by
    rw [← two_zpow_succ]
    exact two_zpow_le h
  nlinarith

/-- Magnitudes are compared by their exponents first. -/
theorem Canonical.lt_iff (hm : Canonical m e) (hn : Canonical n f) :
    (m * 2 ^ e : ℚ) < n * 2 ^ f ↔ e < f ∨ e = f ∧ m < n := by
  rcases lt_trichotomy e f with hlt | heq | hgt
  · simp [hlt, hm.lt_of_exponent_lt hn hlt]
  · subst heq
    rw [mul_lt_mul_iff_left₀ (two_zpow_pos e), Nat.cast_lt]
    simp
  · have hback := hn.lt_of_exponent_lt hm hgt
    constructor
    · intro h
      exact absurd h hback.le.not_gt
    · omega

theorem Canonical.eq_of_value_eq (hm : Canonical m e) (hn : Canonical n f)
    (h : (m * 2 ^ e : ℚ) = n * 2 ^ f) : m = n ∧ e = f := by
  have hle := h.not_lt
  have hge := h.not_gt
  rw [hm.lt_iff hn] at hle
  rw [hn.lt_iff hm] at hge
  omega

end Canonical

section Unpacked

variable {u v : UnpackedFloat} {a b : ℚ} {m n : Nat} {e f : Int}

/-- An unpacked double as it is found in the bits of one. -/
def IsCanonical : UnpackedFloat → Prop
  | .finite _ m e _ => Canonical m e
  | _ => True

theorem isCanonical_unpack (x : Float) : IsCanonical x.toModel.unpack := by
  have hread := read_eq x
  cases hu : x.toModel.unpack with
  | finite s m e hpos =>
    rw [hu] at hread
    exact canonical_of_read hread
  | notANumber | infinity s | zero s => trivial

/-- A double with a value is zero, positive or negative. -/
theorem cases_of_value? (h : (Reading.ofUnpacked u).value? = some a) :
    (∃ s, u = .zero s ∧ a = 0) ∨
      (∃ m e hpos, u = .finite .positive m e hpos ∧ a = m * 2 ^ e) ∨
      ∃ m e hpos, u = .finite .negative m e hpos ∧ a = -(m * 2 ^ e) := by
  cases u with
  | notANumber | infinity s => simp [Reading.ofUnpacked, Reading.value?] at h
  | zero s =>
    have ha := Option.some.inj h
    rw [Nat.cast_zero, zero_mul, mul_zero] at ha
    exact Or.inl ⟨s, rfl, ha.symm⟩
  | finite s m e hpos =>
    cases s with
    | positive =>
      have ha : 1 * (m * 2 ^ e : ℚ) = a := Option.some.inj h
      rw [one_mul] at ha
      exact Or.inr (Or.inl ⟨m, e, hpos, rfl, ha.symm⟩)
    | negative =>
      have ha : -1 * (m * 2 ^ e : ℚ) = a := Option.some.inj h
      rw [neg_one_mul] at ha
      exact Or.inr (Or.inr ⟨m, e, hpos, rfl, ha.symm⟩)

theorem value_pos (h : 0 < m) (e : Int) : (0 : ℚ) < m * 2 ^ e := by
  positivity

theorem then_compare_eq_lt_iff :
    (compare e f).then (compare m n) = .lt ↔ e < f ∨ e = f ∧ m < n := by
  rw [Ordering.then_eq_lt, compare_lt_iff_lt, compare_lt_iff_lt, compare_eq_iff_eq]

theorem then_compare_eq_gt_iff :
    (compare e f).then (compare m n) = .gt ↔ f < e ∨ f = e ∧ n < m := by
  rw [Ordering.then_eq_gt, compare_gt_iff_gt, compare_gt_iff_gt, compare_eq_iff_eq, eq_comm]

theorem compare_eq_lt_iff (hu : IsCanonical u) (hv : IsCanonical v)
    (ha : (Reading.ofUnpacked u).value? = some a) (hb : (Reading.ofUnpacked v).value? = some b) :
    UnpackedFloat.compare u v = some .lt ↔ a < b := by
  rcases cases_of_value? ha with ⟨s, rfl, rfl⟩ | ⟨m, e, hm, rfl, rfl⟩ | ⟨m, e, hm, rfl, rfl⟩
  · rcases cases_of_value? hb with ⟨t, rfl, rfl⟩ | ⟨n, f, hn, rfl, rfl⟩ | ⟨n, f, hn, rfl, rfl⟩
    · simp [UnpackedFloat.compare]
    · simp [UnpackedFloat.compare, value_pos hn]
    · simp [UnpackedFloat.compare, (value_pos hn f).le]
  · have hpos := value_pos hm e
    rcases cases_of_value? hb with ⟨t, rfl, rfl⟩ | ⟨n, f, hn, rfl, rfl⟩ | ⟨n, f, hn, rfl, rfl⟩
    · simp [UnpackedFloat.compare, hpos.le]
    · rw [Canonical.lt_iff hu hv, ← then_compare_eq_lt_iff]
      exact Option.some_inj
    · have hle : -(n * 2 ^ f : ℚ) ≤ m * 2 ^ e := by linarith [value_pos hn f]
      simp [UnpackedFloat.compare, hle]
  · have hpos := value_pos hm e
    rcases cases_of_value? hb with ⟨t, rfl, rfl⟩ | ⟨n, f, hn, rfl, rfl⟩ | ⟨n, f, hn, rfl, rfl⟩
    · simp [UnpackedFloat.compare, hpos]
    · have hlt : -(m * 2 ^ e : ℚ) < n * 2 ^ f := by linarith [value_pos hn f]
      simp [UnpackedFloat.compare, hlt]
    · rw [neg_lt_neg_iff, Canonical.lt_iff hv hu, ← then_compare_eq_gt_iff,
        ← Ordering.swap_eq_lt]
      exact Option.some_inj

theorem eq_of_same_value (hu : IsCanonical u) (hv : IsCanonical v) (hne : a ≠ 0)
    (ha : (Reading.ofUnpacked u).value? = some a) (hb : (Reading.ofUnpacked v).value? = some a) :
    u = v := by
  rcases cases_of_value? ha with ⟨s, -, hzero⟩ | ⟨m, e, hm, rfl, rfl⟩ | ⟨m, e, hm, rfl, rfl⟩
  · exact absurd hzero hne
  · have hpos := value_pos hm e
    rcases cases_of_value? hb with ⟨t, -, hzero⟩ | ⟨n, f, hn, rfl, heq⟩ | ⟨n, f, hn, -, heq⟩
    · exact absurd hzero hne
    · obtain ⟨rfl, rfl⟩ := Canonical.eq_of_value_eq hu hv heq
      rfl
    · linarith [value_pos hn f]
  · have hpos := value_pos hm e
    rcases cases_of_value? hb with ⟨t, -, hzero⟩ | ⟨n, f, hn, -, heq⟩ | ⟨n, f, hn, rfl, heq⟩
    · exact absurd hzero hne
    · linarith [value_pos hn f]
    · obtain ⟨rfl, rfl⟩ := Canonical.eq_of_value_eq hu hv (neg_inj.mp heq)
      rfl

theorem compare_infinity_left (s : Sign) (hb : (Reading.ofUnpacked v).value? = some b) :
    UnpackedFloat.compare (.infinity s) v = some .lt ↔ isNegative s = true := by
  rcases cases_of_value? hb with ⟨t, rfl, -⟩ | ⟨n, f, hn, rfl, -⟩ | ⟨n, f, hn, rfl, -⟩ <;>
    cases s <;> simp [UnpackedFloat.compare, isNegative]

theorem compare_infinity_right (t : Sign) (ha : (Reading.ofUnpacked u).value? = some a) :
    UnpackedFloat.compare u (.infinity t) = some .lt ↔ isNegative t = false := by
  rcases cases_of_value? ha with ⟨s, rfl, -⟩ | ⟨m, e, hm, rfl, -⟩ | ⟨m, e, hm, rfl, -⟩ <;>
    cases t <;> simp [UnpackedFloat.compare, isNegative]

theorem compare_notANumber_right (u : UnpackedFloat) :
    UnpackedFloat.compare u .notANumber = none := by
  cases u with
  | notANumber | zero s => rfl
  | infinity s | finite s m e hpos => cases s <;> rfl

end Unpacked

section Doubles

variable {x y : Float} {a b : ℚ}

theorem isFinite_of_value? (h : (read x).value? = some a) : x.isFinite = true := by
  rw [isFinite_iff]
  cases hread : read x with
  | notANumber | infinite negative => simp [hread, Reading.value?] at h
  | finite negative m e => exact ⟨negative, m, e, rfl⟩

theorem lt_iff_compare :
    x < y ↔ UnpackedFloat.compare x.toModel.unpack y.toModel.unpack = some .lt := by
  change decide (x.toModel < y.toModel) = true ↔ _
  rw [decide_eq_true_iff]
  change UnpackedFloat.lt _ _ = true ↔ _
  rw [UnpackedFloat.lt, beq_iff_eq]

theorem lt_iff_isBelow (hy : (read y).value? = some b) : x < y ↔ (read x).IsBelow b := by
  have hu := isCanonical_unpack x
  have hv := isCanonical_unpack y
  rw [read_eq] at hy ⊢
  rw [lt_iff_compare]
  cases hx : x.toModel.unpack with
  | notANumber => simp [UnpackedFloat.compare, Reading.ofUnpacked, Reading.not_isBelow_notANumber]
  | infinity s => rw [compare_infinity_left s hy, Reading.ofUnpacked, Reading.isBelow_infinite_iff]
  | zero s =>
    rw [hx] at hu
    rw [Reading.isBelow_iff_lt rfl]
    exact compare_eq_lt_iff hu hv rfl hy
  | finite s m e hpos =>
    rw [hx] at hu
    rw [Reading.isBelow_iff_lt rfl]
    exact compare_eq_lt_iff hu hv rfl hy

theorem lt_iff_isAbove (hx : (read x).value? = some a) : x < y ↔ (read y).IsAbove a := by
  have hu := isCanonical_unpack x
  have hv := isCanonical_unpack y
  rw [read_eq] at hx ⊢
  rw [lt_iff_compare]
  cases hy : y.toModel.unpack with
  | notANumber =>
    simp [compare_notANumber_right, Reading.ofUnpacked, Reading.not_isAbove_notANumber]
  | infinity s => rw [compare_infinity_right s hx, Reading.ofUnpacked, Reading.isAbove_infinite_iff]
  | zero s =>
    rw [hy] at hv
    rw [Reading.isAbove_iff_lt rfl]
    exact compare_eq_lt_iff hu hv hx rfl
  | finite s m e hpos =>
    rw [hy] at hv
    rw [Reading.isAbove_iff_lt rfl]
    exact compare_eq_lt_iff hu hv hx rfl

/-- Only zero has two doubles. -/
theorem eq_of_value? (hne : a ≠ 0) (hx : (read x).value? = some a)
    (hy : (read y).value? = some a) : x = y := by
  have hu := isCanonical_unpack x
  have hv := isCanonical_unpack y
  apply read_injective
  rw [read_eq] at hx hy
  rw [read_eq, read_eq, eq_of_same_value hu hv hne hx hy]

end Doubles

end Abacus.Double
