import Mathlib.Tactic.LinearCombination
import Abacus.Double.Remainder
import Abacus.Proofs.Double.Rounding

/-!
Operations on doubles that are integers. Rounding keeps every integer up to
`2 ^ 53` in absolute value, so an operation whose exact result is such an integer
has this integer as its result. The sign of a result that is zero is left open.
-/

namespace Abacus.Double

open Float.Model Float.Model.UnpackedFloat

/-- The mantissa and the exponent of the double for a natural number up to `2 ^ 53`. -/
structure Whole (m : Nat) (e : Int) (n : Nat) : Prop where
  value : (m * 2 ^ e : ℚ) = n
  shape : m = 0 ∧ e = -1074 ∨
    4503599627370496 ≤ m ∧ m < 9007199254740992 ∧ -52 ≤ e ∧ e ≤ 1

def signed (negative : Bool) (n : Nat) : Int :=
  if negative then -n else n

/-- The reading is that of the integer, with either sign when the integer is zero. -/
def Reading.IsInteger (reading : Reading) (n : Int) : Prop :=
  ∃ negative m e k, reading = .finite negative m e ∧ Whole m e k ∧ n = signed negative k

/-- The number that a finite double is. -/
def Reading.value? : Reading → Option ℚ
  | .finite negative m e => some ((if negative then -1 else 1) * (m * 2 ^ e))
  | _ => none

theorem Reading.IsInteger.value?_eq {reading : Reading} {n : Int} (h : reading.IsInteger n) :
    reading.value? = some (n : ℚ) := by
  obtain ⟨negative, m, e, k, rfl, hw, rfl⟩ := h
  rw [value?, hw.value]
  cases negative <;> simp [signed]

section Whole

variable {m n : Nat} {e : Int}

theorem Whole.canonical (h : Whole m e n) : Canonical m e := by
  rcases h.shape with ⟨rfl, rfl⟩ | ⟨hlow, hhigh, hleast, hmost⟩
  · constructor <;> omega
  · constructor <;> omega

theorem whole_zero : Whole 0 (-1074) 0 :=
  ⟨by simp, Or.inl ⟨rfl, rfl⟩⟩

theorem Whole.eq_zero_iff (h : Whole m e n) : n = 0 ↔ m = 0 := by
  have hpos := two_zpow_pos e
  have hvalue := h.value
  constructor
  · rintro rfl
    simpa [hpos.ne'] using hvalue
  · rintro rfl
    simpa using hvalue.symm

/-- Every natural number up to `2 ^ 53` has a double. -/
theorem exists_whole (h : n ≤ 2 ^ 53) : ∃ m e, Whole m e n := by
  rcases Nat.eq_zero_or_pos n with rfl | hpos
  · exact ⟨0, -1074, whole_zero⟩
  · rcases Nat.lt_or_eq_of_le h with hlt | rfl
    · have hlog : n.log2 ≤ 52 := Nat.le_of_lt_succ ((Nat.log2_lt hpos.ne').mpr hlt)
      obtain ⟨k, hk⟩ := Nat.exists_eq_add_of_le hlog
      have hlow : 2 ^ n.log2 ≤ n := Nat.log2_self_le hpos.ne'
      have hhigh : n < 2 ^ (n.log2 + 1) := Nat.lt_log2_self
      have hsplit : 2 ^ n.log2 * 2 ^ k = 4503599627370496 := by
        rw [← Nat.pow_add, ← hk]
      refine ⟨n * 2 ^ k, -k, ?_, Or.inr ⟨?_, ?_, by omega, by omega⟩⟩
      · push_cast
        rw [zpow_neg, zpow_natCast]
        field_simp
      · rw [← hsplit]
        exact Nat.mul_le_mul_right _ hlow
      · calc n * 2 ^ k
          _ < 2 ^ (n.log2 + 1) * 2 ^ k := Nat.mul_lt_mul_of_pos_right hhigh (by positivity)
          _ = 9007199254740992 := by rw [pow_succ, Nat.mul_right_comm, hsplit]
    · exact ⟨4503599627370496, 1, by norm_num, Or.inr (by omega)⟩

end Whole

section Round

variable {m : Nat} {e : Int}

theorem two_zpow_add (e : Int) (k : Nat) : (2 : ℚ) ^ (e + k) = 2 ^ e * 2 ^ k := by
  rw [zpow_add₀ (by norm_num), zpow_natCast]

theorem targetExponent_binary64 (total : Int) :
    Format.binary64.targetExponent total = max (total - 53) (-1074) := rfl

theorem log2_normal {m : Nat} (hlow : 4503599627370496 ≤ m) (hhigh : m < 9007199254740992) :
    m.log2 = 52 :=
  (Nat.log2_eq_iff (by omega)).mpr ⟨hlow, hhigh⟩

theorem log2_shift {m : Nat} (h : 0 < m) (k : Nat) : (m * 2 ^ k).log2 = m.log2 + k := by
  rw [Nat.log2_eq_iff (by positivity)]
  constructor
  · rw [Nat.pow_add]
    exact Nat.mul_le_mul_right _ (Nat.log2_self_le h.ne')
  · rw [Nat.add_right_comm, Nat.pow_add]
    exact Nat.mul_lt_mul_of_pos_right Nat.lt_log2_self (by positivity)

/-- A shift that drops zeros only. -/
theorem shiftRight_exact (m k : Nat) :
    (⟨m * 2 ^ k, false, false⟩ : ExtendedMantissa) >>> k = ⟨m, false, false⟩ := by
  change k.repeat ExtendedMantissa.shiftRightOne ⟨m * 2 ^ k, false, false⟩ = ⟨m, false, false⟩
  induction k generalizing m with
  | zero => simp [Nat.repeat]
  | succ k ih =>
    have hdouble : m * 2 ^ (k + 1) = m * 2 * 2 ^ k := by ring
    rw [Nat.repeat, hdouble, ih]
    simp [ExtendedMantissa.shiftRightOne]

theorem targetExponent_eq (hlow : 4503599627370496 ≤ m) (hhigh : m < 9007199254740992)
    (he : -1074 ≤ e) (k : Nat) :
    Format.binary64.targetExponent (totalExponent (m * 2 ^ k) (e - k)) = e := by
  rw [targetExponent_binary64, totalExponent, log2_shift (by omega), log2_normal hlow hhigh]
  omega

theorem shiftToTargetExponent_exact (hlow : 4503599627370496 ≤ m) (hhigh : m < 9007199254740992)
    (he : -1074 ≤ e) (k : Nat) :
    shiftToTargetExponent .binary64 (m * 2 ^ k) (e - k) .exact = (⟨m, false, false⟩, e) := by
  have hamount : (e - (e - (k : Int))).toNat = k := by omega
  rw [shiftToTargetExponent, targetExponent_eq hlow hhigh he, shiftToExponent, hamount]
  simp only [ExtendedMantissa.ofMantissaAndAccuracy, shiftRight_exact, sub_add_cancel]

theorem roundWithAccuracy_exact (s : Sign) (h : 0 < m) (hlow : 4503599627370496 ≤ m)
    (hhigh : m < 9007199254740992) (he : -1074 ≤ e) (k : Nat) :
    roundWithAccuracy .binary64 s (m * 2 ^ k) (e - k) .exact = .finite s m e h := by
  have hagain := shiftToTargetExponent_exact hlow hhigh he 0
  simp only [pow_zero, mul_one, Int.natCast_zero, Int.sub_zero] at hagain
  rw [roundWithAccuracy, shiftToTargetExponent_exact hlow hhigh he]
  simp only [ExtendedMantissa.roundedMantissa, ExtendedMantissa.accuracy,
    Accuracy.roundToNearestEven, hagain, h.ne', dif_neg, not_false_eq_true]

/-- A number with two exponents has a mantissa that is shifted from the other one. -/
theorem eq_shift {m M : Nat} {e E : Int} (h : (M * 2 ^ E : ℚ) = m * 2 ^ e) (hle : E ≤ e) :
    ∃ k : Nat, M = m * 2 ^ k ∧ E = e - k := by
  obtain ⟨k, rfl⟩ := Int.exists_add_of_le hle
  refine ⟨k, ?_, by omega⟩
  have hpos := (two_zpow_pos E).ne'
  rw [two_zpow_add, mul_left_comm, mul_comm] at h
  exact_mod_cast mul_left_cancel₀ hpos h

theorem totalExponent_shift {M : Nat} (h : 0 < M) (E : Int) (k : Nat) :
    totalExponent (M * 2 ^ k) (E - k) = totalExponent M E := by
  rw [totalExponent, totalExponent, log2_shift h]
  omega

variable {n M : Nat} {E : Int}

theorem Whole.normal (hw : Whole m e n) (hn : 0 < n) :
    4503599627370496 ≤ m ∧ m < 9007199254740992 ∧ -52 ≤ e ∧ e ≤ 1 :=
  hw.shape.resolve_left fun hzero => hn.ne' (hw.eq_zero_iff.mpr hzero.1)

/-- A mantissa of at least 53 bits is cut and never padded. -/
theorem roundWithAccuracy_whole (s : Sign) (hw : Whole m e n) (hn : 0 < n)
    (hM : 4503599627370496 ≤ M) (h : (M * 2 ^ E : ℚ) = n) :
    Reading.ofUnpacked (roundWithAccuracy .binary64 s M E .exact) =
      .finite (isNegative s) m e := by
  obtain ⟨hlow, hhigh, hleast, -⟩ := hw.normal hn
  have hle : E ≤ e := by
    by_contra hlt
    have hM' : (4503599627370496 : ℚ) ≤ M := by exact_mod_cast hM
    have hm' : (m : ℚ) < 9007199254740992 := by exact_mod_cast hhigh
    have hvalue := hw.value
    have hpos := two_zpow_pos e
    have hmono : (2 * 2 ^ e : ℚ) ≤ 2 ^ E := by
      rw [← two_zpow_succ]
      exact two_zpow_le (by omega)
    nlinarith
  obtain ⟨k, rfl, rfl⟩ := eq_shift (h.trans hw.value.symm) hle
  rw [roundWithAccuracy_exact s (by omega) hlow hhigh (by omega)]
  rfl

/-- A mantissa that is too short is padded first, and then there is nothing to cut. -/
theorem round_whole (s : Sign) (hw : Whole m e n) (hn : 0 < n) (h : (M * 2 ^ E : ℚ) = n) :
    Reading.ofUnpacked (UnpackedFloat.round .binary64 s M E) = .finite (isNegative s) m e := by
  obtain ⟨hlow, hhigh, hleast, -⟩ := hw.normal hn
  have hsame : (M * 2 ^ E : ℚ) = m * 2 ^ e := h.trans hw.value.symm
  rcases le_total E e with hle | hle
  · obtain ⟨k, rfl, rfl⟩ := eq_shift hsame hle
    have hamount : (e - (k : Int) - e).toNat = 0 := by omega
    rw [UnpackedFloat.round, targetExponent_eq hlow hhigh (by omega), decreaseExponent, hamount]
    simp only [Nat.shiftLeft_zero, Int.natCast_zero, Int.sub_zero]
    rw [roundWithAccuracy_exact s (by omega) hlow hhigh (by omega)]
    rfl
  · obtain ⟨k, rfl, rfl⟩ := eq_shift hsame.symm hle
    have hamount : (E - (E - (k : Int))).toNat = k := by omega
    have htarget := targetExponent_eq hlow hhigh (by omega : -1074 ≤ E - k) 0
    have hexact := roundWithAccuracy_exact s (by omega) hlow hhigh (by omega : -1074 ≤ E - k) 0
    simp only [pow_zero, mul_one, Int.natCast_zero, Int.sub_zero] at htarget hexact
    have hpos : 0 < M := by
      by_contra hzero
      obtain rfl : M = 0 := by omega
      omega
    rw [totalExponent_shift hpos] at htarget
    simp only [UnpackedFloat.round, htarget, decreaseExponent, hamount, Nat.shiftLeft_eq, hexact]
    rfl

end Round

section Operations

variable {u v : UnpackedFloat} {a b : Int}

theorem isInteger_zero (s : Sign) : (Reading.ofUnpacked (.zero s)).IsInteger 0 := by
  refine ⟨isNegative s, 0, -1074, 0, rfl, whole_zero, ?_⟩
  cases s <;> rfl

theorem signed_isNegative (s : Sign) (n : Nat) : signed (isNegative s) n = s.apply n := by
  cases s <;> rfl

theorem isInteger_of_eq {s : Sign} {m n : Nat} {e : Int} (hw : Whole m e n)
    (h : Reading.ofUnpacked u = .finite (isNegative s) m e) :
    (Reading.ofUnpacked u).IsInteger (s.apply n) :=
  ⟨isNegative s, m, e, n, h, hw, (signed_isNegative s n).symm⟩

/-- An integer is a zero, or it has a mantissa that is not zero. -/
theorem isInteger_cases (h : (Reading.ofUnpacked u).IsInteger a) :
    (∃ s, u = .zero s ∧ a = 0) ∨
      ∃ s m e hpos n, u = .finite s m e hpos ∧ Whole m e n ∧ 0 < n ∧ a = s.apply n := by
  obtain ⟨negative, m, e, n, hu, hw, rfl⟩ := h
  cases u with
  | notANumber => simp [Reading.ofUnpacked] at hu
  | infinity s => simp [Reading.ofUnpacked] at hu
  | zero s =>
    simp only [Reading.ofUnpacked, Reading.finite.injEq] at hu
    obtain ⟨rfl, rfl, rfl⟩ := hu
    obtain rfl : n = 0 := hw.eq_zero_iff.mpr rfl
    refine Or.inl ⟨s, rfl, ?_⟩
    cases s <;> rfl
  | finite s m' e' hpos =>
    simp only [Reading.ofUnpacked, Reading.finite.injEq] at hu
    obtain ⟨rfl, rfl, rfl⟩ := hu
    have hn : n ≠ 0 := fun hzero => hpos.ne' (hw.eq_zero_iff.mp hzero)
    exact Or.inr ⟨s, m', e', hpos, n, rfl, hw, Nat.pos_of_ne_zero hn, signed_isNegative s n⟩

/-- What an operation gives in unpacked form is what its result is. -/
theorem isInteger_ofModel_pack (h : (Reading.ofUnpacked u).IsInteger a) :
    (read (Float.ofModel (Float.Model.pack u))).IsInteger a := by
  obtain ⟨negative, m, e, n, hu, hw, rfl⟩ := h
  have hy := hw.canonical.read_assemble negative
  rw [ofModel_pack (hu.trans hy.symm), hy]
  exact ⟨negative, m, e, n, rfl, hw, rfl⟩

theorem isInteger_round (s : Sign) {M n : Nat} {E : Int} (h : (M * 2 ^ E : ℚ) = n)
    (hpos : 0 < n) (hn : n ≤ 2 ^ 53) :
    (Reading.ofUnpacked (UnpackedFloat.round .binary64 s M E)).IsInteger (s.apply n) := by
  obtain ⟨m, e, hw⟩ := exists_whole hn
  exact isInteger_of_eq hw (round_whole s hw hpos h)

theorem isInteger_normalize {M E n : Int} (zeroSign : Sign) (h : (M * 2 ^ E : ℚ) = n)
    (hn : n.natAbs ≤ 2 ^ 53) :
    (Reading.ofUnpacked (UnpackedFloat.normalize .binary64 M E zeroSign)).IsInteger n := by
  have hpos := two_zpow_pos E
  rw [UnpackedFloat.normalize]
  split
  · rename_i hlt
    have hM : (M : ℚ) < 0 := by exact_mod_cast compare_lt_iff_lt.mp hlt
    have hneg : n < 0 := by
      have hlt : (n : ℚ) < 0 := h ▸ mul_neg_of_neg_of_pos hM hpos
      exact_mod_cast hlt
    obtain ⟨p, rfl⟩ := Int.exists_eq_neg_ofNat (compare_lt_iff_lt.mp hlt).le
    obtain ⟨k, rfl⟩ := Int.exists_eq_neg_ofNat hneg.le
    have hvalue : (p * 2 ^ E : ℚ) = k := by
      push_cast at h
      linarith
    rw [Int.neg_neg, Int.toNat_natCast]
    exact isInteger_round .negative hvalue (by omega) (by omega)
  · rename_i heq
    obtain rfl : M = 0 := compare_eq_iff_eq.mp heq
    obtain rfl : n = 0 := by
      rw [Int.cast_zero, zero_mul] at h
      exact_mod_cast h.symm
    exact isInteger_zero zeroSign
  · rename_i hgt
    have hM : (0 : ℚ) < M := by exact_mod_cast compare_gt_iff_gt.mp hgt
    have hneg : 0 < n := by
      have hlt : (0 : ℚ) < n := h ▸ mul_pos hM hpos
      exact_mod_cast hlt
    obtain ⟨p, rfl⟩ := Int.eq_ofNat_of_zero_le (compare_gt_iff_gt.mp hgt).le
    obtain ⟨k, rfl⟩ := Int.eq_ofNat_of_zero_le hneg.le
    rw [Int.toNat_natCast]
    exact isInteger_round .positive (by exact_mod_cast h) (by omega) (by omega)

/-- The mantissa at a smaller exponent. -/
theorem shiftLeft_value (s : Sign) (m : Nat) {e low : Int} (h : low ≤ e) :
    (s.apply (m <<< (e - low).toNat : Nat) * 2 ^ low : ℚ) = s.apply m * 2 ^ e := by
  obtain ⟨k, rfl⟩ := Int.exists_add_of_le h
  rw [add_sub_cancel_left, Int.toNat_natCast, Nat.shiftLeft_eq, two_zpow_add]
  cases s <;> simp only [Sign.apply] <;> push_cast <;> ring

theorem apply_value (s : Sign) {m n : Nat} {e : Int} (hw : Whole m e n) :
    (s.apply m * 2 ^ e : ℚ) = s.apply n := by
  have hvalue := hw.value
  cases s
  · simp only [Sign.apply]
    push_cast
    linarith
  · exact hvalue

theorem isInteger_add (hu : (Reading.ofUnpacked u).IsInteger a)
    (hv : (Reading.ofUnpacked v).IsInteger b) (hsum : (a + b).natAbs ≤ 2 ^ 53) :
    (Reading.ofUnpacked (UnpackedFloat.add .binary64 u v)).IsInteger (a + b) := by
  rcases isInteger_cases hu with ⟨s, rfl, rfl⟩ | ⟨s, m, e, hm, k, rfl, hw, hk, rfl⟩
  · rcases isInteger_cases hv with ⟨t, rfl, rfl⟩ | ⟨t, l, f, hl, j, rfl, hw', hj, rfl⟩
    · rw [UnpackedFloat.add]
      split
      · exact isInteger_zero s
      · exact isInteger_zero .positive
    · rw [Int.zero_add]
      exact hv
  · rcases isInteger_cases hv with ⟨t, rfl, rfl⟩ | ⟨t, l, f, hl, j, rfl, hw', hj, rfl⟩
    · rw [Int.add_zero]
      exact hu
    · rw [UnpackedFloat.add]
      apply isInteger_normalize _ _ hsum
      rw [Int.cast_add, Int.cast_add, add_mul, shiftLeft_value s m (min_le_left e f),
        shiftLeft_value t l (min_le_right e f), apply_value s hw, apply_value t hw']

theorem isInteger_neg (hu : (Reading.ofUnpacked u).IsInteger a) :
    (Reading.ofUnpacked u.neg).IsInteger (-a) := by
  rcases isInteger_cases hu with ⟨s, rfl, rfl⟩ | ⟨s, m, e, hm, k, rfl, hw, hk, rfl⟩
  · exact isInteger_zero (-s)
  · have hneg := isInteger_of_eq (u := .finite (-s) m e hm) hw rfl
    cases s
    · rwa [Sign.apply, Int.neg_neg]
    · exact hneg

theorem apply_neg (s : Sign) (n : Int) : (-s).apply n = -s.apply n := by
  cases s
  · exact (Int.neg_neg n).symm
  · rfl

theorem apply_mul (s t : Sign) (m n : Nat) :
    (s * t).apply (m * n : Nat) = s.apply m * t.apply n := by
  rw [Int.natCast_mul]
  cases s <;> cases t
  · exact (Int.neg_mul_neg _ _).symm
  · exact (Int.neg_mul _ _).symm
  · exact (Int.mul_neg _ _).symm
  · rfl

theorem natAbs_apply (s : Sign) (n : Nat) : (s.apply n).natAbs = n := by
  cases s
  · exact Int.natAbs_neg n
  · rfl

theorem sub_eq_add (hu : (Reading.ofUnpacked u).IsInteger a)
    (hv : (Reading.ofUnpacked v).IsInteger b) :
    UnpackedFloat.sub .binary64 u v = UnpackedFloat.add .binary64 u v.neg := by
  rcases isInteger_cases hu with ⟨s, rfl, -⟩ | ⟨s, m, e, hm, k, rfl, -⟩
  · rcases isInteger_cases hv with ⟨t, rfl, -⟩ | ⟨t, l, f, hl, j, rfl, -⟩ <;> rfl
  · rcases isInteger_cases hv with ⟨t, rfl, -⟩ | ⟨t, l, f, hl, j, rfl, -⟩
    · rfl
    · simp only [UnpackedFloat.sub, UnpackedFloat.neg, UnpackedFloat.add, apply_neg,
        Int.sub_eq_add_neg]

theorem isInteger_mul (hu : (Reading.ofUnpacked u).IsInteger a)
    (hv : (Reading.ofUnpacked v).IsInteger b) (hproduct : (a * b).natAbs ≤ 2 ^ 53) :
    (Reading.ofUnpacked (UnpackedFloat.mul .binary64 u v)).IsInteger (a * b) := by
  rcases isInteger_cases hu with ⟨s, rfl, rfl⟩ | ⟨s, m, e, hm, k, rfl, hw, hk, rfl⟩
  · rw [Int.zero_mul]
    rcases isInteger_cases hv with ⟨t, rfl, rfl⟩ | ⟨t, l, f, hl, j, rfl, hw', hj, rfl⟩
    · exact isInteger_zero (s * t)
    · exact isInteger_zero (s * t)
  · rcases isInteger_cases hv with ⟨t, rfl, rfl⟩ | ⟨t, l, f, hl, j, rfl, hw', hj, rfl⟩
    · rw [Int.mul_zero]
      exact isInteger_zero (s * t)
    · rw [← apply_mul] at hproduct ⊢
      have hkj : k * j ≤ 2 ^ 53 := by
        rwa [natAbs_apply] at hproduct
      obtain ⟨p, g, hp⟩ := exists_whole hkj
      obtain ⟨hlow, -⟩ := hw.normal hk
      obtain ⟨hlow', -⟩ := hw'.normal hj
      have hvalue : ((m * l : Nat) * 2 ^ (e + f) : ℚ) = (k * j : Nat) := by
        push_cast
        rw [← hw.value, ← hw'.value, zpow_add₀ (by norm_num)]
        ring
      apply isInteger_of_eq hp
      exact roundWithAccuracy_whole _ hp (Nat.mul_pos hk hj) (by nlinarith) hvalue

/-- A quotient of integers that is one takes no rounding. -/
theorem divCore_exact {m l k j q : Nat} {e f : Int} (hw : Whole m e k) (hw' : Whole l f j)
    (hj : 0 < j) (hq : 0 < q) (h : k = q * j) :
    ∃ M E, divCore .binary64 m e l f = (M, E, .exact) ∧ 4503599627370496 ≤ M ∧
      (M * 2 ^ E : ℚ) = q := by
  obtain ⟨hlow, hhigh, hleast, hmost⟩ := hw.normal (h ▸ Nat.mul_pos hq hj)
  obtain ⟨hlow', hhigh', hleast', hmost'⟩ := hw'.normal hj
  have htarget : min (e - f) (Format.binary64.targetExponent
      (totalExponent m e - totalExponent l f)) = e - f - 53 := by
    rw [totalExponent, totalExponent, log2_normal hlow hhigh, log2_normal hlow' hhigh',
      targetExponent_binary64]
    omega
  have hamount : (e - f - (e - f - 53)).toNat = 53 := by omega
  obtain ⟨r, hr⟩ := Int.eq_ofNat_of_zero_le (show 0 ≤ f - e + 53 by omega)
  have hscaled : m <<< 53 = l * (q * 2 ^ r) := by
    have hvalue : (m * 2 ^ e : ℚ) = q * (l * 2 ^ f) := by
      rw [hw.value, hw'.value, h, Nat.cast_mul]
    have hpow : (2 ^ f * 2 ^ 53 : ℚ) = 2 ^ e * 2 ^ r := by
      rw [← two_zpow_add, ← two_zpow_add]
      congr 1
      omega
    have hcast : (m * 2 ^ 53 : ℚ) = l * (q * 2 ^ r) := by
      apply mul_right_cancel₀ (two_zpow_pos e).ne'
      calc (m * 2 ^ 53 * 2 ^ e : ℚ)
        _ = m * 2 ^ e * 2 ^ 53 := by ring
        _ = q * l * (2 ^ f * 2 ^ 53) := by rw [hvalue]; ring
        _ = l * (q * 2 ^ r) * 2 ^ e := by rw [hpow]; ring
    rw [Nat.shiftLeft_eq]
    exact_mod_cast hcast
  refine ⟨q * 2 ^ r, e - f - 53, ?_, ?_, ?_⟩
  · simp only [divCore, htarget, hamount, hscaled, Nat.mul_mod_right,
      Nat.mul_div_cancel_left _ (show 0 < l by omega), accuracyOfFraction, if_true]
  · by_contra hsmall
    have hlt : l * (q * 2 ^ r) < 9007199254740992 * 4503599627370496 := by nlinarith
    rw [← hscaled, Nat.shiftLeft_eq] at hlt
    omega
  · rw [show e - f - 53 = -(r : Int) by omega, zpow_neg, zpow_natCast]
    push_cast
    field_simp

theorem isInteger_div {c : Int} (hu : (Reading.ofUnpacked u).IsInteger a)
    (hv : (Reading.ofUnpacked v).IsInteger b) (hb : b ≠ 0) (hquotient : a = c * b)
    (hbound : c.natAbs ≤ 2 ^ 53) :
    (Reading.ofUnpacked (UnpackedFloat.div .binary64 u v)).IsInteger c := by
  rcases isInteger_cases hv with ⟨t, rfl, rfl⟩ | ⟨t, l, f, hl, j, rfl, hw', hj, rfl⟩
  · contradiction
  · rcases isInteger_cases hu with ⟨s, rfl, rfl⟩ | ⟨s, m, e, hm, k, rfl, hw, hk, rfl⟩
    · obtain rfl : c = 0 := (Int.mul_eq_zero.mp hquotient.symm).resolve_right hb
      exact isInteger_zero (s / t)
    · have hk' : k = c.natAbs * j := by
        have habs := congrArg Int.natAbs hquotient
        rwa [Int.natAbs_mul, natAbs_apply, natAbs_apply] at habs
      have hpos : 0 < c.natAbs := by
        by_contra hzero
        rw [Nat.eq_zero_of_not_pos hzero] at hk'
        omega
      have hc : c = (s / t).apply c.natAbs := by
        apply mul_right_cancel₀ hb
        rw [← apply_mul, ← hk', ← hquotient]
        cases s <;> cases t <;> rfl
      obtain ⟨p, g, hp⟩ := exists_whole hbound
      obtain ⟨M, E, hcore, hM, hvalue⟩ := divCore_exact hw hw' hj hpos hk'
      rw [hc, UnpackedFloat.div, hcore]
      exact isInteger_of_eq hp (roundWithAccuracy_whole _ hp hpos hM hvalue)

end Operations

section Doubles

variable {x y : Float} {a b : Int}

theorem add_isInteger (hx : (read x).IsInteger a) (hy : (read y).IsInteger b)
    (h : (a + b).natAbs ≤ 2 ^ 53) : (read (Float.add x y)).IsInteger (a + b) := by
  rw [read_eq] at hx hy
  exact isInteger_ofModel_pack (isInteger_add hx hy h)

theorem sub_isInteger (hx : (read x).IsInteger a) (hy : (read y).IsInteger b)
    (h : (a - b).natAbs ≤ 2 ^ 53) : (read (Float.sub x y)).IsInteger (a - b) := by
  rw [read_eq] at hx hy
  have hadd := isInteger_add hx (isInteger_neg hy) h
  rw [← sub_eq_add hx hy] at hadd
  exact isInteger_ofModel_pack hadd

theorem neg_isInteger (hx : (read x).IsInteger a) : (read (-x)).IsInteger (-a) := by
  rw [read_eq] at hx
  exact isInteger_ofModel_pack (isInteger_neg hx)

theorem mul_isInteger (hx : (read x).IsInteger a) (hy : (read y).IsInteger b)
    (h : (a * b).natAbs ≤ 2 ^ 53) : (read (Float.mul x y)).IsInteger (a * b) := by
  rw [read_eq] at hx hy
  exact isInteger_ofModel_pack (isInteger_mul hx hy h)

theorem div_isInteger {c : Int} (hx : (read x).IsInteger a) (hy : (read y).IsInteger b)
    (hb : b ≠ 0) (hquotient : a = c * b) (h : c.natAbs ≤ 2 ^ 53) :
    (read (Float.div x y)).IsInteger c := by
  rw [read_eq] at hx hy
  exact isInteger_ofModel_pack (isInteger_div hx hy hb hquotient h)

/-- A natural number up to `2 ^ 53` is its own nearest double. -/
theorem nearest_isInteger (negative : Bool) {num den n : Nat} (hden : 0 < den)
    (h : (num / den : ℚ) = n) (hn : n ≤ 2 ^ 53) :
    (read (nearest negative num den)).IsInteger (signed negative n) := by
  obtain ⟨m, e, hw⟩ := exists_whole hn
  have hcell : Cell m e (num / den) := by
    rw [h, ← hw.value]
    exact cell_self m e
  rw [nearest_of_cell negative hw.canonical hden hcell, hw.canonical.read_assemble]
  exact ⟨negative, m, e, n, rfl, hw, rfl⟩

theorem nearestScaled_isInteger (negative : Bool) {m n : Nat} {e : Int}
    (h : (m * 2 ^ e : ℚ) = n) (hn : n ≤ 2 ^ 53) :
    (read (nearestScaled negative m e)).IsInteger (signed negative n) := by
  have hvalue : ((descale m 1 (-e)).1 / (descale m 1 (-e)).2 : ℚ) = n := by
    rw [descale_eq Nat.one_pos, ← h, Nat.cast_one, div_one, zpow_neg, div_inv_eq_mul]
  exact nearest_isInteger negative (descale_pos Nat.one_pos (-e)) hvalue hn

theorem mantissaAt_value (m : Nat) {e low : Int} (h : low ≤ e) :
    (mantissaAt low m e * 2 ^ low : ℚ) = m * 2 ^ e := by
  obtain ⟨k, rfl⟩ := Int.exists_add_of_le h
  rw [mantissaAt, add_sub_cancel_left, Int.toNat_natCast, Nat.pow_eq, two_zpow_add]
  push_cast
  ring

theorem signed_tmod (negative negative' : Bool) (k j : Nat) :
    (signed negative k).tmod (signed negative' j) = signed negative (k % j) := by
  have htmod : (k : Int).tmod j = (k % j : Nat) := (Int.ofNat_tmod k j).symm
  cases negative <;> cases negative'
  · exact htmod
  · exact (Int.tmod_neg _ _).trans htmod
  · exact (Int.neg_tmod _ _).trans (congrArg _ htmod)
  · exact (Int.neg_tmod _ _).trans (congrArg _ ((Int.tmod_neg _ _).trans htmod))

theorem natAbs_signed (negative : Bool) (n : Nat) : (signed negative n).natAbs = n := by
  cases negative
  · rfl
  · exact Int.natAbs_neg n

/-- The remainder of mantissas at one exponent is the remainder of the numbers. -/
theorem mod_value {M L k j : Nat} {e : Int} (hk : (M * 2 ^ e : ℚ) = k)
    (hj : (L * 2 ^ e : ℚ) = j) : ((M % L : Nat) * 2 ^ e : ℚ) = (k % j : Nat) := by
  have hpos := two_zpow_pos e
  rcases Nat.eq_zero_or_pos L with rfl | hL
  · obtain rfl : j = 0 := by
      rw [Nat.cast_zero, zero_mul] at hj
      exact_mod_cast hj.symm
    rw [Nat.mod_zero, Nat.mod_zero, hk]
  · have hsplit : (M : ℚ) = L * (M / L : Nat) + (M % L : Nat) := by
      exact_mod_cast (Nat.div_add_mod M L).symm
    have hrest : ((M % L : Nat) * 2 ^ e : ℚ) = k - j * (M / L : Nat) := by
      linear_combination hk - (M / L : Nat) * hj - 2 ^ e * hsplit
    have hsmall : ((M % L : Nat) * 2 ^ e : ℚ) < j := by
      rw [← hj]
      exact mul_lt_mul_of_pos_right (by exact_mod_cast Nat.mod_lt M hL) hpos
    have hle : j * (M / L) ≤ k := by
      have hnonneg : (0 : ℚ) ≤ k - j * (M / L : Nat) := by
        rw [← hrest]
        positivity
      exact_mod_cast sub_nonneg.mp hnonneg
    have hlt : k < j * (M / L) + j := by
      rw [hrest, sub_lt_iff_lt_add'] at hsmall
      exact_mod_cast hsmall
    have hmod : k % j = k - j * (M / L) :=
      ((Nat.div_mod_unique (by omega)).mpr ⟨Nat.sub_add_cancel hle, by omega⟩).2
    rw [hmod, Nat.cast_sub hle, hrest, Nat.cast_mul]

theorem remainder_isInteger (hx : (read x).IsInteger a) (hy : (read y).IsInteger b)
    (hb : b ≠ 0) (h : (a.tmod b).natAbs ≤ 2 ^ 53) :
    (read (remainder x y)).IsInteger (a.tmod b) := by
  obtain ⟨negative, m, e, k, hread, hw, rfl⟩ := hx
  obtain ⟨negative', l, f, j, hread', hw', rfl⟩ := hy
  have hj : l ≠ 0 := by
    rintro rfl
    rw [hw'.eq_zero_iff.mpr rfl] at hb
    cases negative' <;> contradiction
  rw [signed_tmod] at h ⊢
  rw [natAbs_signed] at h
  simp only [remainder, hread, hread', if_neg hj]
  apply nearestScaled_isInteger negative _ h
  apply mod_value
  · rw [mantissaAt_value m (min_le_left e f), hw.value]
  · rw [mantissaAt_value l (min_le_right e f), hw'.value]

end Doubles

end Abacus.Double
