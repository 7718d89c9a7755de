import Mathlib
import Abacus.Double.Nearest

/-!
The bits of a double against the model of doubles in the logic, which unpacks the
bits into a sign, a mantissa and an exponent. The reading of a double is the
unpacked double, and the bits of a double that is no NaN are found again by
packing, so that a double is the one assembled from its sign and its magnitude.
-/

namespace Abacus.Double

open Float.Model Float.Model.UnpackedFloat

theorem hiddenBit_eq : hiddenBit = 4503599627370496 := rfl

theorem signBit_eq : signBit = 9223372036854775808 := rfl

theorem infiniteMagnitude_eq : infiniteMagnitude = 9218868437227405312 := rfl

theorem leastExponent_eq : leastExponent = -1074 := rfl

section Fields

variable (b : BitVec Format.binary64.numBits)

theorem toNat_unpackMantissa : (unpackMantissa b).toNat = b.toNat % 4503599627370496 := by
  simp [unpackMantissa, BitVec.extractLsb, BitVec.extractLsb']

theorem toNat_unpackExponent :
    (unpackExponent b).toNat = b.toNat / 4503599627370496 % 2048 := by
  simp [unpackExponent, BitVec.extractLsb, BitVec.extractLsb', Nat.shiftRight_eq_div_pow]

theorem toNat_unpackSign : (unpackSign b).toNat = b.toNat / 9223372036854775808 % 2 := by
  simp [unpackSign, BitVec.extractLsb, BitVec.extractLsb', Nat.shiftRight_eq_div_pow]

theorem packComponents_fields :
    packComponents .binary64 (Sign.ofBitVec (unpackSign b)) (unpackExponent b)
      (unpackMantissa b) = b := by
  have hsign : ∀ v : BitVec 1, (Sign.ofBitVec v).toBitVec = v := by decide
  simp only [packComponents, hsign, unpackSign, unpackExponent, unpackMantissa,
    BitVec.extractLsb]
  ext i hi
  grind

end Fields

def isNegative : Sign → Bool
  | .negative => true
  | .positive => false

theorem isNegative_neg (s : Sign) : isNegative (-s) = !isNegative s := by
  cases s <;> rfl

/-- What an unpacked double stands for. -/
def Reading.ofUnpacked : UnpackedFloat → Reading
  | .notANumber => .notANumber
  | .infinity sign => .infinite (isNegative sign)
  | .zero sign => .finite (isNegative sign) 0 leastExponent
  | .finite sign mantissa exponent _ => .finite (isNegative sign) mantissa exponent

theorem isNegative_unpackSign (b : BitVec Format.binary64.numBits) :
    isNegative (Sign.ofBitVec (unpackSign b)) = decide (signBit ≤ b.toNat) := by
  have hsign := toNat_unpackSign b
  have hlt : b.toNat < 18446744073709551616 := b.isLt
  rw [signBit_eq]
  by_cases hzero : unpackSign b = 0#1
  · have hnat : (unpackSign b).toNat = 0 := by rw [hzero]; rfl
    simp only [Sign.ofBitVec, hzero, if_true, isNegative]
    simp only [Bool.false_eq, decide_eq_false_iff_not]
    omega
  · have hnat : (unpackSign b).toNat ≠ 0 := fun h => hzero (BitVec.eq_of_toNat_eq h)
    simp only [Sign.ofBitVec, hzero, if_false, isNegative]
    simp only [Bool.true_eq, decide_eq_true_eq]
    omega

/-- Magnitude bits are an exponent field and a fraction. -/
theorem readMagnitude_fields (negative : Bool) {field fraction : Nat} (hfield : field < 2048)
    (hfraction : fraction < 4503599627370496) :
    readMagnitude negative (field * 4503599627370496 + fraction) =
      if field = 2047 then if fraction = 0 then .infinite negative else .notANumber
      else if field = 0 then .finite negative fraction (-1074)
      else .finite negative (4503599627370496 + fraction) (field - 1075) := by
  have hdiv : (field * 4503599627370496 + fraction) / 4503599627370496 = field := by omega
  have hmod : (field * 4503599627370496 + fraction) % 4503599627370496 = fraction := by omega
  rw [readMagnitude, hiddenBit_eq, infiniteMagnitude_eq, leastExponent_eq, hdiv, hmod]
  by_cases hall : field = 2047
  · subst hall
    by_cases hnil : fraction = 0
    · simp [hnil]
    · rw [if_pos (by omega), if_pos rfl, if_neg hnil]
  · rw [if_neg (by omega), if_neg (by omega), if_neg hall]
    split
    · rfl
    · congr 1
      omega

theorem eq_ofNat_iff {w : Nat} (v : BitVec w) (n : Nat) (hn : n < 2 ^ w) :
    v = BitVec.ofNat w n ↔ v.toNat = n := by
  rw [← BitVec.toNat_inj, BitVec.toNat_ofNat, Nat.mod_eq_of_lt hn]

theorem toNat_one_append (v : BitVec 52) : (1#1 ++ v).toNat = 4503599627370496 + v.toNat := by
  rw [BitVec.toNat_append, ← Nat.shiftLeft_add_eq_or_of_lt v.isLt]
  rfl

theorem ofUnpacked_unpack (b : BitVec Format.binary64.numBits) :
    Reading.ofUnpacked (UnpackedFloat.unpack .binary64 b) = readBits b.toNat := by
  have hmantissa := toNat_unpackMantissa b
  have hexponent := toNat_unpackExponent b
  have hbits : b.toNat < 18446744073709551616 := b.isLt
  have hones : unpackExponent b = -1#11 ↔ (unpackExponent b).toNat = 2047 :=
    eq_ofNat_iff _ 2047 (by decide)
  have hzeros : unpackExponent b = 0#11 ↔ (unpackExponent b).toNat = 0 :=
    eq_ofNat_iff _ 0 (by decide)
  have hnone : unpackMantissa b = 0#52 ↔ (unpackMantissa b).toNat = 0 :=
    eq_ofNat_iff _ 0 (by decide)
  have hsplit : b.toNat % signBit =
      (unpackExponent b).toNat * 4503599627370496 + (unpackMantissa b).toNat := by
    rw [signBit_eq]
    omega
  rw [readBits, hsplit, readMagnitude_fields _ (unpackExponent b).isLt (unpackMantissa b).isLt,
    ← isNegative_unpackSign, UnpackedFloat.unpack]
  have hbias : ((Format.binary64.exponentBias : Nat) : Int) + (52 : Nat) = 1075 := rfl
  simp only [hones, hzeros, hnone, hbias]
  split
  · split <;> rfl
  · split
    · rename_i hzero
      split
      · rename_i hnil
        rw [hnil]
        rfl
      · rw [hzero]
        rfl
    · simp only [Reading.ofUnpacked, toNat_one_append]

theorem ofUnpacked_injective {u v : UnpackedFloat}
    (h : Reading.ofUnpacked u = Reading.ofUnpacked v) : u = v := by
  have hsign : ∀ s t : Sign, isNegative s = isNegative t → s = t := by
    rintro (_ | _) (_ | _) h <;> first | rfl | contradiction
  cases u <;> cases v <;> simp only [Reading.ofUnpacked, Reading.infinite.injEq,
    Reading.finite.injEq, reduceCtorEq] at h
  case infinity.infinity s t => rw [hsign s t h]
  case notANumber.notANumber => rfl
  case zero.zero s t => rw [hsign s t h.1]
  case zero.finite hpos => omega
  case finite.zero hpos => omega
  case finite.finite s m e _ t n f _ =>
    obtain ⟨hst, rfl, rfl⟩ := h
    rw [hsign s t hst]

section Packing

variable {b : BitVec Format.binary64.numBits}

theorem packComponents_eq {e : BitVec 11} {m : BitVec 52} (he : unpackExponent b = e)
    (hm : unpackMantissa b = m) :
    packComponents .binary64 (Sign.ofBitVec (unpackSign b)) e m = b := by
  subst he hm
  exact packComponents_fields b

theorem pack_normal (s : Sign) {m : Nat} {e : Int} (h : 0 < m) (hlow : 4503599627370496 ≤ m)
    (hhigh : m < 9007199254740992) (he : e ≤ 971) :
    UnpackedFloat.pack .binary64 (.finite s m e h) =
      packComponents .binary64 s (BitVec.ofNat 11 (e + 1075).toNat) (BitVec.ofNat 52 m) := by
  have hlog : m.log2 = 52 := (Nat.log2_eq_iff (by omega)).mpr ⟨hlow, hhigh⟩
  have hbias : e + (Format.binary64.exponentBias : Int) +
      (Format.binary64.mantissaBitsWithoutImplicit : Int) = e + 1075 := by
    rw [Int.add_assoc]
    rfl
  simp only [UnpackedFloat.pack, hlog, hbias]
  rw [if_neg (by omega), if_pos (by decide)]

theorem pack_subnormal (s : Sign) {m : Nat} (h : 0 < m) (hhigh : m < 4503599627370496) :
    UnpackedFloat.pack .binary64 (.finite s m (-1074) h) =
      packComponents .binary64 s 0#11 (BitVec.ofNat 52 m) := by
  have hlog : m.log2 < 52 := (Nat.log2_lt (by omega)).mpr hhigh
  have hbits : Format.binary64.mantissaBits = 53 := rfl
  have hbias : (-1074 + (Format.binary64.exponentBias : Int) +
      (Format.binary64.mantissaBitsWithoutImplicit : Int)).toNat = 1 := rfl
  simp only [UnpackedFloat.pack, hbias, hbits]
  rw [if_neg (by decide), if_neg (by omega)]

/-- Packing gives back the bits, unless they are those of a NaN other than the chosen one. -/
theorem pack_unpack (hvalid : Format.binary64.Valid b) :
    UnpackedFloat.pack .binary64 (UnpackedFloat.unpack .binary64 b) = b := by
  have hexponent : (unpackExponent b).toNat < 2048 := (unpackExponent b).isLt
  have hmantissa : (unpackMantissa b).toNat < 4503599627370496 := (unpackMantissa b).isLt
  rw [UnpackedFloat.unpack]
  split
  · rename_i hall
    split
    · rename_i hnone
      exact packComponents_eq hall hnone
    · rename_i hsome
      exact (hvalid.eq_packedNaN hall hsome).symm
  · rename_i hall
    split
    · rename_i hzero
      split
      · rename_i hnone
        exact packComponents_eq hzero hnone
      · rename_i hsome
        have hpos : 0 < (unpackMantissa b).toNat := BitVec.toNat_pos_of_ne_zero hsome
        have hfraction : unpackMantissa b = BitVec.ofNat 52 (unpackMantissa b).toNat :=
          (eq_ofNat_iff _ _ hmantissa).mpr rfl
        rw [hzero]
        exact (pack_subnormal _ hpos hmantissa).trans (packComponents_eq hzero hfraction)
    · rename_i hsome
      have hbias : ((Format.binary64.exponentBias : Nat) : Int) + (52 : Nat) = 1075 := rfl
      have hone : (unpackExponent b).toNat ≠ 2047 :=
        fun h => hall ((eq_ofNat_iff _ 2047 (by decide)).mpr h)
      have hfield : unpackExponent b =
          BitVec.ofNat 11 ((unpackExponent b).toNat - 1075 + 1075 : Int).toNat := by
        apply (eq_ofNat_iff _ _ (by omega)).mpr
        omega
      have hfraction : unpackMantissa b =
          BitVec.ofNat 52 (4503599627370496 + (unpackMantissa b).toNat) := by
        apply BitVec.eq_of_toNat_eq
        rw [BitVec.toNat_ofNat]
        exact (Nat.add_mod_left _ _).trans (Nat.mod_eq_of_lt hmantissa) |>.symm
      simp only [toNat_one_append, hbias]
      exact (pack_normal _ (by omega) (by omega) (by omega) (by omega)).trans
        (packComponents_eq hfield hfraction)

end Packing

theorem read_eq (x : Float) : read x = Reading.ofUnpacked x.toModel.unpack :=
  (ofUnpacked_unpack x.toBits.toBitVec).symm

/-- A double is found again from what an operation gives in unpacked form. -/
theorem ofModel_pack {u : UnpackedFloat} {y : Float} (h : Reading.ofUnpacked u = read y) :
    Float.ofModel (Float.Model.pack u) = y := by
  have hu : u = y.toModel.unpack := ofUnpacked_injective (h.trans (read_eq y))
  obtain ⟨⟨bits, hvalid⟩⟩ := y
  have hbits : UnpackedFloat.pack .binary64 u = bits.toBitVec := by
    rw [hu]
    exact pack_unpack hvalid
  simp only [Float.Model.pack, hbits]

theorem read_injective {x y : Float} (h : read x = read y) : x = y :=
  calc x
    _ = Float.ofModel (Float.Model.pack x.toModel.unpack) := (ofModel_pack (read_eq x).symm).symm
    _ = y := ofModel_pack ((read_eq x).symm.trans h)

theorem valid_of_read {b : BitVec Format.binary64.numBits}
    (h : readBits b.toNat ≠ .notANumber) : Format.binary64.Valid b := by
  refine ⟨fun hall hsome => absurd ?_ h⟩
  rw [← ofUnpacked_unpack, UnpackedFloat.unpack]
  simp only [hall, hsome, if_true, if_false]
  rfl

theorem readBits_assemble (negative : Bool) {magnitude : Nat} (h : magnitude ≤ infiniteMagnitude) :
    readBits (magnitude + if negative then signBit else 0) = readMagnitude negative magnitude := by
  rw [infiniteMagnitude_eq] at h
  rw [readBits, signBit_eq]
  cases negative
  · simp only [Bool.false_eq_true, if_false]
    rw [decide_eq_false (by omega), Nat.mod_eq_of_lt (by omega)]
    rfl
  · simp only [if_true]
    rw [decide_eq_true (by omega), show (magnitude + 9223372036854775808) % 9223372036854775808 =
      magnitude by omega]

theorem read_ofBits {bits : UInt64} (h : readBits bits.toNat ≠ .notANumber) :
    read (Float.ofBits bits) = readBits bits.toNat := by
  have hpack : UnpackedFloat.pack .binary64 (UnpackedFloat.unpack .binary64 bits.toBitVec) =
      bits.toBitVec := pack_unpack (valid_of_read h)
  have hbits : (Float.ofBits bits).toBits = bits := by
    simp only [Float.toBits, Float.ofBits, Float.Model.ofBits, Float.Model.pack, hpack]
  rw [read, hbits]

theorem readMagnitude_ne_notANumber (negative : Bool) {magnitude : Nat}
    (h : magnitude ≤ infiniteMagnitude) : readMagnitude negative magnitude ≠ .notANumber := by
  rw [readMagnitude]
  simp only [Nat.not_lt.mpr h, if_false]
  split
  · simp
  · split <;> simp

theorem read_assemble (negative : Bool) {magnitude : Nat} (h : magnitude ≤ infiniteMagnitude) :
    read (assemble negative magnitude) = readMagnitude negative magnitude := by
  have hlt : (magnitude + if negative then signBit else 0) < UInt64.size := by
    rw [infiniteMagnitude_eq] at h
    rw [signBit_eq, UInt64.size]
    split <;> omega
  have hbits := readBits_assemble negative h
  rw [← UInt64.toNat_ofNat_of_lt' hlt] at hbits
  rw [← hbits]
  apply read_ofBits
  rw [hbits]
  exact readMagnitude_ne_notANumber negative h

/-- The mantissa and the exponent of a finite double. -/
structure Canonical (m : Nat) (e : Int) : Prop where
  lt : m < 9007199254740992
  low : -1074 ≤ e
  high : e ≤ 971
  normal : 4503599627370496 ≤ m ∨ e = -1074

/-- The place of `m * 2 ^ e` among the doubles from zero upwards. -/
def magnitudeOf (m : Nat) (e : Int) : Nat :=
  (e - leastExponent).toNat * hiddenBit + m

namespace Canonical

variable {m : Nat} {e : Int}

theorem magnitudeOf_lt (h : Canonical m e) : magnitudeOf m e < infiniteMagnitude := by
  obtain ⟨hlt, hlow, hhigh, -⟩ := h
  rw [magnitudeOf, hiddenBit_eq, leastExponent_eq, infiniteMagnitude_eq]
  omega

theorem readMagnitude_eq (h : Canonical m e) (negative : Bool) :
    readMagnitude negative (magnitudeOf m e) = .finite negative m e := by
  obtain ⟨hlt, hlow, hhigh, hnormal⟩ := h
  rw [magnitudeOf, hiddenBit_eq, leastExponent_eq]
  by_cases hm : 4503599627370496 ≤ m
  · have hfields : (e - -1074).toNat * 4503599627370496 + m =
        ((e - -1074).toNat + 1) * 4503599627370496 + (m - 4503599627370496) := by omega
    rw [hfields, readMagnitude_fields negative (by omega) (by omega), if_neg (by omega),
      if_neg (by omega), Reading.finite.injEq]
    exact ⟨rfl, by omega, by omega⟩
  · obtain rfl : e = -1074 := by omega
    rw [readMagnitude_fields negative (by omega) (by omega), if_neg (by omega), if_pos (by omega)]

theorem read_assemble (h : Canonical m e) (negative : Bool) :
    read (assemble negative (magnitudeOf m e)) = .finite negative m e := by
  rw [Double.read_assemble negative h.magnitudeOf_lt.le, h.readMagnitude_eq]

end Canonical

section Finite

variable {x : Float} {negative : Bool} {m : Nat} {e : Int}

theorem canonical_of_read (h : read x = .finite negative m e) : Canonical m e := by
  have hsplit : x.toBits.toNat % signBit =
      x.toBits.toNat % signBit / 4503599627370496 * 4503599627370496 +
        x.toBits.toNat % signBit % 4503599627370496 := by omega
  have hlt : x.toBits.toNat % signBit < 9223372036854775808 := Nat.mod_lt _ (by decide)
  rw [read, readBits, hsplit, readMagnitude_fields _ (by omega) (by omega)] at h
  split at h
  · split at h <;> contradiction
  · split at h
    · simp only [Reading.finite.injEq] at h
      obtain ⟨-, rfl, rfl⟩ := h
      constructor <;> omega
    · simp only [Reading.finite.injEq] at h
      obtain ⟨-, rfl, rfl⟩ := h
      constructor <;> omega

/-- A finite double is the one assembled from its reading. -/
theorem eq_assemble_of_read (h : read x = .finite negative m e) :
    x = assemble negative (magnitudeOf m e) :=
  read_injective (h.trans ((canonical_of_read h).read_assemble negative).symm)

/-- Negation turns the sign of a finite double, that of a zero included. -/
theorem read_neg (h : read x = .finite negative m e) :
    read (-x) = .finite (!negative) m e := by
  have hy := (canonical_of_read h).read_assemble (!negative)
  have hneg : Reading.ofUnpacked x.toModel.unpack.neg = .finite (!negative) m e := by
    rw [read_eq] at h
    cases hu : x.toModel.unpack with
    | notANumber => simp [hu, Reading.ofUnpacked] at h
    | infinity s => simp [hu, Reading.ofUnpacked] at h
    | zero s =>
      simp only [hu, Reading.ofUnpacked, Reading.finite.injEq] at h
      simp only [UnpackedFloat.neg, Reading.ofUnpacked, isNegative_neg, h]
    | finite s m e hpos =>
      simp only [hu, Reading.ofUnpacked, Reading.finite.injEq] at h
      simp only [UnpackedFloat.neg, Reading.ofUnpacked, isNegative_neg, h]
  have hx : -x = assemble (!negative) (magnitudeOf m e) := ofModel_pack (hneg.trans hy.symm)
  rw [hx, hy]

theorem Canonical.neg_assemble (h : Canonical m e) (negative : Bool) :
    -assemble negative (magnitudeOf m e) = assemble (!negative) (magnitudeOf m e) :=
  eq_assemble_of_read (read_neg (h.read_assemble negative))

end Finite

theorem isFinite_iff (x : Float) :
    x.isFinite = true ↔ ∃ negative m e, read x = .finite negative m e := by
  rw [read_eq, Float.isFinite, Float.Model.isFinite]
  cases x.toModel.unpack <;> simp [UnpackedFloat.isFinite, Reading.ofUnpacked]

theorem isNaN_iff (x : Float) : x.isNaN = true ↔ read x = .notANumber := by
  rw [read_eq, Float.isNaN, Float.Model.isNaN]
  cases x.toModel.unpack <;> simp [UnpackedFloat.isNaN, Reading.ofUnpacked]

theorem isInf_iff (x : Float) : x.isInf = true ↔ ∃ negative, read x = .infinite negative := by
  rw [read_eq, Float.isInf, Float.Model.isInf]
  cases x.toModel.unpack <;> simp [UnpackedFloat.isInf, Reading.ofUnpacked]

end Abacus.Double
