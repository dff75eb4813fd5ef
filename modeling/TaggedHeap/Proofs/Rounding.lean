import Mathlib
import TaggedHeap.Fault
import TaggedHeap.Trace.Stats

/-! # Quotients in floating point

The quotient of two numbers of at most 53 bits is computed with a single rounding: the numbers
themselves are exact, and what is left over by the division decides which neighbour is taken. So it
differs from the exact quotient by a part in `2 ^ 53` at most.
-/

namespace TaggedHeap.Rounding

open Float.Model Float.Model.UnpackedFloat

/-- What an unpacked floating-point number stands for, unless it is infinite or no number. -/
def unpackedValue : UnpackedFloat → Option ℚ
  | .zero _ => some 0
  | .finite sign mantissa exponent _ => some (sign.apply mantissa * 2 ^ exponent)
  | .infinity _ | .notANumber => none

/-- What a floating-point number stands for, unless it is infinite or no number. -/
def value (x : Float) : Option ℚ := unpackedValue x.toModel.unpack

/-! ## Mantissas with a round bit and a sticky bit -/

/-- The round bit is half a unit, and the sticky bit is for anything less than that. -/
def Holds : ExtendedMantissa → ℚ → Prop
  | ⟨m, false, false⟩, t => t = m
  | ⟨m, false, true⟩, t => m < t ∧ t < m + 1 / 2
  | ⟨m, true, false⟩, t => t = m + 1 / 2
  | ⟨m, true, true⟩, t => m + 1 / 2 < t ∧ t < m + 1

section Mantissas

variable {em : ExtendedMantissa} {t : ℚ}

theorem Holds.floor (hHolds : Holds em t) : (em.mantissa : ℚ) ≤ t ∧ t < em.mantissa + 1 := by
  obtain ⟨m, _ | _, _ | _⟩ := em <;> simp only [Holds] at hHolds <;> constructor <;> linarith

theorem Holds.near (hHolds : Holds em t) : |(em.roundedMantissa : ℚ) - t| ≤ 1 / 2 := by
  obtain ⟨m, _ | _, _ | _⟩ := em <;>
    simp only [Holds, ExtendedMantissa.roundedMantissa, ExtendedMantissa.accuracy,
      Accuracy.roundToNearestEven] at hHolds ⊢ <;> rw [abs_le]
  · constructor <;> linarith
  · constructor <;> linarith
  · -- A tie goes to the even neighbour, and either of them is half a unit away.
    rcases m.mod_two_eq_zero_or_one with hBit | hBit <;> rw [hBit] <;> push_cast <;>
      constructor <;> linarith
  · push_cast
    constructor <;> linarith

/-- A shift by one bit halves what is held: the last bit becomes the round bit, and the round bit
adds to the sticky bit. -/
theorem Holds.shiftRightOne (hHolds : Holds em t) : Holds em.shiftRightOne (t / 2) := by
  obtain ⟨m, roundBit, stickyBit⟩ := em
  obtain ⟨half, rfl | rfl⟩ := m.even_or_odd'
  · rw [ExtendedMantissa.shiftRightOne, Nat.mul_div_cancel_left half two_pos, Nat.mul_mod_right]
    cases roundBit <;> cases stickyBit <;> simp [Holds] at hHolds ⊢ <;>
      first | linarith | constructor <;> linarith
  · rw [ExtendedMantissa.shiftRightOne, Nat.mul_add_div two_pos, Nat.mul_add_mod]
    cases roundBit <;> cases stickyBit <;> simp [Holds] at hHolds ⊢ <;>
      first | linarith | constructor <;> linarith

theorem Holds.shiftRight (hHolds : Holds em t) (k : ℕ) : Holds (em >>> k) (t / 2 ^ k) := by
  induction k with
  | zero => rwa [pow_zero, div_one]
  | succ k ih =>
    rw [pow_succ, ← div_div]
    exact ih.shiftRightOne

theorem holds_exact (m : ℕ) : Holds (.ofMantissaAndAccuracy m .exact) m := rfl

/-- What is left over by a division is compared with half of the divisor. -/
theorem holds_fraction {a b : ℕ} (hb : 0 < b) :
    Holds (.ofMantissaAndAccuracy (a / b) (accuracyOfFraction (a % b) b)) (a / b) := by
  have hPos : (0 : ℚ) < b := by exact_mod_cast hb
  have hSplit : (a : ℚ) / b = (a / b : ℕ) + (a % b : ℕ) / b := by
    rw [div_eq_iff hPos.ne', add_mul, div_mul_cancel₀ _ hPos.ne']
    exact_mod_cast (Nat.div_add_mod' a b).symm
  have hLess : ((a % b : ℕ) : ℚ) / b < 1 := by
    rw [div_lt_one hPos]
    exact_mod_cast Nat.mod_lt a hb
  rw [hSplit, accuracyOfFraction]
  split_ifs with hZero
  · rw [hZero, Nat.cast_zero, zero_div, add_zero]
    exact holds_exact _
  · have hMore : 0 < ((a % b : ℕ) : ℚ) / b :=
      div_pos (by exact_mod_cast Nat.pos_of_ne_zero hZero) hPos
    rcases lt_trichotomy (2 * (a % b)) b with hHalf | hHalf | hHalf
    · have : ((a % b : ℕ) : ℚ) / b < 1 / 2 := by
        rw [div_lt_div_iff₀ hPos two_pos, one_mul, mul_comm]
        exact_mod_cast hHalf
      rw [compare_lt_iff_lt.mpr hHalf]
      constructor <;> linarith
    · rw [compare_eq_iff_eq.mpr hHalf]
      change _ = _
      congr 1
      rw [div_eq_div_iff hPos.ne' two_ne_zero, one_mul, mul_comm]
      exact_mod_cast hHalf
    · have : 1 / 2 < ((a % b : ℕ) : ℚ) / b := by
        rw [div_lt_div_iff₀ two_pos hPos, one_mul, mul_comm]
        exact_mod_cast hHalf
      rw [compare_gt_iff_gt.mpr hHalf]
      constructor <;> linarith

end Mantissas

/-! ## Normal numbers -/

/-- A number above zero whose mantissa has 53 bits. -/
structure Normal (x : Float.Model) (m : ℕ) (e : ℤ) : Prop where
  unpack : ∃ hPos, x.unpack = .finite .positive m e hPos
  lower : 2 ^ 52 ≤ m
  upper : m < 2 ^ 53

section Normal

variable {m s : ℕ} {e : ℤ} {accuracy : Accuracy} {t : ℚ}

theorem log2_of_bits {m n : ℕ} (hLower : 2 ^ n ≤ m) (hUpper : m < 2 ^ (n + 1)) : m.log2 = n :=
  (Nat.log2_eq_iff (by have := Nat.two_pow_pos n; omega)).mpr ⟨hLower, hUpper⟩

/-- The exponent is stored with an offset of 1075, and the first bit of the mantissa is not. -/
theorem pack_of_bits {biased : ℕ} (hLower : 2 ^ 52 ≤ m) (hUpper : m < 2 ^ 53)
    (hBiased : (biased : ℤ) = e + 1075) (hHigh : biased < 2047) (hPos : 0 < m) :
    UnpackedFloat.pack .binary64 (.finite .positive m e hPos) =
      packComponents .binary64 .positive (BitVec.ofNat 11 biased) (BitVec.ofNat 52 m) := by
  have hBits : m.log2 + 1 = Format.binary64.mantissaBits := by
    rw [log2_of_bits hLower hUpper]
    rfl
  have hBias : (e + (Format.binary64.exponentBias : ℤ) + (52 : ℕ)).toNat = biased := by
    change (e + 1023 + 52).toNat = biased
    omega
  rw [UnpackedFloat.pack]
  dsimp only
  rw [hBias, if_neg (show ¬ 2 ^ 11 ≤ biased + 1 by omega), if_pos hBits]

theorem unpack_packComponents {biased : ℕ} (hLower : 2 ^ 52 ≤ m) (hUpper : m < 2 ^ 53)
    (hLow : 0 < biased) (hHigh : biased < 2047) (hPos : 0 < m) :
    UnpackedFloat.unpack .binary64
      (packComponents .binary64 .positive (BitVec.ofNat 11 biased) (BitVec.ofNat 52 m)) =
        .finite .positive m (biased - 1075) hPos := by
  have hExponent : (BitVec.ofNat 11 biased).toNat = biased := by
    rw [BitVec.toNat_ofNat, Nat.mod_eq_of_lt (by omega)]
  have hFinite : BitVec.ofNat 11 biased ≠ -1#11 := by
    intro hEq
    have hAll : biased = 2047 := hExponent.symm.trans (congrArg BitVec.toNat hEq)
    omega
  have hNormal : BitVec.ofNat 11 biased ≠ 0#11 := by
    intro hEq
    have hNone : biased = 0 := hExponent.symm.trans (congrArg BitVec.toNat hEq)
    omega
  have hMantissa : (1#1 ++ BitVec.ofNat 52 m).toNat = m := by
    rw [BitVec.toNat_append, ← Nat.shiftLeft_add_eq_or_of_lt (BitVec.isLt _), BitVec.toNat_ofNat]
    change 2 ^ 52 + m % 2 ^ 52 = m
    omega
  rw [UnpackedFloat.unpack]
  simp only [unpackMantissa_packComponents, unpackExponent_packComponents,
    unpackSign_packComponents, if_neg hFinite, if_neg hNormal, hExponent, hMantissa]
  rfl

theorem normal_pack (hLower : 2 ^ 52 ≤ m) (hUpper : m < 2 ^ 53) (hLow : -1074 ≤ e) (hHigh : e ≤ 971)
    (hPos : 0 < m) : Normal (.pack (.finite .positive m e hPos)) m e := by
  obtain ⟨biased, hBiased⟩ := Int.eq_ofNat_of_zero_le (show 0 ≤ e + 1075 by omega)
  refine ⟨⟨hPos, ?_⟩, hLower, hUpper⟩
  change UnpackedFloat.unpack .binary64 (UnpackedFloat.pack .binary64 _) = _
  rw [pack_of_bits hLower hUpper hBiased.symm (by omega),
    unpack_packComponents hLower hUpper (by omega) (by omega) hPos]
  congr 1
  omega

/-! ## Rounding -/

theorem shiftToTargetExponent_eq (hLog : m.log2 = 52 + s) (hLow : -1074 ≤ e + s) :
    shiftToTargetExponent .binary64 m e accuracy =
      (ExtendedMantissa.ofMantissaAndAccuracy m accuracy >>> s, e + s) := by
  have hTarget : Format.binary64.targetExponent (totalExponent m e) = e + s := by
    rw [Format.targetExponent, totalExponent, hLog]
    change max (((52 + s : ℕ) : ℤ) + 1 + e - 53) (-1074) = e + s
    omega
  rw [shiftToTargetExponent, hTarget]
  dsimp only [shiftToExponent]
  rw [show (e + s - e).toNat = s by omega]

theorem mantissa_ofMantissaAndAccuracy :
    (ExtendedMantissa.ofMantissaAndAccuracy m accuracy).mantissa = m := by
  rcases accuracy with _ | (_ | _ | _) <;> rfl

theorem Holds.bits (hHolds : Holds (.ofMantissaAndAccuracy m accuracy) t) (hLog : m.log2 = 52 + s) :
    2 ^ 52 ≤ t / 2 ^ s ∧ t / 2 ^ s < 2 ^ 53 := by
  obtain ⟨hFloor, hCeil⟩ := hHolds.floor
  rw [mantissa_ofMantissaAndAccuracy] at hFloor hCeil
  have hBits : 2 ^ (52 + s) ≤ m ∧ m < 2 ^ (52 + s + 1) :=
    (Nat.log2_eq_iff (by rintro rfl; rw [Nat.log2_zero] at hLog; omega)).mp hLog
  have hPow : (0 : ℚ) < 2 ^ s := by positivity
  constructor
  · rw [le_div_iff₀ hPow, ← pow_add]
    exact le_trans (by exact_mod_cast hBits.1) hFloor
  · rw [div_lt_iff₀ hPow, ← pow_add, show 53 + s = 52 + s + 1 by omega]
    exact hCeil.trans_le (by exact_mod_cast hBits.2)

/-- A normal number that stands for `r * 2 ^ e`, where `r` may be `2 ^ 53`. -/
def Stands (x : Float.Model) (r : ℕ) (e : ℤ) : Prop :=
  ∃ m e', Normal x m e' ∧ (m : ℚ) * 2 ^ e' = r * 2 ^ e ∧ e ≤ e' ∧ e' ≤ e + 1

/-- A mantissa that has been rounded up to `2 ^ 53` is brought back to 53 bits. -/
theorem exists_carried {r : ℕ} (hLeast : 2 ^ 52 ≤ r) (hMost : r ≤ 2 ^ 53) (hLow : -1074 ≤ e) :
    ∃ m e', shiftToTargetExponent .binary64 r e .exact = (⟨m, false, false⟩, e') ∧
      2 ^ 52 ≤ m ∧ m < 2 ^ 53 ∧ (m : ℚ) * 2 ^ e' = r * 2 ^ e ∧ e ≤ e' ∧ e' ≤ e + 1 := by
  rcases hMost.lt_or_eq with hBits | rfl
  · have hLog : r.log2 = 52 + 0 := log2_of_bits hLeast hBits
    refine ⟨r, e, ?_, hLeast, hBits, rfl, le_rfl, by omega⟩
    rw [shiftToTargetExponent_eq hLog (by omega), Nat.cast_zero, add_zero]
    rfl
  · have hLog : (2 ^ 53 : ℕ).log2 = 52 + 1 := Nat.log2_two_pow
    refine ⟨2 ^ 52, e + 1, ?_, le_rfl, by decide, ?_, by omega, le_rfl⟩
    · rw [shiftToTargetExponent_eq hLog (by omega)]
      rfl
    · rw [zpow_add_one₀ two_ne_zero]
      push_cast
      linarith

/-- What is held loses `s` bits, and the mantissa that is taken is half a unit away at most. -/
theorem exists_stands_round (hLog : m.log2 = 52 + s) (hLow : -1074 ≤ e + s) (hHigh : e + s ≤ 970)
    (hHolds : Holds (.ofMantissaAndAccuracy m accuracy) t) :
    ∃ r : ℕ, |(r : ℚ) - t / 2 ^ s| ≤ 1 / 2 ∧
      Stands (.pack (roundWithAccuracy .binary64 .positive m e accuracy)) r (e + s) := by
  obtain ⟨hLower, hUpper⟩ := hHolds.bits hLog
  have hNear := (hHolds.shiftRight s).near
  rw [roundWithAccuracy, shiftToTargetExponent_eq hLog hLow]
  dsimp only
  generalize (ExtendedMantissa.ofMantissaAndAccuracy m accuracy >>> s).roundedMantissa = r at *
  have hLeast : 2 ^ 52 ≤ r := by
    have hNext : ((2 ^ 52 : ℕ) : ℚ) < (r + 1 : ℕ) := by push_cast; linarith [(abs_le.mp hNear).1]
    exact Nat.lt_succ_iff.mp (Nat.cast_lt.mp hNext)
  have hMost : r ≤ 2 ^ 53 := by
    have hNext : (r : ℚ) < (2 ^ 53 + 1 : ℕ) := by push_cast; linarith [(abs_le.mp hNear).2]
    exact Nat.lt_succ_iff.mp (Nat.cast_lt.mp hNext)
  obtain ⟨m', e', hCarried, hLower', hUpper', hValue, hLow', hHigh'⟩ :=
    exists_carried hLeast hMost hLow
  refine ⟨r, hNear, m', e', ?_, hValue, hLow', hHigh'⟩
  rw [hCarried]
  dsimp only
  rw [dif_neg (by omega)]
  exact normal_pack hLower' hUpper' (by omega) (by omega) _

/-- Nothing is lost if only zeros are dropped. -/
theorem stands_round_exact (hLower : 2 ^ 52 ≤ m) (hUpper : m < 2 ^ 53) (hLow : -1074 ≤ e + s)
    (hHigh : e + s ≤ 970) :
    Stands (.pack (roundWithAccuracy .binary64 .positive (m * 2 ^ s) e .exact)) m (e + s) := by
  have hLog : (m * 2 ^ s).log2 = 52 + s := by
    refine log2_of_bits ?_ ?_
    · rw [pow_add]
      exact Nat.mul_le_mul_right _ hLower
    · rw [Nat.add_right_comm, pow_add]
      exact Nat.mul_lt_mul_of_pos_right hUpper (Nat.two_pow_pos s)
  obtain ⟨r, hNear, hStands⟩ := exists_stands_round hLog hLow hHigh (holds_exact _)
  obtain rfl : r = m := by
    rw [Nat.cast_mul, Nat.cast_pow, Nat.cast_ofNat, mul_div_cancel_right₀ _ (by positivity),
      abs_le] at hNear
    have hLess : (r : ℚ) < (m + 1 : ℕ) := by push_cast; linarith
    have hMore : (m : ℚ) < (r + 1 : ℕ) := by push_cast; linarith
    rw [Nat.cast_lt] at hLess hMore
    omega
  exact hStands

end Normal

/-! ## Numbers and their quotients -/

section Numbers

variable {x y : Float} {m n k : ℕ} {e f : ℤ}

theorem ofUInt64_eq_round (hPos : 0 < n) (hBits : n < 2 ^ 53) :
    UnpackedFloat.ofUInt64 .binary64 n.toUInt64 = UnpackedFloat.round .binary64 .positive n 0 := by
  have hWord : n.toUInt64.toNat = n := UInt64.toNat_ofNat_of_lt' (hBits.trans (by decide))
  have hSign : compare (n : ℤ) 0 = .gt := compare_gt_iff_gt.mpr (by omega)
  rw [UnpackedFloat.ofUInt64, UnpackedFloat.ofNat, UnpackedFloat.ofInt, UnpackedFloat.normalize,
    hWord, hSign]
  rfl

/-- The first bit of a number is moved to its place, and no bit is lost. -/
theorem exists_stands_toFloat (hPos : 0 < n) (hBits : n < 2 ^ 53) :
    ∃ k : ℕ, k ≤ 52 ∧ Stands n.toUInt64.toFloat.toModel (n * 2 ^ k) (-k) := by
  have hLog : n.log2 ≤ 52 := Nat.lt_succ_iff.mp ((Nat.log2_lt hPos.ne').mpr hBits)
  obtain ⟨hFirst, hLast⟩ := (Nat.log2_eq_iff hPos.ne').mp (rfl : n.log2 = n.log2)
  obtain ⟨k, hShift⟩ := Nat.exists_eq_add_of_le hLog
  have hRound : UnpackedFloat.round .binary64 .positive n 0 =
      roundWithAccuracy .binary64 .positive (n * 2 ^ k * 2 ^ 0) (-k) .exact := by
    have hTarget : Format.binary64.targetExponent (totalExponent n 0) = -k := by
      change max ((n.log2 : ℤ) + 1 + 0 - 53) (-1074) = -k
      omega
    rw [UnpackedFloat.round, hTarget, decreaseExponent]
    dsimp only
    rw [show (0 - -(k : ℤ)).toNat = k by omega, Nat.shiftLeft_eq, pow_zero, mul_one, zero_sub]
  have hLower : 2 ^ 52 ≤ n * 2 ^ k := by
    rw [hShift, pow_add]
    exact Nat.mul_le_mul_right _ hFirst
  have hUpper : n * 2 ^ k < 2 ^ 53 := by
    rw [show 53 = n.log2 + 1 + k by omega, pow_add]
    exact Nat.mul_lt_mul_of_pos_right hLast (Nat.two_pow_pos k)
  have hStands := stands_round_exact (s := 0) (e := -k) hLower hUpper (by omega) (by omega)
  rw [Nat.cast_zero, add_zero] at hStands
  refine ⟨k, by omega, ?_⟩
  change Stands (.pack (UnpackedFloat.ofUInt64 .binary64 n.toUInt64)) _ _
  rwa [ofUInt64_eq_round hPos hBits, hRound]

theorem stands_mul_one (hNormal : Normal x.toModel m e) (hLow : -1074 ≤ e) (hHigh : e ≤ 970) :
    Stands (x * Float.exactlyRepresentablePowersOfTen[0]).toModel m e := by
  obtain ⟨⟨hPos, hUnpack⟩, hLower, hUpper⟩ := hNormal
  have hOne : Float.exactlyRepresentablePowersOfTen[0].toModel.unpack =
      .finite .positive (2 ^ 52) (-52) (by decide) := rfl
  have hExponent : e + -52 + (52 : ℕ) = e := by omega
  have hStands := stands_round_exact (s := 52) (e := e + -52) hLower hUpper (by omega) (by omega)
  rw [hExponent] at hStands
  change Stands (.pack (UnpackedFloat.mul .binary64 x.toModel.unpack _)) m e
  rw [hUnpack, hOne]
  exact hStands

/-- A number of at most 53 bits is its own floating-point number. -/
theorem exists_normal_ofNat (hPos : 0 < n) (hBits : n < 2 ^ 53) :
    ∃ m e, Normal (Float.ofNat n).toModel m e ∧ (m : ℚ) * 2 ^ e = n ∧ -52 ≤ e ∧ e ≤ 2 := by
  obtain ⟨k, hk, m, e, hNormal, hValue, hLow, hHigh⟩ := exists_stands_toFloat hPos hBits
  obtain ⟨m', e', hNormal', hValue', hLow', hHigh'⟩ :=
    stands_mul_one hNormal (by omega) (by omega)
  refine ⟨m', e', ?_, ?_, by omega, by omega⟩
  · change Normal (Float.ofScientific n false 0).toModel m' e'
    rw [Float.ofScientific, dif_pos ⟨hBits, by decide⟩]
    exact hNormal'
  · rw [hValue', hValue, Nat.cast_mul, zpow_neg, zpow_natCast, Nat.cast_pow, Nat.cast_ofNat,
      mul_inv_cancel_right₀ (by positivity)]

theorem divCore_eq (hm : m.log2 = 52) (hk : k.log2 = 52) (hLow : -1000 ≤ e - f) :
    divCore .binary64 m e k f =
      (m * 2 ^ 53 / k, e - f - 53, accuracyOfFraction (m * 2 ^ 53 % k) k) := by
  have hTarget : min (e - f)
      (Format.binary64.targetExponent (totalExponent m e - totalExponent k f)) = e - f - 53 := by
    rw [Format.targetExponent, totalExponent, totalExponent, hm, hk]
    change min (e - f) (max ((52 : ℕ) + 1 + e - ((52 : ℕ) + 1 + f) - 53) (-1074)) = e - f - 53
    omega
  rw [divCore, hTarget, show (e - f - (e - f - 53)).toNat = 53 by omega, Nat.shiftLeft_eq]

/-- A quotient of two mantissas has 53 or 54 bits. -/
theorem exists_log2_quotient (hm : 2 ^ 52 ≤ m) (hm' : m < 2 ^ 53) (hk : 2 ^ 52 ≤ k)
    (hk' : k < 2 ^ 53) : ∃ s ≤ 1, (m * 2 ^ 53 / k).log2 = 52 + s := by
  have hPos : 0 < k := by omega
  have hLower : 2 ^ 52 ≤ m * 2 ^ 53 / k := by
    rw [Nat.le_div_iff_mul_le hPos]
    exact Nat.mul_le_mul hm hk'.le
  have hUpper : m * 2 ^ 53 / k < 2 ^ 54 := by
    rw [Nat.div_lt_iff_lt_mul hPos]
    omega
  rcases lt_or_ge (m * 2 ^ 53 / k) (2 ^ 53) with hBits | hBits
  · exact ⟨0, by omega, log2_of_bits hLower hBits⟩
  · exact ⟨1, le_rfl, log2_of_bits hBits hUpper⟩

/-- The quotient of two normal numbers is as near as the mantissa allows. -/
theorem exists_value_div (hx : Normal x.toModel m e) (hy : Normal y.toModel k f)
    (hLow : -1000 ≤ e - f) (hHigh : e - f ≤ 1000) :
    ∃ u, value (x / y) = some u ∧
      |u - m * 2 ^ e / (k * 2 ^ f)| ≤ m * 2 ^ e / (k * 2 ^ f) / 2 ^ 53 := by
  obtain ⟨⟨hPosX, hUnpackX⟩, hm, hm'⟩ := hx
  obtain ⟨⟨hPosY, hUnpackY⟩, hk, hk'⟩ := hy
  obtain ⟨s, hs, hLog⟩ := exists_log2_quotient hm hm' hk hk'
  have hHolds := holds_fraction (a := m * 2 ^ 53) hPosY
  obtain ⟨r, hNear, m', e', ⟨⟨hPos, hUnpack⟩, _, _⟩, hValue, _, _⟩ :=
    exists_stands_round (e := e - f - 53) hLog (by omega) (by omega) hHolds
  have hBits := (hHolds.bits hLog).1
  refine ⟨m' * 2 ^ e', ?_, ?_⟩
  · change unpackedValue (Float.Model.pack (UnpackedFloat.div .binary64 x.toModel.unpack
      y.toModel.unpack)).unpack = _
    rw [hUnpackX, hUnpackY, UnpackedFloat.div]
    dsimp only
    rw [divCore_eq (log2_of_bits hm hm') (log2_of_bits hk hk') hLow]
    change unpackedValue (Float.Model.pack (roundWithAccuracy .binary64 .positive ..)).unpack = _
    rw [hUnpack]
    rfl
  · have hScale : (0 : ℚ) < 2 ^ (e - f - 53 + s) := by positivity
    have hExact : (m : ℚ) * 2 ^ e / (k * 2 ^ f) =
        ((m * 2 ^ 53 : ℕ) / k : ℚ) / 2 ^ s * 2 ^ (e - f - 53 + s) := by
      rw [zpow_add₀ two_ne_zero, zpow_sub₀ two_ne_zero, zpow_sub₀ two_ne_zero, zpow_natCast,
        Nat.cast_mul, Nat.cast_pow]
      field_simp
      norm_num
    have hHalf : (1 : ℚ) / 2 ≤ ((m * 2 ^ 53 : ℕ) / k : ℚ) / 2 ^ s / 2 ^ 53 := by
      rw [le_div_iff₀ (by positivity)]
      exact le_trans (by norm_num) hBits
    rw [hValue, hExact, ← sub_mul, abs_mul, abs_of_pos hScale, mul_div_right_comm]
    exact mul_le_mul_of_nonneg_right (hNear.trans hHalf) hScale.le

/-- The quotient of two numbers of at most 53 bits is off by a part in `2 ^ 53` at most. -/
theorem exists_value_quotient (hn : n < 2 ^ 53) (hk : 0 < k) (hk' : k < 2 ^ 53) :
    ∃ u, value (Float.ofNat n / Float.ofNat k) = some u ∧ |u - n / k| ≤ n / k / 2 ^ 53 := by
  obtain ⟨m₁, f, hy, hValueY, _, _⟩ := exists_normal_ofNat hk hk'
  rcases n.eq_zero_or_pos with rfl | hPos
  · obtain ⟨⟨_, hUnpack⟩, _, _⟩ := hy
    have hZero : (Float.ofNat 0).toModel.unpack = .zero .positive := rfl
    refine ⟨0, ?_, by simp⟩
    change unpackedValue (Float.Model.pack (UnpackedFloat.div .binary64
      (Float.ofNat 0).toModel.unpack (Float.ofNat k).toModel.unpack)).unpack = _
    rw [hZero, hUnpack, UnpackedFloat.div]
    rfl
  · obtain ⟨m, e, hx, hValueX, _, _⟩ := exists_normal_ofNat hPos hn
    have hDiv := exists_value_div hx hy (by omega) (by omega)
    rwa [hValueX, hValueY] at hDiv

/-- The error is too small to reach the next whole number. -/
theorem lt_one_of_near {u : ℚ} (hLess : n < k) (hk : k < 2 ^ 53)
    (hNear : |u - n / k| ≤ n / k / 2 ^ 53) : u < 1 := by
  have hPos : (0 : ℚ) < k := by exact_mod_cast (Nat.zero_le n).trans_lt hLess
  have hRoom : (n : ℚ) / k + n / k / 2 ^ 53 < 1 := by
    have hLess' : ((n * 2 ^ 53 + n : ℕ) : ℚ) < (k * 2 ^ 53 : ℕ) := Nat.cast_lt.mpr (by omega)
    push_cast at hLess'
    rw [div_div, ← mul_div_mul_right (n : ℚ) k (pow_ne_zero 53 two_ne_zero), ← add_div,
      div_lt_one (by positivity)]
    exact hLess'
  linarith [(abs_le.mp hNear).2]

end Numbers

end TaggedHeap.Rounding
