import DiceScript.Proofs.Number.Order
import DiceScript.Proofs.Number.Rounding

/-!
# Exact results

An operation whose exact result is the value of a double gives that double: aligning and rounding
the result lose nothing.
-/

namespace DiceScript.Binary64

open Float.Model Float.Model.UnpackedFloat

theorem two_zpow_log2_le {m : Nat} (hm : 0 < m) (e : Int) :
    (2 : ℚ) ^ ((m.log2 : Int) + e) ≤ m * 2 ^ e := by
  rw [zpow_add₀ (by norm_num), zpow_natCast]
  gcongr
  exact_mod_cast Nat.log2_self_le hm.ne'

theorem lt_two_zpow_log2 (m : Nat) (e : Int) :
    (m : ℚ) * 2 ^ e < 2 ^ ((m.log2 : Int) + e + 1) := by
  rw [add_right_comm, zpow_add₀ (by norm_num), ← Nat.cast_succ, zpow_natCast]
  gcongr
  exact_mod_cast Nat.lt_log2_self

theorem log2_add_eq {m m' : Nat} {e e' : Int} (hm : 0 < m) (hm' : 0 < m')
    (h : (m : ℚ) * 2 ^ e = m' * 2 ^ e') : (m.log2 : Int) + e = m'.log2 + e' :=
  le_antisymm (lt_of_zpow_bounds (two_zpow_log2_le hm e) h.le (lt_two_zpow_log2 m' e'))
    (lt_of_zpow_bounds (two_zpow_log2_le hm' e') h.ge (lt_two_zpow_log2 m e))

section Rounding

variable {bits m : Nat} {e : Int}

/-- The exponent to which a value is rounded is that of its double. -/
theorem targetExponent_of_value (hm : 0 < m) (hzero : bits ≠ 0)
    (h : (m : ℚ) * 2 ^ e = value bits) :
    Format.binary64.targetExponent (totalExponent m e) = (splitMagnitude bits).2 := by
  have hlog := log2_add_eq hm (splitMagnitude_pos hzero) h
  have hnormal := log2_splitMagnitude hzero
  have hbits : (Format.binary64.mantissaBits : Int) = 53 := rfl
  have hmin : Format.binary64.minExponent = -1074 := rfl
  unfold Format.targetExponent totalExponent
  rw [hbits, hmin]
  rcases Nat.lt_or_ge bits (2 ^ 52) with hlt | hge
  · have hlow : bits.log2 < 52 := (Nat.log2_lt hzero).mpr hlt
    rw [splitMagnitude_of_lt hlt] at hlog ⊢
    dsimp only at hlog ⊢
    omega
  · have hexp : -1074 ≤ (splitMagnitude bits).2 := by
      rw [splitMagnitude_of_ge hge]
      dsimp only
      omega
    have hnormal := hnormal.mpr hge
    omega

theorem shiftRight_exact (m k : Nat) :
    (⟨m * 2 ^ k, false, false⟩ : ExtendedMantissa) >>> k = ⟨m, false, false⟩ := by
  change k.repeat ExtendedMantissa.shiftRightOne _ = _
  induction k generalizing m with
  | zero => simp [Nat.repeat]
  | succ k ih =>
      have hsplit : m * 2 ^ (k + 1) = m * 2 * 2 ^ k := by ring
      rw [Nat.repeat, hsplit, ih]
      simp [ExtendedMantissa.shiftRightOne]

/-- Shifting to the exponent of the double drops no bits. -/
theorem shiftToTargetExponent_of_value (hm : 0 < m) (hzero : bits ≠ 0)
    (h : (m : ℚ) * 2 ^ e = value bits) (he : e ≤ (splitMagnitude bits).2) :
    shiftToTargetExponent .binary64 m e .exact =
      (⟨(splitMagnitude bits).1, false, false⟩, (splitMagnitude bits).2) := by
  obtain ⟨k, hk⟩ := Int.eq_ofNat_of_zero_le (Int.sub_nonneg_of_le he)
  have hexp : (splitMagnitude bits).2 = e + k := by omega
  have hmantissa : m = (splitMagnitude bits).1 * 2 ^ k := by
    rw [value, hexp, add_comm e, zpow_add₀ (by norm_num), ← mul_assoc] at h
    have hcancel := mul_right_cancel₀ (by positivity) h
    rw [zpow_natCast] at hcancel
    exact_mod_cast hcancel
  unfold shiftToTargetExponent
  dsimp only
  rw [targetExponent_of_value hm hzero h]
  unfold shiftToExponent
  dsimp only
  rw [hk, Int.toNat_natCast]
  refine Prod.ext ?_ hexp.symm
  dsimp only [ExtendedMantissa.ofMantissaAndAccuracy]
  rw [hmantissa]
  exact shiftRight_exact _ _

theorem roundWithAccuracy_of_value (s : Sign) (hm : 0 < m) (hzero : bits ≠ 0)
    (h : (m : ℚ) * 2 ^ e = value bits) (he : e ≤ (splitMagnitude bits).2) :
    roundWithAccuracy .binary64 s m e .exact =
      .finite s (splitMagnitude bits).1 (splitMagnitude bits).2 (splitMagnitude_pos hzero) := by
  have hpos := splitMagnitude_pos hzero
  unfold roundWithAccuracy
  rw [shiftToTargetExponent_of_value hm hzero h he]
  dsimp only [ExtendedMantissa.roundedMantissa, ExtendedMantissa.accuracy,
    Accuracy.roundToNearestEven]
  rw [shiftToTargetExponent_of_value hpos hzero rfl le_rfl]
  exact dif_neg hpos.ne'

/-- Rounding the value of a double gives the parts of that double. -/
theorem round_of_value (s : Sign) (hm : 0 < m) (hzero : bits ≠ 0)
    (h : (m : ℚ) * 2 ^ e = value bits) :
    UnpackedFloat.round .binary64 s m e =
      .finite s (splitMagnitude bits).1 (splitMagnitude bits).2 (splitMagnitude_pos hzero) := by
  unfold UnpackedFloat.round decreaseExponent
  dsimp only
  rw [targetExponent_of_value hm hzero h]
  set k := (e - (splitMagnitude bits).2).toNat
  refine roundWithAccuracy_of_value s ?_ hzero ?_ (by omega)
  · rw [Nat.shiftLeft_eq]
    positivity
  · rw [← h, Nat.shiftLeft_eq, zpow_sub₀ (by norm_num), zpow_natCast]
    push_cast
    field_simp

end Rounding

/-- Bringing a significand to a lower exponent keeps the value. -/
theorem shiftLeft_value (m : Nat) {e low : Int} (h : low ≤ e) :
    ((m <<< (e - low).toNat : Nat) : ℚ) * 2 ^ low = m * 2 ^ e := by
  obtain ⟨k, hk⟩ := Int.eq_ofNat_of_zero_le (Int.sub_nonneg_of_le h)
  have he : e = k + low := by omega
  rw [hk, Int.toNat_natCast, Nat.shiftLeft_eq, he, zpow_add₀ (by norm_num), zpow_natCast]
  push_cast
  ring

theorem add_finite {m₁ m₂ bits : Nat} {e₁ e₂ : Int} (h₁ : 0 < m₁) (h₂ : 0 < m₂) (hzero : bits ≠ 0)
    (h : (m₁ : ℚ) * 2 ^ e₁ + m₂ * 2 ^ e₂ = value bits) :
    UnpackedFloat.add .binary64 (.finite .positive m₁ e₁ h₁) (.finite .positive m₂ e₂ h₂) =
      .finite .positive (splitMagnitude bits).1 (splitMagnitude bits).2
        (splitMagnitude_pos hzero) := by
  unfold UnpackedFloat.add decreaseExponent
  dsimp only [Sign.apply]
  set low := min e₁ e₂
  set s := m₁ <<< (e₁ - low).toNat + m₂ <<< (e₂ - low).toNat with hs
  have hpos : 0 < s := by
    refine Nat.add_pos_left ?_ _
    rw [Nat.shiftLeft_eq]
    positivity
  have hvalue : (s : ℚ) * 2 ^ low = value bits := by
    rw [hs, Nat.cast_add, add_mul, shiftLeft_value m₁ (min_le_left _ _),
      shiftLeft_value m₂ (min_le_right _ _), h]
  have hgt : compare (s : Int) 0 = .gt := Int.compare_eq_gt.mpr (by omega)
  rw [← Nat.cast_add, ← hs, UnpackedFloat.normalize, hgt]
  exact round_of_value .positive hpos hzero hvalue

theorem value_zero : value 0 = 0 := by
  simp [value, splitMagnitude_of_lt]

theorem unpack_ofMagnitude (negative : Bool) {bits : Nat} (h : bits ≤ infinityBits) :
    (ofMagnitude negative bits).toFloat.toModel.unpack = unpacked negative bits := by
  rw [unpack_toFloat, isNegative_ofMagnitude negative h, magnitude_ofMagnitude negative h]

theorem isNaN_ofMagnitude (negative : Bool) {bits : Nat} (h : bits ≤ infinityBits) :
    (ofMagnitude negative bits).isNaN = false :=
  (isNaN_eq_false_iff _).mpr (isNumber_ofMagnitude negative h)

/-- An operation on numbers that gives a number gives the double with its sign and magnitude. -/
theorem lift_eq_ofMagnitude {f : Float → Float → Float} {x y : Double} (hx : x.isNaN = false)
    (hy : y.isNaN = false) {negative : Bool} {bits : Nat} (h : bits ≤ infinityBits)
    (hf : f x.toFloat y.toFloat = Float.ofModel (Float.Model.pack (unpacked negative bits))) :
    Double.lift f x y = ofMagnitude negative bits := by
  have hresult : (f x.toFloat y.toFloat).isNaN = false := by
    rw [hf, ← toFloat_ofMagnitude negative h]
    exact isNaN_ofMagnitude negative h
  simp only [Double.lift, hx, hy, hresult, Bool.false_eq_true, if_false]
  rw [hf, ofFloat_pack_unpacked negative h]

/-- The sum of two doubles that are not negative, where it is a double. -/
theorem ofMagnitude_add {b c s : Nat} (hb : b < infinityBits) (hc : c < infinityBits)
    (hs : s < infinityBits) (h : value b + value c = value s) :
    ofMagnitude false b + ofMagnitude false c = ofMagnitude false s := by
  refine lift_eq_ofMagnitude (isNaN_ofMagnitude false hb.le) (isNaN_ofMagnitude false hc.le) hs.le ?_
  change Float.ofModel (Float.Model.pack (UnpackedFloat.add .binary64
    (ofMagnitude false b).toFloat.toModel.unpack (ofMagnitude false c).toFloat.toModel.unpack)) = _
  rw [unpack_ofMagnitude false hb.le, unpack_ofMagnitude false hc.le]
  congr 2
  by_cases hbz : b = 0
  · rw [hbz, value_zero, zero_add] at h
    rw [hbz, unpacked_zero, eq_of_value_eq hc hs h]
    by_cases hsz : s = 0
    · rw [hsz, unpacked_zero]
      rfl
    · rw [unpacked_finite _ hsz hs]
      rfl
  by_cases hcz : c = 0
  · rw [hcz, value_zero, add_zero] at h
    obtain rfl := eq_of_value_eq hb hs h
    rw [hcz, unpacked_zero, unpacked_finite _ hbz hb]
    rfl
  have hsz : s ≠ 0 := by
    rintro rfl
    have hpos := add_pos (value_pos hbz) (value_pos hcz)
    rw [h, value_zero] at hpos
    exact lt_irrefl _ hpos
  rw [unpacked_finite _ hbz hb, unpacked_finite _ hcz hc, unpacked_finite _ hsz hs]
  exact add_finite (splitMagnitude_pos hbz) (splitMagnitude_pos hcz) hsz h

end DiceScript.Binary64
