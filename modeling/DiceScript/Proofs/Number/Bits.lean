import DiceScript.Number.Binary64
import Mathlib

/-!
# Doubles and their bits

A double that is a number is given by its sign and the bits of its magnitude. Taking it apart for an
operation, and putting a rounded result together, both agree with how the bits are read as a
significand and an exponent.
-/

namespace DiceScript.Binary64

open Float.Model Float.Model.UnpackedFloat

def signOf (negative : Bool) : Sign :=
  if negative then .negative else .positive

theorem splitMagnitude_of_lt {bits : Nat} (h : bits < 2 ^ 52) :
    splitMagnitude bits = (bits, -1074) :=
  if_pos h

theorem splitMagnitude_of_ge {bits : Nat} (h : 2 ^ 52 ≤ bits) :
    splitMagnitude bits = (2 ^ 52 + bits % 2 ^ 52, ((bits / 2 ^ 52 : Nat) : Int) - 1075) :=
  if_neg (Nat.not_lt.mpr h)

theorem splitMagnitude_pos {bits : Nat} (h : bits ≠ 0) : 0 < (splitMagnitude bits).1 := by
  rcases Nat.lt_or_ge bits (2 ^ 52) with hlt | hge
  · rw [splitMagnitude_of_lt hlt]
    exact Nat.pos_of_ne_zero h
  · rw [splitMagnitude_of_ge hge]
    exact Nat.add_pos_left (by decide) _

theorem finite_congr {s : Sign} {m m' : Nat} {e e' : Int} {h : 0 < m} {h' : 0 < m'} (hm : m = m')
    (he : e = e') : UnpackedFloat.finite s m e h = .finite s m' e' h' := by
  subst hm he
  rfl

/-- The parts that operations see of a double with the given sign and magnitude. -/
def unpacked (negative : Bool) (bits : Nat) : UnpackedFloat :=
  if infinityBits < bits then .notANumber
  else if bits = infinityBits then .infinity (signOf negative)
  else if h : bits = 0 then .zero (signOf negative)
  else .finite (signOf negative) (splitMagnitude bits).1 (splitMagnitude bits).2
    (splitMagnitude_pos h)

section Unpacking

variable (b : BitVec 64)

theorem toNat_unpackMantissa :
    (@unpackMantissa .binary64 b).toNat = b.toNat % 2 ^ 52 := by
  simp [unpackMantissa]

theorem toNat_unpackExponent :
    (@unpackExponent .binary64 b).toNat = b.toNat % 2 ^ 63 / 2 ^ 52 := by
  simp [unpackExponent, Nat.shiftRight_eq_div_pow]
  omega

theorem ofBitVec_unpackSign :
    Sign.ofBitVec (@unpackSign .binary64 b) = signOf (decide (2 ^ 63 ≤ b.toNat)) := by
  have hlt : b.toNat < 2 ^ 64 := b.isLt
  have hsign : (@unpackSign .binary64 b).toNat = b.toNat / 2 ^ 63 := by
    simp [unpackSign, Nat.shiftRight_eq_div_pow]
    omega
  unfold Sign.ofBitVec signOf
  have hzero : @unpackSign .binary64 b = 0#1 ↔ ¬ 2 ^ 63 ≤ b.toNat := by
    rw [← BitVec.toNat_inj, hsign]
    simp
  by_cases h : 2 ^ 63 ≤ b.toNat
  · rw [if_neg fun hb => hzero.mp hb h, decide_eq_true h, if_pos rfl]
  · rw [if_pos (hzero.mpr h), decide_eq_false h, if_neg Bool.false_ne_true]

theorem unpack_eq_unpacked :
    UnpackedFloat.unpack .binary64 b = unpacked (2 ^ 63 ≤ b.toNat) (b.toNat % 2 ^ 63) := by
  have hmantissa := toNat_unpackMantissa b
  have hexponent := toNat_unpackExponent b
  have happend : (1#1 ++ @unpackMantissa .binary64 b).toNat = 2 ^ 52 + b.toNat % 2 ^ 52 := by
    rw [BitVec.toNat_append, ← Nat.shiftLeft_add_eq_or_of_lt (BitVec.isLt _), hmantissa]
    rfl
  have hmax : @unpackExponent .binary64 b = -1#_ ↔ b.toNat % 2 ^ 63 / 2 ^ 52 = 2047 := by
    rw [← BitVec.toNat_inj, hexponent]
    rfl
  have hmin : @unpackExponent .binary64 b = 0#_ ↔ b.toNat % 2 ^ 63 / 2 ^ 52 = 0 := by
    rw [← BitVec.toNat_inj, hexponent]
    rfl
  have hzero : @unpackMantissa .binary64 b = 0#_ ↔ b.toNat % 2 ^ 52 = 0 := by
    rw [← BitVec.toNat_inj, hmantissa]
    rfl
  have hbias : (Format.binary64.exponentBias : Int) + (52 : Nat) = 1075 := rfl
  simp only [UnpackedFloat.unpack, ofBitVec_unpackSign, hmax, hmin, hzero, hbias]
  unfold unpacked infinityBits
  by_cases hlast : b.toNat % 2 ^ 63 / 2 ^ 52 = 2047
  · by_cases hfraction : b.toNat % 2 ^ 52 = 0
    · rw [if_pos hlast, if_pos hfraction, if_neg (by omega), if_pos (by omega)]
    · rw [if_pos hlast, if_neg hfraction, if_pos (by omega)]
  · have hnan : ¬ 0x7ff0_0000_0000_0000 < b.toNat % 2 ^ 63 := by omega
    have hinfinity : ¬ b.toNat % 2 ^ 63 = 0x7ff0_0000_0000_0000 := by omega
    rw [if_neg hlast, if_neg hnan, if_neg hinfinity]
    by_cases hfirst : b.toNat % 2 ^ 63 / 2 ^ 52 = 0
    · have hsplit := @splitMagnitude_of_lt (b.toNat % 2 ^ 63) (by omega)
      rw [if_pos hfirst]
      by_cases hfraction : b.toNat % 2 ^ 52 = 0
      · rw [dif_pos hfraction, dif_pos (by omega)]
      · rw [dif_neg hfraction, dif_neg (by omega)]
        exact finite_congr (by rw [hsplit, hmantissa]; dsimp only; omega)
          (by rw [hsplit, hexponent, hfirst]; rfl)
    · have hsplit := @splitMagnitude_of_ge (b.toNat % 2 ^ 63) (by omega)
      rw [if_neg hfirst, dif_neg (by omega)]
      exact finite_congr (by rw [hsplit, happend]; dsimp only; omega) (by rw [hsplit, hexponent])

end Unpacking

/-! ## Putting together -/

/-- The bits of a sign, below which the magnitude stands. -/
def signBits (negative : Bool) : Nat :=
  if negative then 2 ^ 63 else 0

theorem toNat_append_append (s : BitVec 1) (e : BitVec 11) (m : BitVec 52) :
    (s ++ e ++ m).toNat = s.toNat * 2 ^ 63 + (e.toNat * 2 ^ 52 + m.toNat) := by
  rw [BitVec.toNat_append, ← Nat.shiftLeft_add_eq_or_of_lt m.isLt, BitVec.toNat_append,
    ← Nat.shiftLeft_add_eq_or_of_lt e.isLt]
  simp only [Nat.shiftLeft_eq]
  omega

theorem toNat_packComponents (negative : Bool) (e : BitVec 11) (m : BitVec 52) :
    (packComponents .binary64 (signOf negative) e m).toNat =
      signBits negative + (e.toNat * 2 ^ 52 + m.toNat) := by
  have hsign : (signOf negative).toBitVec.toNat * 2 ^ 63 = signBits negative := by
    cases negative <;> rfl
  rw [← hsign]
  exact toNat_append_append _ e m

theorem log2_splitMagnitude {bits : Nat} (h : bits ≠ 0) :
    (splitMagnitude bits).1.log2 + 1 = 53 ↔ 2 ^ 52 ≤ bits := by
  rcases Nat.lt_or_ge bits (2 ^ 52) with hlt | hge
  · have hlog : bits.log2 < 52 := (Nat.log2_lt h).mpr hlt
    rw [splitMagnitude_of_lt hlt]
    dsimp only
    omega
  · have hmod : bits % 2 ^ 52 < 2 ^ 52 := Nat.mod_lt _ (by decide)
    have hne : 2 ^ 52 + bits % 2 ^ 52 ≠ 0 := by omega
    have hlow : 52 ≤ (2 ^ 52 + bits % 2 ^ 52).log2 := (Nat.le_log2 hne).mpr (by omega)
    have hhigh : (2 ^ 52 + bits % 2 ^ 52).log2 < 53 := (Nat.log2_lt hne).mpr (by omega)
    rw [splitMagnitude_of_ge hge]
    dsimp only
    omega

/-- Putting the parts of a number together gives its bits. -/
theorem toNat_pack_unpacked (negative : Bool) {bits : Nat} (h : bits ≤ infinityBits) :
    (UnpackedFloat.pack .binary64 (unpacked negative bits)).toNat = signBits negative + bits := by
  have hmax : infinityBits = 2047 * 2 ^ 52 := rfl
  unfold unpacked
  rw [if_neg (Nat.not_lt.mpr h)]
  by_cases hinfinity : bits = infinityBits
  · rw [if_pos hinfinity, UnpackedFloat.pack, packedInfinity, toNat_packComponents, hinfinity, hmax]
    rfl
  rw [if_neg hinfinity]
  by_cases hzero : bits = 0
  · rw [dif_pos hzero, UnpackedFloat.pack, packedZero, toNat_packComponents, hzero]
    rfl
  rw [dif_neg hzero, UnpackedFloat.pack]
  have hbias : ∀ e : Int, e + (Format.binary64.exponentBias : Int) + (52 : Nat) = e + 1075 :=
    fun e => by rw [Int.add_assoc]; rfl
  have hexponents : (2 : Nat) ^ Format.binary64.exponentBits = 2048 := rfl
  have hlog := log2_splitMagnitude hzero
  have hbits : Format.binary64.mantissaBits = 53 := rfl
  dsimp only
  rw [hbias, hexponents, hbits]
  rcases Nat.lt_or_ge bits (2 ^ 52) with hlt | hge
  · rw [splitMagnitude_of_lt hlt] at hlog ⊢
    have hexp : ((-1074 : Int) + 1075).toNat = 1 := rfl
    dsimp only at hlog ⊢
    rw [hexp, if_neg (by omega), if_neg (by omega), toNat_packComponents, BitVec.toNat_ofNat,
      BitVec.toNat_ofNat, Nat.mod_eq_of_lt hlt, Nat.zero_mod, Nat.zero_mul, Nat.zero_add]
  · have hexp : (((bits / 2 ^ 52 : Nat) : Int) - 1075 + 1075).toNat = bits / 2 ^ 52 := by omega
    rw [splitMagnitude_of_ge hge] at hlog ⊢
    dsimp only at hlog ⊢
    rw [hexp, if_neg (by omega), if_pos (hlog.mpr hge), toNat_packComponents, BitVec.toNat_ofNat,
      BitVec.toNat_ofNat, Nat.mod_eq_of_lt (show bits / 2 ^ 52 < 2 ^ 11 by omega)]
    omega

/-! ## Doubles -/

theorem eq_of_toNat_bits {x y : Double} (h : x.bits.toNat = y.bits.toNat) : x = y := by
  obtain ⟨b⟩ := x
  obtain ⟨c⟩ := y
  obtain rfl : b = c := UInt64.toNat_inj.mp h
  rfl

theorem signBits_add_lt (negative : Bool) {bits : Nat} (h : bits ≤ infinityBits) :
    signBits negative + bits < 2 ^ 64 := by
  have hmax : infinityBits = 2047 * 2 ^ 52 := rfl
  have hsign : signBits negative ≤ 2 ^ 63 := by cases negative <;> decide
  omega

theorem decide_le_signBits_add (negative : Bool) {bits : Nat} (h : bits ≤ infinityBits) :
    decide (2 ^ 63 ≤ signBits negative + bits) = negative := by
  have hmax : infinityBits = 2047 * 2 ^ 52 := rfl
  cases negative with
  | true => exact decide_eq_true (Nat.le_add_right _ _)
  | false => exact decide_eq_false (by rw [signBits, if_neg (by decide)]; omega)

theorem signBits_add_mod (negative : Bool) {bits : Nat} (h : bits ≤ infinityBits) :
    (signBits negative + bits) % 2 ^ 63 = bits := by
  have hmax : infinityBits = 2047 * 2 ^ 52 := rfl
  have hsign : signBits negative % 2 ^ 63 = 0 := by cases negative <;> decide
  omega

theorem toNat_bits_ofMagnitude (negative : Bool) {bits : Nat} (h : bits ≤ infinityBits) :
    (ofMagnitude negative bits).bits.toNat = signBits negative + bits := by
  have hword : (if negative then 0x8000_0000_0000_0000 + bits else bits) =
      signBits negative + bits := by cases negative <;> simp [signBits]
  rw [ofMagnitude, hword]
  exact Nat.mod_eq_of_lt (signBits_add_lt negative h)

theorem magnitude_ofMagnitude (negative : Bool) {bits : Nat} (h : bits ≤ infinityBits) :
    magnitude (ofMagnitude negative bits) = bits := by
  rw [magnitude, toNat_bits_ofMagnitude negative h]
  exact signBits_add_mod negative h

theorem isNegative_ofMagnitude (negative : Bool) {bits : Nat} (h : bits ≤ infinityBits) :
    isNegative (ofMagnitude negative bits) = negative := by
  rw [isNegative, toNat_bits_ofMagnitude negative h]
  exact decide_le_signBits_add negative h

/-- Taking apart what was put together gives the parts again. -/
theorem unpack_pack_unpacked (negative : Bool) (bits : Nat) :
    UnpackedFloat.unpack .binary64 (UnpackedFloat.pack .binary64 (unpacked negative bits)) =
      unpacked negative bits := by
  rcases Nat.lt_or_ge infinityBits bits with hnan | h
  · rw [unpacked, if_pos hnan]
    rfl
  · rw [unpack_eq_unpacked, toNat_pack_unpacked negative h, decide_le_signBits_add negative h,
      signBits_add_mod negative h]

/-- What operations see of a double. -/
theorem unpack_toFloat (x : Double) :
    x.toFloat.toModel.unpack = unpacked (isNegative x) (magnitude x) := by
  change UnpackedFloat.unpack .binary64
    (UnpackedFloat.pack .binary64 (UnpackedFloat.unpack .binary64 x.bits.toBitVec)) = _
  rw [unpack_eq_unpacked x.bits.toBitVec, unpack_pack_unpacked]
  rfl

theorem toFloat_ofMagnitude (negative : Bool) {bits : Nat} (h : bits ≤ infinityBits) :
    (ofMagnitude negative bits).toFloat =
      Float.ofModel (Float.Model.pack (unpacked negative bits)) := by
  have hbits := toNat_bits_ofMagnitude negative h
  change Float.ofModel (Float.Model.pack
    (UnpackedFloat.unpack .binary64 (ofMagnitude negative bits).bits.toBitVec)) = _
  rw [unpack_eq_unpacked, UInt64.toNat_toBitVec, hbits, decide_le_signBits_add negative h,
    signBits_add_mod negative h]

/-- The parts of a number make the double with its sign and magnitude. -/
theorem ofFloat_pack_unpacked (negative : Bool) {bits : Nat} (h : bits ≤ infinityBits) :
    Double.ofFloat (Float.ofModel (Float.Model.pack (unpacked negative bits))) =
      ofMagnitude negative bits := by
  apply eq_of_toNat_bits
  rw [toNat_bits_ofMagnitude negative h]
  exact toNat_pack_unpacked negative h

theorem read_of_finite {x : Double} (h : magnitude x < infinityBits) :
    read x = .finite ⟨isNegative x, (splitMagnitude (magnitude x)).1,
      (splitMagnitude (magnitude x)).2⟩ := by
  unfold read
  dsimp only
  rw [if_neg (Nat.not_lt.mpr (Nat.le_of_lt h)), if_neg (Nat.ne_of_lt h)]

theorem read_of_infinite {x : Double} (h : magnitude x = infinityBits) :
    read x = .infinite (isNegative x) := by
  unfold read
  dsimp only
  rw [if_neg (Nat.not_lt.mpr (Nat.le_of_eq h)), if_pos h]

theorem read_ofMagnitude (negative : Bool) {bits : Nat} (h : bits < infinityBits) :
    read (ofMagnitude negative bits) =
      .finite ⟨negative, (splitMagnitude bits).1, (splitMagnitude bits).2⟩ := by
  have hmagnitude := magnitude_ofMagnitude negative (Nat.le_of_lt h)
  rw [read_of_finite (by rwa [hmagnitude]), hmagnitude,
    isNegative_ofMagnitude negative (Nat.le_of_lt h)]

/-- A number is the double with its own sign and magnitude. -/
theorem ofMagnitude_magnitude {x : Double} (h : magnitude x ≤ infinityBits) :
    ofMagnitude (isNegative x) (magnitude x) = x := by
  have hlt : x.bits.toNat < 2 ^ 64 := x.bits.toBitVec.isLt
  apply eq_of_toNat_bits
  rw [toNat_bits_ofMagnitude _ h]
  unfold isNegative magnitude signBits
  split <;> simp only [decide_eq_true_eq] at * <;> omega

end DiceScript.Binary64
