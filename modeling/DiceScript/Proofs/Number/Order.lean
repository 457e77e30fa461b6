import DiceScript.Proofs.Number.Bits

/-!
# The order of doubles

Two doubles that are numbers compare as their magnitude bits do, with the sign before them. The two
zeros are equal.
-/

namespace DiceScript.Binary64

open Float.Model Float.Model.UnpackedFloat

/-- Not NaN. -/
def IsNumber (x : Double) : Prop :=
  magnitude x ≤ infinityBits

instance (x : Double) : Decidable (IsNumber x) :=
  inferInstanceAs (Decidable (_ ≤ _))

def signed (negative : Bool) (bits : Nat) : Int :=
  if negative then -(bits : Int) else bits

/-- Numbers compare as their ranks do. -/
def rank (x : Double) : Int :=
  signed (isNegative x) (magnitude x)

/-- Exponents, and then significands, compare as the bits do. -/
theorem splitMagnitude_lt {b c : Nat} (h : b < c) :
    (splitMagnitude b).2 < (splitMagnitude c).2 ∨
      (splitMagnitude b).2 = (splitMagnitude c).2 ∧ (splitMagnitude b).1 < (splitMagnitude c).1 := by
  rcases Nat.lt_or_ge b (2 ^ 52) with hb | hb
  · rw [splitMagnitude_of_lt hb]
    rcases Nat.lt_or_ge c (2 ^ 52) with hc | hc
    · rw [splitMagnitude_of_lt hc]
      exact .inr ⟨rfl, h⟩
    · rw [splitMagnitude_of_ge hc]
      dsimp only
      omega
  · rw [splitMagnitude_of_ge hb, splitMagnitude_of_ge (by omega)]
    dsimp only
    omega

theorem compare_splitMagnitude (b c : Nat) :
    (compare (splitMagnitude b).2 (splitMagnitude c).2).then
      (compare (splitMagnitude b).1 (splitMagnitude c).1) = compare b c := by
  rcases Nat.lt_trichotomy b c with h | rfl | h
  · rw [Nat.compare_eq_lt.mpr h]
    rcases splitMagnitude_lt h with hlt | ⟨heq, hlt⟩
    · rw [Int.compare_eq_lt.mpr hlt, Ordering.lt_then]
    · rw [heq, Int.compare_eq_eq.mpr rfl, Ordering.eq_then, Nat.compare_eq_lt.mpr hlt]
  · simp
  · rw [Nat.compare_eq_gt.mpr h]
    rcases splitMagnitude_lt h with hlt | ⟨heq, hlt⟩
    · rw [Int.compare_eq_gt.mpr hlt, Ordering.gt_then]
    · rw [heq, Int.compare_eq_eq.mpr rfl, Ordering.eq_then, Nat.compare_eq_gt.mpr hlt]

theorem compare_signed (negative negative' : Bool) (b c : Nat) :
    compare (signed negative b) (signed negative' c) =
      match negative, negative' with
      | false, false => compare b c
      | true, true => (compare b c).swap
      | false, true => if b = 0 ∧ c = 0 then .eq else .gt
      | true, false => if b = 0 ∧ c = 0 then .eq else .lt := by
  cases negative <;> cases negative' <;> simp only [signed, if_true, if_false, Bool.false_eq_true]
  · rcases Nat.lt_trichotomy b c with h | rfl | h
    · rw [Nat.compare_eq_lt.mpr h, Int.compare_eq_lt.mpr (by omega)]
    · simp
    · rw [Nat.compare_eq_gt.mpr h, Int.compare_eq_gt.mpr (by omega)]
  · split
    · exact Int.compare_eq_eq.mpr (by omega)
    · exact Int.compare_eq_gt.mpr (by omega)
  · split
    · exact Int.compare_eq_eq.mpr (by omega)
    · exact Int.compare_eq_lt.mpr (by omega)
  · rcases Nat.lt_trichotomy b c with h | rfl | h
    · rw [Nat.compare_eq_lt.mpr h, Int.compare_eq_gt.mpr (by omega)]
      rfl
    · simp
    · rw [Nat.compare_eq_gt.mpr h, Int.compare_eq_lt.mpr (by omega)]
      rfl

theorem unpacked_infinity (negative : Bool) :
    unpacked negative infinityBits = .infinity (signOf negative) := by
  simp [unpacked]

theorem unpacked_zero (negative : Bool) : unpacked negative 0 = .zero (signOf negative) := by
  simp [unpacked, infinityBits]

theorem unpacked_finite (negative : Bool) {bits : Nat} (h : bits ≠ 0) (hlt : bits < infinityBits) :
    unpacked negative bits = .finite (signOf negative) (splitMagnitude bits).1
      (splitMagnitude bits).2 (splitMagnitude_pos h) := by
  rw [unpacked, if_neg (by omega), if_neg (by omega), dif_neg h]

/-- What operations see of numbers compares as their ranks do. -/
theorem compare_unpacked (negative negative' : Bool) {b c : Nat} (hb : b ≤ infinityBits)
    (hc : c ≤ infinityBits) :
    (unpacked negative b).compare (unpacked negative' c) =
      some (compare (signed negative b) (signed negative' c)) := by
  have hne : infinityBits ≠ 0 := by decide
  rw [compare_signed]
  rcases Nat.eq_or_lt_of_le hb with rfl | hb
  · rw [unpacked_infinity]
    rcases Nat.eq_or_lt_of_le hc with rfl | hc
    · rw [unpacked_infinity]
      cases negative <;> cases negative' <;> rfl
    have hgt : compare infinityBits c = .gt := Nat.compare_eq_gt.mpr hc
    by_cases hzero : c = 0
    · rw [hzero, unpacked_zero]
      cases negative <;> cases negative' <;> rfl
    · rw [unpacked_finite _ hzero hc]
      cases negative <;> cases negative' <;> simp [hgt, signOf, UnpackedFloat.compare, hne]
  · rcases Nat.eq_or_lt_of_le hc with rfl | hc
    · have hlt : compare b infinityBits = .lt := Nat.compare_eq_lt.mpr hb
      rw [unpacked_infinity]
      by_cases hzero : b = 0
      · rw [hzero, unpacked_zero]
        cases negative <;> cases negative' <;> rfl
      · rw [unpacked_finite _ hzero hb]
        cases negative <;> cases negative' <;> simp [hlt, signOf, UnpackedFloat.compare, hne]
    by_cases hzero : b = 0
    · rw [hzero, unpacked_zero]
      by_cases hzero' : c = 0
      · rw [hzero', unpacked_zero]
        cases negative <;> cases negative' <;> rfl
      · have hlt : compare 0 c = .lt := Nat.compare_eq_lt.mpr (Nat.pos_of_ne_zero hzero')
        rw [unpacked_finite _ hzero' hc]
        cases negative <;> cases negative' <;> simp [hlt, signOf, UnpackedFloat.compare, hzero']
    · rw [unpacked_finite _ hzero hb]
      by_cases hzero' : c = 0
      · have hgt : compare b 0 = .gt := Nat.compare_eq_gt.mpr (Nat.pos_of_ne_zero hzero)
        rw [hzero', unpacked_zero]
        cases negative <;> cases negative' <;> simp [hgt, signOf, UnpackedFloat.compare, hzero]
      · rw [unpacked_finite _ hzero' hc]
        cases negative <;> cases negative' <;>
          simp [compare_splitMagnitude, signOf, UnpackedFloat.compare, hzero]

section Numbers

variable {x y : Double}

theorem compare_toFloat (hx : IsNumber x) (hy : IsNumber y) :
    x.toFloat.toModel.unpack.compare y.toFloat.toModel.unpack =
      some (compare (rank x) (rank y)) := by
  rw [unpack_toFloat, unpack_toFloat]
  exact compare_unpacked _ _ hx hy

theorem lt_iff_rank (hx : IsNumber x) (hy : IsNumber y) : x < y ↔ rank x < rank y := by
  have hlt : x < y ↔ (x.toFloat.toModel.unpack.compare y.toFloat.toModel.unpack == some .lt) = true :=
    decide_eq_true_iff
  rw [hlt, compare_toFloat hx hy]
  simp [Int.compare_eq_lt]

theorem le_iff_rank (hx : IsNumber x) (hy : IsNumber y) : x ≤ y ↔ rank x ≤ rank y := by
  have hle : x ≤ y ↔ (x.toFloat.toModel.unpack.compare y.toFloat.toModel.unpack).any (·.isLE) = true :=
    decide_eq_true_iff
  rw [hle, compare_toFloat hx hy]
  simp [Int.isLE_compare]

theorem beq_iff_rank (hx : IsNumber x) (hy : IsNumber y) : (x == y) = true ↔ rank x = rank y := by
  change (x.toFloat.toModel.unpack.compare y.toFloat.toModel.unpack == some .eq) = true ↔ _
  rw [compare_toFloat hx hy]
  simp

theorem beq_self (hx : IsNumber x) : (x == x) = true :=
  (beq_iff_rank hx hx).mpr rfl

end Numbers

theorem isNaN_eq (x : Double) : x.isNaN = decide (infinityBits < magnitude x) := by
  change x.toFloat.toModel.unpack.isNaN = _
  rw [unpack_toFloat]
  rcases Nat.lt_trichotomy (magnitude x) infinityBits with h | h | h
  · rw [decide_eq_false (by omega), unpacked, if_neg (by omega), if_neg (by omega)]
    split <;> rfl
  · rw [h, unpacked_infinity, decide_eq_false (by omega)]
    rfl
  · rw [decide_eq_true (by omega), unpacked, if_pos h]
    rfl

theorem isNaN_eq_false_iff (x : Double) : x.isNaN = false ↔ IsNumber x := by
  rw [isNaN_eq, decide_eq_false_iff_not, Nat.not_lt, IsNumber]

theorem isFinite_eq (x : Double) : x.isFinite = decide (magnitude x < infinityBits) := by
  change x.toFloat.toModel.unpack.isFinite = _
  rw [unpack_toFloat]
  rcases Nat.lt_trichotomy (magnitude x) infinityBits with h | h | h
  · rw [decide_eq_true h, unpacked, if_neg (by omega), if_neg (by omega)]
    split <;> rfl
  · rw [h, unpacked_infinity, decide_eq_false (by omega)]
    rfl
  · rw [decide_eq_false (by omega), unpacked, if_pos h]
    rfl

theorem isNumber_ofMagnitude (negative : Bool) {bits : Nat} (h : bits ≤ infinityBits) :
    IsNumber (ofMagnitude negative bits) := by
  rwa [IsNumber, magnitude_ofMagnitude negative h]

theorem rank_ofMagnitude (negative : Bool) {bits : Nat} (h : bits ≤ infinityBits) :
    rank (ofMagnitude negative bits) = signed negative bits := by
  rw [rank, magnitude_ofMagnitude negative h, isNegative_ofMagnitude negative h]

end DiceScript.Binary64
