import DiceScript.Proofs.Assembly.Fields
import DiceScript.Proofs.Number.Whole
import DiceScript.Value

/-!
# Displayed numbers

The text of a finite number is a single word that denotes that number. A negative zero is shown as
a zero. The greatest integer of 64 bits is what is shown for the double just above it, and that is
the double nearest to it.
-/

namespace DiceScript

open Binary64

namespace Binary64

variable {x y : Double}

/-- Numbers that compare equal are the same when they are not zero. -/
theorem eq_of_rank_eq (hx : IsNumber x) (hy : IsNumber y) (h : rank x = rank y)
    (hne : rank x ≠ 0) : x = y := by
  have hsame : isNegative x = isNegative y ∧ magnitude x = magnitude y := by
    unfold rank signed at h hne
    cases hnx : isNegative x <;> cases hny : isNegative y <;> simp [hnx, hny] at h hne ⊢ <;> omega
  rw [← ofMagnitude_magnitude hx, ← ofMagnitude_magnitude hy, hsame.1, hsame.2]

theorem isNumber_zero : IsNumber 0 := by
  rw [zero_eq_ofNat]
  exact isNumber_ofNat 0

theorem beq_zero_iff (hx : IsNumber x) : (x == 0) = true ↔ rank x = 0 := by
  have hzero : rank 0 = 0 := by
    rw [zero_eq_ofNat, rank_ofNat]
    rfl
  rw [beq_iff_rank hx isNumber_zero, hzero]

theorem toInt64_of_rank (h : rank x = 0) : toInt64 x = 0 := by
  have hbits : magnitude x = 0 := by
    unfold rank signed at h
    split at h <;> omega
  have hread := read_of_finite (x := x) (by rw [hbits]; decide)
  rw [hbits, splitMagnitude_of_lt (by decide)] at hread
  rw [toInt64, toIntClamped, hread]
  dsimp only
  rw [Nat.zero_mul, Nat.zero_div]
  cases isNegative x <;> rfl

theorem isNumber_of_isFinite (hx : x.isFinite = true) : IsNumber x := by
  rw [isFinite_eq, decide_eq_true_eq] at hx
  exact hx.le

/-- The number, but zero without a sign. -/
def plainZero (x : Double) : Double :=
  if x == 0 then 0 else x

theorem isFinite_plainZero (hx : x.isFinite = true) : (plainZero x).isFinite = true := by
  unfold plainZero
  split
  · decide +kernel
  · exact hx

theorem isNumber_plainZero (hx : IsNumber x) : IsNumber (plainZero x) := by
  unfold plainZero
  split
  · exact isNumber_zero
  · exact hx

theorem rank_plainZero (hx : IsNumber x) : rank (plainZero x) = rank x := by
  unfold plainZero
  split
  · rename_i hzero
    exact ((beq_iff_rank hx isNumber_zero).mp hzero).symm
  · rfl

end Binary64

variable {x y : Double}

/-- A displayed number is read as that number. -/
theorem float?_numberDisplay (hx : IsNumber x) :
    Reader.float? (numberDisplay x).toList = some (plainZero x) := by
  unfold numberDisplay plainZero
  by_cases hzero : (x == 0) = true
  · have hwhole : toInt64 x = 0 := toInt64_of_rank ((beq_zero_iff hx).mp hzero)
    have hofInt : ofInt 0 = 0 := zero_eq_ofNat.symm
    dsimp only
    rw [hwhole, hofInt, if_pos hzero, if_pos hzero, float?_toString, hofInt]
  · rw [if_neg hzero]
    dsimp only
    split
    · rename_i hwhole
      have hrank := (beq_iff_rank hx (isNumber_ofInt _)).mp hwhole
      have hne : rank x ≠ 0 := fun h => hzero ((beq_zero_iff hx).mpr h)
      rw [float?_toString, ← eq_of_rank_eq hx (isNumber_ofInt _) hrank hne]
    · exact float?_plainText ((isNaN_eq_false_iff x).mpr hx)

theorem isWord_numberDisplay (x : Double) : Listing.IsWord (numberDisplay x).toList := by
  unfold numberDisplay
  dsimp only
  split
  · exact Listing.isWord_toString _
  · exact Listing.isWord_plainText x

/-- A text that displays a finite number counts as that number. -/
theorem toNumber?_display (hx : x.isFinite = true) :
    (Value.text (Value.number x).display).toNumber? = some (plainZero x) := by
  rw [Value.toNumber?, Value.display, Value.textNumber?,
    trim_of_isTight (isWord_numberDisplay x).isTight,
    float?_numberDisplay (isNumber_of_isFinite hx), Option.filter_some,
    if_pos (isFinite_plainZero hx)]

/-- Finite numbers that are displayed alike are equal. -/
theorem beq_of_display_eq (hx : x.isFinite = true) (hy : y.isFinite = true)
    (h : (Value.number x).display = (Value.number y).display) : (x == y) = true := by
  have hread := toNumber?_display hx
  rw [h, toNumber?_display hy, Option.some.injEq] at hread
  have hrank := rank_plainZero (isNumber_of_isFinite hx)
  rw [← hread, rank_plainZero (isNumber_of_isFinite hy)] at hrank
  exact (beq_iff_rank (isNumber_of_isFinite hx) (isNumber_of_isFinite hy)).mpr hrank.symm

end DiceScript
