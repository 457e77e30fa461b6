import DiceScript.Proofs.Number.Exact

/-!
# Whole numbers as doubles

Whole numbers up to `2 ^ 53` are doubles, and among them sums, comparisons and conversions are those
of the numbers. Greater whole numbers still give doubles that are at least as great.
-/

namespace DiceScript.Binary64

/-- A significand of full length, at an exponent, has these bits. -/
theorem splitMagnitude_join {m k : Nat} (hlow : 2 ^ 52 ≤ m) (hhigh : m < 2 ^ 53) :
    splitMagnitude (k * 2 ^ 52 + m) = (m, (k : Int) - 1074) := by
  have hmod : (k * 2 ^ 52 + m) % 2 ^ 52 = m - 2 ^ 52 := by omega
  have hdiv : (k * 2 ^ 52 + m) / 2 ^ 52 = k + 1 := by omega
  rw [splitMagnitude_of_ge (by omega), hmod, hdiv]
  exact Prod.ext (by dsimp only; omega) (by dsimp only; omega)

/-- Whole numbers up to `2 ^ 53` are values of doubles. -/
theorem exists_value_eq_natCast {n : Nat} (h : n ≤ 2 ^ 53) :
    ∃ bits, bits < infinityBits ∧ value bits = n := by
  have hmax : infinityBits = 2047 * 2 ^ 52 := rfl
  rcases Nat.eq_zero_or_pos n with rfl | hn
  · exact ⟨0, by decide, by rw [value_zero, Nat.cast_zero]⟩
  rcases h.eq_or_lt with rfl | h
  · refine ⟨1075 * 2 ^ 52 + 2 ^ 52, by omega, ?_⟩
    rw [value, splitMagnitude_join le_rfl (by decide)]
    norm_num
  · have hlog : n.log2 < 53 := (Nat.log2_lt hn.ne').mpr h
    have hlow := Nat.log2_self_le hn.ne'
    have hhigh := Nat.lt_log2_self (n := n)
    have hpow : 2 ^ n.log2 * 2 ^ (52 - n.log2) = 2 ^ 52 := by
      rw [← Nat.pow_add]
      congr 1
      omega
    have hpow' : 2 ^ (n.log2 + 1) * 2 ^ (52 - n.log2) = 2 ^ 53 := by
      rw [← Nat.pow_add]
      congr 1
      omega
    have hge : 2 ^ 52 ≤ n * 2 ^ (52 - n.log2) := by
      rw [← hpow]
      exact Nat.mul_le_mul_right _ hlow
    have hlt : n * 2 ^ (52 - n.log2) < 2 ^ 53 := by
      rw [← hpow']
      exact Nat.mul_lt_mul_of_pos_right hhigh (Nat.two_pow_pos _)
    refine ⟨(1022 + n.log2) * 2 ^ 52 + n * 2 ^ (52 - n.log2), by omega, ?_⟩
    have hexp : ((1022 + n.log2 : Nat) : Int) - 1074 = -((52 - n.log2 : Nat) : Int) := by omega
    rw [value, splitMagnitude_join hge hlt, hexp, zpow_neg, zpow_natCast]
    push_cast
    field_simp

theorem isNumber_ofNat (n : Nat) : IsNumber (ofNat n) :=
  isNumber_ofMagnitude false (nearestMagnitude_le n 1)

theorem isNumber_ofInt (n : Int) : IsNumber (ofInt n) :=
  isNumber_ofMagnitude _ (nearestMagnitude_le _ 1)

theorem magnitude_ofNat (n : Nat) : magnitude (ofNat n) = nearestMagnitude n 1 :=
  magnitude_ofMagnitude false (nearestMagnitude_le n 1)

theorem rank_ofNat (n : Nat) : rank (ofNat n) = nearestMagnitude n 1 :=
  rank_ofMagnitude false (nearestMagnitude_le n 1)

theorem zero_eq_ofNat : (0 : Double) = ofNat 0 :=
  rfl

theorem one_eq_ofNat : (1 : Double) = ofNat 1 :=
  rfl

/-- Zero adds nothing, to an infinity either. -/
theorem zero_add_ofNat (n : Nat) : (0 : Double) + ofNat n = ofNat n := by
  have hzero : (0 : Double) = ofMagnitude false 0 := zero_eq_ofNat
  rcases Nat.lt_or_eq_of_le (nearestMagnitude_le n 1) with hfinite | hinfinite
  · rw [hzero, ofNat, ofRatio]
    exact ofMagnitude_add (by decide) hfinite hfinite (by rw [value_zero, zero_add])
  · rw [ofNat, ofRatio, hinfinite]
    decide +kernel

section Small

variable {m n : Nat}

/-- The double of a whole number up to `2 ^ 53` is finite, and has it as its value. -/
theorem value_nearestMagnitude (h : n ≤ 2 ^ 53) :
    nearestMagnitude n 1 < infinityBits ∧ value (nearestMagnitude n 1) = n := by
  obtain ⟨bits, hbits, hvalue⟩ := exists_value_eq_natCast h
  have hnearest : nearestMagnitude n 1 = bits :=
    nearestMagnitude_of_value Nat.one_pos hbits (by rw [hvalue, Nat.cast_one, div_one])
  rw [hnearest]
  exact ⟨hbits, hvalue⟩

theorem nearestMagnitude_le_iff (h : n ≤ 2 ^ 53) :
    nearestMagnitude n 1 ≤ nearestMagnitude m 1 ↔ n ≤ m := by
  constructor
  · intro hle
    by_contra hlt
    rw [not_le] at hlt
    have heq : nearestMagnitude n 1 = nearestMagnitude m 1 :=
      le_antisymm hle (nearestMagnitude_mono Nat.one_pos Nat.one_pos (by omega))
    have hn := (value_nearestMagnitude h).2
    rw [heq, (value_nearestMagnitude (hlt.le.trans h)).2] at hn
    exact absurd (Nat.cast_injective hn) (Nat.ne_of_lt hlt)
  · intro hle
    exact nearestMagnitude_mono Nat.one_pos Nat.one_pos (by omega)

theorem ofNat_le_ofNat (h : n ≤ 2 ^ 53) : ofNat n ≤ ofNat m ↔ n ≤ m := by
  rw [le_iff_rank (isNumber_ofNat n) (isNumber_ofNat m), rank_ofNat, rank_ofNat, Nat.cast_le,
    nearestMagnitude_le_iff h]

theorem ofNat_lt_ofNat (h : n ≤ 2 ^ 53) : ofNat m < ofNat n ↔ m < n := by
  rw [lt_iff_rank (isNumber_ofNat m) (isNumber_ofNat n), rank_ofNat, rank_ofNat, Nat.cast_lt,
    ← not_le, nearestMagnitude_le_iff h, not_le]

theorem ofNat_add (h : m + n ≤ 2 ^ 53) : ofNat m + ofNat n = ofNat (m + n) := by
  obtain ⟨hm, hvm⟩ := value_nearestMagnitude (n := m) (by omega)
  obtain ⟨hn, hvn⟩ := value_nearestMagnitude (n := n) (by omega)
  obtain ⟨hs, hvs⟩ := value_nearestMagnitude h
  exact ofMagnitude_add hm hn hs (by rw [hvm, hvn, hvs, Nat.cast_add])

/-- A double with a whole value, as a significand and an exponent. -/
theorem significand_mul_eq {bits : Nat} (h : value bits = n) :
    (splitMagnitude bits).1 * Nat.pow 2 (splitMagnitude bits).2.toNat =
      n * Nat.pow 2 (-(splitMagnitude bits).2).toNat := by
  rw [← ratio_eq_value, div_eq_iff (by simp)] at h
  exact_mod_cast h

theorem read_ofRatio (negative : Bool) (h : n ≤ 2 ^ 53) :
    ∃ m e, read (ofRatio negative n 1) = .finite ⟨negative, m, e⟩ ∧
      m * Nat.pow 2 e.toNat = n * Nat.pow 2 (-e).toNat := by
  obtain ⟨hbits, hvalue⟩ := value_nearestMagnitude h
  exact ⟨_, _, read_ofMagnitude negative hbits, significand_mul_eq hvalue⟩

theorem toIntClamped_ofRatio (negative : Bool) (h : n ≤ 2 ^ 53) {lo hi : Int} (hlo : lo ≤ -n)
    (hhi : n ≤ hi) :
    toIntClamped lo hi (ofRatio negative n 1) = if negative then -(n : Int) else n := by
  obtain ⟨m, e, hread, heq⟩ := read_ofRatio negative h
  unfold toIntClamped
  rw [hread]
  dsimp only
  have hdiv : n * Nat.pow 2 (-e).toNat / Nat.pow 2 (-e).toNat = n :=
    Nat.mul_div_cancel n (Nat.two_pow_pos _)
  rw [heq, hdiv]
  split <;> omega

theorem toInt64_ofRatio (negative : Bool) (h : n ≤ 2 ^ 53) :
    toInt64 (ofRatio negative n 1) = if negative then -(n : Int) else n :=
  toIntClamped_ofRatio negative h (by omega) (by omega)

theorem toInt64_ofNat (h : n ≤ 2 ^ 53) : toInt64 (ofNat n) = n :=
  toInt64_ofRatio false h

theorem toNat_ofNat (h : n ≤ 2 ^ 53) : toNat (ofNat n) = n := by
  obtain ⟨m, e, hread, heq⟩ := read_ofRatio false h
  have hdiv : n * Nat.pow 2 (-e).toNat / Nat.pow 2 (-e).toNat = n :=
    Nat.mul_div_cancel n (Nat.two_pow_pos _)
  unfold toNat toIntClamped ofNat
  rw [hread]
  dsimp only
  rw [heq, hdiv, if_neg Bool.false_ne_true]
  omega

/-- A whole number has no fraction to lose. -/
theorem trunc_ofNat (h : n ≤ 2 ^ 53) : trunc (ofNat n) = ofNat n := by
  obtain ⟨m, e, hread, heq⟩ := read_ofRatio false h
  unfold trunc roundWith ofNat
  rw [hread]
  dsimp only
  split
  · rfl
  · rename_i hneg
    have he : e.toNat = 0 := by omega
    have hdiv : n * Nat.pow 2 (-e).toNat / Nat.pow 2 (-e).toNat = n :=
      Nat.mul_div_cancel n (Nat.two_pow_pos _)
    rw [he, Nat.pow_eq, pow_zero, Nat.mul_one] at heq
    rw [heq, hdiv]

theorem isFinite_ofNat (h : n ≤ 2 ^ 53) : (ofNat n).isFinite = true := by
  rw [isFinite_eq, magnitude_ofNat, decide_eq_true (value_nearestMagnitude h).1]

theorem ofNat_le_zero : ofNat n ≤ 0 ↔ n = 0 := by
  have hone := (value_nearestMagnitude (n := 1) (by decide)).2
  rw [zero_eq_ofNat, le_iff_rank (isNumber_ofNat n) (isNumber_ofNat 0), rank_ofNat, rank_ofNat,
    Nat.cast_le]
  constructor
  · intro hle
    by_contra hne
    have hge : nearestMagnitude 1 1 ≤ 0 :=
      (nearestMagnitude_mono Nat.one_pos Nat.one_pos (by omega)).trans hle
    rw [Nat.le_zero.mp hge, value_zero, Nat.cast_one] at hone
    exact zero_ne_one hone
  · rintro rfl
    exact le_rfl

/-- The conversion of a great number does not fall below a lesser one. -/
theorem le_toNat_ofNat (h : n ≤ 2 ^ 53) (hm : n ≤ m) : n ≤ toNat (ofNat m) := by
  obtain ⟨hbits, hvalue⟩ := value_nearestMagnitude h
  have hle := (nearestMagnitude_le_iff h).mpr hm
  unfold toNat toIntClamped ofNat ofRatio
  rcases (nearestMagnitude_le m 1).eq_or_lt with heq | hlt
  · have hread : read (ofMagnitude false infinityBits) = .infinite false := by decide +kernel
    rw [heq, hread]
    simp only [Bool.false_eq_true, if_false]
    omega
  · rw [read_ofMagnitude false hlt]
    dsimp only
    have hge : (n : ℚ) ≤ value (nearestMagnitude m 1) := hvalue ▸ value_le_value hbits hlt hle
    rw [← ratio_eq_value, le_div_iff₀ (by simp), ← Nat.cast_mul, Nat.cast_le] at hge
    have hwhole : n ≤ _ / Nat.pow 2 _ := (Nat.le_div_iff_mul_le (Nat.two_pow_pos _)).mpr hge
    simp only [Bool.false_eq_true, if_false]
    omega

end Small

/-! ## Doubles without a fraction -/

section Whole

variable {x : Double}

theorem abs_eq (h : IsNumber x) : x.abs = ofMagnitude false (magnitude x) := by
  apply eq_of_toNat_bits
  rw [toNat_bits_ofMagnitude false h]
  change x.bits.toNat &&& (2 ^ 63 - 1) = 0 + x.bits.toNat % 2 ^ 63
  rw [Nat.and_two_pow_sub_one_eq_mod, Nat.zero_add]

theorem exists_value_of_isWhole (h : isWhole x = true) :
    magnitude x < infinityBits ∧ ∃ n : Nat, value (magnitude x) = n := by
  rcases Nat.lt_trichotomy (magnitude x) infinityBits with hfinite | hinfinite | hnan
  · refine ⟨hfinite, ?_⟩
    unfold isWhole at h
    rw [read_of_finite hfinite] at h
    obtain ⟨n, hn⟩ := Nat.dvd_of_mod_eq_zero (eq_of_beq h)
    refine ⟨n * Nat.pow 2 (splitMagnitude (magnitude x)).2.toNat, ?_⟩
    rw [← ratio_eq_value, div_eq_iff (by simp), ← Nat.cast_mul]
    congr 1
    rw [hn]
    ring
  · unfold isWhole at h
    rw [read_of_infinite hinfinite] at h
    cases h
  · unfold isWhole Binary64.read at h
    rw [if_pos hnan] at h
    cases h

/-- A double without a fraction is given by its integral part, up to the sign of a zero. -/
theorem ofInt_toInt64 (hwhole : isWhole x = true)
    (hsmall : magnitude x ≤ magnitude (ofNat (2 ^ 53))) :
    (ofInt (toInt64 x) == x) = true := by
  obtain ⟨hfinite, n, hn⟩ := exists_value_of_isWhole hwhole
  obtain ⟨hbits, hvalue⟩ := value_nearestMagnitude (n := 2 ^ 53) le_rfl
  have hle : n ≤ 2 ^ 53 := by
    rw [magnitude_ofNat] at hsmall
    have hvalues := value_le_value hfinite hbits hsmall
    rw [hn, hvalue] at hvalues
    exact_mod_cast hvalues
  have hnearest : nearestMagnitude n 1 = magnitude x :=
    nearestMagnitude_of_value Nat.one_pos hfinite (by rw [hn, Nat.cast_one, div_one])
  have hx : ofRatio (isNegative x) n 1 = x := by
    rw [ofRatio, hnearest, ofMagnitude_magnitude hfinite.le]
  have habs : (if isNegative x then -(n : Int) else n).natAbs = n := by
    split <;> omega
  rw [← hx, toInt64_ofRatio _ hle, ofInt, habs, ofRatio, ofRatio,
    beq_iff_rank (isNumber_ofMagnitude _ (nearestMagnitude_le _ _))
      (isNumber_ofMagnitude _ (nearestMagnitude_le _ _)),
    rank_ofMagnitude _ (nearestMagnitude_le _ _), rank_ofMagnitude _ (nearestMagnitude_le _ _)]
  rcases Nat.eq_zero_or_pos n with rfl | hpos
  · have hzero : nearestMagnitude 0 1 = 0 := rfl
    rw [hzero]
    simp [signed]
  · have hsign : decide ((if isNegative x then -(n : Int) else n) < 0) = isNegative x := by
      cases isNegative x with
      | true => exact decide_eq_true (by rw [if_pos rfl]; omega)
      | false => exact decide_eq_false (by rw [if_neg Bool.false_ne_true]; omega)
    rw [hsign]

end Whole

end DiceScript.Binary64
