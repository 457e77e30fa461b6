import DiceScript.Proofs.Number.Bits

/-!
# Rounding a ratio

The nearest double depends on the value of a ratio only. It is the double itself when that has the
value, and a greater ratio never gives a lesser double.
-/

namespace DiceScript.Binary64

/-! ## The whole number nearest to a ratio -/

theorem roundDiv_mul_right (n d : Nat) {k : Nat} (hk : 0 < k) :
    roundDiv (n * k) (d * k) = roundDiv n d := by
  have hq : n * k / (d * k) = n / d := Nat.mul_div_mul_right n d hk
  have hr : n * k % (d * k) = n % d * k := Nat.mul_mod_mul_right k n d
  have hless : d * k < 2 * (n % d * k) ↔ d < 2 * (n % d) := by
    rw [← Nat.mul_assoc]
    exact Nat.mul_lt_mul_right hk
  have heq : 2 * (n % d * k) = d * k ↔ 2 * (n % d) = d := by
    rw [← Nat.mul_assoc]
    exact Nat.mul_left_inj (Nat.ne_of_gt hk)
  simp only [roundDiv, hq, hr, hless, heq]

theorem roundDiv_le_roundDiv_left {n n' : Nat} (d : Nat) (h : n ≤ n') :
    roundDiv n d ≤ roundDiv n' d := by
  have hq : n / d ≤ n' / d := Nat.div_le_div_right h
  have hn := Nat.div_add_mod n d
  have hn' := Nat.div_add_mod n' d
  unfold roundDiv
  rcases Nat.eq_or_lt_of_le hq with heq | hlt
  · have hr : n % d ≤ n' % d := by
      rw [heq] at hn
      omega
    dsimp only
    rw [heq]
    split_ifs <;> omega
  · dsimp only
    split_ifs <;> omega

theorem roundDiv_mono {n d n' d' : Nat} (hd : 0 < d) (hd' : 0 < d') (h : n * d' ≤ n' * d) :
    roundDiv n d ≤ roundDiv n' d' := by
  rw [← roundDiv_mul_right n d hd', ← roundDiv_mul_right n' d' hd, Nat.mul_comm d' d]
  exact roundDiv_le_roundDiv_left _ h

theorem roundDiv_mul_self (n : Nat) {d : Nat} (hd : 0 < d) : roundDiv (n * d) d = n := by
  have hq : n * d / d = n := Nat.mul_div_cancel n hd
  have hr : n * d % d = 0 := Nat.mul_mod_left n d
  unfold roundDiv
  rw [hq, hr]
  exact if_neg (by omega)

theorem roundDiv_le {n d m : Nat} (hd : 0 < d) (h : n ≤ m * d) : roundDiv n d ≤ m := by
  rw [← roundDiv_mul_self m hd]
  exact roundDiv_le_roundDiv_left d h

theorem le_roundDiv {n d m : Nat} (hd : 0 < d) (h : m * d ≤ n) : m ≤ roundDiv n d := by
  conv_lhs => rw [← roundDiv_mul_self m hd]
  exact roundDiv_le_roundDiv_left d h

/-! ## The logarithm of a ratio -/

theorem two_zpow_eq (k : Int) : (2 : ℚ) ^ k = 2 ^ k.toNat / 2 ^ (-k).toNat := by
  rcases le_total 0 k with h | h
  · obtain ⟨n, rfl⟩ := Int.eq_ofNat_of_zero_le h
    simp
  · obtain ⟨n, hn⟩ := Int.eq_ofNat_of_zero_le (Int.neg_nonneg_of_nonpos h)
    obtain rfl : k = -n := by omega
    simp

/-- Moving a ratio by a power of two. -/
theorem ratio_shift (n d : Nat) (k : Int) :
    ((n * Nat.pow 2 (-k).toNat : Nat) : ℚ) / (d * Nat.pow 2 k.toNat : Nat) = n / d * 2 ^ (-k) := by
  rw [two_zpow_eq, neg_neg]
  push_cast [Nat.pow_eq]
  rw [mul_div_mul_comm]

theorem le_ratio_iff {n d : Nat} (hd : 0 < d) (k : Int) :
    d * Nat.pow 2 k.toNat ≤ n * Nat.pow 2 (-k).toNat ↔ (2 : ℚ) ^ k ≤ n / d := by
  have hd' : (0 : ℚ) < d := by exact_mod_cast hd
  rw [two_zpow_eq, div_le_div_iff₀ (by positivity) hd']
  rw [← Nat.cast_le (α := ℚ)]
  push_cast [Nat.pow_eq]
  rw [mul_comm (d : ℚ)]

theorem floorLog_spec {n d : Nat} (hn : 0 < n) (hd : 0 < d) :
    (2 : ℚ) ^ floorLog n d ≤ n / d ∧ (n : ℚ) / d < 2 ^ (floorLog n d + 1) := by
  have hd' : (0 : ℚ) < d := by exact_mod_cast hd
  have hn₁ : (2 : ℚ) ^ (n.log2 : Int) ≤ n := by
    rw [zpow_natCast]
    exact_mod_cast Nat.log2_self_le hn.ne'
  have hn₂ : (n : ℚ) < 2 ^ ((n.log2 : Int) + 1) := by
    rw [← Nat.cast_succ, zpow_natCast]
    exact_mod_cast Nat.lt_log2_self
  have hd₁ : (2 : ℚ) ^ (d.log2 : Int) ≤ d := by
    rw [zpow_natCast]
    exact_mod_cast Nat.log2_self_le hd.ne'
  have hd₂ : (d : ℚ) < 2 ^ ((d.log2 : Int) + 1) := by
    rw [← Nat.cast_succ, zpow_natCast]
    exact_mod_cast Nat.lt_log2_self
  have hlow : (2 : ℚ) ^ ((n.log2 : Int) - d.log2 - 1) ≤ n / d := by
    rw [le_div_iff₀ hd']
    calc (2 : ℚ) ^ ((n.log2 : Int) - d.log2 - 1) * d
        ≤ 2 ^ ((n.log2 : Int) - d.log2 - 1) * 2 ^ ((d.log2 : Int) + 1) := by gcongr
      _ = 2 ^ (n.log2 : Int) := by rw [← zpow_add₀ (by norm_num)]; congr 1; omega
      _ ≤ n := hn₁
  have hhigh : (n : ℚ) / d < 2 ^ ((n.log2 : Int) - d.log2 + 1) := by
    rw [div_lt_iff₀ hd']
    calc (n : ℚ) < 2 ^ ((n.log2 : Int) + 1) := hn₂
      _ = 2 ^ ((n.log2 : Int) - d.log2 + 1) * 2 ^ (d.log2 : Int) := by
          rw [← zpow_add₀ (by norm_num)]; congr 1; omega
      _ ≤ 2 ^ ((n.log2 : Int) - d.log2 + 1) * d := by gcongr
  unfold floorLog
  dsimp only
  split
  · rename_i h
    exact ⟨(le_ratio_iff hd _).mp h, hhigh⟩
  · rename_i h
    rw [le_ratio_iff hd, not_le] at h
    exact ⟨hlow, by rwa [sub_add_cancel]⟩

theorem lt_of_zpow_bounds {q r : ℚ} {k j : Int} (hk : (2 : ℚ) ^ k ≤ q) (hqr : q ≤ r)
    (hj : r < 2 ^ (j + 1)) : k ≤ j := by
  have h : (2 : ℚ) ^ k < 2 ^ (j + 1) := lt_of_le_of_lt (hk.trans hqr) hj
  exact Int.lt_add_one_iff.mp ((zpow_lt_zpow_iff_right₀ (by norm_num)).mp h)

theorem floorLog_mono {n d n' d' : Nat} (hn : 0 < n) (hd : 0 < d) (hn' : 0 < n') (hd' : 0 < d')
    (h : (n : ℚ) / d ≤ n' / d') : floorLog n d ≤ floorLog n' d' :=
  lt_of_zpow_bounds (floorLog_spec hn hd).1 h (floorLog_spec hn' hd').2

/-! ## The nearest double -/

/-- The exponent of the doubles near a ratio. -/
def stepOf (n d : Nat) : Int :=
  max (floorLog n d - 52) (-1074)

/-- The whole number of steps nearest to a ratio. -/
def stepsOf (n d : Nat) : Nat :=
  roundDiv (n * Nat.pow 2 (-stepOf n d).toNat) (d * Nat.pow 2 (stepOf n d).toNat)

theorem nearestMagnitude_eq {n : Nat} (hn : 0 < n) (d : Nat) :
    nearestMagnitude n d = min ((stepOf n d + 1074).toNat * 2 ^ 52 + stepsOf n d) infinityBits :=
  if_neg hn.ne'

theorem nearestMagnitude_le (n d : Nat) : nearestMagnitude n d ≤ infinityBits := by
  rcases Nat.eq_zero_or_pos n with rfl | hn
  · exact Nat.zero_le _
  · rw [nearestMagnitude_eq hn]
    exact Nat.min_le_right _ _

theorem le_shifted_iff {n d : Nat} (hd : 0 < d) (m : Nat) (k : Int) :
    m * (d * Nat.pow 2 k.toNat) ≤ n * Nat.pow 2 (-k).toNat ↔ (m : ℚ) * 2 ^ k ≤ n / d := by
  have hpos : 0 < d * Nat.pow 2 k.toNat := Nat.mul_pos hd (Nat.two_pow_pos _)
  have hpos' : (0 : ℚ) < (d * Nat.pow 2 k.toNat : Nat) := by exact_mod_cast hpos
  rw [← Nat.cast_le (α := ℚ), Nat.cast_mul m, ← le_div_iff₀ hpos', ratio_shift, zpow_neg,
    ← div_eq_mul_inv, le_div_iff₀ (by positivity)]

theorem shifted_le_iff {n d : Nat} (hd : 0 < d) (m : Nat) (k : Int) :
    n * Nat.pow 2 (-k).toNat ≤ m * (d * Nat.pow 2 k.toNat) ↔ (n : ℚ) / d ≤ m * 2 ^ k := by
  have hpos : 0 < d * Nat.pow 2 k.toNat := Nat.mul_pos hd (Nat.two_pow_pos _)
  have hpos' : (0 : ℚ) < (d * Nat.pow 2 k.toNat : Nat) := by exact_mod_cast hpos
  rw [← Nat.cast_le (α := ℚ), Nat.cast_mul m, ← div_le_iff₀ hpos', ratio_shift, zpow_neg,
    ← div_eq_mul_inv, div_le_iff₀ (by positivity)]

theorem stepsOf_le {n d : Nat} (hn : 0 < n) (hd : 0 < d) : stepsOf n d ≤ 2 ^ 53 := by
  have hpos : 0 < d * Nat.pow 2 (stepOf n d).toNat := Nat.mul_pos hd (Nat.two_pow_pos _)
  refine roundDiv_le hpos ((shifted_le_iff hd _ _).mpr ?_)
  have hstep : floorLog n d + 1 ≤ 53 + stepOf n d := by
    unfold stepOf
    omega
  calc (n : ℚ) / d ≤ 2 ^ (floorLog n d + 1) := (floorLog_spec hn hd).2.le
    _ ≤ 2 ^ (53 + stepOf n d) := zpow_le_zpow_right₀ (by norm_num) hstep
    _ = (2 ^ 53 : Nat) * 2 ^ stepOf n d := by
        rw [zpow_add₀ (by norm_num)]
        norm_num

theorem le_stepsOf {n d : Nat} (hn : 0 < n) (hd : 0 < d) (hstep : -1074 < stepOf n d) :
    2 ^ 52 ≤ stepsOf n d := by
  have hpos : 0 < d * Nat.pow 2 (stepOf n d).toNat := Nat.mul_pos hd (Nat.two_pow_pos _)
  refine le_roundDiv hpos ((le_shifted_iff hd _ _).mpr ?_)
  have hlog : 52 + stepOf n d = floorLog n d := by
    unfold stepOf at hstep ⊢
    omega
  calc ((2 ^ 52 : Nat) : ℚ) * 2 ^ stepOf n d = 2 ^ (52 + stepOf n d) := by
        rw [zpow_add₀ (by norm_num)]
        norm_num
    _ ≤ n / d := by
        rw [hlog]
        exact (floorLog_spec hn hd).1

/-- A greater ratio does not give a lesser double. -/
theorem nearestMagnitude_mono {n d n' d' : Nat} (hd : 0 < d) (hd' : 0 < d')
    (h : n * d' ≤ n' * d) : nearestMagnitude n d ≤ nearestMagnitude n' d' := by
  rcases Nat.eq_zero_or_pos n with rfl | hn
  · exact Nat.zero_le _
  have hn' : 0 < n' := by
    refine Nat.pos_of_ne_zero fun hzero => ?_
    rw [hzero, Nat.zero_mul] at h
    exact absurd h (Nat.not_le.mpr (Nat.mul_pos hn hd'))
  have hratio : (n : ℚ) / d ≤ n' / d' := by
    rw [div_le_div_iff₀ (by exact_mod_cast hd) (by exact_mod_cast hd')]
    exact_mod_cast h
  have hlog := floorLog_mono hn hd hn' hd' hratio
  have hle : stepOf n d ≤ stepOf n' d' := by
    unfold stepOf
    omega
  have hlow : -1074 ≤ stepOf n d := le_max_right _ _
  rw [nearestMagnitude_eq hn, nearestMagnitude_eq hn']
  refine min_le_min_right _ ?_
  rcases hle.eq_or_lt with heq | hlt
  · refine Nat.add_le_add (by rw [heq]) ?_
    unfold stepsOf
    rw [← heq]
    refine roundDiv_mono (Nat.mul_pos hd (Nat.two_pow_pos _)) (Nat.mul_pos hd' (Nat.two_pow_pos _)) ?_
    calc _ = n * d' * (Nat.pow 2 (-stepOf n d).toNat * Nat.pow 2 (stepOf n d).toNat) := by ring
      _ ≤ n' * d * (Nat.pow 2 (-stepOf n d).toNat * Nat.pow 2 (stepOf n d).toNat) :=
          Nat.mul_le_mul_right _ h
      _ = _ := by ring
  · -- one step further on, everything is at least as great
    have hsteps := stepsOf_le hn hd
    have hsteps' := le_stepsOf hn' hd' (lt_of_le_of_lt hlow hlt)
    omega

/-! ## Values of doubles -/

/-- The value of the finite magnitude bits. -/
def value (bits : Nat) : ℚ :=
  (splitMagnitude bits).1 * 2 ^ (splitMagnitude bits).2

theorem value_pos {bits : Nat} (h : bits ≠ 0) : 0 < value bits := by
  have hpos : (0 : ℚ) < (splitMagnitude bits).1 := by exact_mod_cast splitMagnitude_pos h
  unfold value
  positivity

section OfValue

variable {n d bits : Nat}

theorem stepOf_of_value (hn : 0 < n) (hd : 0 < d) (h : (n : ℚ) / d = value bits) :
    stepOf n d = (splitMagnitude bits).2 := by
  obtain ⟨hlow, hhigh⟩ := floorLog_spec hn hd
  rw [h, value] at hlow hhigh
  rcases Nat.lt_or_ge bits (2 ^ 52) with hlt | hge
  · rw [splitMagnitude_of_lt hlt] at hlow ⊢
    have hvalue : (bits : ℚ) * 2 ^ (-1074 : Int) < 2 ^ ((-1023 : Int) + 1) := by
      rw [show ((-1023 : Int) + 1) = 52 + -1074 by norm_num, zpow_add₀ (by norm_num)]
      gcongr
      exact_mod_cast hlt
    have hlog := lt_of_zpow_bounds hlow le_rfl hvalue
    unfold stepOf
    dsimp only
    omega
  · rw [splitMagnitude_of_ge hge] at hlow hhigh ⊢
    dsimp only at hlow hhigh ⊢
    set e : Int := ((bits / 2 ^ 52 : Nat) : Int) - 1075
    have hmod : bits % 2 ^ 52 < 2 ^ 52 := Nat.mod_lt _ (by decide)
    have hvalue : ((2 ^ 52 + bits % 2 ^ 52 : Nat) : ℚ) * 2 ^ e < 2 ^ (e + 52 + 1) := by
      rw [add_assoc, add_comm e, zpow_add₀ (by norm_num)]
      gcongr
      exact_mod_cast (by omega : 2 ^ 52 + bits % 2 ^ 52 < 2 ^ 53)
    have hvalue' : (2 : ℚ) ^ (e + 52) ≤ ((2 ^ 52 + bits % 2 ^ 52 : Nat) : ℚ) * 2 ^ e := by
      rw [add_comm e, zpow_add₀ (by norm_num)]
      gcongr
      exact_mod_cast (by omega : 2 ^ 52 ≤ 2 ^ 52 + bits % 2 ^ 52)
    have hlog := lt_of_zpow_bounds hlow le_rfl hvalue
    have hlog' := lt_of_zpow_bounds hvalue' le_rfl hhigh
    unfold stepOf
    omega

theorem stepsOf_of_value (hn : 0 < n) (hd : 0 < d) (h : (n : ℚ) / d = value bits) :
    stepsOf n d = (splitMagnitude bits).1 := by
  have hpos : 0 < d * Nat.pow 2 (splitMagnitude bits).2.toNat :=
    Nat.mul_pos hd (Nat.two_pow_pos _)
  have heq : n * Nat.pow 2 (-(splitMagnitude bits).2).toNat =
      (splitMagnitude bits).1 * (d * Nat.pow 2 (splitMagnitude bits).2.toNat) :=
    le_antisymm ((shifted_le_iff hd _ _).mpr h.le) ((le_shifted_iff hd _ _).mpr h.ge)
  rw [stepsOf, stepOf_of_value hn hd h, heq]
  exact roundDiv_mul_self _ hpos

/-- A double is the nearest one to its own value. -/
theorem nearestMagnitude_of_value (hd : 0 < d) (hbits : bits < infinityBits)
    (h : (n : ℚ) / d = value bits) : nearestMagnitude n d = bits := by
  have hmax : infinityBits = 2047 * 2 ^ 52 := rfl
  rcases Nat.eq_zero_or_pos n with rfl | hn
  · have hzero : bits = 0 := by
      by_contra hne
      have hvalue := value_pos hne
      simp [← h] at hvalue
    rw [hzero]
    rfl
  rw [nearestMagnitude_eq hn, stepOf_of_value hn hd h, stepsOf_of_value hn hd h]
  rcases Nat.lt_or_ge bits (2 ^ 52) with hlt | hge
  · rw [splitMagnitude_of_lt hlt]
    dsimp only
    omega
  · rw [splitMagnitude_of_ge hge]
    dsimp only
    omega

end OfValue

theorem ratio_eq_value (bits : Nat) :
    (((splitMagnitude bits).1 * Nat.pow 2 (splitMagnitude bits).2.toNat : Nat) : ℚ) /
      (Nat.pow 2 (-(splitMagnitude bits).2).toNat : Nat) = value bits := by
  rw [value, two_zpow_eq, ← mul_div_assoc]
  push_cast [Nat.pow_eq]
  rfl

section Finite

variable {b c : Nat} (hb : b < infinityBits) (hc : c < infinityBits)

include hb hc

theorem le_of_value_le (h : value b ≤ value c) : b ≤ c := by
  rw [← nearestMagnitude_of_value (Nat.two_pow_pos _) hb (ratio_eq_value b),
    ← nearestMagnitude_of_value (Nat.two_pow_pos _) hc (ratio_eq_value c)]
  refine nearestMagnitude_mono (Nat.two_pow_pos _) (Nat.two_pow_pos _) ?_
  rw [← ratio_eq_value b, ← ratio_eq_value c, div_le_div_iff₀ (by simp) (by simp)] at h
  exact_mod_cast h

/-- Finite doubles have the order of their values. -/
theorem value_le_value (h : b ≤ c) : value b ≤ value c := by
  by_contra hlt
  rw [not_le] at hlt
  obtain rfl : b = c := le_antisymm h (le_of_value_le hc hb hlt.le)
  exact lt_irrefl _ hlt

/-- Two finite doubles with one value are one. -/
theorem eq_of_value_eq (h : value b = value c) : b = c :=
  le_antisymm (le_of_value_le hb hc h.le) (le_of_value_le hc hb h.ge)

end Finite

end DiceScript.Binary64
