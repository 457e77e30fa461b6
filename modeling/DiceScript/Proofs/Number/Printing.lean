import DiceScript.Number.Decimal
import DiceScript.Proofs.Number.Digits

/-!
# Printed numbers

The shortest decimal of a double reads back to it, in whichever way its digits are laid out. A
decimal reads as the double nearest to it, also where its exponent is far out of range.
-/

namespace DiceScript

open Binary64

namespace Binary64

/-- A power of ten so great that nothing beyond it is finite, and its inverse is nothing. -/
theorem exists_beyond : ∃ k n, k ≤ 200 ∧ n = 10 ^ k * 10 ^ k ∧
    nearestMagnitude n 1 = infinityBits ∧ nearestMagnitude 1 n = 0 :=
  ⟨200, 10 ^ 200 * 10 ^ 200, by decide +kernel⟩

/-- Exponents that are answered without forming the power are answered as if it had been. -/
theorem ofDecimal_eq_ofRatio (negative : Bool) (digits : Nat) (exponent : Int) :
    ofDecimal negative digits exponent =
      ofRatio negative (digits * 10 ^ exponent.toNat) (10 ^ (-exponent).toNat) := by
  obtain ⟨k, n, hk, hn, hlargest, hsmallest⟩ := exists_beyond
  rw [← pow_add] at hn
  have hnpos : 0 < n := by
    rw [hn]
    positivity
  rw [ofDecimal, ofRatio]
  split
  · rename_i hzero
    rw [hzero, Nat.zero_mul]
    rfl
  rename_i hne
  have hpos : 0 < digits := Nat.pos_of_ne_zero hne
  split
  · rename_i hlarge
    have hexp : (-exponent).toNat = 0 := by omega
    have hpow : n ≤ 10 ^ exponent.toNat := by
      rw [hn]
      exact Nat.pow_le_pow_right (by decide) (by omega)
    have hle : n ≤ digits * 10 ^ exponent.toNat := hpow.trans (Nat.le_mul_of_pos_left _ hpos)
    rw [hexp, pow_zero]
    congr 1
    refine le_antisymm ?_ (nearestMagnitude_le _ _)
    rw [← hlargest]
    exact nearestMagnitude_mono Nat.one_pos Nat.one_pos (Nat.mul_le_mul_right 1 hle)
  split
  · rename_i hsmall
    have hexp : exponent.toNat = 0 := by omega
    have hdigits : digits ≤ 10 ^ (digits.log2 + 1) :=
      Nat.lt_log2_self.le.trans (Nat.pow_le_pow_left (by decide) _)
    have hle : digits * n ≤ 1 * 10 ^ (-exponent).toNat :=
      calc digits * n ≤ 10 ^ (digits.log2 + 1) * n := Nat.mul_le_mul_right _ hdigits
        _ = 10 ^ (digits.log2 + 1 + (k + k)) := by rw [hn, ← pow_add]
        _ ≤ 10 ^ (-exponent).toNat := Nat.pow_le_pow_right (by decide) (by omega)
        _ = 1 * 10 ^ (-exponent).toNat := (Nat.one_mul _).symm
    rw [hexp, pow_zero, Nat.mul_one]
    congr 1
    refine (Nat.le_zero.mp ?_).symm
    rw [← hsmallest]
    exact nearestMagnitude_mono (by positivity) hnpos hle
  · rfl

end Binary64

namespace Decimal

/-! ## The shortest decimal -/

/-- The decimal reads back to the double with the given magnitude bits. -/
def Denotes (x : Decimal) (bits : Nat) : Prop :=
  nearestMagnitude (x.digits * 10 ^ x.exponent.toNat) (10 ^ (-x.exponent).toNat) = bits

theorem readsBack_iff {bits : Nat} {e : Int} {c : Nat} :
    readsBack bits e c = true ↔ Denotes ⟨c, e⟩ bits :=
  beq_iff_eq

theorem onGrid?_denotes {tie : Tie} {bits n d c : Nat} {e : Int}
    (h : onGrid? tie bits n d e = some c) : Denotes ⟨c, e⟩ bits := by
  rw [← readsBack_iff]
  unfold onGrid? at h
  dsimp only at h
  split at h
  · rename_i hbelow habove
    split at h
    · cases h
      exact hbelow
    · cases h
      exact habove
    · cases h
      -- the even one of the two neighbours
      rcases Nat.mod_two_eq_zero_or_one
        (n * Nat.pow 10 (-e).toNat / (d * Nat.pow 10 e.toNat)) with heven | hodd
      · rwa [heven]
      · rwa [hodd]
    · cases h
      exact habove
  · rename_i hbelow _
    cases h
    exact hbelow
  · rename_i _ habove
    cases h
    exact habove
  · cases h

/-- A fraction with a power of two below stands on a grid as fine as that power. -/
theorem denotes_of_value {bits n d j k : Nat} (hbits : bits < infinityBits) (hd : d = 2 ^ j)
    (hj : j ≤ k) (hvalue : (n : ℚ) / d = value bits) :
    Denotes ⟨n * Nat.pow 10 k / d, -(k : Int)⟩ bits := by
  have hdvd : d ∣ n * 10 ^ k := by
    rw [hd]
    exact ((pow_dvd_pow 2 hj).trans (pow_dvd_pow_of_dvd (by decide) k)).mul_left n
  have hpos : (0 : ℚ) < d := by
    rw [hd]
    positivity
  have hquotient : ((n * 10 ^ k / d : Nat) : ℚ) / (10 ^ k : Nat) = value bits := by
    rw [Nat.cast_div hdvd hpos.ne', ← hvalue]
    push_cast
    field_simp
  have hwhole : (-(k : Int)).toNat = 0 := by omega
  have hfraction : (-(-(k : Int))).toNat = k := by omega
  rw [Denotes, Nat.pow_eq, hwhole, hfraction, pow_zero, Nat.mul_one]
  exact nearestMagnitude_of_value (by positivity) hbits hquotient

theorem search_denotes (tie : Tie) {bits n d j : Nat} (hbits : bits < infinityBits)
    (hd : d = 2 ^ j) (hj : j ≤ 1074) (hvalue : (n : ℚ) / d = value bits) (grids : Nat) :
    (search tie bits n d grids).Denotes bits := by
  induction grids with
  | zero =>
      -- the power is not to be evaluated
      rw [search]
      generalize hk : (1074 : Nat) = k
      have hexponent : (-1074 : Int) = -(k : Int) := by omega
      rw [hexponent]
      exact denotes_of_value hbits hd (hj.trans hk.le) hvalue
  | succ grids ih =>
      rw [search]
      split
      · rename_i c hgrid
        exact onGrid?_denotes hgrid
      · exact ih

theorem shortest_denotes (tie : Tie) {bits : Nat} (h : bits < infinityBits) :
    (shortest tie bits).Denotes bits := by
  unfold shortest
  split
  · rename_i hzero
    rw [hzero]
    rfl
  · have hexp : (-(splitMagnitude bits).2).toNat ≤ 1074 := by
      rcases Nat.lt_or_ge bits (2 ^ 52) with hlt | hge
      · rw [splitMagnitude_of_lt hlt]
        exact le_rfl
      · rw [splitMagnitude_of_ge hge]
        dsimp only
        omega
    exact search_denotes tie h rfl hexp (ratio_eq_value bits) _

/-! ## Plain digits -/

section Layout

variable {ds : List Char} (hne : ds ≠ []) (hds : ∀ c ∈ ds, c.isDigit = true) (k : Int)

include hne hds

/-- Digits with a point after the first `k`, as many zeros before or behind them as it takes. -/
theorem decimal?_pointAfter (negative : Bool) :
    Reader.decimal? negative (pointAfter ds k "") =
      some (ofDecimal negative (Reader.digitsValue ds) (k - ds.length)) := by
  have hzeros : ∀ n, ∀ c ∈ List.replicate n '0', c.isDigit = true := by
    intro n c hc
    rw [List.eq_of_mem_replicate hc]
    rfl
  unfold pointAfter
  split
  · have hfraction : ∀ c ∈ List.replicate (-k).toNat '0' ++ ds, c.isDigit = true :=
      List.forall_mem_append.mpr ⟨hzeros _, hds⟩
    have hread := Reader.decimal?_point negative (List.cons_ne_nil '0' []) (hzeros 1) hfraction
    have hlength : -(((-k).toNat + ds.length : Nat) : Int) = k - ds.length := by omega
    have hvalue : Reader.digitsValue (['0'] ++ (List.replicate (-k).toNat '0' ++ ds)) =
        Reader.digitsValue ds := Reader.digitsValue_zeros_append ((-k).toNat + 1) ds
    rw [hvalue, List.length_append, List.length_replicate, hlength] at hread
    exact hread
  split
  · have hall : ∀ c ∈ ds ++ List.replicate (k.toNat - ds.length) '0', c.isDigit = true :=
      List.forall_mem_append.mpr ⟨hds, hzeros _⟩
    have hread := Reader.decimal?_of_forall negative (List.append_ne_nil_of_left_ne_nil hne _) hall
    have hexp : (k - ds.length).toNat = k.toNat - ds.length := by omega
    have hexp' : (-(k - ds.length)).toNat = 0 := by omega
    rw [String.toList_empty, List.append_nil, hread, ofDecimal_eq_ofRatio, hexp, hexp', pow_zero,
      Reader.digitsValue_append_zeros]
  · have htake : ds.take k.toNat ≠ [] := by
      rw [Ne, List.take_eq_nil_iff]
      exact not_or.mpr ⟨by omega, hne⟩
    have hdrop : ∀ c ∈ ds.drop k.toNat, c.isDigit = true :=
      fun c hc => hds c (List.mem_of_mem_drop hc)
    have hread := Reader.decimal?_point negative htake
      (fun c hc => hds c (List.mem_of_mem_take hc)) hdrop
    have hlength : -((ds.length - k.toNat : Nat) : Int) = k - ds.length := by omega
    rw [List.take_append_drop, List.length_drop, hlength] at hread
    exact hread

theorem exists_pointAfter_eq_cons :
    ∃ c rest, pointAfter ds k "" = c :: rest ∧ c.isDigit = true := by
  obtain ⟨c, cs, rfl⟩ := List.exists_cons_of_ne_nil hne
  have hc := hds c List.mem_cons_self
  unfold pointAfter
  split
  · exact ⟨_, _, rfl, rfl⟩
  split
  · exact ⟨_, _, rfl, hc⟩
  · obtain ⟨n, hn⟩ : ∃ n, k.toNat = n + 1 := ⟨k.toNat - 1, by omega⟩
    rw [hn]
    exact ⟨_, _, rfl, hc⟩

end Layout

theorem layout_plain (x : Decimal) :
    layout .plain x = pointAfter (Nat.toDigits 10 x.digits)
      ((Nat.toDigits 10 x.digits).length + x.exponent) "" := by
  have hplain : ∀ e, Style.plain.positional e = true := fun _ => rfl
  unfold layout
  dsimp only
  rw [if_pos (hplain _), Int.sub_add_cancel]
  rfl

theorem exists_layout_plain_eq_cons (x : Decimal) :
    ∃ c rest, layout .plain x = c :: rest ∧ c.isDigit = true := by
  rw [layout_plain]
  exact exists_pointAfter_eq_cons Nat.toDigits_ne_nil (Reader.isDigit_toDigits _) _

theorem decimal?_layout_plain (negative : Bool) (x : Decimal) :
    Reader.decimal? negative (layout .plain x) =
      some (ofDecimal negative x.digits x.exponent) := by
  rw [layout_plain, decimal?_pointAfter Nat.toDigits_ne_nil (Reader.isDigit_toDigits _),
    Reader.digitsValue_toDigits, add_sub_cancel_left]

end Decimal

/-! ## Texts of doubles -/

variable {x : Double}

/-- Plain digits of a number read back as that number. -/
theorem float?_finiteText (h : magnitude x < infinityBits) :
    Reader.float? (finiteText .plain x) = some x := by
  set shortest := Decimal.shortest Decimal.Style.plain.tie (magnitude x) with hshortest
  have hdenotes : shortest.Denotes (magnitude x) := Decimal.shortest_denotes _ h
  obtain ⟨c, rest, heq, hc⟩ := Decimal.exists_layout_plain_eq_cons shortest
  have hsign : Reader.sign (finiteText .plain x) = (isNegative x, c :: rest) := by
    unfold finiteText
    dsimp only
    rw [← hshortest, heq]
    split
    · rename_i hnegative
      rw [hnegative, Reader.sign]
    · rename_i hpositive
      rw [Reader.sign_of_isDigit hc, Bool.eq_false_iff.mpr hpositive]
  rw [Reader.float?_of_sign hc hsign, ← heq, Decimal.decimal?_layout_plain, ofDecimal_eq_ofRatio,
    ofRatio, hdenotes, ofMagnitude_magnitude h.le]

theorem float?_plainText (h : x.isNaN = false) : Reader.float? (plainText x).toList = some x := by
  have hle : magnitude x ≤ infinityBits := (isNaN_eq_false_iff x).mp h
  unfold plainText
  rcases hle.eq_or_lt with hinfinite | hfinite
  · have hx := ofMagnitude_magnitude hle
    rw [hinfinite] at hx
    have hword : ∀ negative : Bool, Reader.float? (if negative then "-inf" else "inf").toList =
        some (ofMagnitude negative infinityBits) := by
      intro negative
      cases negative <;> rfl
    rw [read_of_infinite hinfinite]
    exact (hword _).trans (congrArg some hx)
  · rw [read_of_finite hfinite]
    exact (congrArg Reader.float? String.toList_ofList).trans (float?_finiteText hfinite)

/-! ## Texts of integers -/

theorem toList_toString_int (n : Int) :
    (toString n).toList =
      if n < 0 then '-' :: Nat.toDigits 10 n.natAbs else Nat.toDigits 10 n.natAbs := by
  cases n with
  | ofNat m => exact Nat.toList_repr.trans (if_neg (Int.not_lt.mpr (Int.natCast_nonneg m))).symm
  | negSucc m =>
      rw [if_pos (Int.negSucc_lt_zero m)]
      exact (String.toList_append).trans (congrArg ('-' :: ·) Nat.toList_repr)

theorem sign_toString (n : Int) :
    Reader.sign (toString n).toList = (decide (n < 0), Nat.toDigits 10 n.natAbs) := by
  obtain ⟨c, rest, heq, hc⟩ := Reader.exists_toDigits_eq_cons n.natAbs
  rw [toList_toString_int]
  split
  · rename_i hneg
    rw [Reader.sign, decide_eq_true hneg]
  · rename_i hpos
    rw [heq, Reader.sign_of_isDigit hc, decide_eq_false hpos]

theorem int64?_toString {n : Int} (hlow : -2 ^ 63 ≤ n) (hhigh : n < 2 ^ 63) :
    Reader.int64? (toString n).toList = some n := by
  unfold Reader.int64?
  have hvalue : (if decide (n < 0) = true then -(n.natAbs : Int) else n.natAbs) = n := by
    split
    · rename_i hneg
      exact (Int.eq_neg_natAbs_of_nonpos (Int.le_of_lt (of_decide_eq_true hneg))).symm
    · rename_i hpos
      exact Int.natAbs_of_nonneg (Int.not_lt.mp fun h => hpos (decide_eq_true h))
  rw [sign_toString, Reader.whole?_toDigits]
  dsimp only [Option.bind_eq_bind, Option.bind_some]
  rw [hvalue]
  exact if_pos ⟨hlow, hhigh⟩

/-- An integer is read as the double nearest to it. -/
theorem float?_toString (n : Int) : Reader.float? (toString n).toList = some (ofInt n) := by
  obtain ⟨c, rest, heq, hc⟩ := Reader.exists_toDigits_eq_cons n.natAbs
  rw [Reader.float?_of_sign hc ((sign_toString n).trans (by rw [heq])), ← heq,
    Reader.decimal?_of_forall _ Nat.toDigits_ne_nil (Reader.isDigit_toDigits _),
    Reader.digitsValue_toDigits]
  rfl

end DiceScript
