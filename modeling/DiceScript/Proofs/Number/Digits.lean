import DiceScript.Number.Reader
import DiceScript.Proofs.Number.Whole

/-!
# Digits

The digits of a number read back as that number, and a run of digits is read up to the first
character that is none. A text of digits alone, or with one point among them, is a decimal.
-/

namespace DiceScript

namespace Reader

open Binary64

/-! ## Runs of digits -/

/-- The text does not begin with a digit. -/
def NoDigit (text : List Char) : Prop :=
  ∀ c ∈ text.head?, c.isDigit = false

variable {ds rest : List Char}

theorem digits_append (hds : ∀ c ∈ ds, c.isDigit = true) (hrest : NoDigit rest) :
    digits (ds ++ rest) = (ds, rest) := by
  have htake : rest.takeWhile Char.isDigit = [] := by
    cases rest with
    | nil => rfl
    | cons c rest => exact List.takeWhile_cons_of_neg (by simp [hrest c rfl])
  have hdrop : rest.dropWhile Char.isDigit = rest := by
    cases rest with
    | nil => rfl
    | cons c rest => exact List.dropWhile_cons_of_neg (by simp [hrest c rfl])
  rw [digits, List.takeWhile_append_of_pos hds, List.dropWhile_append_of_pos hds, htake, hdrop,
    List.append_nil]

theorem digits_of_forall (hds : ∀ c ∈ ds, c.isDigit = true) : digits ds = (ds, []) := by
  have h : digits (ds ++ []) = (ds, []) := digits_append hds nofun
  rwa [List.append_nil] at h

theorem digitsValue_eq (ds : List Char) : digitsValue ds = Nat.ofDigitChars 10 ds 0 := by
  rw [digitsValue, Nat.ofDigitChars_eq_foldl]
  exact congrArg (fun f => ds.foldl f 0) (funext₂ fun n c => by rw [digitValue, Nat.mul_comm])

theorem digitsValue_toDigits (n : Nat) : digitsValue (Nat.toDigits 10 n) = n := by
  rw [digitsValue_eq, Nat.ofDigitChars_toDigits (by decide) (by decide)]

theorem digitsValue_append_zeros (ds : List Char) (k : Nat) :
    digitsValue (ds ++ List.replicate k '0') = digitsValue ds * 10 ^ k := by
  rw [digitsValue_eq, Nat.ofDigitChars_append, Nat.ofDigitChars_replicate_zero, digitsValue_eq,
    Nat.mul_comm]

theorem digitsValue_zeros_append (k : Nat) (ds : List Char) :
    digitsValue (List.replicate k '0' ++ ds) = digitsValue ds := by
  rw [digitsValue_eq, Nat.ofDigitChars_append, Nat.ofDigitChars_replicate_zero, Nat.mul_zero,
    digitsValue_eq]

theorem isDigit_toDigits (n : Nat) : ∀ c ∈ Nat.toDigits 10 n, c.isDigit = true :=
  fun _ h => Nat.isDigit_of_mem_toDigits (by decide) (by decide) h

theorem exists_toDigits_eq_cons (n : Nat) :
    ∃ c rest, Nat.toDigits 10 n = c :: rest ∧ c.isDigit = true := by
  obtain ⟨c, rest, heq⟩ := List.exists_cons_of_ne_nil (Nat.toDigits_ne_nil (b := 10) (n := n))
  exact ⟨c, rest, heq, isDigit_toDigits n c (heq ▸ List.mem_cons_self)⟩

theorem whole?_of_forall (hne : ds ≠ []) (hds : ∀ c ∈ ds, c.isDigit = true) :
    whole? ds = some (digitsValue ds) := by
  rw [whole?, if_pos ⟨hne, List.all_eq_true.mpr hds⟩]

theorem whole?_toDigits (n : Nat) : whole? (Nat.toDigits 10 n) = some n := by
  rw [whole?_of_forall Nat.toDigits_ne_nil (isDigit_toDigits n), digitsValue_toDigits]

/-- A whole number is written as a non-empty run of digits. -/
theorem of_whole? {n : Nat} (h : whole? ds = some n) :
    ds ≠ [] ∧ (∀ c ∈ ds, c.isDigit = true) ∧ digitsValue ds = n := by
  unfold whole? at h
  split at h
  · rename_i hds
    cases h
    exact ⟨hds.1, List.all_eq_true.mp hds.2, rfl⟩
  · cases h

/-! ## Decimals -/

theorem ofDecimal_zero_exponent (negative : Bool) (n : Nat) :
    ofDecimal negative n 0 = ofRatio negative n 1 := by
  have hlarge : ¬ (400 : Int) < 0 := by decide
  have hsmall : ¬ (0 : Int) < -(400 + (n.log2 : Int)) := by omega
  rw [ofDecimal, if_neg hlarge, if_neg hsmall]
  split
  · rename_i hn
    rw [hn]
    rfl
  · rw [Int.toNat_zero, Int.neg_zero, Int.toNat_zero, Nat.pow_eq, pow_zero, Nat.mul_one]

theorem decimal?_of_forall (negative : Bool) (hne : ds ≠ []) (hds : ∀ c ∈ ds, c.isDigit = true) :
    decimal? negative ds = some (ofRatio negative (digitsValue ds) 1) := by
  unfold decimal?
  rw [digits_of_forall hds]
  dsimp only
  rw [if_neg fun h => hne h.1, List.append_nil, exponent?, List.length_nil, Int.natCast_zero,
    ← ofDecimal_zero_exponent]
  rfl

theorem decimal?_point (negative : Bool) {fs : List Char} (hne : ds ≠ [])
    (hds : ∀ c ∈ ds, c.isDigit = true) (hfs : ∀ c ∈ fs, c.isDigit = true) :
    decimal? negative (ds ++ '.' :: fs) =
      some (ofDecimal negative (digitsValue (ds ++ fs)) (-(fs.length : Int))) := by
  have hpoint : NoDigit ('.' :: fs) := fun c hc => by
    cases hc
    rfl
  unfold decimal?
  rw [digits_append hds hpoint]
  simp only [digits_of_forall hfs]
  rw [if_neg fun h => hne h.1, exponent?, ← Int.zero_sub]
  rfl

/-! ## Signs and words -/

variable {c : Char}

theorem sign_of_isDigit (hc : c.isDigit = true) (rest : List Char) :
    sign (c :: rest) = (false, c :: rest) := by
  unfold sign
  split
  · rename_i h
    cases h
    cases hc
  · rename_i h
    cases h
    cases hc
  · rfl

/-- None of the words for numbers begins with a digit. -/
theorem float?_of_sign {negative : Bool} {text : List Char} (hc : c.isDigit = true)
    (h : sign text = (negative, c :: rest)) : float? text = decimal? negative (c :: rest) := by
  have hlower : c.toLower = c := by
    have hle : c.val.toNat ≤ 57 := by
      simp only [Char.isDigit, Bool.and_eq_true, decide_eq_true_eq] at hc
      exact UInt32.le_iff_toNat_le.mp hc.2
    have hlt : c.val.toNat < 65 := Nat.lt_of_le_of_lt hle (by decide)
    refine Char.toLower_eq_of_not_isUpper fun h => ?_
    simp only [Char.isUpper, decide_eq_true_eq] at h
    exact absurd (UInt32.le_iff_toNat_le.mp h.1) (Nat.not_le.mpr hlt)
  have hword : ∀ (d : Char) (word : List Char), d.isDigit = false →
      (c :: rest).map Char.toLower ≠ d :: word := by
    intro d word hd heq
    rw [List.map_cons, hlower] at heq
    rw [← List.head_eq_of_cons_eq heq, hc] at hd
    cases hd
  unfold float?
  rw [h]
  dsimp only
  rw [if_neg, if_neg]
  · exact hword 'n' ['a', 'n'] rfl
  · exact not_or.mpr ⟨hword 'i' ['n', 'f'] rfl, hword 'i' ['n', 'f', 'i', 'n', 'i', 't', 'y'] rfl⟩

theorem float?_of_isDigit (hc : c.isDigit = true) (rest : List Char) :
    float? (c :: rest) = decimal? false (c :: rest) :=
  float?_of_sign hc (sign_of_isDigit hc rest)

/-- A literal is read as the double nearest to it. -/
theorem float?_of_whole? {n : Nat} (h : whole? ds = some n) : float? ds = some (ofNat n) := by
  obtain ⟨hne, hds, rfl⟩ := of_whole? h
  cases ds with
  | nil => exact absurd rfl hne
  | cons c ds =>
      rw [float?_of_isDigit (hds c List.mem_cons_self), decimal?_of_forall false hne hds]
      rfl

end Reader

end DiceScript
