import DiceScript.Json.Reader
import DiceScript.Proofs.Number.Digits

/-!
# Numbers in JSON

A number is read up to the first character with which it cannot go on. A whole number of 64 bits
reads as itself. Whether a double does depends on how its digits are scaled, so that is a property
of the double.
-/

namespace DiceScript.Json

open DiceScript.Reader

/-- No number goes on with this text. -/
def EndsNumber (rest : List Char) : Prop :=
  ∀ c ∈ rest.head?, c.isDigit = false ∧ c ≠ '.' ∧ c ≠ 'e' ∧ c ≠ 'E'

variable {text rest : List Char}

theorem EndsNumber.noDigit (hrest : EndsNumber rest) : NoDigit rest := by
  intro c hc
  exact (hrest c hc).1

/-- What does not begin with a digit does not change which digits come before it. -/
theorem digits_append_right (text : List Char) (hrest : NoDigit rest) :
    digits (text ++ rest) = ((digits text).1, (digits text).2 ++ rest) := by
  have hleft : NoDigit (text.dropWhile Char.isDigit ++ rest) := by
    intro c hc
    cases hd : text.dropWhile Char.isDigit with
    | nil =>
        rw [hd] at hc
        exact hrest c hc
    | cons d ds =>
        rw [hd] at hc
        obtain rfl : d = c := by simpa using hc
        have hhead := List.head?_dropWhile_not Char.isDigit text
        rw [hd] at hhead
        simpa using hhead
  have hall : ∀ c ∈ text.takeWhile Char.isDigit, c.isDigit = true :=
    fun c hc => List.mem_takeWhile_imp hc
  calc digits (text ++ rest)
      = digits (text.takeWhile Char.isDigit ++ (text.dropWhile Char.isDigit ++ rest)) := by
        rw [← List.append_assoc, List.takeWhile_append_dropWhile]
    _ = _ := digits_append hall hleft

/-! ## The end of a number -/

theorem sign_append_right (hne : text ≠ []) (rest : List Char) :
    sign (text ++ rest) = ((sign text).1, (sign text).2 ++ rest) := by
  obtain ⟨c, cs, rfl⟩ := List.exists_cons_of_ne_nil hne
  unfold sign
  rw [List.cons_append]
  split
  · rename_i heq
    obtain ⟨rfl, rfl⟩ := List.cons.inj heq
    rfl
  · rename_i heq
    obtain ⟨rfl, rfl⟩ := List.cons.inj heq
    rfl
  · rename_i hminus hplus
    split
    · rename_i heq
      obtain ⟨rfl, rfl⟩ := List.cons.inj heq
      exact absurd rfl (hminus _)
    · rename_i heq
      obtain ⟨rfl, rfl⟩ := List.cons.inj heq
      exact absurd rfl (hplus _)
    · rfl

theorem exponent?_append {e : Int} (h : exponent? text = some (e, [])) (hrest : NoDigit rest) :
    exponent? (text ++ rest) = some (e, rest) := by
  have hne : text ≠ [] := by
    rintro rfl
    cases h
  unfold exponent? at h ⊢
  rw [sign_append_right hne]
  dsimp only at h ⊢
  rw [digits_append_right _ hrest]
  dsimp only
  split at h
  · cases h
  · rename_i hdigits
    obtain ⟨hvalue, hend⟩ := Prod.mk.inj (Option.some.inj h)
    rw [if_neg hdigits, hvalue, hend, List.nil_append]

theorem fraction?_append {s s' : Nat} {e e' : Int} {left : List Char}
    (h : fraction? s e text = some (s', e', left)) (hrest : NoDigit rest) :
    fraction? s e (text ++ rest) = some (s', e', left ++ rest) := by
  unfold fraction? at h ⊢
  rw [digits_append_right text hrest]
  dsimp only at h ⊢
  split at h
  · cases h
  · rename_i hne
    rw [if_neg hne]
    cases h
    rfl

/-- An exponent at the start of a text scales a number, which is `otherwise` without one. -/
def scaled? (negative : Bool) (s : Nat) (start : Int) (text : List Char)
    (otherwise : Option (Written × List Char)) : Option (Written × List Char) :=
  match text with
  | c :: rest =>
    if c = 'e' ∨ c = 'E' then
      (exponent? rest).bind fun r => some (.real (assemble negative s start r.1), r.2)
    else otherwise
  | [] => otherwise

/-- A number is its digits, perhaps a fraction, and perhaps an exponent. -/
theorem unsigned?_eq (negative : Bool) (text : List Char) :
    unsigned? negative text =
      if (digits text).1 = [] ∨ (digits text).1.head? = some '0' ∧ (digits text).1.length ≠ 1 then
        none
      else if (digits text).2.head? = some '.' then
        (fraction? (absorb 0 (digits text).1).1 (absorb 0 (digits text).1).2.length
          (digits text).2.tail).bind fun r =>
            scaled? negative r.1 r.2.1 r.2.2 (some (.real (assemble negative r.1 r.2.1 0), r.2.2))
      else
        scaled? negative (absorb 0 (digits text).1).1 (absorb 0 (digits text).1).2.length
          (digits text).2 (unsigned?.whole negative (absorb 0 (digits text).1).1
            (absorb 0 (digits text).1).2 (digits text).2) := by
  unfold unsigned?
  rcases digits text with ⟨ds, _ | ⟨c, rest⟩⟩
  · rfl
  · dsimp only
    split
    · rfl
    by_cases hc : c = '.'
    · subst hc
      rw [if_pos (List.head?_cons)]
      refine congrArg (Option.bind _) (funext fun r => ?_)
      obtain ⟨s, e, left⟩ := r
      cases left with
      | nil => rfl
      | cons d left => rfl
    · have hhead : (c :: rest).head? ≠ some '.' := by simpa using hc
      rw [if_neg hhead]
      split
      · rename_i heq
        exact absurd (List.head_eq_of_cons_eq heq) hc
      · rename_i heq
        obtain ⟨rfl, rfl⟩ := List.cons.inj heq
        rfl
      · rename_i heq
        cases heq

theorem scaled?_append {negative : Bool} {s : Nat} {start : Int} {w : Written}
    {otherwise otherwise' : Option (Written × List Char)}
    (h : scaled? negative s start text otherwise = some (w, [])) (hrest : EndsNumber rest)
    (ho : otherwise = some (w, []) → text = [] ∧ otherwise' = some (w, rest)) :
    scaled? negative s start (text ++ rest) otherwise' = some (w, rest) := by
  cases text with
  | nil =>
      obtain ⟨-, ho⟩ := ho h
      rw [List.nil_append]
      cases rest with
      | nil => exact ho
      | cons c rest =>
          obtain ⟨-, -, hlower, hupper⟩ := hrest c rfl
          rw [scaled?, if_neg (not_or.mpr ⟨hlower, hupper⟩)]
          exact ho
  | cons c text =>
      rw [scaled?] at h
      rw [List.cons_append, scaled?]
      split at h
      · rename_i hc
        rw [if_pos hc]
        obtain ⟨⟨e, left⟩, hexponent, hw⟩ := Option.bind_eq_some_iff.mp h
        obtain ⟨rfl, rfl⟩ := Prod.mk.inj (Option.some.inj hw)
        rw [exponent?_append hexponent hrest.noDigit]
        rfl
      · obtain ⟨hnil, -⟩ := ho h
        cases hnil

theorem snd_whole {negative : Bool} {s : Nat} {left : List Char} {r : Written × List Char}
    (h : unsigned?.whole negative s left text = some r) : r.2 = text := by
  unfold unsigned?.whole at h
  split at h
  · cases h
    rfl
  split at h
  · cases h
    rfl
  split at h
  · cases h
    rfl
  · cases h
    rfl

theorem whole_append {negative : Bool} {s : Nat} {left : List Char} {w : Written}
    (h : unsigned?.whole negative s left [] = some (w, [])) (rest : List Char) :
    unsigned?.whole negative s left rest = some (w, rest) := by
  unfold unsigned?.whole at h ⊢
  split at h
  · rename_i hleft
    cases h
    rw [if_pos hleft]
  rename_i hleft
  rw [if_neg hleft]
  split at h
  · rename_i hpositive
    cases h
    rw [if_pos hpositive]
  rename_i hnegative
  rw [if_neg hnegative]
  split at h
  · rename_i hlarge
    cases h
    rw [if_pos hlarge]
  · rename_i hsmall
    cases h
    rw [if_neg hsmall]

/-- A number that is the whole of a text is read in the same way where a text goes on behind it. -/
theorem unsigned?_append {negative : Bool} {w : Written}
    (h : unsigned? negative text = some (w, [])) (hrest : EndsNumber rest) :
    unsigned? negative (text ++ rest) = some (w, rest) := by
  rw [unsigned?_eq] at h ⊢
  rw [digits_append_right text hrest.noDigit]
  dsimp only
  split at h
  · cases h
  rename_i hdigits
  rw [if_neg hdigits]
  split at h
  · rename_i hpoint
    obtain ⟨fraction, hfraction⟩ : ∃ fraction, (digits text).2 = '.' :: fraction :=
      List.head?_eq_some_iff.mp hpoint
    rw [hfraction] at h ⊢
    rw [List.cons_append, if_pos (List.head?_cons)]
    obtain ⟨⟨s, e, left⟩, hread, hscaled⟩ := Option.bind_eq_some_iff.mp h
    rw [List.tail_cons] at hread
    rw [List.tail_cons, fraction?_append hread hrest.noDigit, Option.bind_some]
    refine scaled?_append hscaled hrest fun ho => ?_
    obtain ⟨rfl, rfl⟩ := Prod.mk.inj (Option.some.inj ho)
    exact ⟨rfl, rfl⟩
  · rename_i hpoint
    have hpoint' : ((digits text).2 ++ rest).head? ≠ some '.' := by
      intro hhead
      cases hleft : (digits text).2 with
      | nil =>
          rw [hleft] at hhead
          exact (hrest '.' hhead).2.1 rfl
      | cons c left =>
          rw [hleft] at hhead hpoint
          exact hpoint hhead
    rw [if_neg hpoint']
    refine scaled?_append h hrest fun ho => ?_
    have hnil := snd_whole ho
    dsimp only at hnil
    rw [← hnil] at ho ⊢
    exact ⟨rfl, whole_append ho rest⟩

theorem number?_append {w : Written} (h : number? text = some (w, [])) (hrest : EndsNumber rest) :
    number? (text ++ rest) = some (w, rest) := by
  have hne : text ≠ [] := by
    rintro rfl
    cases h
  obtain ⟨c, text, rfl⟩ := List.exists_cons_of_ne_nil hne
  unfold number? at h ⊢
  rw [List.cons_append]
  split at h
  · rename_i heq
    obtain ⟨rfl, rfl⟩ := List.cons.inj heq
    exact unsigned?_append h hrest
  · rename_i hminus
    split
    · rename_i heq
      obtain ⟨rfl, rfl⟩ := List.cons.inj heq
      exact absurd rfl (hminus _)
    · exact unsigned?_append h hrest

/-- A number begins with a digit or a minus. -/
theorem number?_head {r : Written × List Char} (h : number? text = some r) :
    ∃ c left, text = c :: left ∧ (c = '-' ∨ c.isDigit = true) := by
  unfold number? at h
  split at h
  · exact ⟨_, _, rfl, .inl rfl⟩
  · rw [unsigned?_eq] at h
    split at h
    · cases h
    · rename_i hdigits
      rw [not_or] at hdigits
      obtain ⟨c, ds, hds⟩ := List.exists_cons_of_ne_nil hdigits.1
      have hc : c ∈ (digits text).1 := by
        rw [hds]
        exact List.mem_cons_self
      refine ⟨c, ds ++ (digits text).2, ?_, .inr (List.mem_takeWhile_imp hc)⟩
      rw [← List.cons_append, ← hds]
      exact List.takeWhile_append_dropWhile.symm

/-! ## Whole numbers -/

theorem head?_toDigits {n : Nat} (hn : 0 < n) : (Nat.toDigits 10 n).head? ≠ some '0' := by
  induction n using Nat.strong_induction_on with
  | _ n ih =>
      rw [Nat.toDigits_eq_if (by decide)]
      split
      · simpa using hn.ne'
      · rw [List.head?_append_of_ne_nil _ Nat.toDigits_ne_nil]
        exact ih (n / 10) (by omega) (by omega)

theorem le_foldl_digits (ds : List Char) (s : Nat) :
    s ≤ ds.foldl (fun n c => n * 10 + digitValue c) s := by
  induction ds generalizing s with
  | nil => exact Nat.le_refl s
  | cons c ds ih =>
      have hstep : s ≤ s * 10 + digitValue c := by omega
      exact hstep.trans (ih _)

/-- Digits are absorbed as long as their number fits. -/
theorem absorb_eq (ds : List Char) {s : Nat}
    (h : ds.foldl (fun n c => n * 10 + digitValue c) s < 2 ^ 64) :
    absorb s ds = (ds.foldl (fun n c => n * 10 + digitValue c) s, []) := by
  induction ds generalizing s with
  | nil => rfl
  | cons c ds ih =>
      rw [List.foldl_cons] at h ⊢
      have hnext : s * 10 + digitValue c < 0x1_0000_0000_0000_0000 :=
        (le_foldl_digits ds _).trans_lt h
      unfold absorb
      dsimp only
      rw [if_pos hnext]
      exact ih h

theorem absorb_toDigits {n : Nat} (hn : n < 2 ^ 64) : absorb 0 (Nat.toDigits 10 n) = (n, []) := by
  have hvalue : (Nat.toDigits 10 n).foldl (fun n c => n * 10 + digitValue c) 0 = n :=
    digitsValue_toDigits n
  have habsorb := absorb_eq (Nat.toDigits 10 n) (hvalue.trans_lt hn)
  rwa [hvalue] at habsorb

theorem unsigned?_toDigits {n : Nat} (negative : Bool) (hn : n < 2 ^ 64) :
    unsigned? negative (Nat.toDigits 10 n) = unsigned?.whole negative n [] [] := by
  have hzero : ¬((Nat.toDigits 10 n).head? = some '0' ∧ (Nat.toDigits 10 n).length ≠ 1) := by
    rintro ⟨hhead, hlength⟩
    rcases Nat.eq_zero_or_pos n with rfl | hpos
    · exact hlength rfl
    · exact head?_toDigits hpos hhead
  have hstart := not_or.mpr ⟨Nat.toDigits_ne_nil (b := 10) (n := n), hzero⟩
  rw [unsigned?_eq, digits_of_forall (isDigit_toDigits n), if_neg hstart, if_neg (by simp),
    absorb_toDigits hn]
  rfl

/-- A whole number of 64 bits is read as itself. -/
theorem number?_intText {n : Int} (hlow : -2 ^ 63 ≤ n) (hhigh : n < 2 ^ 64) :
    number? (intText n) = some (.int n, []) := by
  unfold intText
  split
  · rename_i hneg
    rw [number?, unsigned?_toDigits true (by omega), unsigned?.whole, if_neg (by simp),
      if_neg (by simp), if_neg (by omega)]
    congr 3
    omega
  · rename_i hpos
    obtain ⟨c, rest, heq, hdigit⟩ := exists_toDigits_eq_cons n.natAbs
    have hc : c ≠ '-' := by
      rintro rfl
      cases hdigit
    have hnumber : number? (Nat.toDigits 10 n.natAbs) =
        unsigned? false (Nat.toDigits 10 n.natAbs) := by
      unfold number?
      split
      · rename_i hminus
        rw [heq] at hminus
        exact absurd (List.head_eq_of_cons_eq hminus) hc
      · rfl
    have habs : (n.natAbs : Int) = n := Int.natAbs_of_nonneg (Int.not_lt.mp hpos)
    rw [hnumber, unsigned?_toDigits false (by omega), unsigned?.whole, if_neg (by simp),
      Bool.not_false, if_pos rfl, habs]

/-! ## Doubles -/

/-- The text of a double is read as that double. -/
def ReadsBack (x : Double) : Prop :=
  number? (realText x) = some (.real x, [])

/-- Is this the double alone, with nothing behind it? -/
def isReal (x : Double) : Option (Written × List Char) → Bool
  | some (.real y, []) => decide (y = x)
  | _ => false

theorem isReal_iff {x : Double} {r : Option (Written × List Char)} :
    isReal x r = true ↔ r = some (.real x, []) := by
  constructor
  · intro h
    unfold isReal at h
    split at h
    · rw [of_decide_eq_true h]
    · cases h
  · rintro rfl
    exact decide_eq_true rfl

instance : DecidablePred ReadsBack :=
  fun _ => decidable_of_iff _ isReal_iff

/-- An infinity has no text, nor has what is no number. -/
theorem realText_of_not_isFinite {x : Double} (h : x.isFinite = false) :
    realText x = "null".toList := by
  rw [Binary64.isFinite_eq, decide_eq_false_iff_not, Nat.not_lt] at h
  unfold realText
  rcases h.eq_or_lt with hinfinite | hnan
  · rw [Binary64.read_of_infinite hinfinite.symm]
  · unfold Binary64.read
    rw [if_pos hnan]

end DiceScript.Json
