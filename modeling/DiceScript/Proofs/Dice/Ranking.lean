import DiceScript.Proofs.Dice.Pools

/-!
# The ranking of a pool

A die ranks behind the higher dice and behind equal ones rolled earlier. Its place in the sorted pool
is the number of dice that rank before it.
-/

namespace DiceScript

open Binary64

namespace Pool

variable {pool : Pool}

/-! ## Dice with their positions -/

theorem snd_zipIdx_pairwise (pool : Pool) : pool.zipIdx.Pairwise fun d e => d.2 < e.2 := by
  have hrange : (pool.zipIdx.map Prod.snd).Pairwise (· < ·) := by
    rw [List.zipIdx_map_snd]
    exact List.pairwise_lt_range'
  exact List.pairwise_map.mp hrange

theorem nodup_zipIdx (pool : Pool) : pool.zipIdx.Nodup :=
  (snd_zipIdx_pairwise pool).imp fun hlt heq => Nat.ne_of_lt hlt (congrArg Prod.snd heq)

theorem eq_of_mem_zipIdx {d e : Double × Nat} (hd : d ∈ pool.zipIdx) (he : e ∈ pool.zipIdx)
    (h : d.2 = e.2) : d = e := by
  rw [List.mem_zipIdx_iff_getElem?] at hd he
  rw [h, he] at hd
  exact Prod.ext (Option.some.inj hd).symm h

/-- A numbered item stands where its number says. -/
theorem snd_of_getElem? {α : Type} {items : List α} {k : Nat} {d : α × Nat}
    (hd : items.zipIdx[k]? = some d) : d.2 = k := by
  rw [List.getElem?_zipIdx] at hd
  obtain ⟨x, -, rfl⟩ := Option.map_eq_some_iff.mp hd
  exact Nat.zero_add k

/-! ## The order -/

/-- The first of two dice, given with their positions, ranks before the second. -/
def Ahead (d e : Double × Nat) : Prop :=
  totalKey e.1 < totalKey d.1 ∨ totalKey e.1 = totalKey d.1 ∧ d.2 < e.2

instance (d e : Double × Nat) : Decidable (Ahead d e) :=
  inferInstanceAs (Decidable (_ ∨ _))

/-- How many dice of the pool rank before a die. -/
def place (pool : Pool) (d : Double × Nat) : Nat :=
  pool.zipIdx.countP fun e => Ahead e d

theorem Ahead.asymm {d e : Double × Nat} (h : Ahead d e) : ¬ Ahead e d := by
  unfold Ahead at *
  omega

theorem Ahead.le {d e : Double × Nat} (h : Ahead d e) : totalKey e.1 ≤ totalKey d.1 := by
  unfold Ahead at h
  omega

theorem ranking_perm (pool : Pool) : (ranking pool).Perm pool.zipIdx :=
  List.mergeSort_perm _ _

/-- A sort of numbered items keeps those that it does not tell apart in the order of their numbers. -/
theorem pairwise_mergeSort_zipIdx {α : Type} {before : α × Nat → α × Nat → Bool}
    (htrans : ∀ d e f, before d e = true → before e f = true → before d f = true)
    (htotal : ∀ d e, (before d e || before e d) = true) (items : List α) :
    (items.zipIdx.mergeSort before).Pairwise fun d e =>
      before d e = true ∧ (before e d = true → d.2 ≤ e.2) := by
  -- Numbering the items once more makes the sort strict, and the new numbers are the old ones.
  have hnumbers : ∀ x ∈ items.zipIdx.zipIdx, x.2 = x.1.2 := by
    intro x hx
    rw [List.mem_zipIdx_iff_getElem?] at hx
    exact (snd_of_getElem? hx).symm
  have hstable : items.zipIdx.mergeSort before =
      (items.zipIdx.zipIdx.mergeSort (List.zipIdxLE before)).map Prod.fst :=
    List.mergeSort_zipIdx.symm
  have hsorted := List.pairwise_mergeSort (List.zipIdxLE_trans htrans)
    (List.zipIdxLE_total htotal) items.zipIdx.zipIdx
  rw [hstable, List.pairwise_map]
  apply hsorted.imp_of_mem
  intro x y hx hy hxy
  rw [← hnumbers x (List.mem_mergeSort.mp hx), ← hnumbers y (List.mem_mergeSort.mp hy)]
  unfold List.zipIdxLE at hxy
  split at hxy
  · rename_i hfirst
    refine ⟨hfirst, fun hsecond => ?_⟩
    rw [if_pos hsecond] at hxy
    exact of_decide_eq_true hxy
  · cases hxy

/-- The sort keeps equal dice in the order of their positions. -/
theorem ranking_pairwise (pool : Pool) : (ranking pool).Pairwise Ahead := by
  let before : Double × Nat → Double × Nat → Bool := fun d e => totalKey e.1 ≤ totalKey d.1
  have htrans : ∀ d e f, before d e = true → before e f = true → before d f = true := by
    intro d e f hde hef
    simp only [before, decide_eq_true_eq] at *
    omega
  have htotal : ∀ d e, (before d e || before e d) = true := by
    intro d e
    simp only [before, Bool.or_eq_true, decide_eq_true_eq]
    omega
  have hsorted : (ranking pool).Pairwise fun d e =>
      before d e = true ∧ (before e d = true → d.2 ≤ e.2) :=
    pairwise_mergeSort_zipIdx htrans htotal pool
  have hdistinct : (ranking pool).Pairwise fun d e => d.2 ≠ e.2 := by
    apply (ranking_perm pool).symm.pairwise ((snd_zipIdx_pairwise pool).imp Nat.ne_of_lt)
    exact Ne.symm
  apply (hsorted.and hdistinct).imp
  rintro d e ⟨hde, hne⟩
  simp only [before, decide_eq_true_eq] at hde
  unfold Ahead
  omega

/-! ## Places in a line -/

section Lines

variable {α : Type} {R : α → α → Prop} [DecidableRel R]

/-- In a list in strict order an item has as many before it as stand before it. -/
theorem countP_of_pairwise (hasymm : ∀ a b, R a b → ¬ R b a) {items : List α}
    (hitems : items.Pairwise R) {k : Nat} {a : α} (ha : items[k]? = some a) :
    items.countP (R · a) = k := by
  induction hitems generalizing k with
  | nil => cases ha
  | @cons b items hb _ ih =>
      cases k with
      | zero =>
          obtain rfl : b = a := by simpa using ha
          apply List.countP_eq_zero.mpr
          intro c hc
          rcases List.mem_cons.mp hc with rfl | hc
          · simpa using fun hcc => hasymm c c hcc hcc
          · simpa using hasymm b c (hb c hc)
      | succ k =>
          rw [List.getElem?_cons_succ] at ha
          have hfirst : R b a := hb a (List.mem_of_getElem? ha)
          rw [List.countP_cons_of_pos (by simpa using hfirst), ih ha]

variable {f : α → Nat} {items : List α} (hf : ∀ {k a}, items[k]? = some a → f a = k)

include hf

theorem mem_take_iff (m : Nat) (a : α) : a ∈ items.take m ↔ a ∈ items ∧ f a < m := by
  constructor
  · intro ha
    obtain ⟨k, hk⟩ := List.mem_iff_getElem?.mp ha
    rw [List.getElem?_take, Option.ite_none_right_eq_some] at hk
    exact ⟨List.mem_of_getElem? hk.2, (hf hk.2).symm ▸ hk.1⟩
  · rintro ⟨ha, hlt⟩
    obtain ⟨k, hk⟩ := List.mem_iff_getElem?.mp ha
    rw [hf hk] at hlt
    apply List.mem_iff_getElem?.mpr
    exact ⟨k, by rw [List.getElem?_take, if_pos hlt, hk]⟩

theorem mem_drop_iff (m : Nat) (a : α) : a ∈ items.drop m ↔ a ∈ items ∧ m ≤ f a := by
  constructor
  · intro ha
    obtain ⟨k, hk⟩ := List.mem_iff_getElem?.mp ha
    rw [List.getElem?_drop] at hk
    exact ⟨List.mem_of_getElem? hk, hf hk ▸ Nat.le_add_right m k⟩
  · rintro ⟨ha, hle⟩
    obtain ⟨k, hk⟩ := List.mem_iff_getElem?.mp ha
    rw [hf hk] at hle
    apply List.mem_iff_getElem?.mpr
    exact ⟨k - m, by rw [List.getElem?_drop, Nat.add_sub_cancel' hle, hk]⟩

end Lines

theorem place_of_getElem? {k : Nat} {d : Double × Nat} (hd : (ranking pool)[k]? = some d) :
    place pool d = k := by
  rw [place, ← (ranking_perm pool).countP_eq]
  exact countP_of_pairwise (fun _ _ => Ahead.asymm) (ranking_pairwise pool) hd

end Pool

end DiceScript
