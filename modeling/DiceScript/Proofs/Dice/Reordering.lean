import DiceScript.Proofs.Dice.Ranking

/-!
# Pools in another order

Two pools of the same dice in different orders stay that when the highest or lowest dice are selected
and when dice are rolled again, although other dice get the draws. They have the same total and the
same counts.
-/

namespace DiceScript

open Binary64

theorem totalKey_injective {x y : Double} (h : totalKey x = totalKey y) : x = y := by
  have hsign : isNegative x = isNegative y := by
    unfold totalKey at h
    cases hx : isNegative x <;> cases hy : isNegative y <;> simp_all <;> omega
  have hmagnitude : magnitude x = magnitude y := by
    unfold totalKey at h
    rw [hsign] at h
    split at h <;> omega
  apply eq_of_toNat_bits
  unfold isNegative at hsign
  unfold magnitude at hmagnitude
  have hlow := x.bits.toNat_lt
  have hlow' := y.bits.toNat_lt
  simp only [decide_eq_decide] at hsign
  omega

/-- The selector looks at how high the dice are, not at when they were rolled. -/
def Selector.BySize (selector : Selector) : Prop :=
  selector.side = .high ∨ selector.side = .low

namespace Pool

variable {pool pool' : Pool}

theorem sort_perm (order : SortOrder) (pool : Pool) : (pool.sort order).Perm pool := by
  cases order with
  | ascending => exact List.mergeSort_perm _ _
  | descending => exact List.mergeSort_perm _ _

/-! ## Selections of the highest and the lowest -/

section Cuts

variable {α β : Type} (f : α → β) (discard : Bool) (n : Nat) (items : List α)

theorem map_cutStart : (cutStart discard n items).map f = cutStart discard n (items.map f) := by
  cases discard <;> simp [cutStart]

theorem map_cutEnd : (cutEnd discard n items).map f = cutEnd discard n (items.map f) := by
  cases discard <;> simp [cutEnd]

end Cuts

theorem inRollOrder_perm (dice : List (Double × Nat)) :
    (inRollOrder dice).Perm (dice.map Prod.fst) :=
  (List.mergeSort_perm _ _).map _

theorem map_fst_ranking_perm (pool : Pool) : ((ranking pool).map Prod.fst).Perm pool := by
  have h := (ranking_perm pool).map Prod.fst
  rwa [List.zipIdx_map_fst] at h

theorem map_fst_ranking_sorted (pool : Pool) :
    ((ranking pool).map Prod.fst).Pairwise fun x y => totalKey y ≤ totalKey x :=
  List.pairwise_map.mpr ((ranking_pairwise pool).imp Ahead.le)

/-- The order in which dice of one pool have been rolled decides only between equal ones. -/
theorem map_fst_ranking_eq (h : pool.Perm pool') :
    (ranking pool).map Prod.fst = (ranking pool').map Prod.fst := by
  apply List.Perm.eq_of_pairwise
      (fun x y _ _ hxy hyx => totalKey_injective (Int.le_antisymm hyx hxy))
      (map_fst_ranking_sorted pool) (map_fst_ranking_sorted pool')
  exact (map_fst_ranking_perm pool).trans (h.trans (map_fst_ranking_perm pool').symm)

theorem select_perm {selector : Selector} (hside : selector.BySize) (n : Nat)
    (h : pool.Perm pool') : (pool.select selector n).Perm (pool'.select selector n) := by
  obtain ⟨discard, side⟩ := selector
  rcases hside with rfl | rfl
  · refine (inRollOrder_perm _).trans (List.Perm.trans ?_ (inRollOrder_perm _).symm)
    rw [map_cutStart, map_cutStart, map_fst_ranking_eq h]
  · refine (inRollOrder_perm _).trans (List.Perm.trans ?_ (inRollOrder_perm _).symm)
    rw [map_cutEnd, map_cutEnd, map_fst_ranking_eq h]

/-! ## Rerolls -/

section Reroll

variable {σ : Type} (draw : σ → Double × σ) (matching : Double → Bool)

/-- So many draws, one after the other. -/
def draws : Nat → σ → Pool × σ
  | 0, s => ([], s)
  | n + 1, s => ((draw s).1 :: (draws n (draw s).2).1, (draws n (draw s).2).2)

/-- A pass takes one draw for each matching die, wherever it lies. -/
theorem rerollOnce_draws (pool : Pool) (s : σ) :
    (rerollOnce draw matching pool s).1.Perm
        (pool.filter (!matching ·) ++ (draws draw (pool.countP matching) s).1) ∧
      (rerollOnce draw matching pool s).2 = (draws draw (pool.countP matching) s).2 := by
  induction pool generalizing s with
  | nil => exact ⟨.nil, rfl⟩
  | cons x pool ih =>
      cases hx : matching x with
      | true =>
          obtain ⟨hdice, hstate⟩ := ih (draw s).2
          simp only [rerollOnce, hx, if_true, List.countP_cons, draws, Bool.not_true,
            List.filter_cons, Bool.false_eq_true, if_false]
          exact ⟨(hdice.cons _).trans List.perm_middle.symm, hstate⟩
      | false =>
          obtain ⟨hdice, hstate⟩ := ih s
          simp only [rerollOnce, hx, Bool.false_eq_true, if_false, List.countP_cons, Bool.not_false,
            List.filter_cons, if_true, Nat.add_zero, List.cons_append]
          exact ⟨hdice.cons _, hstate⟩

theorem rerollOnce_perm (h : pool.Perm pool') (s : σ) :
    (rerollOnce draw matching pool s).1.Perm (rerollOnce draw matching pool' s).1 ∧
      (rerollOnce draw matching pool s).2 = (rerollOnce draw matching pool' s).2 := by
  obtain ⟨hdice, hstate⟩ := rerollOnce_draws draw matching pool s
  obtain ⟨hdice', hstate'⟩ := rerollOnce_draws draw matching pool' s
  have hcount : pool.countP matching = pool'.countP matching := h.countP_eq matching
  constructor
  · refine hdice.trans (List.Perm.trans ?_ hdice'.symm)
    rw [hcount]
    exact (h.filter _).append_right _
  · rw [hstate, hstate', hcount]

/-- A reroll that repeats stops after the same pass for both. -/
theorem rerollUntil_perm (passes : Nat) (h : pool.Perm pool') (s : σ) :
    (rerollUntil draw matching passes pool s).1.1.Perm
        (rerollUntil draw matching passes pool' s).1.1 ∧
      (rerollUntil draw matching passes pool s).2 =
        (rerollUntil draw matching passes pool' s).2 := by
  induction passes generalizing pool pool' s with
  | zero => exact ⟨h, rfl⟩
  | succ passes ih =>
      have hany : pool.any matching = pool'.any matching := h.any_eq
      simp only [rerollUntil, hany]
      split
      · obtain ⟨hdice, hstate⟩ := rerollOnce_perm draw matching h s
        rw [hstate]
        exact ih hdice _
      · exact ⟨h, rfl⟩

end Reroll

/-! ## Counts and totals -/

theorem countMatching_perm (relation : Relation) (threshold : Double) (h : pool.Perm pool') :
    pool.countMatching relation threshold = pool'.countMatching relation threshold :=
  h.countP_eq _

theorem isPool_perm {sides count : Nat} (h : pool.Perm pool') (hp : IsPool sides count pool) :
    IsPool sides count pool' :=
  ⟨h.length_eq.symm.trans hp.length, fun x hx => hp.dice x (h.mem_iff.mpr hx)⟩

/-- Whole numbers that stay below the limit of exact addition may be added in any order. -/
theorem sumFrom?_perm {sides count a : Nat} (h : pool.Perm pool') (hp : IsPool sides count pool)
    (hle : a + count * sides ≤ 2 ^ 53) :
    Value.sumFrom? (ofNat a) (pool.map .number) =
      Value.sumFrom? (ofNat a) (pool'.map .number) := by
  induction h generalizing a count with
  | nil => rfl
  | cons x _ ih =>
      obtain ⟨rfl, hdice⟩ := hp
      obtain ⟨⟨k, _, hk, rfl⟩, hrest⟩ := List.forall_mem_cons.mp hdice
      rw [List.length_cons, Nat.succ_mul] at hle
      simp only [List.map_cons, Value.sumFrom?, Value.toNumber?]
      rw [ofNat_add (by omega)]
      exact ih ⟨rfl, hrest⟩ (by omega)
  | swap x y _ =>
      obtain ⟨rfl, hdice⟩ := hp
      obtain ⟨⟨k, _, hk, rfl⟩, hrest⟩ := List.forall_mem_cons.mp hdice
      obtain ⟨⟨l, _, hl, rfl⟩, _⟩ := List.forall_mem_cons.mp hrest
      rw [List.length_cons, List.length_cons, Nat.succ_mul, Nat.succ_mul] at hle
      simp only [List.map_cons, Value.sumFrom?, Value.toNumber?]
      rw [ofNat_add (by omega), ofNat_add (by omega), ofNat_add (by omega), ofNat_add (by omega),
        Nat.add_right_comm]
  | trans h _ ih ih' => exact (ih hp hle).trans (ih' (isPool_perm h hp) hle)

end Pool

end DiceScript
