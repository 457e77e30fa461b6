import DiceScript.Pool
import DiceScript.Proofs.Dice.Draws
import DiceScript.Value

/-!
# Pools of dice

Sorting keeps the dice of a pool, a selection keeps some of them, and rerolls replace dice by dice.
So a pool of dice stays one, and its total lies between the number of its dice and their number
times the sides.
-/

namespace DiceScript

open Binary64

/-- A pool of so many dice with so many sides. -/
structure IsPool (sides count : Nat) (pool : Pool) : Prop where
  length : pool.length = count
  dice : ∀ x ∈ (pool : List Double), IsDie sides x

namespace Pool

variable {sides count : Nat} {pool : Pool}

theorem isPool_sort (order : SortOrder) (h : IsPool sides count pool) :
    IsPool sides count (pool.sort order) := by
  have hsorted (le : Double → Double → Bool) : IsPool sides count (List.mergeSort pool le) :=
    ⟨(List.length_mergeSort _).trans h.length, fun x hx => h.dice x (List.mem_mergeSort.mp hx)⟩
  cases order with
  | ascending => exact hsorted _
  | descending => exact hsorted _

/-! ## Selections -/

/-- How many of `count` dice a selection of `n` leaves. -/
def left (discard : Bool) (n count : Nat) : Nat :=
  if discard then count - min n count else min n count

section Cuts

variable {α : Type} (discard : Bool) (n : Nat) (items : List α)

theorem cutStart_subset : cutStart discard n items ⊆ items := by
  cases discard with
  | true => exact List.drop_subset n items
  | false => exact List.take_subset n items

theorem cutEnd_subset : cutEnd discard n items ⊆ items := by
  cases discard with
  | true => exact List.take_subset _ items
  | false => exact List.drop_subset _ items

theorem length_cutStart : (cutStart discard n items).length = left discard n items.length := by
  cases discard with
  | true =>
      simp only [cutStart, left, if_true, List.length_drop]
      omega
  | false => simp only [cutStart, left, Bool.false_eq_true, if_false, List.length_take]

theorem length_cutEnd : (cutEnd discard n items).length = left discard n items.length := by
  cases discard with
  | true =>
      simp only [cutEnd, left, if_true, List.length_take]
      omega
  | false =>
      simp only [cutEnd, left, Bool.false_eq_true, if_false, List.length_drop]
      omega

end Cuts

theorem length_ranking (pool : Pool) : (ranking pool).length = pool.length := by
  rw [ranking, List.length_mergeSort, List.length_zipIdx]

theorem fst_mem_of_mem_ranking {pool : Pool} {d : Double × Nat} (h : d ∈ ranking pool) :
    d.1 ∈ (pool : List Double) :=
  List.fst_mem_of_mem_zipIdx (List.mem_mergeSort.mp h)

theorem length_inRollOrder (dice : List (Double × Nat)) :
    (inRollOrder dice).length = dice.length := by
  rw [inRollOrder, List.length_map, List.length_mergeSort]

theorem mem_inRollOrder {dice : List (Double × Nat)} {x : Double}
    (h : x ∈ (inRollOrder dice : List Double)) : ∃ d ∈ dice, d.1 = x := by
  obtain ⟨d, hd, rfl⟩ := List.mem_map.mp h
  exact ⟨d, List.mem_mergeSort.mp hd, rfl⟩

theorem isPool_select (selector : Selector) (n : Nat) (h : IsPool sides count pool) :
    IsPool sides (left selector.discard n count) (pool.select selector n) := by
  obtain ⟨discard, side⟩ := selector
  have hlength := h.length
  cases side with
  | front =>
      exact ⟨by rw [← hlength]; exact length_cutStart discard n pool,
        fun x hx => h.dice x (cutStart_subset discard n pool hx)⟩
  | rear =>
      exact ⟨by rw [← hlength]; exact length_cutEnd discard n pool,
        fun x hx => h.dice x (cutEnd_subset discard n pool hx)⟩
  | high =>
      refine ⟨?_, fun x hx => ?_⟩
      · rw [select, length_inRollOrder, length_cutStart, length_ranking, hlength]
      · obtain ⟨d, hd, rfl⟩ := mem_inRollOrder hx
        exact h.dice _ (fst_mem_of_mem_ranking (cutStart_subset _ _ _ hd))
  | low =>
      refine ⟨?_, fun x hx => ?_⟩
      · rw [select, length_inRollOrder, length_cutEnd, length_ranking, hlength]
      · obtain ⟨d, hd, rfl⟩ := mem_inRollOrder hx
        exact h.dice _ (fst_mem_of_mem_ranking (cutEnd_subset _ _ _ hd))

/-- The count of a selection is a whole number, however great, and the pool is not too large. -/
theorem clampCount_ofNat (n : Nat) {size : Nat} (h : size ≤ 2 ^ 53) :
    clampCount (ofNat n) size = min n size := by
  have hnan : (ofNat n).isNaN = false := (isNaN_eq_false_iff _).mpr (isNumber_ofNat n)
  unfold clampCount
  rw [hnan, Bool.false_or]
  rcases Nat.eq_zero_or_pos n with rfl | hn
  · rw [if_pos (decide_eq_true (ofNat_le_zero.mpr rfl)), Nat.zero_min]
  · have hpos : ¬ ofNat n ≤ 0 := fun hle => absurd (ofNat_le_zero.mp hle) (Nat.ne_of_gt hn)
    rw [if_neg (by simpa using hpos)]
    rcases Nat.le_total size n with hle | hle
    · rw [Nat.min_eq_right hle, Nat.min_eq_right (le_toNat_ofNat h hle)]
    · rw [toNat_ofNat (hle.trans h)]

/-! ## Rerolls -/

section Reroll

variable {σ : Type} {draw : σ → Double × σ} (hdraw : ∀ s, IsDie sides (draw s).1)
  (matching : Double → Bool)

theorem IsPool.cons {x : Double} (hx : IsDie sides x) (h : IsPool sides count pool) :
    IsPool sides (count + 1) (x :: pool) :=
  ⟨congrArg Nat.succ h.length, List.forall_mem_cons.mpr ⟨hx, h.dice⟩⟩

include hdraw

theorem isPool_rerollOnce (s : σ) (h : IsPool sides count pool) :
    IsPool sides count (rerollOnce draw matching pool s).1 := by
  obtain ⟨rfl, hdice⟩ := h
  induction pool generalizing s with
  | nil => exact ⟨rfl, nofun⟩
  | cons x pool ih =>
      obtain ⟨hx, hpool⟩ := List.forall_mem_cons.mp hdice
      rw [rerollOnce]
      split
      · exact IsPool.cons (hdraw s) (ih _ hpool)
      · exact IsPool.cons hx (ih _ hpool)

theorem isPool_rerollUntil (passes : Nat) (s : σ) (h : IsPool sides count pool) :
    IsPool sides count (rerollUntil draw matching passes pool s).1.1 := by
  induction passes generalizing pool s with
  | zero => exact h
  | succ passes ih =>
      rw [rerollUntil]
      split
      · exact ih _ (isPool_rerollOnce hdraw matching s h)
      · exact h

end Reroll

/-! ## Totals -/

theorem countMatching_le (relation : Relation) (threshold : Double) (h : IsPool sides count pool) :
    pool.countMatching relation threshold ≤ count :=
  h.length ▸ List.countP_le_length

/-- A total counted on from `a`. -/
theorem sumFrom?_dice {a : Nat} (h : IsPool sides count pool) (hle : a + count * sides ≤ 2 ^ 53) :
    ∃ t, Value.sumFrom? (ofNat a) (pool.map .number) = some (ofNat t) ∧
      a + count ≤ t ∧ t ≤ a + count * sides := by
  obtain ⟨rfl, hdice⟩ := h
  induction pool generalizing a with
  | nil => exact ⟨a, rfl, Nat.le_refl _, Nat.le_add_right _ _⟩
  | cons x pool ih =>
      obtain ⟨⟨k, hlow, hhigh, rfl⟩, hpool⟩ := List.forall_mem_cons.mp hdice
      rw [List.length_cons, Nat.succ_mul] at hle ⊢
      obtain ⟨t, hsum, hmin, hmax⟩ := ih (a := a + k) hpool (by omega)
      refine ⟨t, ?_, by omega, by omega⟩
      rw [List.map_cons, Value.sumFrom?, Value.toNumber?]
      dsimp only
      rw [ofNat_add (by omega), hsum]

/-- The total of a pool is at least the number of its dice, and at most that times the sides. -/
theorem toNumber?_ofPool (h : IsPool sides count pool) (hle : count * sides ≤ 2 ^ 53) :
    ∃ t, (Value.ofPool pool).toNumber? = some (ofNat t) ∧ count ≤ t ∧ t ≤ count * sides := by
  obtain ⟨t, hsum, hmin, hmax⟩ := sumFrom?_dice (a := 0) h (by omega)
  refine ⟨t, ?_, by omega, by omega⟩
  rw [Value.ofPool, Value.toNumber?, zero_eq_ofNat, hsum]

theorem pool?_ofPool (pool : Pool) : (Value.ofPool pool).pool? = some pool := by
  have hmap : (pool.map Value.number).mapM Value.toNumber? = some pool := by
    induction pool with
    | nil => rfl
    | cons x pool ih => simp [ih, Value.toNumber?]
  exact hmap

end Pool

end DiceScript
