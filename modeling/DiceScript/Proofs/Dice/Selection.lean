import DiceScript.Proofs.Dice.Ranking
import DiceScript.Proofs.Dice.Reordering

/-!
# What a selection keeps

A requested count is cut to a whole number of dice of the pool. A selection keeps the dice in these
many places at one end of a line, or all others: in the ranking of the pool, where a die comes behind
the higher ones and behind equal ones rolled earlier, or in the order of the roll itself.
-/

namespace DiceScript

namespace Side

/-- The lowest dice are at the end of the ranking, and the rear ones at the end of the roll. -/
def atEnd : Side → Bool
  | high | front => false
  | low | rear => true

/-- The side at the other end of the same line. -/
def opposite : Side → Side
  | high => low
  | low => high
  | front => rear
  | rear => front

end Side

theorem Binary64.floor_shift (significand : Nat) (exponent : Int) :
    ⌊(significand : ℚ) * 2 ^ exponent⌋₊ =
      significand * Nat.pow 2 exponent.toNat / Nat.pow 2 (-exponent).toNat := by
  have hratio : (significand : ℚ) * 2 ^ exponent =
      ((significand * Nat.pow 2 exponent.toNat : Nat) : ℚ) / (Nat.pow 2 (-exponent).toNat : Nat) := by
    rw [two_zpow_eq, ← mul_div_assoc]
    push_cast [Nat.pow_eq]
    rfl
  rw [hratio, Nat.floor_div_eq_div]

namespace Pool

open Binary64

variable {pool : Pool}

/-! ## Requested counts -/

/-- How many of `size` dice a double asks for: its whole part where that is neither negative nor more
than there are. NaN asks for none. -/
def requested (n : Double) (size : Nat) : Nat :=
  match read n with
  | .nan => 0
  | .infinite negative => if negative then 0 else size
  | .finite ⟨negative, significand, exponent⟩ =>
    if negative then 0 else min size ⌊(significand : ℚ) * 2 ^ exponent⌋₊

/-- Within 64 bits the conversion to a natural number is exact. -/
theorem min_toNat (n : Double) {size : Nat} (hsize : size < 2 ^ 64) :
    min (Binary64.toNat n) size = requested n size := by
  unfold Binary64.toNat toIntClamped requested
  cases read n with
  | nan => simp
  | infinite negative =>
      cases negative with
      | true => simp
      | false =>
          simp only [Bool.false_eq_true, if_false]
          omega
  | finite value =>
      obtain ⟨negative, significand, exponent⟩ := value
      simp only [floor_shift]
      generalize significand * Nat.pow 2 exponent.toNat / Nat.pow 2 (-exponent).toNat = whole
      cases negative with
      | true =>
          simp only [if_true]
          omega
      | false =>
          simp only [Bool.false_eq_true, if_false]
          omega

theorem requested_eq_zero {n : Double} (hn : IsNumber n → n ≤ 0) (size : Nat) :
    requested n size = 0 := by
  have hrank : IsNumber n → rank n ≤ 0 := by
    intro hnumber
    have hle := hn hnumber
    rw [zero_eq_ofNat, le_iff_rank hnumber (isNumber_ofNat 0), rank_ofNat] at hle
    exact hle
  unfold requested
  rcases Nat.lt_trichotomy (magnitude n) infinityBits with hfinite | hinfinite | hnan
  · specialize hrank hfinite.le
    rw [read_of_finite hfinite]
    dsimp only
    cases hsign : isNegative n with
    | true => rfl
    | false =>
        have hzero : magnitude n = 0 := by
          simpa [rank, signed, hsign] using hrank
        simp [hzero, splitMagnitude_of_lt]
  · specialize hrank hinfinite.le
    rw [read_of_infinite hinfinite]
    dsimp only
    cases hsign : isNegative n with
    | true => rfl
    | false => simp [rank, signed, hsign, hinfinite, infinityBits] at hrank
  · have hread : Binary64.read n = .nan := if_pos hnan
    rw [hread]

theorem clampCount_eq_requested (n : Double) {size : Nat} (hsize : size < 2 ^ 64) :
    clampCount n size = requested n size := by
  unfold clampCount
  split
  · rename_i hnone
    rw [requested_eq_zero]
    intro hnumber
    rw [(isNaN_eq_false_iff n).mpr hnumber, Bool.false_or] at hnone
    exact of_decide_eq_true hnone
  · exact min_toNat n hsize

/-! ## Places -/

/-- The place of a die in the line that a side looks at: in the ranking, or in the roll. -/
def standing (side : Side) (pool : Pool) (d : Double × Nat) : Nat :=
  match side with
  | .high | .low => place pool d
  | .front | .rear => d.2

/-- The die is among the `m` first, or the `m` last, of its line. -/
def chosen (side : Side) (m : Nat) (pool : Pool) (d : Double × Nat) : Bool :=
  if side.atEnd then pool.length - m ≤ standing side pool d else standing side pool d < m

/-- The dice that a test picks, in the order in which they were rolled. -/
def picked (test : Double × Nat → Bool) (pool : Pool) : Pool :=
  (pool.zipIdx.filter test).map Prod.fst

def lineup (side : Side) (pool : Pool) : List (Double × Nat) :=
  match side with
  | .high | .low => ranking pool
  | .front | .rear => pool.zipIdx

/-- What a selection leaves of its line. -/
def cut (selector : Selector) (n : Nat) (items : List (Double × Nat)) : List (Double × Nat) :=
  if selector.side.atEnd then cutEnd selector.discard n items
  else cutStart selector.discard n items

theorem standing_of_getElem? (side : Side) {k : Nat} {d : Double × Nat}
    (hd : (lineup side pool)[k]? = some d) : standing side pool d = k := by
  cases side with
  | high | low => exact place_of_getElem? hd
  | front | rear => exact snd_of_getElem? hd

theorem lineup_perm (side : Side) (pool : Pool) : (lineup side pool).Perm pool.zipIdx := by
  cases side with
  | high | low => exact ranking_perm pool
  | front | rear => exact .refl _

theorem inRollOrder_of_pairwise {items : List (Double × Nat)}
    (hitems : items.Pairwise fun d e => d.2 < e.2) : inRollOrder items = items.map Prod.fst := by
  rw [inRollOrder, List.mergeSort_of_pairwise]
  exact hitems.imp fun hlt => decide_eq_true hlt.le

theorem cut_sublist (selector : Selector) (n : Nat) (items : List (Double × Nat)) :
    (cut selector n items).Sublist items := by
  obtain ⟨discard, side⟩ := selector
  unfold cut cutEnd cutStart
  cases side.atEnd <;> cases discard <;> simp [List.take_sublist, List.drop_sublist]

theorem select_eq_inRollOrder (selector : Selector) (n : Nat) (pool : Pool) :
    pool.select selector n = inRollOrder (cut selector n (lineup selector.side pool)) := by
  obtain ⟨discard, side⟩ := selector
  have hrolled := inRollOrder_of_pairwise
    ((snd_zipIdx_pairwise pool).sublist (cut_sublist ⟨discard, side⟩ n pool.zipIdx))
  cases side with
  | high | low => rfl
  | front =>
      apply Eq.trans _ hrolled.symm
      apply Eq.trans _ (map_cutStart Prod.fst discard n pool.zipIdx).symm
      rw [List.zipIdx_map_fst]
      rfl
  | rear =>
      apply Eq.trans _ hrolled.symm
      apply Eq.trans _ (map_cutEnd Prod.fst discard n pool.zipIdx).symm
      rw [List.zipIdx_map_fst]
      rfl

/-- Dice are back in the order of the roll when they stand as in the pool. -/
theorem inRollOrder_eq_picked {items : List (Double × Nat)} {test : Double × Nat → Bool}
    (hnodup : items.Nodup) (hitems : ∀ d, d ∈ items ↔ d ∈ pool.zipIdx ∧ test d = true) :
    inRollOrder items = picked test pool := by
  have hperm : (items.mergeSort fun d e => d.2 ≤ e.2).Perm (pool.zipIdx.filter test) := by
    apply (List.mergeSort_perm _ _).trans
    apply (List.perm_ext_iff_of_nodup hnodup ((nodup_zipIdx pool).filter _)).mpr
    intro d
    rw [hitems, List.mem_filter]
  have hsorted : (items.mergeSort fun d e => d.2 ≤ e.2).Pairwise fun d e => d.2 ≤ e.2 := by
    let earlier : Double × Nat → Double × Nat → Bool := fun d e => d.2 ≤ e.2
    have htrans : ∀ d e f, earlier d e = true → earlier e f = true → earlier d f = true :=
      fun _ _ _ hde hef => decide_eq_true ((of_decide_eq_true hde).trans (of_decide_eq_true hef))
    have htotal : ∀ d e, (earlier d e || earlier e d) = true :=
      fun d e => by simpa [earlier] using Nat.le_total d.2 e.2
    exact (List.pairwise_mergeSort htrans htotal items).imp of_decide_eq_true
  have hrolled : (pool.zipIdx.filter test).Pairwise fun d e => d.2 ≤ e.2 :=
    ((snd_zipIdx_pairwise pool).filter _).imp Nat.le_of_lt
  have heq := hperm.eq_of_pairwise (fun d e hd he hde hed => by
    have hmem := (List.mem_filter.mp (hperm.mem_iff.mp hd)).1
    exact eq_of_mem_zipIdx hmem (List.mem_filter.mp he).1 (Nat.le_antisymm hde hed))
    hsorted hrolled
  exact congrArg (List.map Prod.fst) heq

/-! ## Selections -/

theorem length_lineup (side : Side) (pool : Pool) : (lineup side pool).length = pool.length :=
  (lineup_perm side pool).length_eq.trans List.length_zipIdx

/-- A discard leaves the dice that are not chosen. -/
theorem mem_cut_iff (discard : Bool) (side : Side) (m : Nat) (pool : Pool) (d : Double × Nat) :
    d ∈ cut ⟨discard, side⟩ m (lineup side pool) ↔
      d ∈ pool.zipIdx ∧ (chosen side m pool d != discard) = true := by
  have hplaces : ∀ {k e}, (lineup side pool)[k]? = some e → standing side pool e = k :=
    standing_of_getElem? side
  have htake := mem_take_iff hplaces
  have hdrop := mem_drop_iff hplaces
  rw [← (lineup_perm side pool).mem_iff]
  unfold cut chosen cutEnd cutStart
  dsimp only
  rw [length_lineup]
  cases side.atEnd <;> cases discard <;> simp [htake, hdrop, Nat.lt_sub_iff_add_lt]

theorem select_eq_picked (discard : Bool) (side : Side) (m : Nat) (pool : Pool) :
    pool.select ⟨discard, side⟩ m = picked (fun d => chosen side m pool d != discard) pool := by
  rw [select_eq_inRollOrder]
  apply inRollOrder_eq_picked
  · exact ((lineup_perm side pool).nodup_iff.mpr (nodup_zipIdx pool)).sublist
      (cut_sublist _ _ _)
  · exact mem_cut_iff discard side m pool

theorem length_select (selector : Selector) (m : Nat) (pool : Pool) :
    (pool.select selector m).length = left selector.discard m pool.length := by
  rw [select_eq_inRollOrder, length_inRollOrder, cut, apply_ite List.length, length_cutEnd,
    length_cutStart, ite_self, length_lineup]

theorem picked_sublist (test : Double × Nat → Bool) (pool : Pool) :
    (picked test pool).Sublist pool := by
  have hsublist : (pool.zipIdx.filter test).Sublist pool.zipIdx := List.filter_sublist
  have hdice := hsublist.map Prod.fst
  rwa [List.zipIdx_map_fst] at hdice

theorem picked_append_perm (test : Double × Nat → Bool) (pool : Pool) :
    (picked test pool ++ picked (fun d => !test d) pool).Perm pool := by
  have hperm := (List.filter_append_perm test pool.zipIdx).map Prod.fst
  rwa [List.map_append, List.zipIdx_map_fst] at hperm

theorem cut_opposite (side : Side) (m : Nat) (items : List (Double × Nat)) :
    cut ⟨false, side⟩ m items = cut ⟨true, side.opposite⟩ (items.length - m) items := by
  have htake : items.take m = items.take (items.length - (items.length - m)) := by
    rw [Nat.sub_sub_eq_min, Nat.min_comm, ← List.take_eq_take_min]
  cases side with
  | high | front => exact htake
  | low | rear => rfl

/-- To keep `m` dice is to discard the others at the other end. -/
theorem select_opposite (side : Side) (m : Nat) (pool : Pool) :
    pool.select ⟨false, side⟩ m = pool.select ⟨true, side.opposite⟩ (pool.length - m) := by
  have hline : lineup side.opposite pool = lineup side pool := by cases side <;> rfl
  rw [select_eq_inRollOrder, select_eq_inRollOrder, hline, cut_opposite, length_lineup]

/-- How keeping and discarding the same `m` dice split a pool. -/
structure Splits (side : Side) (m : Nat) (pool kept rest : Pool) : Prop where
  kept_eq : kept = picked (chosen side m pool) pool
  rest_eq : rest = picked (fun d => !chosen side m pool d) pool
  kept_sublist : kept.Sublist pool
  rest_sublist : rest.Sublist pool
  length_kept : kept.length = m
  length_rest : rest.length = pool.length - m
  partition : (kept ++ rest).Perm pool

theorem requested_le (n : Double) (size : Nat) : requested n size ≤ size := by
  unfold requested
  split
  · exact Nat.zero_le _
  · split <;> omega
  · split <;> omega

/-- Any double asks a selection for a whole number of dice of the pool, which has fewer than
`2 ^ 64` as every pool in memory has. Keeping and discarding leave exactly the dice in these places
and all others, as they were rolled. To keep some is to discard the others from the other end. -/
theorem select_splits (pool : Pool) (hsize : pool.length < 2 ^ 64) (n : Double) (side : Side) :
    Splits side (requested n pool.length) pool
        (pool.select ⟨false, side⟩ (clampCount n pool.length))
        (pool.select ⟨true, side⟩ (clampCount n pool.length)) ∧
      ∀ m, pool.select ⟨false, side⟩ m = pool.select ⟨true, side.opposite⟩ (pool.length - m) := by
  rw [clampCount_eq_requested n hsize]
  have hle := requested_le n pool.length
  generalize requested n pool.length = m at hle
  have hkept : pool.select ⟨false, side⟩ m = picked (chosen side m pool) pool := by
    rw [select_eq_picked]
    simp
  have hrest : pool.select ⟨true, side⟩ m = picked (fun d => !chosen side m pool d) pool := by
    rw [select_eq_picked]
    simp
  refine ⟨⟨hkept, hrest, ?_, ?_, ?_, ?_, ?_⟩, fun m => select_opposite side m pool⟩
  · exact hkept ▸ picked_sublist _ pool
  · exact hrest ▸ picked_sublist _ pool
  · rw [length_select]
    exact Nat.min_eq_left hle
  · rw [length_select]
    exact congrArg (pool.length - ·) (Nat.min_eq_left hle)
  · rw [hkept, hrest]
    exact picked_append_perm _ pool

/-- Of equal dice the later one is the lower, the zero with a sign is lower still, and NaN is the
highest or the lowest of all by its sign. -/
theorem select_splits_nans :
    ([0, .nan true, 6, -0, .nan false, 0] : Pool).length < 2 ^ 64 ∧
      Pool.select ⟨false, .low⟩ (clampCount 2.9 6) [0, .nan true, 6, -0, .nan false, 0] =
        [.nan true, -0] ∧
      Pool.select ⟨true, .low⟩ (clampCount 2.9 6) [0, .nan true, 6, -0, .nan false, 0] =
        [0, 6, .nan false, 0] := by
  have hsize : ([0, .nan true, 6, -0, .nan false, 0] : Pool).length < 2 ^ 64 := by decide
  have hsplits := (select_splits [0, .nan true, 6, -0, .nan false, 0] hsize 2.9 .low).1
  exact ⟨hsize, hsplits.kept_eq.trans (by decide +kernel), hsplits.rest_eq.trans (by decide +kernel)⟩

end Pool

end DiceScript
