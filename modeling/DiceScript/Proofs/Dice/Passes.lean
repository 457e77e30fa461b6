import DiceScript.Proofs.Dice.Reordering

/-!
# The passes of a reroll

One pass over a pool replaces the matching dice, from first to last, by one draw each. A reroll that
repeats makes as many passes as it is allowed. It stops early before a pass that would draw nothing,
and so does what all of them would do.
-/

namespace DiceScript

namespace Pool

variable {σ : Type} (draw : σ → Double × σ) (matching : Double → Bool)

/-- One pass over a pool, with the draws that are left. -/
def pass (p : Pool × σ) : Pool × σ :=
  rerollOnce draw matching p.1 p.2

/-- The matching dice of a pool have been replaced by the next draws in their order, one for each, and
the other dice are still there. -/
structure Replaces (pool : Pool) (s : σ) (after : Pool × σ) : Prop where
  length : after.1.length = pool.length
  kept : ∀ (i : Nat) (x : Double), pool[i]? = some x → matching x = false → after.1[i]? = some x
  drawn : ∀ (i : Nat) (x : Double), pool[i]? = some x → matching x = true →
    after.1[i]? = (draws draw (pool.countP matching) s).1[(pool.take i).countP matching]?
  left : after.2 = (draws draw (pool.countP matching) s).2

variable {draw matching} {pool : Pool} {s : σ} {after : Pool × σ}

theorem Replaces.cons_kept (h : Replaces draw matching pool s after) {x : Double}
    (hx : matching x = false) : Replaces draw matching (x :: pool) s (x :: after.1, after.2) := by
  have hcount : (x :: pool).countP matching = pool.countP matching := by simp [hx]
  refine ⟨congrArg Nat.succ h.length, ?_, ?_, hcount ▸ h.left⟩
  · intro i y hy hmatch
    cases i with
    | zero => exact hy
    | succ i => exact h.kept i y hy hmatch
  · intro i y hy hmatch
    cases i with
    | zero =>
        obtain rfl : x = y := by simpa using hy
        rw [hx] at hmatch
        cases hmatch
    | succ i =>
        rw [hcount]
        simpa [hx] using h.drawn i y hy hmatch

theorem Replaces.cons_drawn (h : Replaces draw matching pool (draw s).2 after) {x : Double}
    (hx : matching x = true) :
    Replaces draw matching (x :: pool) s ((draw s).1 :: after.1, after.2) := by
  have hcount : (x :: pool).countP matching = pool.countP matching + 1 := by simp [hx]
  refine ⟨congrArg Nat.succ h.length, ?_, ?_, hcount ▸ h.left⟩
  · intro i y hy hmatch
    cases i with
    | zero =>
        obtain rfl : x = y := by simpa using hy
        rw [hx] at hmatch
        cases hmatch
    | succ i => exact h.kept i y hy hmatch
  · intro i y hy hmatch
    rw [hcount]
    cases i with
    | zero => rfl
    | succ i => simpa [hx, draws] using h.drawn i y hy hmatch

theorem replaces_pass (pool : Pool) (s : σ) :
    Replaces draw matching pool s (pass draw matching (pool, s)) := by
  induction pool generalizing s with
  | nil => exact ⟨rfl, nofun, nofun, rfl⟩
  | cons x pool ih =>
      cases hx : matching x with
      | true =>
          have hpass : pass draw matching (x :: pool, s) =
              ((draw s).1 :: (pass draw matching (pool, (draw s).2)).1,
                (pass draw matching (pool, (draw s).2)).2) := by
            simp [pass, rerollOnce, hx]
          exact hpass ▸ (ih (draw s).2).cons_drawn hx
      | false =>
          have hpass : pass draw matching (x :: pool, s) =
              (x :: (pass draw matching (pool, s)).1, (pass draw matching (pool, s)).2) := by
            simp [pass, rerollOnce, hx]
          exact hpass ▸ (ih s).cons_kept hx

/-- A pass over a pool where no die matches draws nothing. -/
theorem pass_of_settled (hpool : pool.any matching = false) (s : σ) :
    pass draw matching (pool, s) = (pool, s) := by
  induction pool with
  | nil => rfl
  | cons x pool ih =>
      obtain ⟨hx, hpool⟩ : matching x = false ∧ pool.any matching = false := by
        simpa using hpool
      have hrest := ih hpool
      simp only [pass] at hrest
      simp [pass, rerollOnce, hx, hrest]

theorem iterate_pass_of_settled (hpool : pool.any matching = false) (s : σ) (k : Nat) :
    (pass draw matching)^[k] (pool, s) = (pool, s) :=
  Function.iterate_fixed (pass_of_settled hpool s) k

/-- A reroll that repeats makes all its passes, and says whether they settled the pool. -/
theorem rerollUntil_eq (k : Nat) (pool : Pool) (s : σ) :
    rerollUntil draw matching k pool s =
      ((((pass draw matching)^[k] (pool, s)).1,
        !((pass draw matching)^[k] (pool, s)).1.any matching),
        ((pass draw matching)^[k] (pool, s)).2) := by
  induction k generalizing pool s with
  | zero => rfl
  | succ k ih =>
      rw [rerollUntil]
      split
      · exact ih _ _
      · rename_i hpool
        rw [Bool.not_eq_true] at hpool
        rw [iterate_pass_of_settled hpool, hpool]
        rfl

/-- Bounded rerolling is repeated single rerolling: for any dice that are to be rerolled and any
source of draws, it leaves the pool and the draws that so many passes leave. Its answer tells whether
a die still matches, and when none does a higher limit changes nothing. -/
theorem rerollUntil_passes (relation : Relation) (threshold : Double) (draw : σ → Double × σ)
    (k : Nat) (pool : Pool) (s : σ) :
    let matching := (relation.holds · threshold)
    let result := rerollUntil draw matching k pool s
    (result.1.1, result.2) = (pass draw matching)^[k] (pool, s) ∧
      (∀ pool s, Replaces draw matching pool s (pass draw matching (pool, s))) ∧
      (result.1.2 = true ↔ ∀ x ∈ (result.1.1 : List Double), matching x = false) ∧
      (result.1.2 = true → ∀ j, k ≤ j → rerollUntil draw matching j pool s = result) := by
  intro matching result
  have hresult : result = _ := rerollUntil_eq k pool s
  refine ⟨?_, replaces_pass, ?_, ?_⟩
  · rw [hresult]
  · rw [hresult]
    simp
  · intro hsettled j hj
    obtain ⟨n, rfl⟩ := Nat.exists_eq_add_of_le' hj
    rw [hresult] at hsettled
    have hnone : ((pass draw matching)^[k] (pool, s)).1.any matching = false := by
      simpa using hsettled
    have hmore : (pass draw matching)^[n + k] (pool, s) = (pass draw matching)^[k] (pool, s) := by
      rw [Function.iterate_add_apply]
      exact iterate_pass_of_settled hnone _ n
    rw [hresult, rerollUntil_eq, hmore]

/-- The two ones are drawn again until they are none, and the last draw is the last pass. -/
theorem rerollUntil_passes_ones :
    let draw : List Double → Double × List Double := fun s => (s.headD 6, s.tail)
    (rerollUntil draw (Relation.equal.holds · 1) 2 [1, 4, 1] [1, 5, 6, 2]).1.2 = true ∧
      ∀ j, 2 ≤ j → rerollUntil draw (Relation.equal.holds · 1) j [1, 4, 1] [1, 5, 6, 2] =
        (([6, 4, 5], true), [2]) := by
  intro draw
  have hresult : rerollUntil draw (Relation.equal.holds · 1) 2 [1, 4, 1] [1, 5, 6, 2] =
      (([6, 4, 5], true), [2]) := by
    decide +kernel
  have hsettled : (rerollUntil draw (Relation.equal.holds · 1) 2 [1, 4, 1] [1, 5, 6, 2]).1.2 =
      true := by
    rw [hresult]
  have hpasses := rerollUntil_passes .equal 1 draw 2 [1, 4, 1] [1, 5, 6, 2]
  exact ⟨hsettled, fun j hj => (hpasses.2.2.2 hsettled j hj).trans hresult⟩

end Pool

end DiceScript
