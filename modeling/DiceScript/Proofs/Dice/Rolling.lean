import DiceScript.Proofs.Dice.Pools
import DiceScript.Proofs.Machine.Outcome
import DiceScript.Proofs.Semantics.Evaluation

/-!
# Evaluating a roll

Every stage of a roll with literal counts and thresholds, from the throw to the check, is done
without a fault and keeps a pool of dice.
-/

namespace DiceScript

open Binary64

variable {σ : Type} {h : Host (StateM σ)} {limits : Limits}

/-- The action is done, from any state, with a result that has the property. -/
def Gives {α : Type} (x : Action h α) (P : α → Prop) : Prop :=
  ∀ s env, ∃ a s' env', outcome x s env = .done a (s', env') ∧ P a

namespace Gives

variable {α β : Type} {P : α → Prop} {Q : β → Prop}

theorem pure {a : α} (ha : P a) : Gives (pure a : Action h α) P :=
  fun s env => ⟨a, s, env, outcome_pure a s env, ha⟩

theorem bind {x : Action h α} {f : α → Action h β} (hx : Gives x P)
    (hf : ∀ a, P a → Gives (f a) Q) : Gives (x >>= f) Q := by
  intro s env
  obtain ⟨a, s', env', hdone, ha⟩ := hx s env
  obtain ⟨b, s'', env'', hdone', hb⟩ := hf a ha s' env'
  refine ⟨b, s'', env'', ?_, hb⟩
  rw [outcome_bind, hdone]
  exact hdone'

theorem draw {f : Random → α × Random} (hf : ∀ g, P (f g).1) :
    Gives (Action.draw f : Action h α) P :=
  fun s env => ⟨(f s.random).1, { s with random := (f s.random).2 }, env, rfl, hf s.random⟩

end Gives

/-- The value is a pool of so many dice with so many sides. -/
def IsDicePool (sides count : Nat) (v : Value) : Prop :=
  ∃ pool, v = .ofPool pool ∧ IsPool sides count pool

theorem Action.number_number (op : Opcode) (x : Double) :
    (Action.number op (.number x) : Action h Double) = pure x := rfl

theorem Action.pool_ofPool (op : Opcode) (pool : Pool) :
    (Action.pool op (.ofPool pool) : Action h Pool) = pure pool := by
  unfold Action.pool
  rw [Pool.pool?_ofPool]

section Stages

variable {sides count : Nat}

theorem Action.dieSides_ofNat (hpos : 1 ≤ sides) (hsides : sides ≤ 2 ^ 53) :
    (Action.dieSides (ofNat sides) : Action h Nat) = pure sides := by
  have hone : (1 : Double) ≤ ofNat sides := by
    rw [one_eq_ofNat]
    exact (ofNat_le_ofNat (by decide)).mpr hpos
  unfold Action.dieSides
  dsimp only
  rw [trunc_ofNat hsides, isFinite_ofNat hsides, Bool.true_and, if_pos (decide_eq_true hone),
    toInt64_ofNat hsides, Int.toNat_natCast]

theorem gives_roll (hpos : 1 ≤ sides) (hsides : sides ≤ 2 ^ 53) (hcount : count ≤ 2 ^ 53)
    (hpool : count ≤ limits.poolSize) :
    Gives (Action.roll limits (ofNat count) (ofNat sides) : Action h Pool)
      (IsPool sides count) := by
  have hnan : (ofNat count).isNaN = false := (isNaN_eq_false_iff _).mpr (isNumber_ofNat count)
  have hneg : ¬ ofNat count < 0 := by
    rw [zero_eq_ofNat, ofNat_lt_ofNat (by decide)]
    exact Nat.not_lt_zero count
  have hsize : ¬ ofNat limits.poolSize < ofNat count := by
    rw [ofNat_lt_ofNat hcount]
    exact Nat.not_lt.mpr hpool
  unfold Action.roll
  simp only [trunc_ofNat hcount, hnan, hneg, hsize, decide_false, Bool.or_self,
    Bool.false_eq_true, if_false, toNat_ofNat hcount]
  split
  · rename_i hzero
    exact .pure ⟨hzero ▸ rfl, nofun⟩
  · rw [Action.dieSides_ofNat hpos hsides, pure_bind]
    refine .draw fun g => ?_
    obtain ⟨hlength, hdice⟩ := Random.throwDice_dice hpos (by omega) count g
    exact ⟨hlength, hdice⟩

theorem gives_reroll (hpos : 1 ≤ sides) (hsides : sides ≤ 2 ^ 53) (once : Bool)
    (relation : Relation) (threshold : Double) {pool : Pool} (hdice : IsPool sides count pool) :
    Gives (Action.reroll limits once relation threshold (ofNat sides) pool : Action h Pool)
      (IsPool sides count) := by
  have hdraw : ∀ g, IsDie sides (Random.throwDie sides g).1 :=
    Random.isDie_throwDie hpos (by omega)
  unfold Action.reroll
  rw [Action.dieSides_ofNat hpos hsides, pure_bind]
  refine .draw fun g => ?_
  split
  · exact Pool.isPool_rerollOnce hdraw _ g hdice
  · exact Pool.isPool_rerollUntil hdraw _ _ g hdice

/-! ## Modifiers -/

theorem gives_evalSort {v : Value} (hv : IsDicePool sides count v) (order : Option SortOrder) :
    Gives (evalSort order v : Action h Value) (IsDicePool sides count) := by
  cases order with
  | none => exact .pure hv
  | some order =>
      obtain ⟨pool, rfl, hpool⟩ := hv
      rw [evalSort, Action.pool_ofPool, pure_bind]
      exact .pure ⟨_, rfl, Pool.isPool_sort order hpool⟩

theorem gives_selectDice (hcount : count ≤ 2 ^ 53) {v : Value} (hv : IsDicePool sides count v)
    (selector : Selector) (n : Nat) :
    Gives (selectDice selector (.number (ofNat n)) v : Action h Value)
      (IsDicePool sides (Pool.left selector.discard n count)) := by
  obtain ⟨pool, rfl, hpool⟩ := hv
  have hclamp : Pool.clampCount (ofNat n) pool.length = min n pool.length :=
    Pool.clampCount_ofNat n (hpool.length ▸ hcount)
  have hleft : Pool.left selector.discard (min n pool.length) count =
      Pool.left selector.discard n count := by
    unfold Pool.left
    rw [hpool.length, Nat.min_assoc, Nat.min_self]
  rw [selectDice, Action.number_number, pure_bind, Action.pool_ofPool, pure_bind, hclamp, ← hleft]
  exact .pure ⟨_, rfl, Pool.isPool_select selector _ hpool⟩

theorem gives_rerollDice (hpos : 1 ≤ sides) (hsides : sides ≤ 2 ^ 53) {v : Value}
    (hv : IsDicePool sides count v) (once : Bool) (relation : Relation) (threshold : Double) :
    Gives (rerollDice limits once relation (ofNat sides) (.number threshold) v : Action h Value)
      (IsDicePool sides count) := by
  obtain ⟨pool, rfl, hpool⟩ := hv
  rw [rerollDice, Action.number_number, pure_bind, Action.pool_ofPool, pure_bind]
  exact (gives_reroll hpos hsides once relation threshold hpool).bind
    fun pool hpool => .pure ⟨pool, rfl, hpool⟩

theorem gives_countDice {v : Value} (hv : IsDicePool sides count v) (relation : Relation)
    (threshold : Double) :
    Gives (countDice relation (.number threshold) v : Action h Value)
      fun w => ∃ t, w = .number (ofNat t) ∧ t ≤ count := by
  obtain ⟨pool, rfl, hpool⟩ := hv
  rw [countDice, Action.number_number, pure_bind, Action.pool_ofPool, pure_bind]
  exact .pure ⟨_, rfl, Pool.countMatching_le relation threshold hpool⟩

theorem gives_sum (hle : count * sides ≤ 2 ^ 53) {v : Value} (hv : IsDicePool sides count v) :
    Gives (sumIf true v : Action h Value)
      fun w => ∃ t, w = .number (ofNat t) ∧ count ≤ t ∧ t ≤ count * sides := by
  obtain ⟨pool, rfl, hpool⟩ := hv
  obtain ⟨t, hsum, hmin, hmax⟩ := Pool.toNumber?_ofPool hpool hle
  have hnumber : (Action.number .sum (.ofPool pool) : Action h Double) = pure (ofNat t) := by
    unfold Action.number
    rw [hsum]
  rw [sumIf, if_pos rfl, hnumber, pure_bind]
  exact .pure ⟨t, rfl, hmin, hmax⟩

end Stages

end DiceScript
