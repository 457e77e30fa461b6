import DiceScript.Modifier
import DiceScript.Number.Binary64

/-!
# Dice pools

A pool is the list of its dice in the order in which they were rolled. Sorting rearranges it;
selections and rerolls keep the order of what stays.
-/

namespace DiceScript

abbrev Pool := List Double

namespace Pool

open Binary64

def sort (order : SortOrder) (pool : Pool) : Pool :=
  match order with
  | .ascending => pool.mergeSort fun x y => totalKey x ≤ totalKey y
  | .descending => pool.mergeSort fun x y => totalKey y ≤ totalKey x

/-- A requested number of dice, without its fraction and within the size of the pool. -/
def clampCount (n : Double) (size : Nat) : Nat :=
  if n.isNaN || n ≤ 0 then 0 else min (Binary64.toNat n) size

/-- The dice with their positions, the highest first, and of equal dice the earlier first. -/
def ranking (pool : Pool) : List (Double × Nat) :=
  pool.zipIdx.mergeSort fun x y => totalKey y.1 ≤ totalKey x.1

/-- Dice with positions, back in the order of the positions. -/
def inRollOrder (dice : List (Double × Nat)) : Pool :=
  (dice.mergeSort fun x y => x.2 ≤ y.2).map (·.1)

/-- Keep or discard `n` items at the start. -/
def cutStart {α : Type} (discard : Bool) (n : Nat) (items : List α) : List α :=
  if discard then items.drop n else items.take n

/-- Keep or discard `n` items at the end. -/
def cutEnd {α : Type} (discard : Bool) (n : Nat) (items : List α) : List α :=
  if discard then items.take (items.length - n) else items.drop (items.length - n)

def select (selector : Selector) (n : Nat) (pool : Pool) : Pool :=
  match selector.side with
  | .front => cutStart selector.discard n pool
  | .rear => cutEnd selector.discard n pool
  | .high => inRollOrder (cutStart selector.discard n (ranking pool))
  | .low => inRollOrder (cutEnd selector.discard n (ranking pool))

def countMatching (relation : Relation) (threshold : Double) (pool : Pool) : Nat :=
  pool.countP (relation.holds · threshold)

section Reroll

variable {σ : Type} (draw : σ → Double × σ) (matching : Double → Bool)

/-- Replace every matching die by one draw, from first to last. -/
def rerollOnce : Pool → σ → Pool × σ
  | [], s => ([], s)
  | x :: pool, s =>
    if matching x then
      let (y, s) := draw s
      let (rest, s) := rerollOnce pool s
      (y :: rest, s)
    else
      let (rest, s) := rerollOnce pool s
      (x :: rest, s)

/-- Reroll until no die matches, at most `passes` times. The flag says that none matches. -/
def rerollUntil : Nat → Pool → σ → (Pool × Bool) × σ
  | 0, pool, s => ((pool, !pool.any matching), s)
  | passes + 1, pool, s =>
    if pool.any matching then
      let (pool, s) := rerollOnce draw matching pool s
      rerollUntil passes pool s
    else
      ((pool, true), s)

end Reroll

end Pool

end DiceScript
