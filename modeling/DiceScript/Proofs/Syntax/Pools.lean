import DiceScript.Syntax

/-!
# Pools among terms

A pool is a roll, or a group around nothing but a pool. What holds of rolls and is handed on from a
pool to a group around it holds of all pools.
-/

namespace DiceScript

/-- A group around nothing but one term. -/
abbrev Atom.around (t : Term) : Atom :=
  .group (.store (.math (.term t)) none)

mutual

/-- The value of the pool is a count, which is not summed again. -/
def Term.counted : Term → Bool
  | ⟨.atom (.group e), mods⟩ => mods.check.isSome || mods.isEmpty && e.counted
  | ⟨_, mods⟩ => mods.check.isSome

def Expr.counted : Expr → Bool
  | .store (.math (.term t)) none => t.counted
  | _ => false

end

def Modifiers.unchecked (mods : Modifiers) : Modifiers :=
  ⟨mods.sort, mods.select, .none⟩

namespace Term

/-- A pool is a roll, or a group around a pool. -/
@[elab_as_elim]
theorem pool_induction {motive : (t : Term) → t.isPool = true → Prop}
    (roll : ∀ count sides reroll mods, motive ⟨.roll count sides reroll, mods⟩ rfl)
    (group : ∀ t mods (ht : t.isPool = true), motive t ht → motive ⟨.atom (.around t), mods⟩ ht)
    (t : Term) (ht : t.isPool = true) : motive t ht :=
  match t, ht with
  | ⟨.roll count sides reroll, mods⟩, _ => roll count sides reroll mods
  | ⟨.atom (.group (.store (.math (.term t)) none)), mods⟩, ht =>
      group t mods ht (pool_induction roll group t ht)

/-- The term without the check behind it. -/
def unchecked (t : Term) : Term :=
  ⟨t.base, t.modifiers.unchecked⟩

theorem isPool_unchecked {t : Term} (ht : t.isPool = true) : t.unchecked.isPool = true := by
  induction t, ht using pool_induction with
  | roll count sides reroll mods => rfl
  | group t mods ht _ => exact ht

theorem unchecked_eq {t : Term} (hcheck : t.modifiers.check = none) : t.unchecked = t := by
  obtain ⟨base, sort, select, check⟩ := t
  obtain rfl : check = none := hcheck
  rfl

theorem counted_of_check {t : Term} (ht : t.isPool = true)
    (hcheck : t.modifiers.check.isSome = true) : t.counted = true := by
  induction t, ht using pool_induction with
  | roll count sides reroll mods => exact hcheck
  | group t mods ht _ => exact Bool.or_eq_true_iff.mpr (.inl hcheck)

end Term

end DiceScript
