import DiceScript.Proofs.Compile.ScriptCode
import DiceScript.Proofs.Semantics.Evaluation

/-!
# Single dice and their sums

The value of a pool is the sum of the dice that it shows to modifiers.
-/

namespace DiceScript

variable {σ : Type} {h : Host (StateM σ)} {limits : Limits}

@[simp] theorem sumIf_false (v : Value) : (sumIf false v : Action h Value) = pure v := rfl

/-- What a check counted is a number, so it is its own sum. -/
theorem Modifiers.eval_bind_sumIf (again : Value → Action h Value) (mods : Modifiers) (v : Value) :
    (mods.eval limits again v >>= fun w => sumIf true w) =
      mods.eval limits again v >>= fun w => sumIf mods.check.isNone w := by
  obtain ⟨sort, select, check⟩ := mods
  cases check with
  | none => rfl
  | some c =>
      obtain ⟨relation, threshold⟩ := c
      simp only [Modifiers.eval, evalCheck, countDice, bind_assoc, pure_bind, Option.isNone_some,
        sumIf_false]
      rfl

/-- The value of a pool is the sum of what it shows. -/
theorem Term.eval_false_bind_sumIf {t : Term} (ht : t.isPool = true) :
    (t.eval limits false >>= fun v => sumIf true v : Action h Value) = t.eval limits true := by
  obtain ⟨base, mods⟩ := t
  cases base with
  | roll count sides reroll =>
      simp only [Term.eval, bind_assoc, Bool.false_and, Bool.true_and, sumIf_false, pure_bind,
        Modifiers.eval_bind_sumIf]
  | atom a =>
      have ha : a.isPool = true := by
        cases a with
        | number x => simp [Term.isPool] at ht
        | group e => simpa [Term.isPool, Atom.isPool] using ht
      simp only [Term.eval, bind_assoc, Bool.false_and, Bool.true_and, sumIf_false, pure_bind,
        Modifiers.eval_bind_sumIf, ha]
  | load place => simp [Term.isPool] at ht
  | list items => simp [Term.isPool] at ht

/-- Only a group around nothing but a pool has code that leaves single dice. -/
theorem Atom.pool_cases (a : Atom) :
    (∃ t, a = .group (.store (.math (.term t)) none) ∧ t.isPool = true) ∨
      a.isPool = false ∧ a.poolCode? = none := by
  cases a with
  | number x => exact .inr ⟨rfl, rfl⟩
  | group e =>
      have hpool : (Atom.group e).isPool = e.isPool := rfl
      rw [Atom.poolCode?_group, hpool]
      unfold Expr.isPool
      split
      · rename_i t
        cases ht : t.isPool with
        | false => exact .inr ⟨rfl, by rw [Expr.poolCode?_term, ht, if_neg Bool.false_ne_true]⟩
        | true => exact .inl ⟨t, rfl, ht⟩
      · rename_i hother
        exact .inr ⟨rfl, Expr.poolCode?_eq_none hother⟩

theorem Atom.dice_eq_eval {a : Atom} (ha : a.isPool = false) :
    (a.dice limits : Action h Value) = a.eval limits := by
  unfold Atom.dice
  split
  · rfl
  · rename_i t
    have ht : t.isPool = false := ha
    rw [ht]
    rfl
  · rfl

theorem Atom.dice_bind_sumIf {a : Atom} (ha : a.isPool = true) :
    (a.dice limits >>= fun v => sumIf true v : Action h Value) = a.eval limits := by
  rcases a.pool_cases with ⟨t, rfl, ht⟩ | ⟨hno, _⟩
  · rw [Atom.dice, ht]
    exact Term.eval_false_bind_sumIf ht
  · rw [hno] at ha
    cases ha

end DiceScript
