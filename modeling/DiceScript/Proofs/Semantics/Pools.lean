import DiceScript.Proofs.Number.Whole
import DiceScript.Proofs.Dice.Pools
import DiceScript.Proofs.Machine.Outcome
import DiceScript.Proofs.Semantics.Dice
import DiceScript.Proofs.Syntax.Pools

/-!
# What a pool shows

A pool that is not yet reduced shows its dice to modifiers, as a list of numbers. When something
counted them it shows the count, which stands for a pool of one. Every modifier keeps it so.
-/

namespace DiceScript

open Binary64

/-- The numbers of a pool added up from first to last. -/
def Pool.total (pool : Pool) : Double :=
  pool.foldl (· + ·) 0

/-- The value shows these dice to modifiers: a list of numbers or, when they were `counted`, the
count as the only one. -/
inductive Shows : (counted : Bool) → Value → Pool → Prop
  | dice (pool : Pool) : Shows false (.ofPool pool) pool
  | count (n : Nat) : Shows true (.number (ofNat n)) [ofNat n]

theorem Value.sumFrom?_numbers (x : Double) (pool : Pool) :
    sumFrom? x (pool.map number) = some (pool.foldl (· + ·) x) := by
  induction pool generalizing x with
  | nil => rfl
  | cons y pool ih => exact ih (x + y)

namespace Shows

variable {b : Bool} {v : Value} {pool : Pool}

theorem pool?_eq (hv : Shows b v pool) : v.pool? = some pool := by
  cases hv with
  | dice pool => exact Pool.pool?_ofPool pool
  | count n => rfl

/-- A count is the total of the pool of one that it stands for. -/
theorem toNumber?_eq (hv : Shows b v pool) : v.toNumber? = some pool.total := by
  cases hv with
  | dice pool => exact Value.sumFrom?_numbers 0 pool
  | count n => exact congrArg some (zero_add_ofNat n).symm

end Shows

/-! ## What actions ensure -/

variable {σ : Type} {h : Host (StateM σ)} {limits : Limits}

/-- Whenever the action is done, its result has the property. -/
def Ensures {α : Type} (x : Action h α) (P : α → Prop) : Prop :=
  ∀ s env a k, outcome x s env = .done a k → P a

namespace Ensures

variable {α β : Type} {P : α → Prop} {Q : β → Prop}

theorem pure {a : α} (ha : P a) : Ensures (Pure.pure a : Action h α) P := by
  intro s env b k hdone
  rw [outcome_pure] at hdone
  cases hdone
  exact ha

theorem bind {x : Action h α} {f : α → Action h β} (hx : Ensures x P)
    (hf : ∀ a, P a → Ensures (f a) Q) : Ensures (x >>= f) Q := by
  intro s env b k hdone
  obtain ⟨a, s', env', hxo, hfo⟩ := exists_of_outcome_bind hdone
  exact hf a (hx s env a (s', env') hxo) s' env' b k hfo

/-- Whatever the first action gives, the second one ensures its property. -/
theorem after {x : Action h α} {f : α → Action h β} (hf : ∀ a, Ensures (f a) Q) :
    Ensures (x >>= f) Q :=
  bind (P := fun _ => True) (fun _ _ _ _ _ => trivial) fun a _ => hf a

theorem throw (f : Fault) : Ensures (MonadExcept.throw f : Action h α) P := by
  intro s env a k hdone
  rw [outcome_throw] at hdone
  cases hdone

end Ensures

theorem ensures_number (op : Opcode) (v : Value) :
    Ensures (Action.number op v : Action h Double) fun x => v.toNumber? = some x := by
  unfold Action.number
  split
  · rename_i x hx
    exact .pure hx
  · exact .throw _

theorem ensures_pool (op : Opcode) (v : Value) :
    Ensures (Action.pool op v : Action h Pool) fun pool => v.pool? = some pool := by
  unfold Action.pool
  split
  · rename_i pool hpool
    exact .pure hpool
  · exact .throw _

theorem ensures_countDice (relation : Relation) (threshold v : Value) :
    Ensures (countDice relation threshold v : Action h Value) fun w =>
      ∃ (x : Double) (pool : Pool), threshold.toNumber? = some x ∧ v.pool? = some pool ∧
        w = .number (ofNat (pool.countMatching relation x)) :=
  (ensures_number _ threshold).bind fun x hx =>
    (ensures_pool _ v).bind fun pool hpool => .pure ⟨x, pool, hx, hpool, rfl⟩

theorem ensures_sum {v : Value} {x : Double} (hv : v.toNumber? = some x) :
    Ensures (sumIf true v : Action h Value) fun w => w = .number x := by
  refine (ensures_number _ v).bind fun y hy => .pure ?_
  rw [hv] at hy
  rw [Option.some.inj hy]

/-! ## Modifiers -/

/-- The value shows some dice. -/
def Shown (counted : Bool) (v : Value) : Prop :=
  ∃ pool, Shows counted v pool

section Modifiers

variable {b : Bool} {v : Value}

theorem shown_evalSort (hv : Shown b v) (order : Option SortOrder) :
    Ensures (evalSort order v : Action h Value) (Shown (order.isNone && b)) := by
  cases order with
  | none => exact .pure hv
  | some order => exact .after fun pool => .pure ⟨_, .dice _⟩

theorem shown_evalSelect (hv : Shown b v) (s : Option Selection) :
    Ensures (evalSelect limits s v : Action h Value) (Shown (s.isNone && b)) := by
  cases s with
  | none => exact .pure hv
  | some selection =>
      obtain ⟨selector, count⟩ := selection
      exact .after fun n => .after fun x => .after fun pool => .pure ⟨_, .dice _⟩

theorem shown_evalReroll (hv : Shown false v) (sides : Double) (r : Option Reroll) :
    Ensures (evalReroll limits r sides v : Action h Value) (Shown false) := by
  cases r with
  | none => exact .pure hv
  | some reroll =>
      obtain ⟨once, relation, threshold⟩ := reroll
      exact .after fun t => .after fun x => .after fun pool => .after fun rolled =>
        .pure ⟨rolled, .dice rolled⟩

theorem shown_evalCheck (hv : Shown b v) (c : Option Comparison) :
    Ensures (evalCheck limits c v : Action h Value) (Shown (c.isSome || b)) := by
  cases c with
  | none => exact .pure hv
  | some comparison =>
      obtain ⟨relation, threshold⟩ := comparison
      exact .after fun t => .after fun x => .after fun pool => .pure ⟨_, .count _⟩

/-- Sorting and selecting make single dice of what they get, and a check makes a count. -/
theorem Modifiers.shown_eval (hv : Shown b v) (mods : Modifiers) {again : Value → Action h Value}
    (hagain : ∀ w, Shown (mods.select.isNone && (mods.sort.isNone && b)) w →
      Ensures (again w) (Shown (mods.select.isNone && (mods.sort.isNone && b)))) :
    Ensures (mods.eval limits again v)
      (Shown (mods.check.isSome || (mods.select.isNone && (mods.sort.isNone && b)))) := by
  obtain ⟨sort, select, check⟩ := mods
  rw [Modifiers.eval]
  refine (shown_evalSort hv sort).bind fun w hw => ?_
  refine (shown_evalSelect hw select).bind fun w hw => ?_
  exact (hagain w hw).bind fun w hw => shown_evalCheck hw check

end Modifiers

/-- A pool that is not reduced shows its dice, or the count of them. -/
theorem Term.shown_eval {t : Term} (ht : t.isPool = true) :
    Ensures (t.eval limits false : Action h Value) (Shown t.counted) := by
  induction t, ht using pool_induction with
  | roll count sides reroll mods =>
      have hcounted : (mods.check.isSome || (mods.select.isNone && (mods.sort.isNone && false))) =
          (⟨.roll count sides reroll, mods⟩ : Term).counted := by
        rw [Bool.and_false, Bool.and_false, Bool.or_false]
        rfl
      simp only [Term.eval, Bool.false_and, sumIf_false, bind_pure]
      refine .after fun sides => .after fun count => .after fun pool => ?_
      rw [← hcounted]
      refine mods.shown_eval ⟨pool, .dice pool⟩ fun w hw => ?_
      rw [Bool.and_false, Bool.and_false] at hw ⊢
      exact shown_evalReroll hw sides reroll
  | group t mods ht ih =>
      have hcounted : (mods.check.isSome || (mods.select.isNone && (mods.sort.isNone && t.counted))) =
          (⟨.atom (.around t), mods⟩ : Term).counted := by
        obtain ⟨sort, select, check⟩ := mods
        cases check <;> cases select <;> cases sort <;> rfl
      have hdice : (Atom.around t).dice limits = (t.eval limits false : Action h Value) := by
        rw [Atom.dice, ht]
        rfl
      simp only [Term.eval, Bool.false_and, sumIf_false, bind_pure, hdice]
      rw [← hcounted]
      exact ih.bind fun v hv => mods.shown_eval hv fun w hw => .pure hw

end DiceScript
