import DiceScript.Proofs.Code.Completion
import DiceScript.Proofs.Compile.Groups
import DiceScript.Proofs.Compile.Halting
import DiceScript.Proofs.Compile.Parts
import DiceScript.Proofs.Compile.Simulation
import DiceScript.Proofs.Semantics.Pools

/-!
# Reduced pools

Wherever the code of a pool that is generated with reduction completes, it has left one number on
the stack: what the check behind the pool counted or, without a check, the total of the dice. The
dice are those that lay on the stack on the way.
-/

namespace DiceScript

open Binary64
open Code (op)

theorem Modifiers.code_unchecked (again : Code) (mods : Modifiers) :
    mods.code again = mods.unchecked.code again ++ checkCode mods.check := by
  obtain ⟨sort, select, check⟩ := mods
  simp [Modifiers.code, Modifiers.unchecked, checkCode_none]

mutual

theorem Term.counted_tree : ∀ t : Term, t.tree.counted = t.counted
  | ⟨.atom (.group e), mods⟩ => by
    rw [Term.tree, Atom.tree, Tree.Term.counted, e.counted_tree, mods.isEmpty_tree,
      mods.isSome_check_tree, Term.counted]
  | ⟨.atom (.number _), mods⟩ | ⟨.roll _ _ _, mods⟩ | ⟨.load _, mods⟩ | ⟨.list _, mods⟩ =>
    mods.isSome_check_tree _

theorem Expr.counted_tree : ∀ e : Expr, e.tree.counted = e.counted
  | .store (.math (.term t)) none => t.counted_tree
  | .store (.math (.unary _ _)) none | .store (.math (.binary _ _ _)) none
  | .store .prompt none | .store (.fileLine _) none
  | .store (.math (.term _)) (some _) | .store (.math (.unary _ _)) (some _)
  | .store (.math (.binary _ _ _)) (some _) | .store .prompt (some _)
  | .store (.fileLine _) (some _) | .print none _ | .print (some _) _ | .close _ | .choose _ none
  | .choose _ (some _) | .openFile _ _ _ => rfl

end

namespace Term

variable {t : Term}

/-- A group around a pool hands on the single dice. -/
theorem code_around (ht : t.isPool = true) (mods : Modifiers) :
    code false ⟨.atom (.around t), mods⟩ = t.code false ++ mods.code [] := by
  have hgroup := Tree.Term.code_around (t.isPool_tree.trans ht) (mods.tree none) false
  rw [Tree.Term.codeBehind_false, mods.code_tree] at hgroup
  exact hgroup

theorem code_true_eq (ht : t.isPool = true) :
    t.code true = t.code false ++ Tree.sumCode (!t.counted) := by
  rw [← counted_tree]
  exact Tree.Term.code_true_eq (t.isPool_tree.trans ht)

theorem code_unchecked (ht : t.isPool = true) :
    t.code false = t.unchecked.code false ++ checkCode t.modifiers.check := by
  induction t, ht using pool_induction with
  | roll count sides reroll mods =>
      simp [code_roll, unchecked, mods.code_unchecked (rerollCode reroll), Tree.sumCode]
  | group t mods ht _ =>
      rw [unchecked, code_around ht, code_around ht, mods.code_unchecked, List.append_assoc]

/-- The code of a pool is its code without the check behind it, then the check, then a sum unless
something counted. -/
theorem code_true_pieces (ht : t.isPool = true) :
    t.code true = t.unchecked.code false ++
      (checkCode t.modifiers.check ++ Tree.sumCode (!t.counted)) := by
  rw [code_true_eq ht, code_unchecked ht, List.append_assoc]

end Term

variable {σ : Type} {h : Host (StateM σ)} {limits : Limits}

/-- The run from `c` to `c'` has left the number `x` of a pool on the stack. On its way the pool lay
there and, for a check, the threshold on it. -/
structure LeavesNumber (limits : Limits) (code : List Instruction) (t : Term) (c c' : Config h)
    (x : Double) : Prop where
  stack : c'.machine.stack = .number x :: c.machine.stack
  pool : ∃ (c₁ : Config h) (w : Value) (dice : Pool),
    Completes limits code (t.unchecked.code false) c c₁ ∧
      (∃ as, Trace limits code.toArray c₁ as c') ∧
      c₁.machine.stack = w :: c.machine.stack ∧ Shows t.unchecked.counted w dice ∧
      match t.modifiers.check with
      | none => x = dice.total
      | some ⟨relation, threshold⟩ => ∃ (c₂ : Config h) (v : Value) (y : Double),
        Completes limits code threshold.code c₁ c₂ ∧ c₂.machine.stack = v :: c₁.machine.stack ∧
          v.toNumber? = some y ∧ x = ofNat (dice.countMatching relation y)

namespace Term

variable {code : List Instruction} {t : Term} {c c' : Config h}

/-- Before the code behind a pool, the pool lies on the stack. -/
theorem leaves_pool (hcode : Forward 0 code.length code) (ht : t.isPool = true) {next : Code}
    {f : Value → Action h Value} (hnext : ∀ w, Realizes limits next (f w) [w] fun u => [u])
    (hrun : Completes limits code (t.unchecked.code false ++ next) c c') :
    ∃ c₁ w dice, Completes limits code (t.unchecked.code false) c c₁ ∧
      Completes limits code next c₁ c' ∧ c₁.machine.stack = w :: c.machine.stack ∧
      Shows t.unchecked.counted w dice := by
  have hpool : Yields (h := h) limits (t.unchecked.code false) (t.unchecked.eval limits false) :=
    t.unchecked.yields false
  obtain ⟨c₁, hfirst, hlast⟩ := hrun.split hcode hpool hnext rfl
  obtain ⟨w, hw, hstack⟩ := hfirst.outcome_eq hcode hpool rfl
  obtain ⟨dice, hshows⟩ := shown_eval (isPool_unchecked ht) _ _ _ _ hw
  exact ⟨c₁, w, dice, hfirst, hlast, hstack, hshows⟩

/-- What is not counted is summed, and a count is a number already. -/
theorem leaves_total (hcode : Forward 0 code.length code) (ht : t.isPool = true)
    (hcheck : t.modifiers.check = none) (hrun : Completes limits code (t.code true) c c') :
    ∃ x, LeavesNumber limits code t c c' x := by
  have hsum (w : Value) : Realizes (h := h) limits (Tree.sumCode (!t.counted))
      (sumIf (!t.counted) w) [w] fun u => [u] := sumCode_realizes _ w
  rw [code_true_pieces ht, hcheck, checkCode_none, List.nil_append] at hrun
  obtain ⟨c₁, w, dice, hfirst, hlast, hstack, hshows⟩ := leaves_pool hcode ht hsum hrun
  obtain ⟨u, hu, hstack'⟩ := hlast.outcome_eq hcode (hsum w) hstack
  have hnumber : u = .number dice.total := by
    rw [unchecked_eq hcheck] at hshows
    generalize t.counted = counted at hshows hu
    have htotal := hshows.toNumber?_eq
    cases hshows with
    | dice pool => exact ensures_sum htotal _ _ _ _ hu
    | count n =>
        obtain rfl : u = .number (ofNat n) := Ensures.pure (P := (· = _)) rfl _ _ _ _ hu
        exact congrArg Value.number (Option.some.inj htotal)
  refine ⟨dice.total, ?_, c₁, w, dice, hfirst, hlast.trace, hstack, hshows, ?_⟩
  · rw [hstack', hnumber]
    rfl
  · rw [hcheck]

theorem leaves_count (hcode : Forward 0 code.length code) (ht : t.isPool = true)
    {relation : Relation} {threshold : Atom}
    (hcheck : t.modifiers.check = some ⟨relation, threshold⟩)
    (hrun : Completes limits code (t.code true) c c') :
    ∃ x, LeavesNumber limits code t c c' x := by
  have hcounted : t.counted = true := counted_of_check ht (by rw [hcheck]; rfl)
  have hnosum : Tree.sumCode (!true) = [] := rfl
  have hlimit (w : Value) : Realizes (h := h) limits threshold.code (threshold.eval limits) [w]
      fun v => [v, w] := threshold.yields.frame [w]
  have hcount (w v : Value) : Realizes (h := h) limits (op (.count relation))
      (countDice relation v w) [v, w] fun u => [u] := .op (.count relation v w)
  rw [code_true_pieces ht, hcheck, checkCode_some, hcounted, hnosum, List.append_nil] at hrun
  obtain ⟨c₁, w, dice, hfirst, hrest, hstack₁, hshows⟩ :=
    leaves_pool hcode ht (fun w => (hlimit w).append (hcount w)) hrun
  obtain ⟨c₂, hmiddle, hlast⟩ := hrest.split hcode (hlimit w) (hcount w) hstack₁
  obtain ⟨v, -, hstack₂⟩ := hmiddle.outcome_eq hcode (hlimit w) hstack₁
  obtain ⟨u, hu, hstack⟩ := hlast.outcome_eq hcode (hcount w v) hstack₂
  obtain ⟨y, pool, hy, hdice, rfl⟩ := ensures_countDice relation v w _ _ _ _ hu
  obtain rfl : dice = pool := Option.some.inj (hshows.pool?_eq.symm.trans hdice)
  refine ⟨_, hstack, c₁, w, dice, hfirst, hrest.trace, hstack₁, hshows, ?_⟩
  rw [hcheck]
  exact ⟨c₂, v, y, hmiddle, by rw [hstack₂, hstack₁]; rfl, hy, rfl⟩

theorem leaves_number (hcode : Forward 0 code.length code) (ht : t.isPool = true)
    (hrun : Completes limits code (t.code true) c c') :
    ∃ x, LeavesNumber limits code t c c' x := by
  cases hcheck : t.modifiers.check with
  | none => exact leaves_total hcode ht hcheck hrun
  | some check =>
      obtain ⟨relation, threshold⟩ := check
      exact leaves_count hcode ht hcheck hrun

end Term

/-- How a program reduces the pools of its script. -/
structure ReducesPools (p : Program) (script : Script) : Prop where
  /-- The code of every term that is generated with reduction stands in the program. -/
  placed : ∀ t ∈ script.reduced, ∃ a, Placed p.code a (codeLayout a (t.code true))
  /-- Wherever such code is that of a pool and completes, in any run, it has left one number. -/
  leaves : ∀ t : Term, t.isPool = true → ∀ {σ : Type} {h : Host (StateM σ)} (limits : Limits)
    (c c' : Config h), Completes limits p.code (t.code true) c c' →
      ∃ x, LeavesNumber limits p.code t c c' x
  /-- It does complete where the evaluation of the pool is done, with the value on the stack. -/
  completes : ∀ t : Term, t.isPool = true → ∀ {σ : Type} {h : Host (StateM σ)} (limits : Limits)
    (c : Config h), Placed p.code c.address (codeLayout c.address (t.code true)) →
      ∀ v s env, outcome (t.eval limits true) c.machine.toState c.env = .done v (s, env) →
        Completes limits p.code (t.code true) c
          ⟨c.address + codeSize (t.code true), ⟨s, v :: c.machine.stack⟩, env⟩

/-- Every program compiled from source reduces pools to single numbers: to what the check behind a
pool counted, else to the total of its dice. -/
theorem compile_reducesPools (mode : Toplevel) (source : String) (p : Program)
    (hp : compile mode source = .ok p) :
    ∃ script, parse (tokenize source) = .ok script ∧ ReducesPools p script := by
  have hcode := forward_of_compile hp
  obtain ⟨script, hscript, rfl⟩ := compile_eq_ok.mp hp
  refine ⟨script, hscript, ?_, ?_, ?_⟩
  · exact toplevel_contains mode script.body _ 0 (.whole _)
  · intro t ht σ h limits c c' hrun
    exact Term.leaves_number hcode ht hrun
  · intro t _ σ h limits c hplaced v s env hdone
    exact (t.yields true).completes hplaced rfl hdone

/-- Of a count that is checked again, inside groups, all three terms are pools. -/
theorem compile_reducesPools_groups :
    ∃ p script, compile .keepLast "((3d6>4))>1 + 2d(1d4)" = .ok p ∧
      parse (tokenize "((3d6>4))>1 + 2d(1d4)") = .ok script ∧
      script.reduced.map Term.isPool = [true, true, true] ∧ ReducesPools p script := by
  obtain ⟨p, hp⟩ : ∃ p, compile .keepLast "((3d6>4))>1 + 2d(1d4)" = .ok p :=
    exists_compile_eq_ok (by decide +kernel)
  have hpools : (parse (tokenize "((3d6>4))>1 + 2d(1d4)")).toOption.map
      (fun script => script.reduced.map Term.isPool) = some [true, true, true] := by
    decide +kernel
  obtain ⟨script, hscript, hreduces⟩ := compile_reducesPools .keepLast _ p hp
  rw [hscript] at hpools
  exact ⟨p, script, hp, hscript, Option.some.inj hpools, hreduces⟩

end DiceScript
