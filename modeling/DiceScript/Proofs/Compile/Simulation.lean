import DiceScript.Proofs.Code.Placement
import DiceScript.Proofs.Semantics.Dice

/-!
# Code does what its tree says

The code of every kind of tree follows the evaluation of the tree, over any stack and wherever it
stands in a program.
-/

namespace DiceScript

open Code (op)

variable {σ : Type} {h : Host (StateM σ)} {limits : Limits}

/-! ## Modifiers and sums -/

theorem sumCode_realizes (c : Bool) (v : Value) :
    Realizes (h := h) limits (Tree.sumCode c) (sumIf c v) [v] fun v => [v] := by
  cases c with
  | false => exact .nil v rfl
  | true => exact (Realizes.op (.sum v)).result fun _ => rfl

theorem sort_realizes (s : Option SortOrder) (v : Value) :
    Realizes (h := h) limits (Tree.sortCode s) (evalSort s v) [v] fun w => [w] := by
  cases s with
  | none => exact .nil v rfl
  | some order => exact .op (.sort order v)

/-! ## Trees -/

/-- Code that leaves the value of an action on top of the stack. -/
abbrev Yields (limits : Limits) (c : Code) (x : Action h Value) : Prop :=
  Realizes limits c x [] fun v => [v]

mutual

theorem Expr.yields : ∀ e : Expr, Yields (h := h) limits (e.code true) (e.eval limits)
  | .print none value => by
    rw [Expr.code_print, Expr.eval, if_pos rfl, List.append_assoc]
    refine value.yields.append fun v => (Realizes.copy v).move_append ?_
    exact ((Realizes.op (.print v)).frame [v]).result fun _ => rfl
  | .print (some target) value => by
    rw [Expr.code_filePrint, Expr.eval, if_pos rfl, List.append_assoc, List.append_assoc]
    refine value.yields.append fun v => (Realizes.copy v).move_append ?_
    refine (target.realizes.frame [v, v]).append fun c => ?_
    exact ((Realizes.op (.filePrint c v)).frame [v]).result fun _ => rfl
  | .close handle => handle.realizes.append fun c => .op (.close c)
  | .choose cs none => .choose (clauses_decide cs) (.push 0 rfl)
  | .choose cs (some e) => .choose (clauses_decide cs) e.yields
  | .store source none => by
    rw [Expr.code_value]
    exact source.yields
  | .store source (some target) => by
    rw [Expr.code_store, Expr.eval, List.append_assoc]
    refine source.yields.append fun v => ?_
    exact (target.realizes.frame [v]).append fun c => .op (.store c v)
  | .openFile access path handle => by
    rw [Expr.code_openFile, Expr.eval, List.append_assoc]
    refine path.yields.append fun v => ?_
    exact (handle.realizes.frame [v]).append fun c => .op (.openFile access c v)

theorem clauses_decide : ∀ cs : List Clause,
    Decides (h := h) limits (clauseCode cs) (evalClauses limits cs)
  | [] => .nil
  | ⟨condition, result⟩ :: cs => .cons condition.yields result.yields (clauses_decide cs)

theorem Source.yields : ∀ s : Source, Yields (h := h) limits s.code (s.eval limits)
  | .math m => m.yields
  | .prompt => .op .read
  | .fileLine handle => handle.realizes.append fun c => .op (.fileRead c)

theorem Math.yields : ∀ m : Math, Yields (h := h) limits m.code (m.eval limits)
  | .term t => t.yields true
  | .unary o operand => (operand.yields true).append fun v => .op (.unary o v)
  | .binary o left right => by
    rw [Math.code_binary, Math.eval, List.append_assoc]
    refine left.yields.append fun v => ?_
    exact (right.yields.frame [v]).append fun w => .op (.binary o v w)

theorem Term.yields (summed : Bool) : ∀ t : Term,
    Yields (h := h) limits (t.code summed) (t.eval limits summed)
  | ⟨.roll count sides reroll, mods⟩ => by
    rw [Term.code_roll, Term.eval]
    simp only [List.append_assoc]
    refine sides.realizes.append fun s => ?_
    have hcount : Realizes (h := h) limits
        ((if reroll.isSome then [Block.copy] else []) ++ count.scalarCode) (count.scalar limits)
        [.number s] fun x => .number x :: .number s :: if reroll.isSome then [.number s] else [] := by
      cases reroll with
      | none => exact count.realizes.frame [.number s]
      | some r => exact (Realizes.copy _).move_append (count.realizes.frame [.number s, .number s])
    rw [← List.append_assoc]
    refine hcount.append fun n => ?_
    refine ((Realizes.op (.roll n s)).frame _).append fun pool => ?_
    refine (mods.realizes (fun v => reroll_realizes s v reroll) _).append fun v => ?_
    exact sumCode_realizes _ v
  | ⟨.atom a, mods⟩ => by
    rw [Term.code_atom, Term.eval]
    rcases a.pool_cases with ⟨t, ha, ht⟩ | ⟨hno, hcode⟩
    · have hpool : a.isPool = true := by
        rw [ha]
        exact ht
      have hcode : a.poolCode? = some (t.code false) := by
        rw [ha, Atom.poolCode?_group, Expr.poolCode?_term, if_pos ht]
      by_cases hpass : (!mods.isEmpty || !summed) = true
      · rw [if_pos hpass, hcode, hpool, Bool.and_true]
        dsimp only
        rw [List.append_assoc]
        refine (a.yields_dice _ hcode).append fun v => ?_
        refine (mods.realizes (fun w => .nil w rfl) v).append fun w => ?_
        exact sumCode_realizes _ w
      · -- Without modifiers the group is evaluated as it stands, and its sum is its value.
        obtain ⟨hempty, rfl⟩ : mods.isEmpty = true ∧ summed = true := by simpa using hpass
        obtain rfl := Modifiers.eq_none_of_isEmpty hempty
        have hvalue := a.yields
        rw [← a.dice_bind_sumIf hpool] at hvalue
        rw [if_neg hpass, hpool]
        dsimp only
        rw [show Modifiers.code [] .none = [] from rfl, List.append_nil]
        exact hvalue
    · rw [hcode, ite_self, hno, Bool.and_false, Bool.false_and, a.dice_eq_eval hno]
      dsimp only
      simp only [sumIf_false, bind_pure]
      exact a.yields.append fun v => mods.realizes (fun w => .nil w rfl) v
  | ⟨.load place, mods⟩ => by
    rw [Term.code_load, Term.eval, List.append_assoc]
    refine place.realizes.append fun c => ?_
    exact (Realizes.op (.load c)).append fun v => mods.realizes (fun w => .nil w rfl) v
  | ⟨.list items, mods⟩ => by
    have hitems := (items_yield [] items).append
      fun v => mods.realizes (fun w => .nil w rfl) v
    simpa [Term.code_list, Term.eval] using hitems

/-- The items of a list come to lie on the stack, on the values `vs` of those before. -/
theorem items_yield (vs : List Value) : ∀ es : List Expr,
    Realizes (h := h) limits (itemCode es ++ [.list (vs.length + es.length)])
      (evalItems limits es >>= fun ws => pure (.list (vs ++ ws))) vs.reverse fun v => [v]
  | [] => by
    have hlist : Realizes (h := h) limits [.list vs.length] (pure (.list vs)) vs.reverse
        fun v => [v] := .list vs
    simpa [itemCode_nil, evalItems] using hlist
  | e :: es => by
    have hall := (e.yields.frame vs.reverse).append fun v => by
      simpa using items_yield (vs ++ [v]) es
    simpa [itemCode_cons, evalItems, Nat.add_assoc, Nat.add_comm 1] using hall

theorem Atom.yields : ∀ a : Atom, Yields (h := h) limits a.code (a.eval limits)
  | .number x => .push x rfl
  | .group e => e.yields

/-- The code for the single dice of a group around nothing but a pool. -/
theorem Expr.yields_dice : ∀ (e : Expr) (c : Code), e.poolCode? = some c →
    Yields (h := h) limits c (Atom.dice limits (.group e))
  | .store (.math (.term t)) none, c, hc => by
    cases ht : t.isPool with
    | false => simp [Expr.poolCode?_term, ht] at hc
    | true =>
        obtain rfl : t.code false = c := by simpa [Expr.poolCode?_term, ht] using hc
        rw [Atom.dice, ht]
        exact t.yields false
  | .store (.math (.unary _ _)) none, _, hc | .store (.math (.binary _ _ _)) none, _, hc
  | .store .prompt none, _, hc | .store (.fileLine _) none, _, hc | .store _ (some _), _, hc
  | .print _ _, _, hc | .close _, _, hc | .choose _ _, _, hc | .openFile _ _ _, _, hc => by
    rw [Expr.poolCode?_eq_none (by nofun)] at hc
    cases hc

theorem Atom.yields_dice : ∀ (a : Atom) (c : Code), a.poolCode? = some c →
    Yields (h := h) limits c (a.dice limits)
  | .number _, _, hc => by cases hc
  | .group e, c, hc => e.yields_dice c hc

theorem Atom.realizes : ∀ a : Atom,
    Realizes (h := h) limits a.scalarCode (a.scalar limits) [] fun x => [.number x]
  | .number x => .push x rfl
  | .group e => e.yields.append fun v => .op (.sum v)

theorem Place.realizes : ∀ p : Place,
    Realizes (h := h) limits p.code (p.eval limits) [] Coordinates.values
  | ⟨count, sides⟩ =>
    sides.realizes.append fun s => (count.realizes.frame [.number s]).result fun _ => rfl

theorem Modifiers.realizes {under : List Value} {again : Code} {x : Value → Action h Value}
    (hx : ∀ v, Realizes limits again (x v) (v :: under) fun w => [w]) (v : Value) :
    ∀ mods : Modifiers,
      Realizes limits (mods.code again) (mods.eval limits x v) (v :: under) fun w => [w]
  | ⟨sort, select, check⟩ => by
    rw [Modifiers.code, Modifiers.eval, List.append_assoc, List.append_assoc]
    refine ((sort_realizes sort v).frame under).append fun v => ?_
    refine ((select_realizes v select).frame under).append fun v => ?_
    exact (hx v).append fun v => check_realizes v check

theorem select_realizes (v : Value) : ∀ s : Option Selection,
    Realizes (h := h) limits (selectCode s) (evalSelect limits s v) [v] fun w => [w]
  | none => .nil v rfl
  | some ⟨selector, count⟩ =>
    (count.yields.frame [v]).append fun n => .op (.select selector n v)

theorem reroll_realizes (sides : Double) (v : Value) : ∀ r : Option Reroll,
    Realizes (h := h) limits (rerollCode r) (evalReroll limits r sides v)
      (v :: if r.isSome then [.number sides] else []) fun w => [w]
  | none => .nil v rfl
  | some ⟨once, ⟨relation, threshold⟩⟩ =>
    (threshold.yields.frame [v, .number sides]).append
      fun t => .op (.reroll once relation sides t v)

theorem check_realizes (v : Value) : ∀ c : Option Comparison,
    Realizes (h := h) limits (checkCode c) (evalCheck limits c v) [v] fun w => [w]
  | none => .nil v rfl
  | some ⟨relation, threshold⟩ =>
    (threshold.yields.frame [v]).append fun t => .op (.count relation t v)

end

end DiceScript
