import DiceScript.Proofs.Machine.Outcome
import DiceScript.Proofs.Semantics.Dice

/-!
# Faults that blame the code

A missing value, a bad operand and a jump out of the program are faults of the code that runs, not
of the script. The evaluation of a tree never ends in one of them.
-/

namespace DiceScript

/-- The fault is one of the code, not of what a script asks for. -/
def Fault.blamesCode : Fault → Bool
  | .stackUnderflow _ | .badOperand _ | .invalidJump _ => true
  | _ => false

variable {σ α β : Type} {h : Host (StateM σ)} {limits : Limits}

/-- No failure of the action blames the code. -/
def Blameless (x : Action h α) : Prop :=
  ∀ s env f k, outcome x s env = .failed f k → f.blamesCode = false

namespace Blameless

theorem of_done {x : Action h α} (hx : ∀ s env, ∃ a k, outcome x s env = .done a k) :
    Blameless x :=
  FailsWithin.of_done hx

theorem pure (a : α) : Blameless (Pure.pure a : Action h α) :=
  FailsWithin.pure a

theorem get : Blameless (MonadState.get : Action h (State h)) :=
  FailsWithin.get

theorem modifyGet (f : State h → α × State h) :
    Blameless (MonadState.modifyGet f : Action h α) :=
  FailsWithin.modifyGet f

theorem ask (x : StateM σ α) : Blameless (Action.ask x : Action h α) :=
  of_done fun s env => ⟨(x.run env).1, (s, (x.run env).2), rfl⟩

theorem throw {f : Fault} (hf : f.blamesCode = false) :
    Blameless (MonadExcept.throw f : Action h α) :=
  FailsWithin.throw hf

theorem bind {x : Action h α} {f : α → Action h β} (hx : Blameless x)
    (hf : ∀ a, Blameless (f a)) : Blameless (x >>= f) :=
  FailsWithin.bind hx hf

theorem of_bind {x : Action h α} {f : α → Action h β} (hx : Blameless (x >>= f)) :
    Blameless x :=
  fun s env g k hg => hx s env g k (outcome_bind_failed hg)

/-- Both ways that a condition decides between. -/
theorem ite {c : Prop} [Decidable c] {x y : Action h α} (hx : Blameless x) (hy : Blameless y) :
    Blameless (if c then x else y) :=
  FailsWithin.ite hx hy

end Blameless

open Blameless

namespace Action

theorem blameless_number (op : Opcode) (v : Value) : Blameless (h := h) (number op v) := by
  unfold number
  split
  · exact .pure _
  · exact .throw rfl

theorem blameless_pool (op : Opcode) (v : Value) : Blameless (h := h) (pool op v) := by
  unfold pool
  split
  · exact .pure _
  · exact .throw rfl

theorem blameless_answer (r : Except HostError α) : Blameless (h := h) (answer r) := by
  cases r with
  | ok a => exact .pure a
  | error e => exact .throw rfl

theorem blameless_dieSides (sides : Double) : Blameless (h := h) (dieSides sides) :=
  .ite (.pure _) (.throw rfl)

theorem blameless_draw (f : Random → α × Random) : Blameless (h := h) (draw f) :=
  .modifyGet _

theorem blameless_roll (limits : Limits) (count sides : Double) :
    Blameless (h := h) (roll limits count sides) := by
  unfold roll
  refine .ite (.bind (.throw rfl) fun _ => ?_) ?_
  all_goals refine .ite (.bind (.throw rfl) fun _ => ?_) ?_
  all_goals exact .ite (.pure _) (.bind (blameless_dieSides _) fun _ => blameless_draw _)

theorem blameless_reroll (limits : Limits) (once : Bool) (relation : Relation)
    (threshold sides : Double) (pool : Pool) :
    Blameless (h := h) (reroll limits once relation threshold sides pool) :=
  .bind (blameless_dieSides _) fun _ => blameless_draw _

theorem blameless_load (r : Reference) : Blameless (h := h) (load r) :=
  .bind .get fun _ => .pure _

theorem blameless_store (r : Reference) (v : Value) : Blameless (h := h) (store r v) :=
  .modifyGet _

theorem blameless_lineOf (r : Except HostError (Option String)) :
    Blameless (h := h) (lineOf r) := by
  unfold lineOf
  split
  · exact .pure _
  · exact .throw rfl
  · exact .throw rfl

theorem blameless_prompt : Blameless (h := h) prompt :=
  .bind (.ask _) blameless_lineOf

theorem blameless_print (v : Value) : Blameless (h := h) (print v) :=
  .bind (.ask _) fun _ => .bind (blameless_answer _) fun _ => .modifyGet _

theorem blameless_handle? (r : Reference) : Blameless (h := h) (handle? r) :=
  .bind .get fun _ => .pure _

theorem blameless_setHandle (r : Reference) (handle : Handle h) :
    Blameless (setHandle r handle) :=
  .modifyGet _

theorem blameless_release (handle : Handle h) : Blameless (release handle) := by
  cases handle with
  | reader r => exact .pure _
  | writer w => exact .bind (.ask _) fun _ => blameless_answer _

theorem blameless_opened (access : Access) (path : String) :
    Blameless (h := h) (opened access path) := by
  cases access with
  | read => exact .bind (.ask _) fun _ => .bind (blameless_answer _) fun _ => .pure _
  | write =>
      refine .bind (.ask _) fun _ => .bind (blameless_answer _) fun _ => ?_
      exact .bind (.modifyGet _) fun _ => .pure _

theorem blameless_openFile (access : Access) (path : String) (r : Reference) :
    Blameless (h := h) (openFile access path r) := by
  refine .bind (blameless_opened access path) fun handle => ?_
  refine .bind (blameless_handle? r) fun old => ?_
  refine .bind (blameless_setHandle r handle) fun _ => ?_
  cases old with
  | none => exact .pure _
  | some old => exact blameless_release old

theorem blameless_filePrint (r : Reference) (v : Value) :
    Blameless (h := h) (filePrint r v) := by
  refine .bind (blameless_handle? r) fun handle => ?_
  split
  · refine .bind (.ask _) fun _ => ?_
    exact .bind (blameless_setHandle _ _) fun _ => blameless_answer _
  · exact .throw rfl
  · exact .throw rfl

theorem blameless_fileRead (r : Reference) : Blameless (h := h) (fileRead r) := by
  refine .bind (blameless_handle? r) fun handle => ?_
  split
  · refine .bind (.ask _) fun _ => ?_
    exact .bind (blameless_setHandle _ _) fun _ => blameless_lineOf _
  · exact .throw rfl
  · exact .throw rfl

theorem blameless_close (r : Reference) : Blameless (h := h) (close r) := by
  refine .bind (blameless_handle? r) fun handle => ?_
  split
  · exact .bind (.modifyGet _) fun _ => blameless_release _
  · exact .throw rfl

end Action

open DiceScript.Action

/-! ## Operators and modifiers -/

theorem sumIf_blameless (c : Bool) (v : Value) : Blameless (h := h) (sumIf c v) :=
  .ite (.bind (blameless_number _ _) fun _ => .pure _) (.pure _)

theorem UnaryOp.blameless_eval (o : UnaryOp) (v : Value) : Blameless (h := h) (o.eval v) := by
  refine .bind (blameless_number _ _) fun x => ?_
  cases o with
  | negate => exact .pure _
  | fold => exact .pure _

theorem numbers_blameless (op : Opcode) (v w : Value) : Blameless (h := h) (numbers op v w) :=
  .bind (blameless_number _ _) fun _ => .bind (blameless_number _ _) fun _ => .pure _

theorem BinaryOp.blameless_eval (o : BinaryOp) (v w : Value) :
    Blameless (h := h) (o.eval v w) := by
  cases o with
  | and => exact .pure _
  | or => exact .pure _
  | add => exact .bind (numbers_blameless _ _ _) fun _ => .pure _
  | sub => exact .bind (numbers_blameless _ _ _) fun _ => .pure _
  | mul => exact .bind (numbers_blameless _ _ _) fun _ => .pure _
  | div =>
      refine .bind (numbers_blameless _ _ _) fun _ => .ite (.bind (.throw rfl) fun _ => ?_) ?_
      all_goals exact .pure _
  | mod =>
      refine .bind (numbers_blameless _ _ _) fun _ => .ite (.bind (.throw rfl) fun _ => ?_) ?_
      all_goals exact .pure _

theorem evalSort_blameless (s : Option SortOrder) (v : Value) :
    Blameless (h := h) (evalSort s v) := by
  cases s with
  | none => exact .pure _
  | some order => exact .bind (blameless_pool _ _) fun _ => .pure _

theorem selectDice_blameless (selector : Selector) (n v : Value) :
    Blameless (h := h) (selectDice selector n v) :=
  .bind (blameless_number _ _) fun _ => .bind (blameless_pool _ _) fun _ => .pure _

theorem rerollDice_blameless (once : Bool) (relation : Relation) (sides : Double) (t v : Value) :
    Blameless (h := h) (rerollDice limits once relation sides t v) := by
  refine .bind (blameless_number _ _) fun _ => .bind (blameless_pool _ _) fun _ => ?_
  exact .bind (blameless_reroll _ _ _ _ _ _) fun _ => .pure _

theorem countDice_blameless (relation : Relation) (t v : Value) :
    Blameless (h := h) (countDice relation t v) :=
  .bind (blameless_number _ _) fun _ => .bind (blameless_pool _ _) fun _ => .pure _

/-! ## Trees -/

/-- Dice are shown on the way to their sum. -/
theorem Atom.blameless_dice (a : Atom) (ha : Blameless (h := h) (a.eval limits)) :
    Blameless (h := h) (a.dice limits) := by
  cases hpool : a.isPool with
  | false =>
      rw [a.dice_eq_eval hpool]
      exact ha
  | true =>
      rw [← a.dice_bind_sumIf hpool] at ha
      exact ha.of_bind

mutual

theorem Expr.blameless_eval : ∀ e : Expr, Blameless (h := h) (e.eval limits)
  | .print none value => .bind value.blameless_eval fun _ => .bind (blameless_print _) fun _ => .pure _
  | .print (some target) value =>
    .bind value.blameless_eval fun _ => .bind target.blameless_eval fun _ =>
      .bind (blameless_filePrint _ _) fun _ => .pure _
  | .close handle =>
    .bind handle.blameless_eval fun _ => .bind (blameless_close _) fun _ => .pure _
  | .choose cs none => .bind (clauses_blameless cs) fun
    | some _ => .pure _
    | none => .pure _
  | .choose cs (some e) => .bind (clauses_blameless cs) fun
    | some _ => .pure _
    | none => e.blameless_eval
  | .store source none => source.blameless_eval
  | .store source (some target) =>
    .bind source.blameless_eval fun _ => .bind target.blameless_eval fun _ =>
      .bind (blameless_store _ _) fun _ => .pure _
  | .openFile _ path handle =>
    .bind path.blameless_eval fun _ => .bind handle.blameless_eval fun _ =>
      .bind (blameless_openFile _ _ _) fun _ => .pure _

theorem clauses_blameless : ∀ cs : List Clause, Blameless (h := h) (evalClauses limits cs)
  | [] => .pure _
  | ⟨condition, result⟩ :: cs =>
    .bind condition.blameless_eval fun _ =>
      .ite (.bind result.blameless_eval fun _ => .pure _) (clauses_blameless cs)

theorem Source.blameless_eval : ∀ s : Source, Blameless (h := h) (s.eval limits)
  | .math m => m.blameless_eval
  | .prompt => .bind blameless_prompt fun _ => .pure _
  | .fileLine handle =>
    .bind handle.blameless_eval fun _ => .bind (blameless_fileRead _) fun _ => .pure _

theorem Math.blameless_eval : ∀ m : Math, Blameless (h := h) (m.eval limits)
  | .term t => t.blameless_eval true
  | .unary o operand => .bind (operand.blameless_eval true) o.blameless_eval
  | .binary o left right =>
    .bind left.blameless_eval fun _ => .bind right.blameless_eval fun _ => o.blameless_eval _ _

theorem Term.blameless_eval (summed : Bool) : ∀ t : Term, Blameless (h := h) (t.eval limits summed)
  | ⟨.roll count sides reroll, mods⟩ =>
    .bind sides.blameless_scalar fun s => .bind count.blameless_scalar fun _ =>
      .bind (blameless_roll _ _ _) fun _ =>
        .bind (mods.blameless_eval (reroll_blameless s reroll) _) fun _ => sumIf_blameless _ _
  | ⟨.atom a, mods⟩ =>
    .bind (a.blameless_dice a.blameless_eval) fun _ =>
      .bind (mods.blameless_eval .pure _) fun _ => sumIf_blameless _ _
  | ⟨.load place, mods⟩ =>
    .bind place.blameless_eval fun _ => .bind (blameless_load _) fun _ => mods.blameless_eval .pure _
  | ⟨.list items, mods⟩ => .bind (items_blameless items) fun _ => mods.blameless_eval .pure _

theorem items_blameless : ∀ es : List Expr, Blameless (h := h) (evalItems limits es)
  | [] => .pure _
  | e :: es => .bind e.blameless_eval fun _ => .bind (items_blameless es) fun _ => .pure _

theorem Atom.blameless_eval : ∀ a : Atom, Blameless (h := h) (a.eval limits)
  | .number _ => .pure _
  | .group e => e.blameless_eval

theorem Atom.blameless_scalar : ∀ a : Atom, Blameless (h := h) (a.scalar limits)
  | .number _ => .pure _
  | .group e => .bind e.blameless_eval fun _ => blameless_number _ _

theorem Place.blameless_eval : ∀ p : Place, Blameless (h := h) (p.eval limits)
  | ⟨count, sides⟩ =>
    .bind sides.blameless_scalar fun _ => .bind count.blameless_scalar fun _ => .pure _

theorem Modifiers.blameless_eval {again : Value → Action h Value}
    (hagain : ∀ v, Blameless (again v)) (v : Value) :
    ∀ mods : Modifiers, Blameless (mods.eval limits again v)
  | ⟨sort, select, check⟩ =>
    .bind (evalSort_blameless sort v) fun v => .bind (select_blameless v select) fun v =>
      .bind (hagain v) fun v => check_blameless v check

theorem select_blameless (v : Value) : ∀ s : Option Selection,
    Blameless (h := h) (evalSelect limits s v)
  | none => .pure _
  | some ⟨_, count⟩ => .bind count.blameless_eval fun _ => selectDice_blameless _ _ _

theorem reroll_blameless (sides : Double) : ∀ (r : Option Reroll) (v : Value),
    Blameless (h := h) (evalReroll limits r sides v)
  | none, _ => .pure _
  | some ⟨_, ⟨_, threshold⟩⟩, _ =>
    .bind threshold.blameless_eval fun _ => rerollDice_blameless _ _ _ _ _

theorem check_blameless (v : Value) : ∀ c : Option Comparison,
    Blameless (h := h) (evalCheck limits c v)
  | none => .pure _
  | some ⟨_, threshold⟩ => .bind threshold.blameless_eval fun _ => countDice_blameless _ _ _

end

/-- The evaluation of a script never fails with a fault of code. -/
theorem Script.blameless_eval (mode : Toplevel) (script : Script) :
    Blameless (h := h) (script.eval limits mode) := by
  unfold eval
  induction script.body with
  | nil => exact .pure _
  | cons e es ih => exact .bind e.blameless_eval fun _ => .ite (.pure _) ih

end DiceScript
