import DiceScript.Machine.Step
import DiceScript.Proofs.Machine.Effect

/-!
# The effects of the instructions that code has

For every instruction that the code of a script can have, what it does with the values that the
evaluation of the tree puts on top of the stack.
-/

namespace DiceScript

namespace Exec

namespace Performs

variable {σ : Type} {h : Host (StateM σ)} {limits : Limits}

/-- The value of an action comes to stand alone on top. -/
abbrev Gives (limits : Limits) (i : Instruction) (x : Action h Value) (before : List Value) : Prop :=
  Performs (perform limits i) x before fun v => [v]

theorem binary (o : BinaryOp) (v w : Value) :
    Gives (h := h) limits ⟨o.opcode, .none⟩ (o.eval v w) [w, v] := by
  cases o with
  | and => exact pop_bind (pop_bind (push_of_eq rfl))
  | or => exact pop_bind (pop_bind (push_of_eq rfl))
  | add => exact numbers_bind fun x y => push_of_eq rfl
  | sub => exact numbers_bind fun x y => push_of_eq rfl
  | mul => exact numbers_bind fun x y => push_of_eq rfl
  | div => exact numbers_bind fun x y => guard (push_of_eq rfl)
  | mod => exact numbers_bind fun x y => guard (push_of_eq rfl)

theorem unary (o : UnaryOp) (v : Value) :
    Gives (h := h) limits ⟨o.opcode, .none⟩ (o.eval v) [v] := by
  cases o with
  | negate => exact popNumber_bind fun x => push_of_eq rfl
  | fold => exact popNumber_bind fun x => push_of_eq rfl

theorem copy (v : Value) :
    Performs (h := h) (perform limits ⟨.dup, .int 1⟩) (pure ()) [v] fun _ => [v, v] := by
  intro S s env
  rfl

theorem list (vs : List Value) :
    Gives (h := h) limits ⟨.list, .int vs.length⟩ (pure (.list vs)) vs.reverse := by
  have hcount : Instruction.count? ⟨.list, .int vs.length⟩ = some vs.length := by
    simp [Instruction.count?]
  intro S s env
  have hlength : ¬ (vs.reverse ++ S).length < vs.length := by simp
  have htake : ((vs.reverse ++ S).take vs.length).reverse = vs := by simp
  have hdrop : (vs.reverse ++ S).drop vs.length = S := by simp
  simp only [perform, hcount, outcome_bind, outcome_required_some, outcome_get, outcome_pure,
    outcome_modify, hlength, if_false, htake, hdrop]
  rfl

theorem pop (v : Value) :
    Performs (h := h) (perform limits ⟨.pop, .none⟩) (pure ()) [v] fun _ => [] := by
  intro S s env
  rfl

theorem sum (v : Value) :
    Performs (h := h) (perform limits ⟨.sum, .none⟩) (Action.number .sum v) [v]
      fun x => [.number x] := by
  rw [← bind_pure (Action.number .sum v)]
  exact popNumber_bind fun _ => push_of_eq rfl

theorem sort (order : SortOrder) (v : Value) :
    Gives (h := h) limits ⟨.sort order, .none⟩ (evalSort (some order) v) [v] :=
  popPool_bind fun _ => push_of_eq rfl

theorem select (selector : Selector) (n v : Value) :
    Gives (h := h) limits ⟨.select selector, .none⟩ (selectDice selector n v) [n, v] :=
  popNumber_bind fun _ => popPool_bind fun _ => push_of_eq rfl

theorem reroll (once : Bool) (relation : Relation) (sides : Double) (t v : Value) :
    Gives (h := h) limits ⟨.reroll once relation, .none⟩
      (rerollDice limits once relation sides t v) [t, v, .number sides] := by
  refine popNumber_bind fun _ => popPool_bind fun _ => popNumber_number_bind ?_
  exact act_bind fun _ => push_of_eq rfl

theorem count (relation : Relation) (t v : Value) :
    Gives (h := h) limits ⟨.count relation, .none⟩ (countDice relation t v) [t, v] :=
  popNumber_bind fun _ => popPool_bind fun _ => push_of_eq rfl

theorem roll (count sides : Double) :
    Performs (h := h) (perform limits ⟨.roll, .none⟩) (Action.roll limits count sides)
      [.number count, .number sides] fun pool => [.ofPool pool] := by
  rw [← bind_pure (Action.roll limits count sides)]
  exact popNumber_number_bind (popNumber_number_bind (act_bind fun _ => push_of_eq rfl))

theorem load (c : Coordinates) :
    Gives (h := h) limits ⟨.load, .none⟩ (Action.load c.reference)
      c.values := by
  rw [← bind_pure (Action.load c.reference)]
  exact popReference_bind (act_bind fun _ => push_of_eq rfl)

theorem store (c : Coordinates) (v : Value) :
    Gives (h := h) limits ⟨.store, .none⟩ (do Action.store c.reference v; return v)
      (c.values ++ [v]) :=
  popReference_bind (pop_bind (act_bind fun _ => push_of_eq rfl))

theorem read :
    Gives (h := h) limits ⟨.read, .none⟩ (do return .text (← Action.prompt)) [] :=
  act_bind fun _ => push_of_eq rfl

theorem print (v : Value) :
    Performs (h := h) (perform limits ⟨.print, .none⟩) (Action.print v) [v] fun _ => [] :=
  pop_bind act

theorem filePrint (c : Coordinates) (v : Value) :
    Performs (h := h) (perform limits ⟨.filePrint, .none⟩) (Action.filePrint c.reference v)
      (c.values ++ [v]) fun _ => [] :=
  popReference_bind (pop_bind act)

theorem openFile (access : Access) (c : Coordinates) (v : Value) :
    Gives (h := h) limits ⟨.openFile access, .none⟩
      (do Action.openFile access v.display c.reference; return .text v.display)
      (c.values ++ [v]) :=
  popReference_bind (pop_bind (act_bind fun _ => push_of_eq rfl))

theorem fileRead (c : Coordinates) :
    Gives (h := h) limits ⟨.fileRead, .none⟩ (do return .text (← Action.fileRead c.reference))
      c.values :=
  popReference_bind (act_bind fun _ => push_of_eq rfl)

theorem close (c : Coordinates) :
    Gives (h := h) limits ⟨.close, .none⟩ (do Action.close c.reference; return .number 0)
      c.values :=
  popReference_bind (act_bind fun _ => push_of_eq rfl)

end Performs

end Exec

end DiceScript
