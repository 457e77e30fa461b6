import DiceScript.Proofs.Machine.Outcome
import DiceScript.Proofs.Semantics.Evaluation

/-!
# Effects of instructions

An instruction that finds the operands of an action on top of the stack performs the action, and
leaves its result there.
-/

namespace DiceScript

variable {σ α β : Type} {h : Host (StateM σ)}

namespace Exec

/-- Over any stack with the values `before` on top, `e` changes the state as the action `x` does and
leaves instead of them the values `after` for its result. When the action fails, `e` does. -/
def Performs (e : Exec h Unit) (x : Action h β) (before : List Value) (after : β → List Value) :
    Prop :=
  ∀ (S : List Value) (s : State h) (env : σ),
    match outcome x s env with
    | .done b (s', env') => outcome e ⟨s, before ++ S⟩ env = .done () (⟨s', after b ++ S⟩, env')
    | .failed f (s', env') => ∃ T, outcome e ⟨s, before ++ S⟩ env = .failed f (⟨s', T ++ S⟩, env')

namespace Performs

variable {before : List Value} {after : β → List Value}

theorem push_of_eq {v : Value} {b : β} (hb : after b = v :: before) :
    Performs (push v) (pure b : Action h β) before after := by
  intro S s env
  rw [outcome_pure, outcome_push]
  simp only [hb, List.cons_append]

/-- Both fail under the same condition, else go on. -/
theorem guard {c : Bool} {f : Fault} {g : PUnit → Exec h Unit} {x : PUnit → Action h β}
    (hg : Performs (g ⟨⟩) (x ⟨⟩) before after) :
    Performs (if c = true then throw f >>= g else g ⟨⟩)
      (if c = true then throw f >>= x else x ⟨⟩) before after := by
  cases c with
  | false => exact hg
  | true =>
      intro S s env
      exact ⟨before, rfl⟩

theorem act {x : Action h Unit} :
    Performs (Exec.act x) x before fun _ => before := by
  intro S s env
  rw [outcome_act]
  cases outcome x s env with
  | done b k => rfl
  | failed f k => exact ⟨before, rfl⟩

theorem act_bind {x : Action h α} {g : α → Exec h Unit} {f : α → Action h β}
    (hg : ∀ b, Performs (g b) (f b) before after) :
    Performs (Exec.act x >>= g) (x >>= f) before after := by
  intro S s env
  rw [outcome_bind, outcome_bind, outcome_act]
  cases outcome x s env with
  | done b k => exact hg b S k.1 k.2
  | failed e k => exact ⟨before, rfl⟩

theorem pop_bind {op : Opcode} {v : Value} {g : Value → Exec h Unit} {x : Action h β}
    (hg : Performs (g v) x before after) :
    Performs (pop op >>= g) x (v :: before) after := by
  intro S s env
  specialize hg S s env
  rw [List.cons_append, outcome_bind, outcome_pop_cons]
  exact hg

theorem popNumber_bind {op : Opcode} {v : Value} {g : Double → Exec h Unit}
    {f : Double → Action h β} (hg : ∀ x, Performs (g x) (f x) before after) :
    Performs (popNumber op >>= g) (Action.number op v >>= f) (v :: before) after := by
  unfold popNumber
  rw [bind_assoc]
  exact pop_bind (act_bind hg)

theorem popPool_bind {op : Opcode} {v : Value} {g : Pool → Exec h Unit}
    {f : Pool → Action h β} (hg : ∀ pool, Performs (g pool) (f pool) before after) :
    Performs (popPool op >>= g) (Action.pool op v >>= f) (v :: before) after := by
  unfold popPool
  rw [bind_assoc]
  exact pop_bind (act_bind hg)

theorem numbers_bind {op : Opcode} {left right : Value} {g : Double → Double → Exec h Unit}
    {f : Double × Double → Action h β} (hg : ∀ x y, Performs (g y x) (f (x, y)) before after) :
    Performs (do let y ← popNumber op; let x ← popNumber op; g y x) (numbers op left right >>= f)
      (right :: left :: before) after := by
  simp only [numbers, bind_assoc, pure_bind]
  exact popNumber_bind fun y => popNumber_bind fun x => hg x y

/-- A number on the stack is taken as it is. -/
theorem popNumber_number_bind {op : Opcode} {x : Double} {g : Double → Exec h Unit}
    {y : Action h β} (hg : Performs (g x) y before after) :
    Performs (popNumber op >>= g) y (.number x :: before) after := by
  unfold popNumber
  rw [bind_assoc]
  refine pop_bind ?_
  have hact : (Exec.act (Action.number op (.number x)) : Exec h Double) = pure x := rfl
  rw [hact, pure_bind]
  exact hg

theorem popReference_bind {op : Opcode} {c : Coordinates} {g : Reference → Exec h Unit}
    {x : Action h β} (hg : Performs (g c.reference) x before after) :
    Performs (popReference op >>= g) x (c.values ++ before) after := by
  unfold popReference
  rw [bind_assoc]
  refine popNumber_number_bind ?_
  rw [bind_assoc]
  refine popNumber_number_bind ?_
  rw [pure_bind]
  exact hg

end Performs

end Exec

end DiceScript
