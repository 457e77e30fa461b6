import DiceScript.Machine.Step

/-!
# How actions end

Over a host whose actions are functions of some surroundings, an action either is done with a result
or fails with a fault, and leaves a state and surroundings in both cases.
-/

namespace DiceScript

inductive Outcome (κ α : Type) where
  | done (a : α) (k : κ)
  | failed (f : Fault) (k : κ)

section Effects

variable {τ σ α β : Type}

theorem run_bind_run (x : StateT τ (StateM σ) α) (f : α → StateT τ (StateM σ) β) (s : τ) (env : σ) :
    ((x >>= f).run s).run env =
      match (x.run s).run env with
      | ((a, s'), env') => ((f a).run s').run env' := rfl

/-- How an action on a state ends in given surroundings. -/
def outcome (x : ExceptT Fault (StateT τ (StateM σ)) α) (s : τ) (env : σ) : Outcome (τ × σ) α :=
  match (x.run.run s).run env with
  | ((.ok a, s'), env') => .done a (s', env')
  | ((.error f, s'), env') => .failed f (s', env')

@[simp] theorem outcome_pure (a : α) (s : τ) (env : σ) :
    outcome (pure a) s env = .done a (s, env) := rfl

@[simp] theorem outcome_throw (f : Fault) (s : τ) (env : σ) :
    outcome (throw f : ExceptT Fault (StateT τ (StateM σ)) α) s env = .failed f (s, env) := rfl

@[simp] theorem outcome_get (s : τ) (env : σ) :
    outcome (get : ExceptT Fault (StateT τ (StateM σ)) τ) s env = .done s (s, env) := rfl

@[simp] theorem outcome_modify (f : τ → τ) (s : τ) (env : σ) :
    outcome (modify f : ExceptT Fault (StateT τ (StateM σ)) PUnit) s env =
      .done ⟨⟩ (f s, env) := rfl

theorem outcome_bind (x : ExceptT Fault (StateT τ (StateM σ)) α)
    (f : α → ExceptT Fault (StateT τ (StateM σ)) β) (s : τ) (env : σ) :
    outcome (x >>= f) s env =
      match outcome x s env with
      | .done a (s', env') => outcome (f a) s' env'
      | .failed e k => .failed e k := by
  have hrun : ((x >>= f).run.run s).run env =
      match (x.run.run s).run env with
      | ((.ok a, s'), env') => ((f a).run.run s').run env'
      | ((.error e, s'), env') => ((.error e, s'), env') := by
    change ((ExceptT.bindCont f ((x.run.run s).run env).1.1).run
      ((x.run.run s).run env).1.2).run ((x.run.run s).run env).2 = _
    rcases (x.run.run s).run env with ⟨⟨a | e, s'⟩, env'⟩ <;> rfl
  unfold outcome
  rw [hrun]
  rcases (x.run.run s).run env with ⟨⟨a | e, s'⟩, env'⟩ <;> rfl

theorem outcome_bind_failed {x : ExceptT Fault (StateT τ (StateM σ)) α}
    {f : α → ExceptT Fault (StateT τ (StateM σ)) β} {s : τ} {env : σ} {e : Fault} {k : τ × σ}
    (h : outcome x s env = .failed e k) : outcome (x >>= f) s env = .failed e k := by
  rw [outcome_bind, h]

/-- What is done after something else is done from the state that this leaves. -/
theorem exists_of_outcome_bind {x : ExceptT Fault (StateT τ (StateM σ)) α}
    {f : α → ExceptT Fault (StateT τ (StateM σ)) β} {s : τ} {env : σ} {b : β} {k : τ × σ}
    (hdone : outcome (x >>= f) s env = .done b k) :
    ∃ a s' env', outcome x s env = .done a (s', env') ∧ outcome (f a) s' env' = .done b k := by
  rw [outcome_bind] at hdone
  cases hx : outcome x s env with
  | failed e k' =>
      rw [hx] at hdone
      cases hdone
  | done a k' =>
      rw [hx] at hdone
      exact ⟨a, k'.1, k'.2, rfl, hdone⟩

/-- Each failure of the action is one of these faults. -/
def FailsWithin (P : Fault → Prop) (x : ExceptT Fault (StateT τ (StateM σ)) α) : Prop :=
  ∀ s env f k, outcome x s env = .failed f k → P f

namespace FailsWithin

variable {P : Fault → Prop}

theorem of_done {x : ExceptT Fault (StateT τ (StateM σ)) α}
    (hx : ∀ s env, ∃ a k, outcome x s env = .done a k) : FailsWithin P x := by
  intro s env f k hf
  obtain ⟨a, k', ha⟩ := hx s env
  rw [ha] at hf
  cases hf

theorem pure (a : α) :
    FailsWithin P (Pure.pure a : ExceptT Fault (StateT τ (StateM σ)) α) :=
  of_done fun s env => ⟨a, (s, env), rfl⟩

theorem get : FailsWithin P (MonadState.get : ExceptT Fault (StateT τ (StateM σ)) τ) :=
  of_done fun s env => ⟨s, (s, env), rfl⟩

theorem modifyGet (f : τ → α × τ) :
    FailsWithin P (MonadState.modifyGet f : ExceptT Fault (StateT τ (StateM σ)) α) :=
  of_done fun s env => ⟨(f s).1, ((f s).2, env), rfl⟩

theorem throw {f : Fault} (hf : P f) :
    FailsWithin P (MonadExcept.throw f : ExceptT Fault (StateT τ (StateM σ)) α) := by
  intro s env g k hg
  rw [outcome_throw] at hg
  cases hg
  exact hf

theorem bind {x : ExceptT Fault (StateT τ (StateM σ)) α}
    {f : α → ExceptT Fault (StateT τ (StateM σ)) β} (hx : FailsWithin P x)
    (hf : ∀ a, FailsWithin P (f a)) : FailsWithin P (x >>= f) := by
  intro s env g k hg
  rw [outcome_bind] at hg
  cases hxo : outcome x s env with
  | failed e k' =>
      rw [hxo] at hg
      obtain rfl : e = g := by cases hg; rfl
      exact hx s env e k' hxo
  | done a k' =>
      rw [hxo] at hg
      exact hf a k'.1 k'.2 g k hg

/-- Both ways that a condition decides between. -/
theorem ite {c : Prop} [Decidable c] {x y : ExceptT Fault (StateT τ (StateM σ)) α}
    (hx : FailsWithin P x) (hy : FailsWithin P y) : FailsWithin P (if c then x else y) := by
  split
  · exact hx
  · exact hy

end FailsWithin

end Effects

@[simp] theorem Action.outcome_ask {σ α : Type} {h : Host (StateM σ)} (x : StateM σ α)
    (s : State h) (env : σ) :
    outcome (ask x : Action h α) s env = .done (x.run env).1 (s, (x.run env).2) := rfl

namespace Exec

variable {σ α : Type} {h : Host (StateM σ)}

/-- An action on the state of a machine keeps the stack. -/
theorem outcome_act (x : Action h α) (s : Machine h) (env : σ) :
    outcome (act x) s env =
      match outcome x s.toState env with
      | .done a (state, env') => .done a ({ s with toState := state }, env')
      | .failed f (state, env') => .failed f ({ s with toState := state }, env') := by
  have hrun : ((act x).run.run s).run env =
      match (x.run.run s.toState).run env with
      | ((r, state), env') => ((r, { s with toState := state }), env') := rfl
  unfold outcome
  rw [hrun]
  rcases (x.run.run s.toState).run env with ⟨⟨a | e, state⟩, env'⟩ <;> rfl

@[simp] theorem outcome_push (v : Value) (s : State h) (stack : List Value) (env : σ) :
    outcome (push v) (⟨s, stack⟩ : Machine h) env = .done () (⟨s, v :: stack⟩, env) := rfl

@[simp] theorem outcome_pop_nil (op : Opcode) (s : State h) (env : σ) :
    outcome (pop op) (⟨s, []⟩ : Machine h) env = .failed (.stackUnderflow op) (⟨s, []⟩, env) := rfl

@[simp] theorem outcome_pop_cons (op : Opcode) (v : Value) (s : State h) (stack : List Value)
    (env : σ) :
    outcome (pop op) (⟨s, v :: stack⟩ : Machine h) env = .done v (⟨s, stack⟩, env) := rfl

@[simp] theorem outcome_required_some (op : Opcode) (a : α) (s : Machine h) (env : σ) :
    outcome (required op (some a)) s env = .done a (s, env) := rfl

@[simp] theorem outcome_required_none (op : Opcode) (s : Machine h) (env : σ) :
    outcome (required op (none : Option α)) s env = .failed (.badOperand op) (s, env) := rfl

end Exec

end DiceScript
