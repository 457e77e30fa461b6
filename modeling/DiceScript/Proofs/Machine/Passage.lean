import DiceScript.Proofs.Machine.Forward

/-!
# Passages over an untouched stack

A passage is the part of a run from one configuration to another during which a given bottom of the
stack stays. Code follows an action when it passes, over any stack, to where the result of the action
says, or stops with the fault of the action.
-/

namespace DiceScript

variable {σ : Type} {h : Host (StateM σ)} {limits : Limits} {code : List Instruction}

/-- The run from `c` comes to `c'`, and up to there the bottom of the stack is `S`. -/
inductive Passes (limits : Limits) (code : List Instruction) (S : List Value) :
    Config h → Config h → Prop
  | refl {c : Config h} : S <:+ c.machine.stack → Passes limits code S c c
  | step {c c₁ c' : Config h} : S <:+ c.machine.stack → c.Continues limits code.toArray c₁ →
      Passes limits code S c₁ c' → Passes limits code S c c'

namespace Passes

variable {S T : List Value} {c c₁ c' : Config h}

theorem trans (h₁ : Passes limits code S c c₁) (h₂ : Passes limits code S c₁ c') :
    Passes limits code S c c' := by
  induction h₁ with
  | refl _ => exact h₂
  | step hS hc _ ih => exact .step hS hc (ih h₂)

/-- What stays under a stack stays under any part of it. -/
theorem mono (hp : Passes limits code T c c') (hS : S <:+ T) : Passes limits code S c c' := by
  induction hp with
  | refl hT => exact .refl (hS.trans hT)
  | step hT hc _ ih => exact .step (hS.trans hT) hc ih

theorem exists_trace (hp : Passes limits code S c c') :
    ∃ as, Trace limits code.toArray c as c' := by
  induction hp with
  | refl _ => exact ⟨[], .nil _⟩
  | step _ hc _ ih =>
      obtain ⟨as, ht⟩ := ih
      exact ⟨_, .cons hc ht⟩

/-- A run that ends after a passage has passed no configuration outside it. -/
theorem suffix_of_trace {r : Except RuntimeError Unit} {k : Machine h} {env : σ}
    (hp : Passes limits code S c c') (hend : c'.turn limits code.toArray = ((.ended r, k), env))
    {d : Config h} {as : List Nat} (ht : Trace limits code.toArray c as d) :
    S <:+ d.machine.stack := by
  induction hp generalizing as with
  | refl hS =>
      cases ht with
      | nil => exact hS
      | cons hc _ =>
          unfold Config.Continues at hc
          rw [hend] at hc
          simp at hc
  | step hS hc _ ih =>
      cases ht with
      | nil => exact hS
      | cons hd ht =>
          obtain rfl := hc.unique hd
          exact ih hend ht

/-- With fuel for all of forward code, a run from its start ends as a passage does. -/
theorem run_eq (hcode : Forward 0 code.length code) (hp : Passes limits code S c c')
    {r : Except RuntimeError Unit} {k : Machine h} {env : σ}
    (hend : c'.turn limits code.toArray = ((.ended r, k), env)) (hc : c.address = 0) {fuel : Nat}
    (hfuel : code.length < fuel) :
    c.run limits code.toArray fuel = ((some r, k), env) := by
  obtain ⟨as, ht⟩ := hp.exists_trace
  exact ht.run_eq_of_ended hcode hend hc hfuel

end Passes

/-- From address `a` with the values `before` on top of the stack, the code comes to the address and
the values that `goal` gives for the result of an action, and has changed the state as the action
does. When the action fails, the code stops with its fault. -/
def Follows {β : Type} (limits : Limits) (code : List Instruction) (a : Nat) (before : List Value)
    (x : Action h β) (goal : β → Nat × List Value) : Prop :=
  ∀ (S : List Value) (s : State h) (env : σ),
    match outcome x s env with
    | .done b (s', env') =>
      Passes limits code S ⟨a, ⟨s, before ++ S⟩, env⟩
        ⟨(goal b).1, ⟨s', (goal b).2 ++ S⟩, env'⟩
    | .failed f (s', env') =>
      ∃ (c : Config h) (T : List Value), Passes limits code S ⟨a, ⟨s, before ++ S⟩, env⟩ c ∧
        c.turn limits code.toArray = ((.ended (.error ⟨f, c.address⟩), ⟨s', T ++ S⟩), env')

namespace Follows

variable {α β : Type} {a : Nat} {before : List Value}

theorem pure_of_eq {b : β} {goal : β → Nat × List Value} (hg : goal b = (a, before)) :
    Follows limits code a before (pure b : Action h β) goal := by
  intro S s env
  rw [outcome_pure]
  dsimp only
  rw [hg]
  exact .refl (List.suffix_append _ _)

theorem bind {x : Action h α} {f : α → Action h β} {goal : α → Nat × List Value}
    {goal' : β → Nat × List Value} (hx : Follows limits code a before x goal)
    (hf : ∀ b, Follows limits code (goal b).1 (goal b).2 (f b) goal') :
    Follows limits code a before (x >>= f) goal' := by
  intro S s env
  specialize hx S s env
  rw [outcome_bind]
  cases hxo : outcome x s env with
  | failed e k =>
      rw [hxo] at hx
      exact hx
  | done b k =>
      rw [hxo] at hx
      specialize hf b S k.1 k.2
      dsimp only at hx hf ⊢
      cases hfo : outcome (f b) k.1 k.2 with
      | failed e k' =>
          rw [hfo] at hf
          obtain ⟨c, T, hp, hturn⟩ := hf
          exact ⟨c, T, hx.trans hp, hturn⟩
      | done b' k' =>
          rw [hfo] at hf
          exact hx.trans hf

/-- Values under those that the code uses stay where they are. -/
theorem frame {x : Action h β} {goal : β → Nat × List Value}
    (hx : Follows limits code a before x goal) (under : List Value) :
    Follows limits code a (before ++ under) x fun b => ((goal b).1, (goal b).2 ++ under) := by
  intro S s env
  specialize hx (under ++ S) s env
  have hsuffix : S <:+ under ++ S := List.suffix_append _ _
  cases hxo : outcome x s env with
  | failed e k =>
      rw [hxo] at hx
      obtain ⟨c, T, hp, hturn⟩ := hx
      refine ⟨c, T ++ under, ?_, ?_⟩
      · rw [List.append_assoc]
        exact hp.mono hsuffix
      · rw [List.append_assoc]
        exact hturn
  | done b k =>
      rw [hxo] at hx
      dsimp only at hx ⊢
      rw [List.append_assoc, List.append_assoc]
      exact hx.mono hsuffix

end Follows

end DiceScript
