import DiceScript.Proofs.Compile.Meaning
import DiceScript.Proofs.Semantics.Blame

/-!
# The stack of compiled programs

What lies on the stack when the run of a compiled program starts stays at its bottom. The run never
asks for a value that is not there, and leaves nothing on top but the value kept.
-/

namespace DiceScript

variable {σ : Type} {h : Host (StateM σ)} {limits : Limits}

/-- The value of the last expression is kept, and it has one. -/
def Script.keepsValue (mode : Toplevel) (script : Script) : Bool :=
  mode == .keepLast && script.body.getLast?.any fun e => !e.isPrint

/-- How the runs of a program treat the stack that they start with, with a value in the end or
none. -/
structure KeepsStack (limits : Limits) (p : Program) (value : Bool) : Prop where
  /-- At every step the stack at the start is the bottom of the stack. -/
  under : ∀ {σ : Type} {h : Host (StateM σ)} (s : Machine h) (env : σ) (as : List Nat)
    (c : Config h), Trace limits p.code.toArray ⟨0, s, env⟩ as c → s.stack <:+ c.machine.stack
  /-- A run with fuel for the whole code ends, either with a fault that is none of the code, such as a
  refusal of the host, over the same bottom of the stack, or with the stack at the start and perhaps a
  value. -/
  ends : ∀ {σ : Type} {h : Host (StateM σ)} (s : Machine h) (env : σ) (fuel : Nat),
    p.code.length < fuel →
      (∃ f address s' env',
        ((Machine.run limits p fuel).run s).run env = ((some (.error ⟨f, address⟩), s'), env') ∧
          f.blamesCode = false ∧ s.stack <:+ s'.stack) ∨
      ∃ x s' env', ((Machine.run limits p fuel).run s).run env = ((some (.ok x), s'), env') ∧
        ∃ top : Option Value, top.isSome = value ∧ x.stack = s.stack.reverse ++ top.toList

theorem evalBody_isSome (mode : Toplevel) (es : List Expr) :
    ∀ (s : State h) (env : σ) (kept : Option Value) (k : State h × σ),
      outcome (evalBody limits mode es) s env = .done kept k →
        kept.isSome = (mode == .keepLast && es.getLast?.any fun e => !e.isPrint) := by
  induction es with
  | nil =>
      intro s env kept k hx
      rw [evalBody, outcome_pure] at hx
      cases hx
      simp
  | cons e es ih =>
      intro s env kept k hx
      rw [evalBody, outcome_bind] at hx
      cases hv : outcome (e.eval limits) s env with
      | failed f k' =>
          rw [hv] at hx
          cases hx
      | done v k' =>
          rw [hv] at hx
          dsimp only at hx
          split at hx
          · rename_i hkeep
            rw [outcome_pure] at hx
            cases hx
            simp only [Bool.and_eq_true, List.isEmpty_iff] at hkeep
            obtain ⟨⟨hmode, rfl⟩, hprint⟩ := hkeep
            simp [hmode, hprint]
          · rename_i hkeep
            rw [ih _ _ _ _ hx]
            cases es with
            | nil =>
                simp only [List.isEmpty_nil, Bool.and_true] at hkeep
                simp [hkeep]
            | cons d ds => rfl

theorem Script.keepsStack (mode : Toplevel) (script : Script) :
    KeepsStack limits ⟨codeLayout 0 (script.code mode)⟩ (script.keepsValue mode) where
  under := by
    intro σ h s env as c ht
    obtain ⟨c', hp, hturn⟩ := script.passes limits mode s env
    cases hx : outcome (script.eval limits mode) s.toState env with
    | done kept k =>
        rw [hx] at hturn
        exact hp.suffix_of_trace hturn ht
    | failed f k =>
        rw [hx] at hturn
        obtain ⟨stack, hturn⟩ := hturn
        exact hp.suffix_of_trace hturn ht
  ends := by
    intro σ h s env fuel hfuel
    have hforward := script.forward_layout mode
    obtain ⟨c, hp, hturn⟩ := script.passes limits mode s env
    cases hx : outcome (script.eval limits mode) s.toState env with
    | done kept k =>
        rw [hx] at hturn
        have hrun := hp.run_eq hforward hturn rfl hfuel
        cases hclosing : State.closing k.1 k.2 with
        | error e =>
            refine .inl ⟨_, _, _, _, Machine.run_of_refused hrun hclosing, rfl, ?_⟩
            exact List.suffix_append kept.toList s.stack
        | ok =>
            refine .inr ⟨_, _, _, Machine.run_of_ok hrun hclosing, kept, ?_, ?_⟩
            · exact evalBody_isSome mode script.body _ _ _ _ hx
            · cases kept <;> simp
    | failed f k =>
        rw [hx] at hturn
        obtain ⟨stack, hturn⟩ := hturn
        have hrun := hp.run_eq hforward hturn rfl hfuel
        refine .inl ⟨f, _, _, _, Machine.run_of_error hrun, ?_, ?_⟩
        · exact script.blameless_eval mode _ _ _ _ hx
        · exact List.suffix_append stack s.stack

/-- Every source that compiles gives a program that leaves the stack under it alone, and adds the
value of the last expression when it is kept. -/
theorem compile_keepsStack (mode : Toplevel) (source : String) (p : Program)
    (hp : compile mode source = .ok p) :
    ∃ script, parse (tokenize source) = .ok script ∧
      ∀ limits, KeepsStack limits p (script.keepsValue mode) := by
  unfold compile at hp
  split at hp
  · cases hp
  · rename_i script hscript
    refine ⟨script, hscript, fun limits => ?_⟩
    rw [script.assemble_items] at hp
    obtain rfl : _ = p := by simpa using hp
    exact script.keepsStack mode

theorem compile_keepsStack_choice :
    ∃ p, compile .keepLast "!1 {1,2d6|3}" = .ok p ∧ ∀ limits, KeepsStack limits p true := by
  have hcompile : (compile .keepLast "!1 {1,2d6|3}").toOption.isSome = true := by decide +kernel
  have hvalue : (parse (tokenize "!1 {1,2d6|3}")).toOption.map (Script.keepsValue .keepLast) =
      some true := by decide +kernel
  obtain ⟨p, hp⟩ : ∃ p, compile .keepLast "!1 {1,2d6|3}" = .ok p := by
    cases hc : compile .keepLast "!1 {1,2d6|3}" with
    | error e =>
        rw [hc] at hcompile
        cases hcompile
    | ok p => exact ⟨p, rfl⟩
  obtain ⟨script, hscript, hkeeps⟩ := compile_keepsStack .keepLast _ p hp
  rw [hscript] at hvalue
  obtain hkeep : script.keepsValue .keepLast = true := Option.some.inj hvalue
  rw [hkeep] at hkeeps
  exact ⟨p, hp, hkeeps⟩

end DiceScript
