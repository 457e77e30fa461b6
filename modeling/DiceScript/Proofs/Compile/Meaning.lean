import DiceScript.Proofs.Compile.Halting
import DiceScript.Proofs.Compile.Simulation

/-!
# The meaning of compiled scripts

Running the program of a script has the effect of evaluating the script.
-/

namespace DiceScript

open Code (op)

variable {σ : Type} {h : Host (StateM σ)} {limits : Limits}

/-- An expression at the toplevel leaves its value, unless it is a print. -/
theorem Expr.realizes_toplevel (e : Expr) :
    Realizes (h := h) limits (e.code false) (e.eval limits) []
      fun v => if e.isPrint then [] else [v] := by
  cases e with
  | print target value =>
      cases target with
      | none =>
          rw [Expr.code_print, Expr.eval, if_neg Bool.false_ne_true, List.append_nil]
          refine value.yields.append fun v => ?_
          exact (Realizes.op (.print v)).result fun _ => rfl
      | some target =>
          rw [Expr.code_filePrint, Expr.eval, if_neg Bool.false_ne_true, List.append_nil,
            List.append_assoc]
          refine value.yields.append fun v => ?_
          refine (target.realizes.frame [v]).append fun c => ?_
          exact (Realizes.op (.filePrint c v)).result fun _ => rfl
  | close handle => exact (Expr.close handle).yields
  | choose clauses otherwise =>
      cases otherwise with
      | none => exact (Expr.choose clauses none).yields
      | some e => exact (Expr.choose clauses (some e)).yields
  | store source target =>
      cases target with
      | none => exact (Expr.store source none).yields
      | some target => exact (Expr.store source (some target)).yields
  | openFile access path handle => exact (Expr.openFile access path handle).yields

/-- Toplevel expressions leave what is kept of their values. -/
theorem toplevelCode_realizes (limits : Limits) (mode : Toplevel) (es : List Expr) :
    Realizes (h := h) limits (toplevelCode mode es) (evalBody limits mode es) [] Option.toList := by
  induction es with
  | nil => exact .nil none rfl
  | cons e es ih =>
      rw [toplevelCode_cons, evalBody, List.append_assoc]
      refine e.realizes_toplevel.append fun v => ?_
      cases hprint : e.isPrint with
      | true =>
          rw [Bool.true_or, if_pos rfl, if_pos rfl, Bool.not_true, Bool.and_false,
            if_neg Bool.false_ne_true, List.nil_append]
          exact ih
      | false =>
          rw [Bool.false_or, if_neg Bool.false_ne_true, Bool.not_false, Bool.and_true]
          cases hkeep : mode == .keepLast && es.isEmpty with
          | true =>
              obtain rfl : es = [] := by
                rw [Bool.and_eq_true, List.isEmpty_iff] at hkeep
                exact hkeep.2
              exact .nil (some v) rfl
          | false => exact (Realizes.op (.pop v)).move_append ih

namespace Script

/-- How a script is run from given surroundings: over the stack, with the kept value on top of it
in the end. -/
theorem passes (limits : Limits) (mode : Toplevel) (script : Script) (s : Machine h) (env : σ) :
    ∃ c : Config h,
      Passes limits (codeLayout 0 (script.code mode)) s.stack ⟨0, s, env⟩ c ∧
        match outcome (script.eval limits mode) s.toState env with
        | .done kept (s', env') =>
          c.turn limits (codeLayout 0 (script.code mode)).toArray =
            ((.ended (.ok ()), ⟨s', kept.toList ++ s.stack⟩), env')
        | .failed f (s', env') => ∃ stack,
          c.turn limits (codeLayout 0 (script.code mode)).toArray =
            ((.ended (.error ⟨f, c.address⟩), ⟨s', stack ++ s.stack⟩), env') := by
  have hbody := toplevelCode_realizes limits mode script.body
    (codeLayout 0 (script.code mode)) 0 (.whole _) s.stack s.toState env
  unfold eval
  cases hx : outcome (evalBody limits mode script.body) s.toState env with
  | failed f k =>
      rw [hx] at hbody
      obtain ⟨c, T, hp, hturn⟩ := hbody
      exact ⟨c, hp, T, hturn⟩
  | done kept k =>
      rw [hx] at hbody
      refine ⟨_, hbody, ?_⟩
      have hend : (codeLayout 0 (script.code mode)).toArray[0 + codeSize (script.code mode)]? =
          none := by
        simp [codeLayout_length]
      dsimp only
      rw [Config.turn_of_none hend]

/-- A script assembles, and running its program has exactly the effect of evaluating it. When the
evaluation succeeds the run hands over the stack with the value kept on top, and what was printed
and written, unless a file refuses to be closed. When it fails, so does the run, with the same fault,
and the values that were on the stack stay there. In all cases the state and the surroundings are those
of the evaluation, with the files closed. -/
theorem run_eq_eval (mode : Toplevel) (script : Script) :
    ∃ p, assemble (script.items mode) = .ok p ∧
      ∀ {σ : Type} {h : Host (StateM σ)} (limits : Limits) (s : Machine h) (env : σ) (fuel : Nat),
        p.code.length < fuel →
          match outcome (script.eval limits mode) s.toState env with
          | .done kept (s', env') =>
            ((Machine.run limits p fuel).run s).run env =
              match s'.closing env' with
              | .ok () =>
                ((some (.ok ⟨(kept.toList ++ s.stack).reverse, s'.printed.toList,
                    s'.filesWritten.toList⟩),
                  ⟨{ s' with handles := .empty, printed := #[], filesWritten := #[] }, []⟩),
                  s'.closed env')
              | .error e =>
                ((some (.error ⟨.host e, p.code.length⟩),
                  ⟨{ s' with handles := .empty }, kept.toList ++ s.stack⟩), s'.closed env')
          | .failed f (s', env') => ∃ address stack,
            ((Machine.run limits p fuel).run s).run env =
              ((some (.error ⟨f, address⟩),
                ⟨{ s' with handles := .empty }, stack ++ s.stack⟩), s'.closed env') := by
  refine ⟨_, script.assemble_items mode, ?_⟩
  intro σ h limits s env fuel hfuel
  have hforward := script.forward_layout mode
  obtain ⟨c, hp, hturn⟩ := script.passes limits mode s env
  cases hx : outcome (script.eval limits mode) s.toState env with
  | done kept k =>
      rw [hx] at hturn
      dsimp only
      have hrun := hp.run_eq hforward hturn rfl hfuel
      split
      · next hclosing => exact Machine.run_of_ok hrun hclosing
      · next e hclosing => exact Machine.run_of_refused hrun hclosing
  | failed f k =>
      rw [hx] at hturn
      obtain ⟨stack, hturn⟩ := hturn
      exact ⟨c.address, stack, Machine.run_of_error (hp.run_eq hforward hturn rfl hfuel)⟩

end Script

end DiceScript
