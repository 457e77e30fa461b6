import DiceScript.Formula
import DiceScript.Proofs.Compile.Meaning
import DiceScript.Proofs.Machine.Closing

/-!
# The value of a formula

A formula has the value that its script evaluates to, when that evaluation succeeds, and leaves the
generator as the evaluation does.
-/

namespace DiceScript

/-- Compiling and running a formula gives what evaluating its script keeps. -/
theorem eval_eq_ok {limits : Limits} {random : Random} {source : String} {script : Script}
    {kept : Option Value} {s : State Memory.host} {env : Memory}
    (hscript : parse (tokenize source) = .ok script)
    (hkept : outcome (script.eval limits .keepLast) (Machine.start Memory.host random).toState
      Memory.empty = .done kept (s, env)) :
    eval limits random source = .ok kept := by
  obtain ⟨c, hp, hturn⟩ := script.passes limits .keepLast (Machine.start Memory.host random)
    Memory.empty
  rw [hkept] at hturn
  set code := codeLayout 0 (script.code .keepLast)
  have hends := hp.run_eq (script.forward_layout .keepLast) hturn rfl (Nat.lt_succ_self _)
  have hrun : (Machine.run limits ⟨code⟩ (code.length + 1) (Machine.start Memory.host random)).run
      Memory.empty = _ := Machine.run_of_ok hends (Memory.closing_eq s env)
  unfold eval
  rw [compile_eq_ok.mpr ⟨script, hscript, rfl⟩]
  dsimp only
  rw [hrun]
  cases kept <;> rfl

/-- The generator as the run of a formula leaves it, when the source compiles. -/
def generatorAfter (limits : Limits) (random : Random) (source : String) : Option Random :=
  match compile .keepLast source with
  | .error _ => none
  | .ok p =>
    let run := Machine.run limits p (p.code.length + 1)
    some ((run (Machine.start Memory.host random)).run Memory.empty).1.2.random

theorem generatorAfter_eq_some {limits : Limits} {random : Random} {source : String}
    {script : Script} {kept : Option Value} {s : State Memory.host} {env : Memory}
    (hscript : parse (tokenize source) = .ok script)
    (hkept : outcome (script.eval limits .keepLast) (Machine.start Memory.host random).toState
      Memory.empty = .done kept (s, env)) :
    generatorAfter limits random source = some s.random := by
  obtain ⟨p, hp, hrun⟩ := script.run_eq_eval .keepLast
  have hcompile : compile .keepLast source = .ok p := by
    unfold compile
    rw [hscript]
    dsimp only
    rw [hp]
  specialize hrun limits (Machine.start Memory.host random) Memory.empty (p.code.length + 1)
    (Nat.lt_succ_self _)
  rw [hkept] at hrun
  dsimp only at hrun
  rw [Memory.closing_eq] at hrun
  have hrun' : (Machine.run limits p (p.code.length + 1) (Machine.start Memory.host random)).run
      Memory.empty = _ := hrun
  unfold generatorAfter
  rw [hcompile]
  dsimp only
  rw [hrun']

end DiceScript
