import DiceScript.Compile
import DiceScript.Host.Memory
import DiceScript.Machine.Run

/-!
# Formulas

The value of a source, such as `4d6kh3 + 2`.
-/

namespace DiceScript

inductive EvalError where
  | compile (e : CompileError)
  | runtime (e : RuntimeError)

/-- The value of the last toplevel expression of a source, if there is one. Prompts see no input,
and there are no files. Code that comes from a source takes no longer than its own length. -/
def eval (limits : Limits) (random : Random) (source : String) :
    Except EvalError (Option Value) :=
  match compile .keepLast source with
  | .error e => .error (.compile e)
  | .ok p =>
    let run := Machine.run limits p (p.code.length + 1)
    match (run (Machine.start Memory.host random)).run Memory.empty with
    | ((some (.ok execution), _), _) => .ok execution.stack.getLast?
    | ((some (.error e), _), _) => .error (.runtime e)
    | ((none, _), _) => .ok none

end DiceScript
