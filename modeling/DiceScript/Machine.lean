import DiceScript.State

/-!
# The dice machine

A machine keeps a stack of values beside the state that programs act on.
-/

namespace DiceScript

structure Machine {m : Type → Type} (h : Host m) extends State h where
  /-- The top comes first. -/
  stack : List Value

def Machine.start {m : Type → Type} (h : Host m) (random : Random) : Machine h :=
  ⟨⟨.empty, .empty, random, #[], #[]⟩, []⟩

/-- Actions of a machine. -/
abbrev Exec {m : Type → Type} (h : Host m) := ExceptT Fault (StateT (Machine h) m)

namespace Exec

variable {m : Type → Type} [Monad m] {h : Host m}

/-- An action that leaves the stack alone. -/
def act {α : Type} (x : Action h α) : Exec h α :=
  ExceptT.mk fun s => do
    let (result, state) ← x.run.run s.toState
    return (result, { s with toState := state })

def push (v : Value) : Exec h Unit :=
  modify fun s => { s with stack := v :: s.stack }

def pop (op : Opcode) : Exec h Value := do
  match (← get).stack with
  | [] => throw (.stackUnderflow op)
  | v :: stack =>
    modify fun s => { s with stack := stack }
    return v

def popNumber (op : Opcode) : Exec h Double := do
  act (.number op (← pop op))

def popPool (op : Opcode) : Exec h Pool := do
  act (.pool op (← pop op))

/-- The count is above the sides. Both lose their fractions. -/
def popReference (op : Opcode) : Exec h Reference := do
  let count ← popNumber op
  let sides ← popNumber op
  return ⟨Binary64.toInt64 count, Binary64.toInt64 sides⟩

end Exec

end DiceScript
