import DiceScript.Machine.Step

/-!
# Runs

A run executes a program from its first instruction until the address leaves the code. However it
ends, the open files are closed, and a file that refuses makes the run fail, at the end of the code. A
successful run hands over the stack and the records of what was printed and written; after a failed one
they stay in the machine.
-/

namespace DiceScript

/-- What a successful run hands over. The bottom of the stack comes first. -/
structure Execution where
  stack : List Value
  printed : List String
  filesWritten : List String
deriving DecidableEq

/-- What the execution of one instruction leads to. -/
inductive Turn where
  | ended (outcome : Except RuntimeError Unit)
  | continues (address : Nat)

namespace Machine

variable {m : Type → Type} [Monad m] {h : Host m}

/-- Execute the instruction at an address. -/
def turn (limits : Limits) (code : Array Instruction) (address : Nat) :
    StateT (Machine h) m Turn :=
  match code[address]? with
  | none => return .ended (.ok ())
  | some i => do
    match ← (Exec.step limits i).run with
    | .ok .next => return .continues (address + 1)
    | .ok (.jump target) =>
      if code.size < target then return .ended (.error ⟨.invalidJump target, address⟩)
      else return .continues target
    | .error fault => return .ended (.error ⟨fault, address⟩)

/-- Execute at most `fuel` instructions from an address on; none when that is not enough. -/
def runFrom (limits : Limits) (code : Array Instruction) :
    Nat → Nat → StateT (Machine h) m (Option (Except RuntimeError Unit))
  | 0, _ => return none
  | fuel + 1, address => do
    match ← turn limits code address with
    | .ended outcome => return some outcome
    | .continues next => runFrom limits code fuel next

def dropHandles : List (Handle h) → m Unit
  | [] => return ()
  | .reader _ :: handles => dropHandles handles
  | .writer w :: handles => do
    h.drop w
    dropHandles handles

/-- Close files one after the other. After the first that refuses, the others are only let go. -/
def closeHandles : List (Handle h) → m (Except HostError Unit)
  | [] => return .ok ()
  | .reader _ :: handles => closeHandles handles
  | .writer w :: handles => do
    match ← h.close w with
    | .ok () => closeHandles handles
    | .error e =>
      dropHandles handles
      return .error e

def closeAll : StateT (Machine h) m (Except HostError Unit) := do
  let s ← get
  set ({ s with handles := .empty } : Machine h)
  let entries ← StateT.lift (h.arrange s.handles.entries)
  StateT.lift (closeHandles (entries.map (·.2)))

/-- What is reported of a run: its own error, or else that of closing the files, which is met where the
code ends. -/
def reported (size : Nat) :
    Except RuntimeError Unit → Except HostError Unit → Except RuntimeError Unit
  | .error e, _ => .error e
  | .ok (), closed => closed.mapError fun e => ⟨.host e, size⟩

def takeExecution : StateT (Machine h) m Execution :=
  modifyGet fun s =>
    (⟨s.stack.reverse, s.printed.toList, s.filesWritten.toList⟩,
      { s with stack := [], printed := #[], filesWritten := #[] })

/-- Run a program for at most `fuel` instructions. -/
def run (limits : Limits) (p : Program) (fuel : Nat) :
    StateT (Machine h) m (Option (Except RuntimeError Execution)) := do
  match ← runFrom limits p.code.toArray fuel 0 with
  | none => return none
  | some outcome =>
    let closed ← closeAll
    match reported p.code.length outcome closed with
    | .ok () => return some (.ok (← takeExecution))
    | .error e => return some (.error e)

end Machine

end DiceScript
