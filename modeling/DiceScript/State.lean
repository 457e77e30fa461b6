import DiceScript.Host
import DiceScript.Instruction
import DiceScript.Pool
import DiceScript.Random
import DiceScript.Table
import DiceScript.Value.Pieces

/-!
# What a program acts on

A running program has a heap, open files and a random generator, and records what it printed and
wrote. An action works on these through a host, and may end in a fault that keeps the state reached.
-/

namespace DiceScript

inductive DiceFault where
  | badCount (count : Double)
  | tooMany (limit : Nat)
  | noSides (sides : Double)
deriving DecidableEq

def DiceFault.message : DiceFault → String
  | badCount count => "cannot roll " ++ numberDisplay count ++ " dice"
  | tooMany limit => "cannot roll more than " ++ toString limit ++ " dice at once"
  | noSides sides => "a die needs at least one side, got " ++ numberDisplay sides

inductive Expected where
  | number
  | pool
deriving DecidableEq, Repr

def Expected.describe : Expected → String
  | number => "a number"
  | pool => "a dice pool"

/-- Why a run stops. -/
inductive Fault where
  | stackUnderflow (op : Opcode)
  | typeMismatch (op : Opcode) (expected : Expected) (found : Value)
  | divisionByZero (op : Opcode)
  | unknownHandle (reference : Reference)
  | wrongHandleMode (reference : Reference) (wanted : Access)
  | endOfInput
  | badOperand (op : Opcode)
  | invalidDice (fault : DiceFault)
  | invalidJump (target : Nat)
  | host (e : HostError)
deriving DecidableEq

/-- A fault, and the address of the instruction that met it. -/
structure RuntimeError where
  fault : Fault
  address : Nat
deriving DecidableEq

def RuntimeError.message (e : RuntimeError) : String :=
  let place := " at " ++ toString e.address
  match e.fault with
  | .stackUnderflow op => "stack underflow" ++ place ++ " (" ++ op.mnemonic ++ ")"
  | .typeMismatch op expected found =>
    "type mismatch" ++ place ++ " (" ++ op.mnemonic ++ "): expected " ++ expected.describe ++
      ", found " ++ found.typeName ++ " '" ++ found.display ++ "'"
  | .divisionByZero op => "division by zero" ++ place ++ " (" ++ op.mnemonic ++ ")"
  | .unknownHandle r => "no open file handle " ++ r.text ++ place
  | .wrongHandleMode r wanted =>
    "file handle " ++ r.text ++ " is not open for " ++
      (match wanted with
        | .read => "reading"
        | .write => "writing") ++ place
  | .endOfInput => "read past end of input" ++ place
  | .badOperand op => "invalid operand for " ++ op.mnemonic ++ place
  | .invalidDice fault => "invalid dice" ++ place ++ ": " ++ fault.message
  | .invalidJump target => "jump target " ++ toString target ++ " out of range" ++ place
  | .host e => "i/o error" ++ place ++ ": " ++ e.message

structure Limits where
  /-- The most passes of a reroll that repeats. -/
  rerollPasses : Nat
  poolSize : Nat
deriving DecidableEq, Repr

def Limits.standard : Limits :=
  ⟨100, 10000⟩

inductive Handle {m : Type → Type} (h : Host m) where
  | reader (r : h.Reader)
  | writer (w : h.Writer)

structure State {m : Type → Type} (h : Host m) where
  heap : Table Reference Value
  handles : Table Reference (Handle h)
  random : Random
  printed : Array String
  filesWritten : Array String

abbrev Action {m : Type → Type} (h : Host m) := ExceptT Fault (StateT (State h) m)

namespace Action

variable {m : Type → Type} [Monad m] {h : Host m}

def ask {α : Type} (x : m α) : Action h α :=
  ExceptT.lift (StateT.lift x)

/-- The answer of the host, or a fault when it refused. -/
def answer {α : Type} : Except HostError α → Action h α
  | .ok a => return a
  | .error e => throw (.host e)

def number (op : Opcode) (v : Value) : Action h Double :=
  match v.toNumber? with
  | some x => return x
  | none => throw (.typeMismatch op .number v)

def pool (op : Opcode) (v : Value) : Action h Pool :=
  match v.pool? with
  | some pool => return pool
  | none => throw (.typeMismatch op .pool v)

section Dice

/-- The number of sides of a die, which has at least one. -/
def dieSides (sides : Double) : Action h Nat :=
  let whole := Binary64.trunc sides
  if whole.isFinite && 1 ≤ whole then return (Binary64.toInt64 whole).toNat
  else throw (.invalidDice (.noSides whole))

def draw {α : Type} (f : Random → α × Random) : Action h α :=
  modifyGet fun s =>
    let (a, g) := f s.random
    (a, { s with random := g })

def roll (limits : Limits) (count sides : Double) : Action h Pool := do
  let count := Binary64.trunc count
  if count.isNaN || count < 0 then throw (.invalidDice (.badCount count))
  if Binary64.ofNat limits.poolSize < count then
    throw (.invalidDice (.tooMany limits.poolSize))
  let n := Binary64.toNat count
  if n = 0 then return []
  else
    let sides ← dieSides sides
    draw (Random.throwDice sides n)

/-- Roll again the dice of a pool that stand in a relation to a threshold. -/
def reroll (limits : Limits) (once : Bool) (relation : Relation) (threshold sides : Double)
    (pool : Pool) : Action h Pool := do
  let sides ← dieSides sides
  let matching := (relation.holds · threshold)
  draw fun g =>
    if once then Pool.rerollOnce (Random.throwDie sides) matching pool g
    else
      let (r, g) := Pool.rerollUntil (Random.throwDie sides) matching limits.rerollPasses pool g
      (r.1, g)

end Dice

section Heap

/-- What no one stored reads as zero. -/
def load (r : Reference) : Action h Value := do
  return ((← get).heap.find? r).getD (.number 0)

def store (r : Reference) (v : Value) : Action h Unit :=
  modify fun s => { s with heap := s.heap.insert r v }

end Heap

section Lines

/-- A line read, or a fault at the end of the input. -/
def lineOf : Except HostError (Option String) → Action h String
  | .ok (some line) => return line
  | .ok none => throw .endOfInput
  | .error e => throw (.host e)

def prompt : Action h String := do
  lineOf (← ask h.prompt)

def print (v : Value) : Action h Unit := do
  answer (← ask (h.print (v.display ++ "\n")))
  modify fun s => { s with printed := s.printed.push v.display }

def handle? (r : Reference) : Action h (Option (Handle h)) := do
  return (← get).handles.find? r

def setHandle (r : Reference) (handle : Handle h) : Action h Unit :=
  modify fun s => { s with handles := s.handles.insert r handle }

/-- Everything that a handle held back reaches its file, or is refused. -/
def release : Handle h → Action h Unit
  | .reader _ => return ()
  | .writer w => do answer (← ask (h.close w))

/-- A new handle on the file at a path. -/
def opened (access : Access) (path : String) : Action h (Handle h) := do
  match access with
  | .read => return .reader (← answer (← ask (h.openRead path)))
  | .write =>
    let w ← answer (← ask (h.openWrite path))
    modify fun s => { s with filesWritten := s.filesWritten.push path }
    return .writer w

/-- Open a file. The handle that the reference had before is released afterwards; when that is refused
the file is open all the same. -/
def openFile (access : Access) (path : String) (r : Reference) : Action h Unit := do
  let handle ← opened access path
  let old ← handle? r
  setHandle r handle
  match old with
  | some old => release old
  | none => return ()

def filePrint (r : Reference) (v : Value) : Action h Unit := do
  match ← handle? r with
  | some (.writer w) =>
    let (written, w) ← ask (h.write w (v.pieces ++ ["\n"]))
    setHandle r (.writer w)
    answer written
  | some (.reader _) => throw (.wrongHandleMode r .write)
  | none => throw (.unknownHandle r)

def fileRead (r : Reference) : Action h String := do
  match ← handle? r with
  | some (.reader reader) =>
    let (line, reader) ← ask (h.readLine reader)
    setHandle r (.reader reader)
    lineOf line
  | some (.writer _) => throw (.wrongHandleMode r .read)
  | none => throw (.unknownHandle r)

def close (r : Reference) : Action h Unit := do
  match ← handle? r with
  | some handle =>
    modify fun s => { s with handles := s.handles.erase r }
    release handle
  | none => throw (.unknownHandle r)

end Lines

end Action

end DiceScript
