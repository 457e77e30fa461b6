import DiceScript.Instruction
import DiceScript.Number.Binary64
import DiceScript.Table

/-!
# Symbolic code and its labels

Symbolic code is a list of instructions whose jumps name labels, with the definitions of the labels
in between. Assembling it gives each instruction the next address, each label the address of the
instruction after it, and replaces the labels in jumps by addresses.
-/

namespace DiceScript

structure Label where
  id : Nat
deriving DecidableEq, Repr

inductive Operand where
  | none
  | int (n : Int)
  | num (x : Double)
  | text (s : String)
  | label (l : Label)
deriving DecidableEq

inductive Item where
  /-- Names the address of the next instruction and takes no space. -/
  | label (l : Label)
  | instr (op : Opcode) (operand : Operand)
deriving DecidableEq

inductive AssemblyError where
  | unresolvedLabel (l : Label)
  | duplicateLabel (l : Label)
  | unknownMnemonic (name : String) (line : Nat)
  | badOperand (op : Opcode)
  | malformedLine (line : Nat) (text : String)
deriving DecidableEq

def Label.text (l : Label) : String :=
  ":L" ++ toString l.id

def AssemblyError.message : AssemblyError → String
  | unresolvedLabel l => "unresolved label " ++ l.text
  | duplicateLabel l => "label " ++ l.text ++ " defined twice"
  | unknownMnemonic name line => "unknown mnemonic '" ++ name ++ "' on line " ++ toString line
  | badOperand op => op.mnemonic ++ " expects " ++ op.operandKind.describe
  | malformedLine line text => "malformed listing line " ++ toString line ++ ": " ++ text

/-- The addresses of the labels defined in items that begin at address `next`, added to those known
before. -/
def labelAddresses (next : Nat) (known : Table Label Nat) :
    List Item → Except AssemblyError (Table Label Nat)
  | [] => .ok known
  | .label l :: items =>
    match known.find? l with
    | some _ => .error (.duplicateLabel l)
    | none => labelAddresses next (known.insert l next) items
  | .instr _ _ :: items => labelAddresses (next + 1) known items

/-- The instruction with its label replaced by an address. The operand has to be of the kind of the
opcode, except that a number may be given as an integer. -/
def resolve (addresses : Table Label Nat) (op : Opcode) (operand : Operand) :
    Except AssemblyError Instruction :=
  match operand, op.operandKind with
  | .none, .none => .ok ⟨op, .none⟩
  | .int n, .int => .ok ⟨op, .int n⟩
  | .num x, .num => .ok ⟨op, .num x⟩
  | .int n, .num => .ok ⟨op, .num (Binary64.ofInt n)⟩
  | .text s, .text => .ok ⟨op, .text s⟩
  | .label l, .address =>
    match addresses.find? l with
    | some target => .ok ⟨op, .address target⟩
    | none => .error (.unresolvedLabel l)
  | _, _ => .error (.badOperand op)

/-- Resolve the instructions in order, up to the first that fails. -/
def resolveAll (addresses : Table Label Nat) : List Item → Except AssemblyError (List Instruction)
  | [] => .ok []
  | .label _ :: items => resolveAll addresses items
  | .instr op operand :: items => do
    let i ← resolve addresses op operand
    let is ← resolveAll addresses items
    return i :: is

def assemble (items : List Item) : Except AssemblyError Program := do
  let addresses ← labelAddresses 0 .empty items
  let code ← resolveAll addresses items
  return ⟨code⟩

end DiceScript
