import DiceScript.Modifier

/-!
# Instructions

The instruction set of the dice machine. Every opcode has a mnemonic, a byte, and the kind of
operand that a well-formed instruction carries.
-/

namespace DiceScript

inductive Arith where
  | add
  | sub
  | mul
  | div
  | mod
  | pow
deriving DecidableEq, Repr

inductive Order where
  | less
  | atMost
  | greater
  | atLeast
deriving DecidableEq, Repr

inductive Adjust where
  | inc
  | dec
  | floor
  | ceil
  | negate
deriving DecidableEq, Repr

inductive Opcode where
  | arith (op : Arith)
  | and
  | or
  | not
  | compare (order : Order)
  | equal
  | notEqual
  | push
  | pushText
  | dup
  | pop
  | list
  | sort (order : SortOrder)
  | select (selector : Selector)
  | count (relation : Relation)
  | reroll (once : Bool) (relation : Relation)
  | sum
  | roll
  | load
  | store
  | read
  | print
  | filePrint
  | openFile (access : Access)
  | fileRead
  | close
  | jump
  | jumpIfFalse
  | adjust (op : Adjust)
  | time
  | seed
  | random
deriving DecidableEq, Repr

inductive OperandKind where
  | none
  | int
  | num
  | text
  | address
deriving DecidableEq, Repr

def OperandKind.describe : OperandKind → String
  | none => "no operand"
  | int => "an integer operand"
  | num => "a numeric operand"
  | text => "a string operand"
  | address => "a label operand"

namespace Opcode

/-- Every opcode with its mnemonic and byte. -/
def table : List (Opcode × String × Nat) :=
  [(arith .add, "ADD", 0), (arith .sub, "SUB", 1), (arith .mul, "MUL", 2), (arith .div, "DIV", 3),
    (arith .mod, "MOD", 4), (arith .pow, "POW", 5),
    (and, "AND", 10), (or, "OR", 11), (not, "NOT", 12),
    (compare .less, "LT", 13), (compare .atMost, "LTE", 14), (compare .greater, "GT", 15),
    (compare .atLeast, "GTE", 16), (equal, "EQ", 17), (notEqual, "NE", 18),
    (push, "PUSH", 20), (pushText, "PUSHSTR", 21), (dup, "DUP", 22), (pop, "POP", 23),
    (list, "MLIST", 30), (sort .ascending, "SORTA", 31), (sort .descending, "SORTD", 32),
    (select ⟨false, .high⟩, "KH", 33), (select ⟨false, .low⟩, "KL", 34),
    (select ⟨false, .front⟩, "KF", 35), (select ⟨false, .rear⟩, "KR", 36),
    (select ⟨true, .high⟩, "DH", 37), (select ⟨true, .low⟩, "DL", 38),
    (select ⟨true, .front⟩, "DF", 39), (select ⟨true, .rear⟩, "DR", 40),
    (count .greater, "CCGT", 41), (count .less, "CCLT", 42), (count .equal, "CCEQ", 43),
    (reroll false .greater, "RRGT", 44), (reroll false .less, "RRLT", 45),
    (reroll false .equal, "RREQ", 46), (reroll true .greater, "ROGT", 47),
    (reroll true .less, "ROLT", 48), (reroll true .equal, "ROEQ", 49), (sum, "SUM", 50),
    (roll, "ROLL", 55),
    (load, "PUSHV", 60), (store, "POPV", 61),
    (read, "READ", 70), (print, "PRINT", 71), (filePrint, "FPRINT", 72),
    (openFile .read, "OPENR", 73), (openFile .write, "OPENW", 74), (fileRead, "FREAD", 75),
    (close, "CLOSE", 76),
    (jump, "JMP", 80), (jumpIfFalse, "JMPZ", 81),
    (adjust .inc, "INC", 90), (adjust .dec, "DEC", 91), (adjust .floor, "FLOOR", 92),
    (adjust .ceil, "CEIL", 93), (adjust .negate, "NEG", 94), (time, "TIME", 95),
    (seed, "SEED", 96), (random, "RAND", 97)]

def all : List Opcode :=
  table.map (·.1)

def entry? (op : Opcode) : Option (Opcode × String × Nat) :=
  table.find? (·.1 = op)

theorem entry?_isSome (op : Opcode) : op.entry?.isSome = true := by
  cases op with
  | arith f => cases f <;> decide
  | compare f => cases f <;> decide
  | adjust f => cases f <;> decide
  | sort f => cases f <;> decide
  | count f => cases f <;> decide
  | openFile f => cases f <;> decide
  | select s => obtain ⟨d, side⟩ := s; cases d <;> cases side <;> decide
  | reroll once r => cases once <;> cases r <;> decide
  | _ => decide

def mnemonic (op : Opcode) : String :=
  (op.entry?.get op.entry?_isSome).2.1

def byte (op : Opcode) : Nat :=
  (op.entry?.get op.entry?_isSome).2.2

def ofMnemonic? (name : String) : Option Opcode :=
  (table.find? (·.2.1 = name)).map (·.1)

def operandKind : Opcode → OperandKind
  | push => .num
  | pushText => .text
  | dup => .int
  | list => .int
  | jump => .address
  | jumpIfFalse => .address
  | _ => .none

end Opcode

/-- What an instruction carries besides its opcode. -/
inductive Immediate where
  | none
  | int (n : Int)
  | num (x : Double)
  | text (s : String)
  | address (target : Nat)
deriving DecidableEq

structure Instruction where
  op : Opcode
  imm : Immediate
deriving DecidableEq

/-- Addressed code: instruction `i` stands at address `i`. -/
structure Program where
  code : List Instruction
deriving DecidableEq

end DiceScript
