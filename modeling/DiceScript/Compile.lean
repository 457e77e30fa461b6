import DiceScript.Code
import DiceScript.Syntax.Parser
import DiceScript.Syntax.Tree
import DiceScript.Token.Lexer

/-!
# From scripts to programs

Every expression becomes code that leaves one value on the stack, except a toplevel print, which
leaves none. Code is made for all trees, also for those that no script has. The labels of a tree are
numbered from zero on.
-/

namespace DiceScript

/-- What becomes of the values of toplevel expressions. -/
inductive Toplevel where
  | discard
  | keepLast
deriving DecidableEq, Repr

def UnaryOp.opcode : UnaryOp → Opcode
  | negate => .adjust .negate
  | fold => .sum

def BinaryOp.opcode : BinaryOp → Opcode
  | and => .and
  | or => .or
  | add => .arith .add
  | sub => .arith .sub
  | mul => .arith .mul
  | div => .arith .div
  | mod => .arith .mod

theorem UnaryOp.opcode_plain (o : UnaryOp) : o.opcode.operandKind = .none := by
  cases o <;> rfl

theorem BinaryOp.opcode_plain (o : BinaryOp) : o.opcode.operandKind = .none := by
  cases o <;> rfl

def Code.op (o : Opcode) (plain : o.operandKind = .none := by rfl) : Code :=
  [.op o plain]

open Code (op)

namespace Tree

def sumCode (c : Bool) : Code :=
  if c then op .sum else []

def sortCode : Option SortOrder → Code
  | none => []
  | some order => op (.sort order)

/-- A file is opened whether or not there is a place behind its path; any other value is stored when
there is one. -/
def Source.storeCode (target : Bool) : Source → Code
  | .openFile access _ => op (.openFile access)
  | _ => if target then op .store else []

mutual

/-- A nested print keeps its value, one at the toplevel does not. -/
def Expr.code (nested : Bool) : Expr → Code
  | .print none value => value.code true ++ (if nested then [.copy] else []) ++ op .print
  | .print (some target) value =>
    value.code true ++ (if nested then [.copy] else []) ++ target.code ++ op .filePrint
  | .close handle => handle.code ++ op .close
  | .choose cs none => [.choose (clauseCode cs) [.push 0]]
  | .choose cs (some e) => [.choose (clauseCode cs) (e.code true)]
  | .store source none => source.code ++ source.storeCode false
  | .store source (some target) => source.code ++ target.code ++ source.storeCode true

def clauseCode : List Clause → List Branch
  | [] => []
  | ⟨condition, result⟩ :: cs => ⟨condition.code true, result.code true⟩ :: clauseCode cs

def Source.code : Source → Code
  | .math m => m.code
  | .prompt => op .read
  | .fileLine handle => handle.code ++ op .fileRead
  | .openFile _ path => path.code

def Math.code : Math → Code
  | .term t => t.code true
  | .unary o operand => operand.code true ++ op o.opcode o.opcode_plain
  | .binary o left right => left.code ++ right.code ++ op o.opcode o.opcode_plain

/-- With `reduce` a pool is summed at the end, unless it was counted. A group around a pool hands on
the dice when modifiers, its own or outer ones, still need them. Under dice that are rolled again
their sides are kept. -/
def Term.code (reduce : Bool) : Term → Code
  | ⟨.roll count sides, mods⟩ =>
    sides.scalarCode ++ (if mods.reroll.isSome then [.copy] else []) ++ count.scalarCode ++
      op .roll ++ mods.code ++ sumCode (reduce && mods.check.isNone)
  | ⟨.atom a, mods⟩ =>
    match if !mods.isEmpty || !reduce then a.poolCode? else none with
    | some pool => pool ++ mods.code ++ sumCode (reduce && mods.check.isNone)
    | none => a.code ++ mods.code
  | ⟨.load place, mods⟩ => place.code ++ op .load ++ mods.code
  | ⟨.list items, mods⟩ => itemCode items ++ [.list items.length] ++ mods.code

def itemCode : List Expr → Code
  | [] => []
  | e :: es => e.code true ++ itemCode es

def Atom.code : Atom → Code
  | .number x => [.push x]
  | .group e => e.code true

/-- An atom as one number; a literal is one already. -/
def Atom.scalarCode : Atom → Code
  | .number x => [.push x]
  | .group e => e.code true ++ op .sum

/-- The code that leaves the single dice of a group around a pool. -/
def Atom.poolCode? : Atom → Option Code
  | .number _ => none
  | .group e => e.poolCode?

def Expr.poolCode? : Expr → Option Code
  | .store (.math (.term t)) none => if t.isPool then some (t.code false) else none
  | _ => none

/-- The sides are pushed first. -/
def Place.code : Place → Code
  | ⟨count, sides⟩ => sides.scalarCode ++ count.scalarCode

/-- Sorting comes first, then the selection, then the reroll, then the check. -/
def Modifiers.code : Modifiers → Code
  | ⟨sort, select, reroll, check⟩ =>
    sortCode sort ++ selectCode select ++ rerollCode reroll ++ checkCode check

def selectCode : Option Selection → Code
  | none => []
  | some ⟨selector, count⟩ => count.code ++ op (.select selector)

def rerollCode : Option Reroll → Code
  | none => []
  | some ⟨once, ⟨relation, threshold⟩⟩ => threshold.code ++ op (.reroll once relation)

def checkCode : Option Comparison → Code
  | none => []
  | some ⟨relation, threshold⟩ => threshold.code ++ op (.count relation)

end

/-- The code of toplevel expressions. Every value is dropped, except perhaps the last. -/
def toplevelCode (mode : Toplevel) : List Expr → Code
  | [] => []
  | e :: es =>
    e.code false ++
      (if e.isPrint || (mode == .keepLast && es.isEmpty) then [] else op .pop) ++
      toplevelCode mode es

def Script.code (mode : Toplevel) (s : Script) : Code :=
  toplevelCode mode s.body

def Script.items (mode : Toplevel) (s : Script) : List Item :=
  codeItems 0 (s.code mode)

end Tree

def Script.items (mode : Toplevel) (s : Script) : List Item :=
  s.tree.items mode

inductive CompileError where
  | parse (e : ParseError)
  | assembly (e : AssemblyError)
deriving DecidableEq

def CompileError.message : CompileError → String
  | parse e => e.message
  | assembly e => e.message

def compile (mode : Toplevel) (source : String) : Except CompileError Program :=
  match parse (tokenize source) with
  | .error e => .error (.parse e)
  | .ok script =>
    match assemble (script.items mode) with
    | .error e => .error (.assembly e)
    | .ok program => .ok program

end DiceScript
