import DiceScript.Assembly

/-!
# Structured code

Code before it has labels: instructions in order, and choices between codes. Labels are numbered
upward in the order in which choices need them, one for the end of a choice and one for each branch.
-/

namespace DiceScript

mutual

/-- A part of structured code. -/
inductive Block where
  | op (o : Opcode) (plain : o.operandKind = .none)
  | push (x : Double)
  /-- Push the top value again. -/
  | copy
  /-- Take the `n` top values off as one list. -/
  | list (n : Nat)
  /-- The result of the first branch whose condition is true, else what comes last. -/
  | choose (branches : List Branch) (otherwise : List Block)

structure Branch where
  condition : List Block
  result : List Block

end

abbrev Code := List Block

mutual

/-- How many labels a block needs. -/
def Block.labels : Block → Nat
  | .choose bs e => 1 + branchLabels bs + codeLabels e
  | _ => 0

def branchLabels : List Branch → Nat
  | [] => 0
  | ⟨c, r⟩ :: bs => 1 + codeLabels c + codeLabels r + branchLabels bs

def codeLabels : List Block → Nat
  | [] => 0
  | b :: c => b.labels + codeLabels c

end

mutual

/-- Symbolic code whose labels are numbered from `n` on. -/
def Block.items (n : Nat) : Block → List Item
  | .op o _ => [.instr o .none]
  | .push x => [.instr .push (.num x)]
  | .copy => [.instr .dup (.int 1)]
  | .list k => [.instr .list (.int k)]
  | .choose bs e =>
    branchItems ⟨n⟩ (n + 1) bs ++ (codeItems (n + 1 + branchLabels bs) e ++ [.label ⟨n⟩])

/-- Branches that go on to `finish` when one of them applies. -/
def branchItems (finish : Label) (n : Nat) : List Branch → List Item
  | [] => []
  | ⟨c, r⟩ :: bs =>
    codeItems (n + 1) c ++ (.instr .jumpIfFalse (.label ⟨n⟩) ::
      (codeItems (n + 1 + codeLabels c) r ++ (.instr .jump (.label finish) :: .label ⟨n⟩ ::
        branchItems finish (n + 1 + codeLabels c + codeLabels r) bs)))

def codeItems (n : Nat) : List Block → List Item
  | [] => []
  | b :: c => b.items n ++ codeItems (n + b.labels) c

end

end DiceScript
