import DiceScript.Proofs.Code.Layout

/-!
# Moving code

Code that is laid out further on is the same code with every jump address raised. So the layout of
two codes in a row is that of the first, followed by that of the second with its addresses raised.
-/

namespace DiceScript

def Immediate.raise (k : Nat) : Immediate → Immediate
  | .address target => .address (target + k)
  | imm => imm

/-- An instruction in code that was moved `k` places on. -/
def Instruction.raise (k : Nat) (i : Instruction) : Instruction :=
  ⟨i.op, i.imm.raise k⟩

@[simp] theorem Instruction.raise_op (k : Nat) (i : Instruction) : (i.raise k).op = i.op := rfl

@[simp] theorem Instruction.raise_address (k : Nat) (o : Opcode) (target : Nat) :
    Instruction.raise k ⟨o, .address target⟩ = ⟨o, .address (target + k)⟩ := rfl

mutual

theorem Block.layout_add (a k : Nat) :
    ∀ b : Block, b.layout (a + k) = (b.layout a).map (Instruction.raise k)
  | .op _ _ | .push _ | .copy | .list _ => rfl
  | .choose bs e => by
    rw [Block.layout, Block.layout, Nat.add_right_comm, branchLayout_add, Nat.add_right_comm,
      codeLayout_add, List.map_append]

theorem branchLayout_add (finish a k : Nat) : ∀ bs : List Branch,
    branchLayout (finish + k) (a + k) bs = (branchLayout finish a bs).map (Instruction.raise k)
  | [] => rfl
  | ⟨c, r⟩ :: bs => by
    have hr : a + k + codeSize c + 1 = a + codeSize c + 1 + k := by omega
    have hbs : a + codeSize c + 1 + k + codeSize r + 1 =
        a + codeSize c + 1 + codeSize r + 1 + k := by omega
    simp only [branchLayout, hr, hbs, codeLayout_add a k c, codeLayout_add _ k r,
      branchLayout_add finish _ k bs, List.map_append, List.map_cons, Instruction.raise_address]

theorem codeLayout_add (a k : Nat) :
    ∀ c : List Block, codeLayout (a + k) c = (codeLayout a c).map (Instruction.raise k)
  | [] => rfl
  | b :: c => by
    rw [codeLayout, codeLayout, b.layout_add, Nat.add_right_comm, codeLayout_add, List.map_append]

end

/-- One program behind another, with its jumps raised to where it stands. -/
def Program.andThen (p q : Program) : Program :=
  ⟨p.code ++ q.code.map (Instruction.raise p.code.length)⟩

theorem codeLayout_append_eq_andThen (c d : Code) :
    (⟨codeLayout 0 (c ++ d)⟩ : Program) = Program.andThen ⟨codeLayout 0 c⟩ ⟨codeLayout 0 d⟩ := by
  rw [codeLayout_append, codeLayout_add, Program.andThen, codeLayout_length]

end DiceScript
