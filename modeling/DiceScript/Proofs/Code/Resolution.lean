import DiceScript.Proofs.Code.Layout

/-!
# Resolving the labels of structured code

Every label of structured code is defined, once, so the code assembles. Its jumps go forward, to the
end of a branch or of a choice.
-/

namespace DiceScript

theorem resolve_plain (addresses : Table Label Nat) {o : Opcode} (h : o.operandKind = .none) :
    resolve addresses o .none = .ok ⟨o, .none⟩ := by
  unfold resolve
  simp [h]

theorem resolve_label {addresses : Table Label Nat} {o : Opcode} (h : o.operandKind = .address)
    {l : Label} {target : Nat} (hl : addresses.find? l = some target) :
    resolve addresses o (.label l) = .ok ⟨o, .address target⟩ := by
  unfold resolve
  simp [h, hl]

/-- A table that has the given addresses of labels. -/
def Knows (addresses : Table Label Nat) (ds : List (Label × Nat)) : Prop :=
  ∀ d ∈ ds, addresses.find? d.1 = some d.2

namespace Knows

variable {addresses : Table Label Nat} {ds es : List (Label × Nat)}

theorem left (h : Knows addresses (ds ++ es)) : Knows addresses ds :=
  fun d hd => h d (List.mem_append_left es hd)

theorem right (h : Knows addresses (ds ++ es)) : Knows addresses es :=
  fun d hd => h d (List.mem_append_right ds hd)

end Knows

theorem resolveAll_instr {addresses : Table Label Nat} {o : Opcode} {operand : Operand}
    {items : List Item} {i : Instruction} {is : List Instruction}
    (hi : resolve addresses o operand = .ok i) (his : resolveAll addresses items = .ok is) :
    resolveAll addresses (.instr o operand :: items) = .ok (i :: is) :=
  resolveAll_instr_eq_ok.mpr ⟨i, is, hi, his, rfl⟩

mutual

theorem Block.resolveAll_items {addresses : Table Label Nat} (n a : Nat) : ∀ b : Block,
    Knows addresses (definitions a (b.items n)) →
      resolveAll addresses (b.items n) = .ok (b.layout a)
  | .op _ plain, _ => resolveAll_instr (resolve_plain addresses plain) rfl
  | .push _, _ | .copy, _ | .list _, _ => rfl
  | .choose bs e, h => by
    simp only [Block.items, definitions_append, branchItems_instructionCount,
      codeItems_instructionCount, definitions] at h
    have hfinish : addresses.find? ⟨n⟩ = some (a + (branchSize bs + codeSize e)) := by
      rw [← Nat.add_assoc]
      exact h.right.right _ List.mem_cons_self
    have hbs := branchItems_resolveAll (n + 1) a hfinish bs h.left
    have he := codeItems_resolveAll _ _ e h.right.left
    have hend : resolveAll addresses [.label ⟨n⟩] = .ok [] := rfl
    rw [Block.items, Block.layout]
    exact resolveAll_append hbs (by simpa using resolveAll_append he hend)

theorem branchItems_resolveAll {addresses : Table Label Nat} {finish : Label} {target : Nat}
    (n a : Nat) (hfinish : addresses.find? finish = some target) : ∀ bs : List Branch,
    Knows addresses (definitions a (branchItems finish n bs)) →
      resolveAll addresses (branchItems finish n bs) = .ok (branchLayout target a bs)
  | [], _ => rfl
  | ⟨c, r⟩ :: bs, h => by
    simp only [branchItems, definitions_append, codeItems_instructionCount, definitions] at h
    have hc := codeItems_resolveAll (n + 1) a c h.left
    have hr := codeItems_resolveAll _ _ r h.right.left
    have hnext : addresses.find? ⟨n⟩ = some (a + codeSize c + 1 + codeSize r + 1) :=
      h.right.right _ List.mem_cons_self
    have hbs := branchItems_resolveAll _ _ hfinish bs
      fun d hd => h.right.right d (List.mem_cons_of_mem _ hd)
    have hjump := resolveAll_instr (resolve_label (o := .jump) rfl hfinish)
      (show resolveAll addresses (.label ⟨n⟩ :: _) = _ from hbs)
    rw [branchItems, branchLayout]
    exact resolveAll_append hc
      (resolveAll_instr (resolve_label rfl hnext) (resolveAll_append hr hjump))

theorem codeItems_resolveAll {addresses : Table Label Nat} (n a : Nat) : ∀ c : List Block,
    Knows addresses (definitions a (codeItems n c)) →
      resolveAll addresses (codeItems n c) = .ok (codeLayout a c)
  | [], _ => rfl
  | b :: c, h => by
    rw [codeItems, definitions_append, b.instructionCount_items] at h
    have hb := b.resolveAll_items n a h.left
    have hc := codeItems_resolveAll _ _ c h.right
    rw [codeItems, codeLayout]
    exact resolveAll_append hb hc

end

/-- Structured code assembles, and the result is its layout. -/
theorem assemble_codeItems (c : Code) : assemble (codeItems 0 c) = .ok ⟨codeLayout 0 c⟩ :=
  assemble_eq_ok (codeItems_numbered 0 c).nodup fun _ h => codeItems_resolveAll 0 0 c h

/-! ## Forward jumps -/

/-- Instructions from address `a` on whose jumps all go forward, up to address `b`. -/
def Forward (a b : Nat) (is : List Instruction) : Prop :=
  ∀ k i, is[k]? = some i → i.op = .jump ∨ i.op = .jumpIfFalse →
    ∃ target, i.imm = .address target ∧ a + k < target ∧ target ≤ b

namespace Forward

theorem nil (a b : Nat) : Forward a b [] := by
  intro k i hi
  simp at hi

theorem cons {a b : Nat} {i : Instruction} {is : List Instruction}
    (hi : i.op = .jump ∨ i.op = .jumpIfFalse → ∃ target, i.imm = .address target ∧ a < target ∧
      target ≤ b) (h : Forward (a + 1) b is) : Forward a b (i :: is) := by
  intro k j hj hop
  cases k with
  | zero =>
      obtain rfl : i = j := by simpa using hj
      exact hi hop
  | succ k =>
      obtain ⟨target, himm, hlt, hle⟩ := h k j (by simpa using hj) hop
      exact ⟨target, himm, by omega, hle⟩

theorem append {a b : Nat} {is js : List Instruction} (hi : Forward a b is)
    (hj : Forward (a + is.length) b js) : Forward a b (is ++ js) := by
  intro k i hk hop
  rcases Nat.lt_or_ge k is.length with hlt | hge
  · rw [List.getElem?_append_left hlt] at hk
    exact hi k i hk hop
  · rw [List.getElem?_append_right hge] at hk
    obtain ⟨target, himm, hlt, hle⟩ := hj _ i hk hop
    exact ⟨target, himm, by omega, hle⟩

theorem mono {a b c : Nat} {is : List Instruction} (h : Forward a b is) (hb : b ≤ c) :
    Forward a c is := by
  intro k i hk hop
  obtain ⟨target, himm, hlt, hle⟩ := h k i hk hop
  exact ⟨target, himm, hlt, Nat.le_trans hle hb⟩

/-- An instruction that does not jump. -/
theorem single {a b : Nat} {i : Instruction} (hi : i.op.operandKind ≠ .address) :
    Forward a b [i] := by
  refine cons (fun hop => ?_) (nil _ _)
  rcases hop with hop | hop <;> exact absurd (by rw [hop]; rfl) hi

end Forward

mutual

theorem Block.forward_layout (a : Nat) : ∀ b : Block, Forward a (a + b.size) (b.layout a)
  | .op o plain => .single (by simp [plain])
  | .push _ | .copy | .list _ => .single (by simp [Opcode.operandKind])
  | .choose bs e => by
    have hbs := branchLayout_forward (a + (branchSize bs + codeSize e)) a bs (by omega)
    have he := (codeLayout_forward (a + branchSize bs) e).mono (Nat.le_of_eq (Nat.add_assoc _ _ _))
    rw [Block.layout]
    exact hbs.append (by rwa [branchLayout_length])

/-- Branches jump to what follows them, or to the end of the choice, which is not before it. -/
theorem branchLayout_forward (finish a : Nat) : ∀ bs : List Branch,
    a + branchSize bs ≤ finish → Forward a finish (branchLayout finish a bs)
  | [], _ => .nil _ _
  | ⟨c, r⟩ :: bs, h => by
    rw [branchSize] at h
    have hc := (codeLayout_forward a c).mono (c := finish) (by omega)
    have hr := (codeLayout_forward (a + codeSize c + 1) r).mono (c := finish) (by omega)
    have hbs := branchLayout_forward finish (a + codeSize c + 1 + codeSize r + 1) bs (by omega)
    refine hc.append ?_
    rw [codeLayout_length]
    refine .cons (fun _ => ⟨_, rfl, by omega, by omega⟩) (hr.append ?_)
    rw [codeLayout_length]
    exact .cons (fun _ => ⟨_, rfl, by omega, by omega⟩) hbs

theorem codeLayout_forward (a : Nat) :
    ∀ c : List Block, Forward a (a + codeSize c) (codeLayout a c)
  | [] => .nil _ _
  | b :: c => by
    have hb := (b.forward_layout a).mono (c := a + codeSize (b :: c)) (by rw [codeSize]; omega)
    have hc := (codeLayout_forward (a + b.size) c).mono (c := a + codeSize (b :: c))
      (by rw [codeSize]; omega)
    exact hb.append (by rwa [b.length_layout])

end

end DiceScript
