import DiceScript.Code
import DiceScript.Proofs.Assembly.Addresses

/-!
# The layout of structured code

Structured code laid out from an address on, with addresses in its jumps from the start. Assembling
the labelled form of the code gives this layout.
-/

namespace DiceScript

mutual

/-- How many instructions a block takes. -/
def Block.size : Block → Nat
  | .choose bs e => branchSize bs + codeSize e
  | _ => 1

def branchSize : List Branch → Nat
  | [] => 0
  | ⟨c, r⟩ :: bs => codeSize c + 1 + codeSize r + 1 + branchSize bs

def codeSize : List Block → Nat
  | [] => 0
  | b :: c => b.size + codeSize c

end

mutual

/-- The instructions of a block whose first one stands at `a`. -/
def Block.layout (a : Nat) : Block → List Instruction
  | .op o _ => [⟨o, .none⟩]
  | .push x => [⟨.push, .num x⟩]
  | .copy => [⟨.dup, .int 1⟩]
  | .list k => [⟨.list, .int k⟩]
  | .choose bs e =>
    branchLayout (a + (branchSize bs + codeSize e)) a bs ++ codeLayout (a + branchSize bs) e

/-- Branches that go on to address `finish` when one of them applies. -/
def branchLayout (finish a : Nat) : List Branch → List Instruction
  | [] => []
  | ⟨c, r⟩ :: bs =>
    let next := a + codeSize c + 1 + codeSize r + 1
    codeLayout a c ++ (⟨.jumpIfFalse, .address next⟩ ::
      (codeLayout (a + codeSize c + 1) r ++ (⟨.jump, .address finish⟩ ::
        branchLayout finish next bs)))

def codeLayout (a : Nat) : List Block → List Instruction
  | [] => []
  | b :: c => b.layout a ++ codeLayout (a + b.size) c

end

mutual

theorem Block.length_layout (a : Nat) : ∀ b : Block, (b.layout a).length = b.size
  | .op _ _ | .push _ | .copy | .list _ => rfl
  | .choose bs e => by
    rw [Block.layout, Block.size, List.length_append, branchLayout_length, codeLayout_length]

theorem branchLayout_length (finish a : Nat) :
    ∀ bs : List Branch, (branchLayout finish a bs).length = branchSize bs
  | [] => rfl
  | ⟨c, r⟩ :: bs => by
    simp only [branchLayout, branchSize, List.length_append, List.length_cons,
      codeLayout_length a c, codeLayout_length _ r, branchLayout_length _ _ bs]
    omega

theorem codeLayout_length (a : Nat) : ∀ c : List Block, (codeLayout a c).length = codeSize c
  | [] => rfl
  | b :: c => by
    rw [codeLayout, codeSize, List.length_append, b.length_layout, codeLayout_length]

end

theorem codeSize_append (c d : Code) : codeSize (c ++ d) = codeSize c + codeSize d := by
  induction c with
  | nil => simp [codeSize]
  | cons b c ih =>
      simp only [List.cons_append, codeSize, ih]
      omega

theorem codeLayout_append (a : Nat) (c d : Code) :
    codeLayout a (c ++ d) = codeLayout a c ++ codeLayout (a + codeSize c) d := by
  induction c generalizing a with
  | nil => rfl
  | cons b c ih => simp [codeLayout, codeSize, ih, Nat.add_assoc]

mutual

theorem Block.instructionCount_items (n : Nat) :
    ∀ b : Block, instructionCount (b.items n) = b.size
  | .op _ _ | .push _ | .copy | .list _ => rfl
  | .choose bs e => by
    simp only [Block.items, Block.size, instructionCount_append, branchItems_instructionCount,
      codeItems_instructionCount]
    rfl

theorem branchItems_instructionCount (finish : Label) (n : Nat) :
    ∀ bs : List Branch, instructionCount (branchItems finish n bs) = branchSize bs
  | [] => rfl
  | ⟨c, r⟩ :: bs => by
    simp only [branchItems, branchSize, instructionCount_append, instructionCount,
      codeItems_instructionCount _ c, codeItems_instructionCount _ r,
      branchItems_instructionCount _ _ bs]
    omega

theorem codeItems_instructionCount (n : Nat) :
    ∀ c : List Block, instructionCount (codeItems n c) = codeSize c
  | [] => rfl
  | b :: c => by
    rw [codeItems, codeSize, instructionCount_append, b.instructionCount_items,
      codeItems_instructionCount]

end

/-! ## Labels

The labels of code are distinct, and numbered from where the numbering starts to before where it
ends. -/

/-- Distinct labels with numbers from `n` up to, not including, `k`. -/
structure Numbered (n k : Nat) (ls : List Label) : Prop where
  nodup : ls.Nodup
  bounds : ∀ l ∈ ls, n ≤ l.id ∧ l.id < k

namespace Numbered

theorem nil (n k : Nat) : Numbered n k [] :=
  ⟨List.nodup_nil, by simp⟩

theorem cons {n k : Nat} {ls : List Label} (h : Numbered (n + 1) k ls) (hk : n < k) :
    Numbered n k (⟨n⟩ :: ls) := by
  refine ⟨List.nodup_cons.mpr ⟨fun hmem => ?_, h.nodup⟩, ?_⟩
  · exact Nat.lt_irrefl n (h.bounds _ hmem).1
  · intro l hl
    rcases List.mem_cons.mp hl with rfl | hl
    · exact ⟨Nat.le_refl _, hk⟩
    · exact ⟨Nat.le_of_succ_le (h.bounds l hl).1, (h.bounds l hl).2⟩

theorem append {n k j : Nat} {ls ms : List Label} (hl : Numbered n k ls) (hm : Numbered k j ms)
    (hnk : n ≤ k) (hkj : k ≤ j) : Numbered n j (ls ++ ms) := by
  refine ⟨List.nodup_append.mpr ⟨hl.nodup, hm.nodup, ?_⟩, ?_⟩
  · intro l h₁ m h₂ heq
    have hlt := (hl.bounds l h₁).2
    have hle := (hm.bounds m h₂).1
    rw [heq] at hlt
    omega
  · intro l h
    rcases List.mem_append.mp h with h | h
    · exact ⟨(hl.bounds l h).1, Nat.lt_of_lt_of_le (hl.bounds l h).2 hkj⟩
    · exact ⟨Nat.le_trans hnk (hm.bounds l h).1, (hm.bounds l h).2⟩

theorem perm {n k : Nat} {ls ms : List Label} (h : Numbered n k ls) (hp : ls.Perm ms) :
    Numbered n k ms :=
  ⟨hp.nodup_iff.mp h.nodup, fun l hl => h.bounds l (hp.mem_iff.mpr hl)⟩

end Numbered

mutual

theorem Block.numbered_items (n : Nat) :
    ∀ b : Block, Numbered n (n + b.labels) (definedLabels (b.items n))
  | .op _ _ | .push _ | .copy | .list _ => .nil _ _
  | .choose bs e => by
    have hbs := branchItems_numbered ⟨n⟩ (n + 1) bs
    have he := codeItems_numbered (n + 1 + branchLabels bs) e
    have hcons := (hbs.append he (by omega) (by omega)).cons (n := n) (by omega)
    have hperm : (⟨n⟩ :: (definedLabels (branchItems ⟨n⟩ (n + 1) bs) ++
        definedLabels (codeItems (n + 1 + branchLabels bs) e))).Perm
          (definedLabels ((Block.choose bs e).items n)) := by
      simp only [Block.items, definedLabels_append, definedLabels, ← List.append_assoc]
      exact (List.perm_append_singleton _ _).symm
    rw [Block.labels]
    convert hcons.perm hperm using 1
    omega

theorem branchItems_numbered (finish : Label) (n : Nat) : ∀ bs : List Branch,
    Numbered n (n + branchLabels bs) (definedLabels (branchItems finish n bs))
  | [] => .nil _ _
  | ⟨c, r⟩ :: bs => by
    have hc := codeItems_numbered (n + 1) c
    have hr := codeItems_numbered (n + 1 + codeLabels c) r
    have hbs := branchItems_numbered finish (n + 1 + codeLabels c + codeLabels r) bs
    have hcr := hc.append hr (by omega) (by omega)
    have hall := (hcr.append hbs (by omega) (by omega)).cons (n := n) (by omega)
    have hperm : (⟨n⟩ :: (definedLabels (codeItems (n + 1) c) ++
        definedLabels (codeItems (n + 1 + codeLabels c) r) ++
          definedLabels (branchItems finish (n + 1 + codeLabels c + codeLabels r) bs))).Perm
            (definedLabels (branchItems finish n (⟨c, r⟩ :: bs))) := by
      simp only [branchItems, definedLabels_append, definedLabels, ← List.append_assoc]
      exact List.perm_middle.symm
    convert hall.perm hperm using 1
    rw [branchLabels]
    omega

theorem codeItems_numbered (n : Nat) : ∀ c : List Block,
    Numbered n (n + codeLabels c) (definedLabels (codeItems n c))
  | [] => .nil _ _
  | b :: c => by
    have hb := b.numbered_items n
    have hc := codeItems_numbered (n + b.labels) c
    rw [codeItems, codeLabels, definedLabels_append, ← Nat.add_assoc]
    exact hb.append hc (by omega) (by omega)

end

end DiceScript
