import DiceScript.Proofs.Compile.Halting

/-!
# Immediates of compiled code

The integers in compiled code count values on the stack, and each value takes at least one
instruction. So neither they nor the addresses are greater than the length of the program.
-/

namespace DiceScript

open Code (op)

/-- The integer or the address in an immediate is at most `n`. -/
def Immediate.AtMost (n : Nat) : Immediate → Prop
  | .int k => 0 ≤ k ∧ k ≤ n
  | .address target => target ≤ n
  | _ => True

/-- Wherever the code stands, its immediates are at most the address behind it. -/
def Bounded (c : Code) : Prop :=
  ∀ n a, a + codeSize c ≤ n → ∀ i ∈ codeLayout a c, i.imm.AtMost n

def BoundedBranches (bs : List Branch) : Prop :=
  ∀ n finish a, finish ≤ n → a + branchSize bs ≤ n →
    ∀ i ∈ branchLayout finish a bs, i.imm.AtMost n

/-- Bounded code of at least one instruction. -/
structure Sized (c : Code) : Prop where
  bounded : Bounded c
  pos : 0 < codeSize c

namespace Bounded

variable {c d : Code}

theorem nil : Bounded [] := by
  intro n a _ i hi
  cases hi

theorem append (hc : Bounded c) (hd : Bounded d) : Bounded (c ++ d) := by
  intro n a hn i hi
  rw [codeSize_append] at hn
  rw [codeLayout_append] at hi
  rcases List.mem_append.mp hi with hi | hi
  · exact hc n a (by omega) i hi
  · exact hd n _ (by omega) i hi

theorem ite {b : Bool} (hc : Bounded c) (hd : Bounded d) : Bounded (if b then c else d) := by
  cases b with
  | true => exact hc
  | false => exact hd

end Bounded

namespace Sized

variable {c d : Code}

theorem op (o : Opcode) (plain : o.operandKind = .none) : Sized (Code.op o plain) := by
  refine ⟨?_, Nat.one_pos⟩
  intro n a _ i hi
  obtain rfl := List.mem_singleton.mp hi
  trivial

theorem push (x : Double) : Sized [.push x] := by
  refine ⟨?_, Nat.one_pos⟩
  intro n a _ i hi
  obtain rfl := List.mem_singleton.mp hi
  trivial

theorem copy : Sized [.copy] := by
  refine ⟨?_, Nat.one_pos⟩
  intro n a hn i hi
  obtain rfl := List.mem_singleton.mp hi
  have hone : 1 ≤ n := Nat.le_trans (Nat.le_add_left 1 a) hn
  exact ⟨by decide, Int.ofNat_le.mpr hone⟩

theorem append (hc : Sized c) (hd : Bounded d) : Sized (c ++ d) := by
  refine ⟨hc.bounded.append hd, ?_⟩
  rw [codeSize_append]
  exact Nat.add_pos_left hc.pos _

/-- A list has at most as many items as there are instructions before it. -/
theorem list {k : Nat} (hc : Bounded c) (hk : k ≤ codeSize c) : Sized (c ++ [.list k]) := by
  refine ⟨?_, ?_⟩
  · intro n a hn i hi
    rw [codeSize_append] at hn
    rw [codeLayout_append] at hi
    rcases List.mem_append.mp hi with hi | hi
    · exact hc n a (by omega) i hi
    · obtain rfl := List.mem_singleton.mp hi
      have hkn : k ≤ n := by omega
      exact ⟨Int.natCast_nonneg k, Int.ofNat_le.mpr hkn⟩
  · rw [codeSize_append]
    exact Nat.add_pos_right _ Nat.one_pos

theorem choose {bs : List Branch} (hbs : BoundedBranches bs) (hc : Sized c) :
    Sized [.choose bs c] := by
  have hsize : codeSize [.choose bs c] = branchSize bs + codeSize c := rfl
  refine ⟨?_, ?_⟩
  · intro n a hn i hi
    rw [hsize] at hn
    have hmem : i ∈ branchLayout (a + (branchSize bs + codeSize c)) a bs ++
        codeLayout (a + branchSize bs) c := by simpa [codeLayout, Block.layout] using hi
    rcases List.mem_append.mp hmem with hi | hi
    · exact hbs n _ a hn (by omega) i hi
    · exact hc.bounded n _ (by omega) i hi
  · rw [hsize]
    exact Nat.add_pos_right _ hc.pos

end Sized

theorem BoundedBranches.nil : BoundedBranches [] := by
  intro n finish a _ _ i hi
  cases hi

theorem BoundedBranches.cons {c r : Code} {bs : List Branch} (hc : Bounded c) (hr : Bounded r)
    (hbs : BoundedBranches bs) : BoundedBranches (⟨c, r⟩ :: bs) := by
  intro n finish a hfinish hn i hi
  rw [branchSize] at hn
  simp only [branchLayout, List.mem_append, List.mem_cons] at hi
  rcases hi with hi | rfl | hi | rfl | hi
  · exact hc n a (by omega) i hi
  · show a + codeSize c + 1 + codeSize r + 1 ≤ n
    omega
  · exact hr n _ (by omega) i hi
  · exact hfinish
  · exact hbs n finish _ hfinish (by omega) i hi

/-! ## Trees -/

theorem sumCode_bounded (b : Bool) : Bounded (Tree.sumCode b) :=
  .ite (Sized.op .sum rfl).bounded .nil

theorem sortCode_bounded : ∀ s : Option SortOrder, Bounded (Tree.sortCode s)
  | none => .nil
  | some order => (Sized.op (.sort order) rfl).bounded

mutual

theorem Expr.sized (nested : Bool) : ∀ e : Expr, Sized (e.code nested)
  | .print none value =>
    ((value.sized true).append (.ite Sized.copy.bounded .nil)).append (Sized.op .print rfl).bounded
  | .print (some target) value =>
    (((value.sized true).append (.ite Sized.copy.bounded .nil)).append target.sized.bounded).append
      (Sized.op .filePrint rfl).bounded
  | .close handle => handle.sized.append (Sized.op .close rfl).bounded
  | .choose cs none => .choose (clauses_bounded cs) (.push 0)
  | .choose cs (some e) => .choose (clauses_bounded cs) (e.sized true)
  | .store source none => by
    rw [Expr.code_value]
    exact source.sized
  | .store source (some target) => by
    rw [Expr.code_store]
    exact (source.sized.append target.sized.bounded).append (Sized.op .store rfl).bounded
  | .openFile access path handle =>
    (path.sized.append handle.sized.bounded).append (Sized.op (.openFile access) rfl).bounded

theorem clauses_bounded : ∀ cs : List Clause, BoundedBranches (clauseCode cs)
  | [] => .nil
  | ⟨condition, result⟩ :: cs =>
    .cons (condition.sized true).bounded (result.sized true).bounded (clauses_bounded cs)

theorem Source.sized : ∀ s : Source, Sized s.code
  | .math m => m.sized
  | .prompt => .op .read rfl
  | .fileLine handle => handle.sized.append (Sized.op .fileRead rfl).bounded

theorem Math.sized : ∀ m : Math, Sized m.code
  | .term t => t.sized true
  | .unary o operand => (operand.sized true).append (Sized.op _ o.opcode_plain).bounded
  | .binary o left right =>
    (left.sized.append right.sized.bounded).append (Sized.op _ o.opcode_plain).bounded

theorem Term.sized (reduce : Bool) : ∀ t : Term, Sized (t.code reduce)
  | ⟨.roll count sides reroll, mods⟩ => by
    rw [Term.code_roll]
    have hroll := sides.sized.append (.ite (b := reroll.isSome) Sized.copy.bounded .nil)
    have hcount := (hroll.append count.sized.bounded).append (Sized.op .roll rfl).bounded
    exact (hcount.append (mods.bounded (rerollCode_bounded reroll))).append (sumCode_bounded _)
  | ⟨.atom a, mods⟩ => by
    rw [Term.code_atom]
    split
    · rename_i pool hpool
      have hcode : a.poolCode? = some pool := by
        split at hpool
        · exact hpool
        · cases hpool
      exact ((a.sized_pool _ hcode).append (mods.bounded .nil)).append (sumCode_bounded _)
    · exact a.sized_code.append (mods.bounded .nil)
  | ⟨.load place, mods⟩ => by
    rw [Term.code_load]
    exact (place.sized.append (Sized.op .load rfl).bounded).append (mods.bounded .nil)
  | ⟨.list items, mods⟩ => by
    rw [Term.code_list]
    exact (Sized.list (items_bounded items) (items_length_le items)).append (mods.bounded .nil)

theorem items_bounded : ∀ es : List Expr, Bounded (itemCode es)
  | [] => .nil
  | e :: es => (e.sized true).bounded.append (items_bounded es)

theorem items_length_le : ∀ es : List Expr, es.length ≤ codeSize (itemCode es)
  | [] => Nat.le_refl 0
  | e :: es => by
    have hpos := (e.sized true).pos
    have hle := items_length_le es
    rw [itemCode_cons, codeSize_append, List.length_cons]
    omega

theorem Atom.sized_code : ∀ a : Atom, Sized a.code
  | .number x => .push x
  | .group e => e.sized true

theorem Atom.sized : ∀ a : Atom, Sized a.scalarCode
  | .number x => .push x
  | .group e => (e.sized true).append (Sized.op .sum rfl).bounded

theorem Atom.sized_pool : ∀ (a : Atom) (c : Code), a.poolCode? = some c → Sized c
  | .number _, _, hc => by cases hc
  | .group e, c, hc => e.sized_pool c hc

theorem Expr.sized_pool : ∀ (e : Expr) (c : Code), e.poolCode? = some c → Sized c
  | .store (.math (.term t)) none, c, hc => by
    rw [Expr.poolCode?_term] at hc
    split at hc
    · cases hc
      exact t.sized false
    · cases hc
  | .store (.math (.unary _ _)) none, _, hc | .store (.math (.binary _ _ _)) none, _, hc
  | .store .prompt none, _, hc | .store (.fileLine _) none, _, hc | .store _ (some _), _, hc
  | .print _ _, _, hc | .close _, _, hc | .choose _ _, _, hc | .openFile _ _ _, _, hc => by
    rw [Expr.poolCode?_eq_none (by nofun)] at hc
    cases hc

theorem Place.sized : ∀ p : Place, Sized p.code
  | ⟨count, sides⟩ => sides.sized.append count.sized.bounded

theorem Modifiers.bounded {again : Code} (hagain : Bounded again) :
    ∀ mods : Modifiers, Bounded (mods.code again)
  | ⟨sort, select, check⟩ =>
    (((sortCode_bounded sort).append (selectCode_bounded select)).append hagain).append
      (checkCode_bounded check)

theorem selectCode_bounded : ∀ s : Option Selection, Bounded (selectCode s)
  | none => .nil
  | some ⟨selector, count⟩ =>
    count.sized_code.bounded.append (Sized.op (.select selector) rfl).bounded

theorem rerollCode_bounded : ∀ r : Option Reroll, Bounded (rerollCode r)
  | none => .nil
  | some ⟨once, ⟨relation, threshold⟩⟩ =>
    threshold.sized_code.bounded.append (Sized.op (.reroll once relation) rfl).bounded

theorem checkCode_bounded : ∀ c : Option Comparison, Bounded (checkCode c)
  | none => .nil
  | some ⟨relation, threshold⟩ =>
    threshold.sized_code.bounded.append (Sized.op (.count relation) rfl).bounded

end

theorem toplevelCode_bounded (mode : Toplevel) : ∀ es : List Expr, Bounded (toplevelCode mode es)
  | [] => .nil
  | e :: es =>
    ((e.sized false).bounded.append (.ite .nil (Sized.op .pop rfl).bounded)).append
      (toplevelCode_bounded mode es)

theorem atMost_of_compile {mode : Toplevel} {source : String} {p : Program}
    (hp : compile mode source = .ok p) : ∀ i ∈ p.code, i.imm.AtMost p.code.length := by
  obtain ⟨script, -, rfl⟩ := compile_eq_ok.mp hp
  apply toplevelCode_bounded mode script.body
  rw [codeLayout_length]
  exact Nat.le_of_eq (Nat.zero_add _)

end DiceScript
