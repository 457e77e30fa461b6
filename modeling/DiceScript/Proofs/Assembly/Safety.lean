import DiceScript.Proofs.Assembly.Renaming
import DiceScript.Proofs.Assembly.Verdict
import DiceScript.Proofs.Machine.Faults

/-!
# Assembled programs are safe

Every instruction of an assembled program carries an operand of the kind that its opcode wants, and
every jump goes to a place in the code or just behind it. So a run of the program, however long and
from whatever state, neither jumps out of the code nor misses an operand, except where an
instruction counts stack entries and its count is negative.
-/

namespace DiceScript

namespace Opcode

theorem eq_of_operandKind_int {op : Opcode} (hop : op.operandKind = .int) :
    op = .dup ∨ op = .list := by
  cases op with
  | dup => exact .inl rfl
  | list => exact .inr rfl
  | _ => cases hop

theorem eq_of_operandKind_num {op : Opcode} (hop : op.operandKind = .num) : op = .push := by
  cases op with
  | push => rfl
  | _ => cases hop

theorem eq_of_operandKind_text {op : Opcode} (hop : op.operandKind = .text) : op = .pushText := by
  cases op with
  | pushText => rfl
  | _ => cases hop

end Opcode

section Instructions

variable {items : List Item} {x : Opcode × Operand} {i : Instruction}

/-- An instruction can read what it was resolved to, unless it counts and the count is negative. -/
theorem Becomes.negative_of_lacksOperand (hx : Becomes items x i) (hi : i.LacksOperand) :
    (i.op = .dup ∨ i.op = .list) ∧ ∃ n < 0, i.imm = .int n := by
  unfold Instruction.LacksOperand at hi
  cases hx with
  | none hkind => simp [hkind] at hi
  | @int op n hkind =>
      refine ⟨Opcode.eq_of_operandKind_int hkind, n, ?_, rfl⟩
      simpa [hkind, Instruction.count?] using hi
  | num hkind =>
      obtain rfl := Opcode.eq_of_operandKind_num hkind
      cases hi
  | intAsNum hkind =>
      obtain rfl := Opcode.eq_of_operandKind_num hkind
      cases hi
  | text hkind =>
      obtain rfl := Opcode.eq_of_operandKind_text hkind
      cases hi
  | label hkind _ => simp [hkind, Instruction.target?] at hi

theorem DefinedAt.le_length {l : Label} {address : Nat} (h : DefinedAt items l address) :
    address ≤ (instructions items).length := by
  obtain ⟨before, after, rfl, rfl⟩ := h
  rw [length_instructions, length_instructions, instructionCount_append]
  exact Nat.le_add_right _ _

theorem Becomes.target_le (hx : Becomes items x i) {target : Nat} (hi : i.imm = .address target) :
    target ≤ (instructions items).length := by
  cases hx with
  | label _ hdefined =>
      cases hi
      exact hdefined.le_length
  | _ => cases hi

theorem exists_becomes_of_mem {xs : List (Opcode × Operand)} {is : List Instruction}
    (his : List.Forall₂ (Becomes items) xs is) (hi : i ∈ is) : ∃ x, Becomes items x i := by
  induction his with
  | nil => cases hi
  | @cons x j _ _ hx _ ih =>
      rcases List.mem_cons.mp hi with rfl | hi
      · exact ⟨x, hx⟩
      · exact ih hi

end Instructions

/-- No run of the program jumps out of the code, and none misses an operand but the count of a `DUP`
or `MLIST`, where that is negative. -/
def Program.RunsSafely (p : Program) : Prop :=
  ∀ (σ : Type) (h : Host (StateM σ)) (limits : Limits) (fuel : Nat) (s : Machine h) (env : σ)
    (e : RuntimeError), (((Machine.run limits p fuel).run s).run env).1.1 = some (.error e) →
    (∀ target, e.fault ≠ .invalidJump target) ∧
      ∀ op, e.fault = .badOperand op →
        (op = .dup ∨ op = .list) ∧ ∃ n < 0, p.code[e.address]? = some ⟨op, .int n⟩

/-- The error of a run is the error of its last turn, or the refusal of a file that was left open. -/
theorem Machine.isOf_of_run {σ : Type} {h : Host (StateM σ)} {limits : Limits} {p : Program}
    {fuel : Nat} {s : Machine h} {env : σ} {e : RuntimeError}
    (hrun : (((Machine.run limits p fuel).run s).run env).1.1 = some (.error e)) :
    e.IsOf p.code.toArray ∨ ∃ refusal, e.fault = .host refusal := by
  rcases hc : Config.run limits p.code.toArray fuel ⟨0, s, env⟩ with ⟨⟨_ | (e' | ⟨⟩), k⟩, env'⟩
  · rw [Machine.run_eq, hc] at hrun
    cases hrun
  · rw [Machine.run_of_error hc] at hrun
    cases hrun
    exact .inl (Config.isOf_of_run (congrArg (·.1.1) hc))
  · cases hclosing : State.closing k.toState env' with
    | ok =>
        rw [Machine.run_of_ok hc hclosing] at hrun
        cases hrun
    | error refusal =>
        rw [Machine.run_of_refused hc hclosing] at hrun
        cases hrun
        exact .inr ⟨refusal, rfl⟩

variable {items : List Item}

theorem runsSafely_of_becomes {p : Program}
    (hp : List.Forall₂ (Becomes items) (instructions items) p.code) : p.RunsSafely := by
  intro σ h limits fuel s env e hrun
  obtain ⟨i, hi, hfault⟩ | ⟨refusal, hrefusal⟩ := Machine.isOf_of_run hrun
  case inr =>
    rw [hrefusal]
    exact ⟨nofun, nofun⟩
  rw [List.getElem?_toArray] at hi
  obtain ⟨x, hx⟩ := exists_becomes_of_mem hp (List.mem_of_getElem? hi)
  have hlength := hp.length_eq
  rcases hfault with hmeet | ⟨target, himm, hlt, -⟩
  · constructor
    · intro target htarget
      rw [htarget] at hmeet
      cases hmeet with
      | script hscript => cases hscript
    · intro op hop
      rw [hop] at hmeet
      cases hmeet with
      | script hscript => cases hscript
      | operand hlacks =>
          obtain ⟨hcounts, n, hn, himm⟩ := hx.negative_of_lacksOperand hlacks
          exact ⟨hcounts, n, hn, hi.trans (congrArg some (congrArg (Instruction.mk i.op) himm))⟩
  · have hle := hx.target_le himm
    rw [List.size_toArray] at hlt
    omega

/-- Assembling resolves labels exactly: it fails on a label that is defined twice, before anything
else, then on the first instruction that cannot be resolved, and otherwise makes one instruction of
each. What labels are called plays no role, and the programs that come of it are safe to run. -/
structure ResolvesExactly (items : List Item) : Prop where
  duplicate : (∃ l, assemble items = .error (.duplicateLabel l)) ↔ ∃ l, 2 ≤ items.count (.label l)
  repeated : ∀ l, assemble items = .error (.duplicateLabel l) ↔ FirstRepeated items l
  fails : (∀ l, items.count (.label l) ≤ 1) →
    ((∃ e, assemble items = .error e) ↔ ∃ i ∈ instructions items, ∃ e, Flaw items i e)
  flaw : (∀ l, items.count (.label l) ≤ 1) →
    ∀ e, assemble items = .error e ↔ FirstFlaw items (instructions items) e
  succeeds : (∀ l, items.count (.label l) ≤ 1) → (∀ i ∈ instructions items, ∀ e, ¬ Flaw items i e) →
    ∃ p, assemble items = .ok p ∧ List.Forall₂ (Becomes items) (instructions items) p.code
  renamed : ∀ f, Set.InjOn f {l | ∃ i ∈ items, l ∈ i.labels} →
    assemble (items.map (Item.rename f)) = (assemble items).mapError (AssemblyError.rename f)
  safe : ∀ p, assemble items = .ok p → p.RunsSafely

variable (items) in
theorem assemble_resolvesExactly : ResolvesExactly items := by
  have hfails : (∀ l, items.count (.label l) ≤ 1) →
      ((∃ e, assemble items = .error e) ↔ ∃ i ∈ instructions items, ∃ e, Flaw items i e) := by
    intro hcount
    rw [← exists_firstFlaw_iff]
    exact exists_congr fun e => assemble_eq_error_iff (nodup_definedLabels_iff.mpr hcount)
  refine ⟨exists_duplicateLabel_iff, fun l => assemble_eq_duplicateLabel_iff, hfails, ?_, ?_, ?_, ?_⟩
  · intro hcount e
    exact assemble_eq_error_iff (nodup_definedLabels_iff.mpr hcount)
  · intro hcount hnone
    cases hp : assemble items with
    | ok p => exact ⟨p, rfl, (assemble_eq_ok_iff (nodup_definedLabels_iff.mpr hcount)).mp hp⟩
    | error e =>
        obtain ⟨i, hi, e', hflaw⟩ := (hfails hcount).mp ⟨e, hp⟩
        exact absurd hflaw (hnone i hi e')
  · exact fun f hinj => assemble_rename hinj
  · intro p hp
    exact runsSafely_of_becomes ((assemble_eq_ok_iff (nodup_of_assemble hp)).mp hp)

end DiceScript
