import Mathlib
import DiceScript.Proofs.Assembly.Addresses

/-!
# What becomes of symbolic code

A label that is defined twice is complained of before anything else, then the first instruction that
cannot be resolved. Code without these flaws is assembled one instruction after the other.
-/

namespace DiceScript

/-- The instructions of symbolic code, without the labels between them. -/
def instructions : List Item → List (Opcode × Operand)
  | [] => []
  | .label _ :: items => instructions items
  | .instr op operand :: items => (op, operand) :: instructions items

/-- The label is defined behind so many instructions. -/
def DefinedAt (items : List Item) (l : Label) (address : Nat) : Prop :=
  ∃ before after, items = before ++ .label l :: after ∧ address = (instructions before).length

/-- Of the definitions that repeat an earlier one, the first is for this label. -/
def FirstRepeated (items : List Item) (l : Label) : Prop :=
  ∃ before after, items = before ++ .label l :: after ∧ (definedLabels before).Nodup ∧
    l ∈ definedLabels before

/-- Where an operand of the kind is wanted, the operand will do. -/
inductive OperandKind.Takes : OperandKind → Operand → Prop
  | none : Takes .none .none
  | int {n : Int} : Takes .int (.int n)
  | num {x : Double} : Takes .num (.num x)
  | intAsNum {n : Int} : Takes .num (.int n)
  | text {s : String} : Takes .text (.text s)
  | label {l : Label} : Takes .address (.label l)

/-- Why the instruction cannot be resolved among the items. -/
inductive Flaw (items : List Item) : Opcode × Operand → AssemblyError → Prop
  | operand {op : Opcode} {o : Operand} : ¬ op.operandKind.Takes o →
      Flaw items (op, o) (.badOperand op)
  | label {op : Opcode} {l : Label} : op.operandKind = .address → .label l ∉ items →
      Flaw items (op, .label l) (.unresolvedLabel l)

/-- The flaw of the first instruction that has one. -/
inductive FirstFlaw (items : List Item) : List (Opcode × Operand) → AssemblyError → Prop
  | here {i : Opcode × Operand} {is : List (Opcode × Operand)} {e : AssemblyError} :
      Flaw items i e → FirstFlaw items (i :: is) e
  | later {i : Opcode × Operand} {is : List (Opcode × Operand)} {e : AssemblyError} :
      (∀ e', ¬ Flaw items i e') → FirstFlaw items is e → FirstFlaw items (i :: is) e

/-- What an instruction becomes among the items. -/
inductive Becomes (items : List Item) : Opcode × Operand → Instruction → Prop
  | none {op : Opcode} : op.operandKind = .none → Becomes items (op, .none) ⟨op, .none⟩
  | int {op : Opcode} {n : Int} : op.operandKind = .int →
      Becomes items (op, .int n) ⟨op, .int n⟩
  | num {op : Opcode} {x : Double} : op.operandKind = .num →
      Becomes items (op, .num x) ⟨op, .num x⟩
  | intAsNum {op : Opcode} {n : Int} : op.operandKind = .num →
      Becomes items (op, .int n) ⟨op, .num (Binary64.ofInt n)⟩
  | text {op : Opcode} {s : String} : op.operandKind = .text →
      Becomes items (op, .text s) ⟨op, .text s⟩
  | label {op : Opcode} {l : Label} {address : Nat} : op.operandKind = .address →
      DefinedAt items l address → Becomes items (op, .label l) ⟨op, .address address⟩

/-! ## Definitions -/

section Definitions

variable {items : List Item}

theorem length_instructions (items : List Item) :
    (instructions items).length = instructionCount items := by
  induction items with
  | nil => rfl
  | cons x items ih => cases x <;> simp [instructions, instructionCount, ih]

theorem mem_instructions {op : Opcode} {o : Operand} :
    (op, o) ∈ instructions items ↔ .instr op o ∈ items := by
  induction items with
  | nil => simp [instructions]
  | cons x items ih => cases x <;> simp [instructions, ih]

theorem mem_definedLabels {l : Label} : l ∈ definedLabels items ↔ .label l ∈ items := by
  induction items with
  | nil => simp [definedLabels]
  | cons x items ih => cases x <;> simp [definedLabels, ih]

theorem count_definedLabels (l : Label) :
    (definedLabels items).count l = items.count (.label l) := by
  induction items with
  | nil => rfl
  | cons x items ih =>
      cases x with
      | label k => simp [definedLabels, List.count_cons, ih]
      | instr op o => simp [definedLabels, ih]

theorem nodup_definedLabels_iff :
    (definedLabels items).Nodup ↔ ∀ l, items.count (.label l) ≤ 1 := by
  rw [List.nodup_iff_count_le_one]
  exact forall_congr' fun l => by rw [count_definedLabels]

theorem mem_definitions {l : Label} {address start : Nat} :
    (l, address) ∈ definitions start items ↔ ∃ before after,
      items = before ++ .label l :: after ∧ address = start + (instructions before).length := by
  induction items generalizing start with
  | nil => simp [definitions]
  | cons x items ih =>
      cases x with
      | label k =>
          rw [definitions, List.mem_cons, ih]
          constructor
          · rintro (heq | ⟨before, after, rfl, haddress⟩)
            · cases heq
              exact ⟨[], items, rfl, rfl⟩
            · exact ⟨.label k :: before, after, rfl, haddress⟩
          · rintro ⟨before, after, hitems, haddress⟩
            cases before with
            | nil =>
                cases hitems
                exact .inl (Prod.ext rfl haddress)
            | cons y before =>
                cases hitems
                exact .inr ⟨before, after, rfl, haddress⟩
      | instr op o =>
          rw [definitions, ih]
          constructor
          · rintro ⟨before, after, rfl, haddress⟩
            refine ⟨.instr op o :: before, after, rfl, ?_⟩
            rw [instructions, List.length_cons]
            omega
          · rintro ⟨before, after, hitems, haddress⟩
            cases before with
            | nil => cases hitems
            | cons y before =>
                cases hitems
                rw [instructions, List.length_cons] at haddress
                exact ⟨before, after, rfl, by omega⟩

/-- Without a repeated label, the table of the first pass holds exactly the definitions. -/
theorem find?_definitions (hnodup : (definedLabels items).Nodup) (l : Label) (address : Nat) :
    (Table.empty.insertAll (definitions 0 items)).find? l = some address ↔
      DefinedAt items l address := by
  have hkeys := map_fst_definitions 0 items
  have hmem : (l, address) ∈ definitions 0 items ↔ DefinedAt items l address := by
    rw [mem_definitions]
    simp only [Nat.zero_add]
    rfl
  rw [← hmem]
  constructor
  · intro hfind
    by_cases hl : l ∈ definedLabels items
    · obtain ⟨⟨k, a⟩, hd, rfl⟩ := List.mem_map.mp (hkeys ▸ hl)
      rw [Table.find?_insertAll_of_mem (hkeys ▸ hnodup) hd] at hfind
      cases hfind
      exact hd
    · rw [Table.find?_insertAll_of_notMem (hkeys ▸ hl)] at hfind
      cases hfind
  · intro hd
    exact Table.find?_insertAll_of_mem (hkeys ▸ hnodup) hd _

/-- The first pass goes on with what it knows from the items before. -/
theorem labelAddresses_append {before : List Item} {address : Nat} {known t : Table Label Nat}
    (hbefore : labelAddresses address known before = .ok t) (after : List Item) :
    labelAddresses address known (before ++ after) =
      labelAddresses (address + instructionCount before) t after := by
  induction before generalizing address known with
  | nil =>
      cases hbefore
      rfl
  | cons x before ih =>
      cases x with
      | label l =>
          rw [labelAddresses] at hbefore
          rw [List.cons_append, labelAddresses]
          cases hfind : known.find? l with
          | some a => simp [hfind] at hbefore
          | none =>
              rw [hfind] at hbefore
              exact ih hbefore
      | instr op o =>
          rw [List.cons_append, labelAddresses, ih hbefore, instructionCount]
          congr 1
          omega

theorem labelAddresses_of_firstRepeated {l : Label} (h : FirstRepeated items l) :
    labelAddresses 0 .empty items = .error (.duplicateLabel l) := by
  obtain ⟨before, after, rfl, hnodup, hl⟩ := h
  have hknown := labelAddresses_eq_ok hnodup 0 .empty fun _ _ => rfl
  obtain ⟨left, right, hsplit⟩ := List.append_of_mem (mem_definedLabels.mp hl)
  have hfound : (l, 0 + (instructions left).length) ∈ definitions 0 before :=
    mem_definitions.mpr ⟨left, right, hsplit, rfl⟩
  have hfind := Table.find?_insertAll_of_mem (by rwa [map_fst_definitions]) hfound .empty
  rw [labelAddresses_append hknown, labelAddresses, hfind]

theorem exists_firstRepeated (hitems : ¬ (definedLabels items).Nodup) :
    ∃ l, FirstRepeated items l := by
  -- the items up to the repetition, one more at each step
  have hsplit : ∀ before after, (definedLabels before).Nodup →
      ¬ (definedLabels (before ++ after)).Nodup → ∃ l, FirstRepeated (before ++ after) l := by
    intro before after
    induction after generalizing before with
    | nil =>
        intro hbefore hall
        rw [List.append_nil] at hall
        exact absurd hbefore hall
    | cons x after ih =>
        intro hbefore hall
        have hmove : before ++ x :: after = (before ++ [x]) ++ after := by simp
        cases x with
        | label l =>
            by_cases hl : l ∈ definedLabels before
            · exact ⟨l, before, after, rfl, hbefore, hl⟩
            · rw [hmove] at hall ⊢
              refine ih _ ?_ hall
              rw [definedLabels_append]
              exact List.nodup_append_comm.mp (List.nodup_cons.mpr ⟨hl, hbefore⟩)
        | instr op o =>
            rw [hmove] at hall ⊢
            refine ih _ ?_ hall
            rw [definedLabels_append]
            simpa [definedLabels] using hbefore
  exact hsplit [] items .nil hitems

end Definitions

/-! ## Resolving -/

section Resolving

variable {items : List Item} {t : Table Label Nat}
  (ht : ∀ l address, t.find? l = some address ↔ DefinedAt items l address)
  {op : Opcode} {o : Operand}

theorem exists_definedAt {l : Label} : (∃ address, DefinedAt items l address) ↔ .label l ∈ items := by
  constructor
  · rintro ⟨address, before, after, rfl, -⟩
    simp
  · intro hl
    obtain ⟨before, after, rfl⟩ := List.append_of_mem hl
    exact ⟨_, before, after, rfl, rfl⟩

theorem resolve_of_not_takes (h : ¬ op.operandKind.Takes o) :
    resolve t op o = .error (.badOperand op) := by
  unfold resolve
  generalize op.operandKind = kind at h ⊢
  split
  · exact absurd .none h
  · exact absurd .int h
  · exact absurd .num h
  · exact absurd .intAsNum h
  · exact absurd .text h
  · exact absurd .label h
  · rfl

include ht

theorem resolve_eq_ok {i : Instruction} : resolve t op o = .ok i ↔ Becomes items (op, o) i := by
  constructor
  · intro hi
    unfold resolve at hi
    split at hi
    · cases hi
      exact .none ‹_›
    · cases hi
      exact .int ‹_›
    · cases hi
      exact .num ‹_›
    · cases hi
      exact .intAsNum ‹_›
    · cases hi
      exact .text ‹_›
    · split at hi
      · rename_i hfind
        cases hi
        exact .label ‹_› ((ht _ _).mp hfind)
      · cases hi
    · cases hi
  · intro hi
    cases hi with
    | label hkind hdefined => simp only [resolve, hkind, (ht _ _).mpr hdefined]
    | _ hkind => simp only [resolve, hkind]

theorem resolve_eq_error {e : AssemblyError} :
    resolve t op o = .error e ↔ Flaw items (op, o) e := by
  constructor
  · intro he
    by_cases htakes : op.operandKind.Takes o
    · unfold resolve at he
      generalize hkind : op.operandKind = kind at htakes he
      cases htakes with
      | @label l =>
          cases hfind : t.find? l with
          | some a => simp [hfind] at he
          | none =>
              dsimp only at he
              rw [hfind] at he
              cases he
              refine .label hkind fun hl => ?_
              obtain ⟨a, ha⟩ := exists_definedAt.mpr hl
              rw [(ht l a).mpr ha] at hfind
              cases hfind
      | _ => cases he
    · rw [resolve_of_not_takes htakes] at he
      cases he
      exact .operand htakes
  · intro he
    cases he with
    | operand htakes => exact resolve_of_not_takes htakes
    | @label _ l hkind hl =>
        have hfind : t.find? l = none := by
          rw [Option.eq_none_iff_forall_ne_some]
          intro a ha
          exact hl (exists_definedAt.mp ⟨a, (ht l a).mp ha⟩)
        simp only [resolve, hkind, hfind]

/-- An instruction without a flaw is resolved. -/
theorem exists_resolve (h : ∀ e, ¬ Flaw items (op, o) e) : ∃ i, resolve t op o = .ok i := by
  cases hi : resolve t op o with
  | ok i => exact ⟨i, rfl⟩
  | error e => exact absurd ((resolve_eq_error ht).mp hi) (h e)

theorem resolveAll_eq_ok {xs : List Item} {is : List Instruction} :
    resolveAll t xs = .ok is ↔ List.Forall₂ (Becomes items) (instructions xs) is := by
  induction xs generalizing is with
  | nil => simp [resolveAll, instructions, eq_comm]
  | cons x xs ih =>
      cases x with
      | label l => exact ih
      | instr op o =>
          rw [instructions, resolveAll_instr_eq_ok]
          constructor
          · rintro ⟨i, js, hi, hrest, rfl⟩
            exact .cons ((resolve_eq_ok ht).mp hi) (ih.mp hrest)
          · rintro (_ | ⟨hi, hrest⟩)
            exact ⟨_, _, (resolve_eq_ok ht).mpr hi, ih.mpr hrest, rfl⟩

theorem resolveAll_eq_error {xs : List Item} {e : AssemblyError} :
    resolveAll t xs = .error e ↔ FirstFlaw items (instructions xs) e := by
  induction xs with
  | nil =>
      constructor
      · intro he
        cases he
      · intro he
        cases he
  | cons x xs ih =>
      cases x with
      | label l => exact ih
      | instr op o =>
          rw [instructions, resolveAll_instr_eq_error]
          constructor
          · rintro (hi | ⟨⟨i, hi⟩, hrest⟩)
            · exact .here ((resolve_eq_error ht).mp hi)
            · refine .later (fun e' hflaw => ?_) (ih.mp hrest)
              rw [(resolve_eq_error ht).mpr hflaw] at hi
              cases hi
          · intro he
            cases he with
            | here hflaw => exact .inl ((resolve_eq_error ht).mpr hflaw)
            | later hnone hrest => exact .inr ⟨exists_resolve ht hnone, ih.mpr hrest⟩

end Resolving

/-! ## Assembling -/

section Assembling

variable {items : List Item}

theorem assemble_of_nodup (hnodup : (definedLabels items).Nodup) :
    ∃ t : Table Label Nat, (∀ l address, t.find? l = some address ↔ DefinedAt items l address) ∧
      assemble items = (resolveAll t items).map Program.mk := by
  refine ⟨_, find?_definitions hnodup, ?_⟩
  have hlabels := labelAddresses_eq_ok hnodup 0 .empty fun _ _ => rfl
  unfold assemble
  rw [hlabels]
  dsimp only [bind, Except.bind]
  cases resolveAll (Table.empty.insertAll (definitions 0 items)) items <;> rfl

theorem assemble_eq_ok_iff (hnodup : (definedLabels items).Nodup) {p : Program} :
    assemble items = .ok p ↔ List.Forall₂ (Becomes items) (instructions items) p.code := by
  obtain ⟨t, ht, hassemble⟩ := assemble_of_nodup hnodup
  rw [hassemble, ← resolveAll_eq_ok ht]
  cases resolveAll t items with
  | error e => simp [Except.map]
  | ok is =>
      simp only [Except.map, Except.ok.injEq]
      constructor
      · rintro rfl
        rfl
      · rintro rfl
        rfl

theorem assemble_eq_error_iff (hnodup : (definedLabels items).Nodup) {e : AssemblyError} :
    assemble items = .error e ↔ FirstFlaw items (instructions items) e := by
  obtain ⟨t, ht, hassemble⟩ := assemble_of_nodup hnodup
  rw [hassemble, ← resolveAll_eq_error ht]
  cases resolveAll t items <;> simp [Except.map]

theorem FirstFlaw.ne_duplicateLabel {is : List (Opcode × Operand)} {e : AssemblyError}
    (h : FirstFlaw items is e) (l : Label) : e ≠ .duplicateLabel l := by
  induction h with
  | here hflaw =>
      cases hflaw with
      | operand _ => exact nofun
      | label _ _ => exact nofun
  | later _ _ ih => exact ih

theorem assemble_eq_duplicateLabel_iff {l : Label} :
    assemble items = .error (.duplicateLabel l) ↔ FirstRepeated items l := by
  have hrepeated : ∀ k, FirstRepeated items k → assemble items = .error (.duplicateLabel k) := by
    intro k hk
    unfold assemble
    rw [labelAddresses_of_firstRepeated hk]
    rfl
  constructor
  · intro herror
    by_cases hnodup : (definedLabels items).Nodup
    · exact absurd rfl (((assemble_eq_error_iff hnodup).mp herror).ne_duplicateLabel l)
    · obtain ⟨k, hk⟩ := exists_firstRepeated hnodup
      have hsame := herror.symm.trans (hrepeated k hk)
      cases hsame
      exact hk
  · exact hrepeated l

/-- Assembling fails on a label that is defined twice, and on nothing else before that. -/
theorem exists_duplicateLabel_iff :
    (∃ l, assemble items = .error (.duplicateLabel l)) ↔ ∃ l, 2 ≤ items.count (.label l) := by
  have hrepeats : (∃ l, 2 ≤ items.count (.label l)) ↔ ¬ (definedLabels items).Nodup := by
    rw [nodup_definedLabels_iff, not_forall]
    exact exists_congr fun l => by omega
  rw [hrepeats]
  constructor
  · rintro ⟨l, hl⟩ hnodup
    exact absurd rfl (((assemble_eq_error_iff hnodup).mp hl).ne_duplicateLabel l)
  · intro hnodup
    obtain ⟨l, hl⟩ := exists_firstRepeated hnodup
    exact ⟨l, assemble_eq_duplicateLabel_iff.mpr hl⟩

theorem exists_firstFlaw_iff {is : List (Opcode × Operand)} :
    (∃ e, FirstFlaw items is e) ↔ ∃ i ∈ is, ∃ e, Flaw items i e := by
  induction is with
  | nil =>
      constructor
      · rintro ⟨e, h⟩
        cases h
      · rintro ⟨i, hi, -⟩
        cases hi
  | cons i is ih =>
      constructor
      · rintro ⟨e, h⟩
        cases h with
        | here hflaw => exact ⟨i, List.mem_cons_self, e, hflaw⟩
        | later _ hrest =>
            obtain ⟨j, hj, hflaw⟩ := ih.mp ⟨e, hrest⟩
            exact ⟨j, List.mem_cons_of_mem i hj, hflaw⟩
      · rintro ⟨j, hj, e, hflaw⟩
        by_cases hi : ∃ e', Flaw items i e'
        · obtain ⟨e', he'⟩ := hi
          exact ⟨e', .here he'⟩
        · rcases List.mem_cons.mp hj with rfl | hj
          · exact absurd ⟨e, hflaw⟩ hi
          · obtain ⟨e', hrest⟩ := ih.mpr ⟨j, hj, e, hflaw⟩
            exact ⟨e', .later (not_exists.mp hi) hrest⟩

/-- Code that assembles defines no label twice. -/
theorem nodup_of_assemble {p : Program} (hp : assemble items = .ok p) :
    (definedLabels items).Nodup := by
  by_contra hrepeats
  obtain ⟨l, hl⟩ := exists_firstRepeated hrepeats
  rw [assemble_eq_duplicateLabel_iff.mpr hl] at hp
  cases hp

/-- Code that assembles has an operand of the right kind in every instruction. -/
theorem takes_of_assemble {p : Program} (hp : assemble items = .ok p) {op : Opcode} {o : Operand}
    (hmem : .instr op o ∈ items) : op.operandKind.Takes o := by
  by_contra htakes
  obtain ⟨e, hflaw⟩ := exists_firstFlaw_iff.mpr
    ⟨(op, o), mem_instructions.mpr hmem, .badOperand op, .operand htakes⟩
  rw [(assemble_eq_error_iff (nodup_of_assemble hp)).mpr hflaw] at hp
  cases hp

end Assembling

end DiceScript
