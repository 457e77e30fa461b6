import Mathlib
import DiceScript.Proofs.Assembly.Addresses
import DiceScript.Proofs.Number.Whole

/-!
# Symbolic code with other labels

Symbolic code whose labels are renamed, and whose numbers are written in another way, assembles to
the same program. Two programs are the same when they differ in nothing but the signs of zeros.
-/

namespace DiceScript

/-! ## Sameness -/

/-- Numbers are compared as numbers, so that the two zeros are one. -/
def Immediate.Same : Immediate → Immediate → Prop
  | .num x, .num y => (x == y) = true
  | i, j => i = j

structure Instruction.Same (i j : Instruction) : Prop where
  op : i.op = j.op
  imm : i.imm.Same j.imm

def Program.Same (p q : Program) : Prop :=
  List.Forall₂ Instruction.Same p.code q.code

/-- The second operand says for an opcode of some kind what the first one says. An integer may have
become a number, where a number is wanted. -/
inductive Operand.ReadsAs (rename : Label → Label) (kind : OperandKind) : Operand → Operand → Prop
  | none : ReadsAs rename kind .none .none
  | int {n : Int} : kind = .int → ReadsAs rename kind (.int n) (.int n)
  | intAsNum {n : Int} : kind = .num → ReadsAs rename kind (.int n) (.num (Binary64.ofInt n))
  | num {x y : Double} : (x == y) = true → ReadsAs rename kind (.num x) (.num y)
  | text {s : String} : ReadsAs rename kind (.text s) (.text s)
  | label {l : Label} : ReadsAs rename kind (.label l) (.label (rename l))

inductive Item.ReadsAs (rename : Label → Label) : Item → Item → Prop
  | label {l : Label} : ReadsAs rename (.label l) (.label (rename l))
  | instr {op : Opcode} {a b : Operand} : a.ReadsAs rename op.operandKind b →
      ReadsAs rename (.instr op a) (.instr op b)

/-- The labels that an item mentions. -/
def Item.labels : Item → List Label
  | .label l => [l]
  | .instr _ (.label l) => [l]
  | .instr _ _ => []

/-! ## Assembling -/

section Assembling

variable {rename : Label → Label} {labels : Set Label}

/-- The second table has under their new names what the first one has of the labels. -/
def Renamed (rename : Label → Label) (labels : Set Label) (t t' : Table Label Nat) : Prop :=
  ∀ l ∈ labels, t'.find? (rename l) = t.find? l

theorem Renamed.insert (hinj : Set.InjOn rename labels) {t t' : Table Label Nat} {l : Label}
    (hl : l ∈ labels) (h : Renamed rename labels t t') (a : Nat) :
    Renamed rename labels (t.insert l a) (t'.insert (rename l) a) := by
  intro k hk
  rw [Table.find?_insert, Table.find?_insert, h k hk]
  by_cases heq : l = k
  · rw [if_pos heq, if_pos (congrArg rename heq)]
  · rw [if_neg heq, if_neg fun hrename => heq (hinj hl hk hrename)]

theorem labelAddresses_renamed (hinj : Set.InjOn rename labels) {items items' : List Item}
    (h : List.Forall₂ (Item.ReadsAs rename) items items')
    (hlabels : ∀ i ∈ items, ∀ l ∈ i.labels, l ∈ labels) {a : Nat} {known known' t : Table Label Nat}
    (hknown : Renamed rename labels known known') (ht : labelAddresses a known items = .ok t) :
    ∃ t', labelAddresses a known' items' = .ok t' ∧ Renamed rename labels t t' := by
  induction h generalizing a known known' with
  | nil =>
      cases ht
      exact ⟨known', rfl, hknown⟩
  | @cons i i' items items' hi _ ih =>
      obtain ⟨hhead, htail⟩ := List.forall_mem_cons.mp hlabels
      cases hi with
      | @label l =>
          have hl : l ∈ labels := hhead l List.mem_cons_self
          rw [labelAddresses] at ht ⊢
          rw [hknown l hl]
          cases hfind : known.find? l with
          | some _ => simp [hfind] at ht
          | none =>
              rw [hfind] at ht
              exact ih htail (hknown.insert hinj hl a) ht
      | instr _ => exact ih htail hknown ht

theorem resolve_renamed {t t' : Table Label Nat} (ht : Renamed rename labels t t') {op : Opcode}
    {a b : Operand} (h : a.ReadsAs rename op.operandKind b)
    (hlabels : ∀ l ∈ (Item.instr op a).labels, l ∈ labels) {i : Instruction}
    (hi : resolve t op a = .ok i) : ∃ i', resolve t' op b = .ok i' ∧ i.Same i' := by
  unfold resolve at hi ⊢
  generalize op.operandKind = kind at h hi ⊢
  cases h with
  | none =>
      cases kind <;> cases hi
      exact ⟨_, rfl, rfl, rfl⟩
  | int hkind =>
      cases hkind
      cases hi
      exact ⟨_, rfl, rfl, rfl⟩
  | @intAsNum n hkind =>
      cases hkind
      cases hi
      exact ⟨_, rfl, rfl, Binary64.beq_self (Binary64.isNumber_ofInt n)⟩
  | num hxy =>
      cases kind <;> cases hi
      exact ⟨_, rfl, rfl, hxy⟩
  | text =>
      cases kind <;> cases hi
      exact ⟨_, rfl, rfl, rfl⟩
  | @label l =>
      have hl := ht l (hlabels l List.mem_cons_self)
      cases kind with
      | address =>
          dsimp only at hi ⊢
          rw [hl]
          cases hfind : t.find? l with
          | none => simp [hfind] at hi
          | some target =>
              rw [hfind] at hi
              cases hi
              exact ⟨_, rfl, rfl, rfl⟩
      | none => cases hi
      | int => cases hi
      | num => cases hi
      | text => cases hi

theorem resolveAll_renamed {t t' : Table Label Nat} (ht : Renamed rename labels t t')
    {items items' : List Item} (h : List.Forall₂ (Item.ReadsAs rename) items items')
    (hlabels : ∀ i ∈ items, ∀ l ∈ i.labels, l ∈ labels) {is : List Instruction}
    (his : resolveAll t items = .ok is) :
    ∃ is', resolveAll t' items' = .ok is' ∧ List.Forall₂ Instruction.Same is is' := by
  induction h generalizing is with
  | nil =>
      cases his
      exact ⟨[], rfl, .nil⟩
  | @cons x x' items items' hx _ ih =>
      obtain ⟨hhead, htail⟩ := List.forall_mem_cons.mp hlabels
      cases hx with
      | label => exact ih htail his
      | @instr op a b hoperand =>
          obtain ⟨i, js, hi, hrest, rfl⟩ := resolveAll_instr_eq_ok.mp his
          obtain ⟨i', hi', hsame⟩ := resolve_renamed ht hoperand hhead hi
          obtain ⟨js', hjs', hsames⟩ := ih htail hrest
          exact ⟨i' :: js', resolveAll_instr_eq_ok.mpr ⟨i', js', hi', hjs', rfl⟩,
            .cons hsame hsames⟩

/-- Renaming labels does not change what is assembled. -/
theorem assemble_readsAs (hinj : Set.InjOn rename labels) {items items' : List Item}
    (h : List.Forall₂ (Item.ReadsAs rename) items items')
    (hlabels : ∀ i ∈ items, ∀ l ∈ i.labels, l ∈ labels) {p : Program}
    (hp : assemble items = .ok p) : ∃ p', assemble items' = .ok p' ∧ p.Same p' := by
  obtain ⟨t, ht, hcode⟩ := assemble_eq_ok_iff_resolveAll.mp hp
  have hempty : Renamed rename labels .empty .empty := fun _ _ => rfl
  obtain ⟨t', ht', hrenamed⟩ := labelAddresses_renamed hinj h hlabels hempty ht
  obtain ⟨code', hcode', hsame⟩ := resolveAll_renamed hrenamed h hlabels hcode
  exact ⟨⟨code'⟩, assemble_eq_ok_iff_resolveAll.mpr ⟨t', ht', hcode'⟩, hsame⟩

end Assembling

/-! ## Other names for labels -/

def Operand.rename (f : Label → Label) : Operand → Operand
  | .label l => .label (f l)
  | o => o

def Item.rename (f : Label → Label) : Item → Item
  | .label l => .label (f l)
  | .instr op o => .instr op (o.rename f)

def AssemblyError.rename (f : Label → Label) : AssemblyError → AssemblyError
  | .unresolvedLabel l => .unresolvedLabel (f l)
  | .duplicateLabel l => .duplicateLabel (f l)
  | e => e

section Renaming

variable {f : Label → Label} {labels : Set Label}

theorem labelAddresses_rename (hinj : Set.InjOn f labels) {items : List Item}
    (hitems : ∀ i ∈ items, ∀ l ∈ i.labels, l ∈ labels) {known known' : Table Label Nat}
    (hknown : Renamed f labels known known') (address : Nat) :
    match labelAddresses address known items with
    | .ok t => ∃ t', labelAddresses address known' (items.map (Item.rename f)) = .ok t' ∧
        Renamed f labels t t'
    | .error e =>
      labelAddresses address known' (items.map (Item.rename f)) = .error (e.rename f) := by
  induction items generalizing known known' address with
  | nil => exact ⟨known', rfl, hknown⟩
  | cons x items ih =>
      obtain ⟨hx, hrest⟩ := List.forall_mem_cons.mp hitems
      cases x with
      | instr op o => exact ih hrest hknown (address + 1)
      | label l =>
          have hl : l ∈ labels := hx l List.mem_cons_self
          rw [List.map_cons, Item.rename, labelAddresses, labelAddresses, hknown l hl]
          cases known.find? l with
          | some a => rfl
          | none => exact ih hrest (hknown.insert hinj hl address) address

theorem resolve_rename {t t' : Table Label Nat} (ht : Renamed f labels t t') {op : Opcode}
    {o : Operand} (ho : ∀ l ∈ (Item.instr op o).labels, l ∈ labels) :
    resolve t' op (o.rename f) = (resolve t op o).mapError (AssemblyError.rename f) := by
  unfold resolve
  cases o with
  | label l =>
      have hl := ht l (ho l List.mem_cons_self)
      rw [Operand.rename]
      cases op.operandKind with
      | address =>
          dsimp only
          rw [hl]
          cases t.find? l <;> rfl
      | _ => rfl
  | _ => cases op.operandKind <;> rfl

theorem resolveAll_rename {t t' : Table Label Nat} (ht : Renamed f labels t t')
    {items : List Item} (hitems : ∀ i ∈ items, ∀ l ∈ i.labels, l ∈ labels) :
    resolveAll t' (items.map (Item.rename f)) =
      (resolveAll t items).mapError (AssemblyError.rename f) := by
  induction items with
  | nil => rfl
  | cons x items ih =>
      obtain ⟨hx, hrest⟩ := List.forall_mem_cons.mp hitems
      cases x with
      | label l => exact ih hrest
      | instr op o =>
          rw [List.map_cons, Item.rename, resolveAll, resolveAll, resolve_rename ht hx, ih hrest]
          cases resolve t op o with
          | error e => rfl
          | ok i => cases resolveAll t items <;> rfl

/-- Labels with other names give the same program, and an error that has the other name. -/
theorem assemble_rename {items : List Item}
    (hinj : Set.InjOn f {l | ∃ i ∈ items, l ∈ i.labels}) :
    assemble (items.map (Item.rename f)) =
      (assemble items).mapError (AssemblyError.rename f) := by
  have hitems : ∀ i ∈ items, ∀ l ∈ i.labels, l ∈ {l | ∃ i ∈ items, l ∈ i.labels} :=
    fun i hi l hl => ⟨i, hi, hl⟩
  have hempty : Renamed f {l | ∃ i ∈ items, l ∈ i.labels} .empty .empty := fun _ _ => rfl
  have hlabels := labelAddresses_rename hinj hitems hempty 0
  unfold assemble
  cases ht : labelAddresses 0 .empty items with
  | error e =>
      rw [ht] at hlabels
      rw [hlabels]
      rfl
  | ok t =>
      rw [ht] at hlabels
      obtain ⟨t', ht', hrenamed⟩ := hlabels
      rw [ht']
      dsimp only [bind, Except.bind]
      rw [resolveAll_rename hrenamed hitems]
      cases resolveAll t items <;> rfl

end Renaming

end DiceScript
