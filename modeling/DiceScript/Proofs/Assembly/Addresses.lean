import DiceScript.Assembly
import Mathlib.Data.List.Nodup

/-!
# Addresses of labels

Each label of symbolic code names the address of the instruction after it. Assembling finds these
addresses in one pass and puts them in place of the labels in another.
-/

namespace DiceScript

def instructionCount : List Item → Nat
  | [] => 0
  | .label _ :: items => instructionCount items
  | .instr _ _ :: items => instructionCount items + 1

/-- The labels that items define, with their addresses, when the next instruction stands at `a`. -/
def definitions (a : Nat) : List Item → List (Label × Nat)
  | [] => []
  | .label l :: items => (l, a) :: definitions a items
  | .instr _ _ :: items => definitions (a + 1) items

def definedLabels : List Item → List Label
  | [] => []
  | .label l :: items => l :: definedLabels items
  | .instr _ _ :: items => definedLabels items

theorem instructionCount_append (xs ys : List Item) :
    instructionCount (xs ++ ys) = instructionCount xs + instructionCount ys := by
  induction xs with
  | nil => simp [instructionCount]
  | cons x xs ih =>
      cases x with
      | label l => simpa [instructionCount] using ih
      | instr o operand =>
          simp only [List.cons_append, instructionCount, ih]
          omega

theorem definitions_append (a : Nat) (xs ys : List Item) :
    definitions a (xs ++ ys) = definitions a xs ++ definitions (a + instructionCount xs) ys := by
  induction xs generalizing a with
  | nil => rfl
  | cons x xs ih =>
      cases x with
      | label l => simp [definitions, instructionCount, ih]
      | instr o operand =>
          simp only [List.cons_append, definitions, instructionCount, ih]
          congr 2
          omega

theorem definedLabels_append (xs ys : List Item) :
    definedLabels (xs ++ ys) = definedLabels xs ++ definedLabels ys := by
  induction xs with
  | nil => rfl
  | cons x xs ih => cases x <;> simp [definedLabels, ih]

theorem map_fst_definitions (a : Nat) (items : List Item) :
    (definitions a items).map Prod.fst = definedLabels items := by
  induction items generalizing a with
  | nil => rfl
  | cons x items ih => cases x <;> simp [definitions, definedLabels, ih]

namespace Table

variable {κ α : Type} [DecidableEq κ]

/-- The table with entries inserted one after the other. -/
def insertAll (t : Table κ α) (entries : List (κ × α)) : Table κ α :=
  entries.foldl (fun t e => t.insert e.1 e.2) t

theorem find?_insertAll_of_notMem {entries : List (κ × α)} {k : κ}
    (h : k ∉ entries.map Prod.fst) (t : Table κ α) :
    (t.insertAll entries).find? k = t.find? k := by
  induction entries generalizing t with
  | nil => rfl
  | cons e entries ih =>
      rw [List.map_cons, List.mem_cons, not_or] at h
      change ((t.insert e.1 e.2).insertAll entries).find? k = _
      rw [ih h.2, find?_insert, if_neg (Ne.symm h.1)]

theorem find?_insertAll_of_mem {entries : List (κ × α)} (hnodup : (entries.map Prod.fst).Nodup)
    {k : κ} {a : α} (h : (k, a) ∈ entries) (t : Table κ α) :
    (t.insertAll entries).find? k = some a := by
  induction entries generalizing t with
  | nil => simp at h
  | cons e entries ih =>
      rw [List.map_cons, List.nodup_cons] at hnodup
      change ((t.insert e.1 e.2).insertAll entries).find? k = _
      rcases List.mem_cons.mp h with rfl | h
      · rw [find?_insertAll_of_notMem hnodup.1, find?_insert_self]
      · exact ih hnodup.2 h _

end Table

/-- The first pass succeeds when no label is defined twice, and then knows every definition. -/
theorem labelAddresses_eq_ok {items : List Item} (hnodup : (definedLabels items).Nodup)
    (a : Nat) (known : Table Label Nat) (hnew : ∀ l ∈ definedLabels items, known.find? l = none) :
    labelAddresses a known items = .ok (known.insertAll (definitions a items)) := by
  induction items generalizing a known with
  | nil => rfl
  | cons x items ih =>
      cases x with
      | label l =>
          rw [definedLabels, List.nodup_cons] at hnodup
          have hl : known.find? l = none := hnew l List.mem_cons_self
          have hrest : ∀ l' ∈ definedLabels items, (known.insert l a).find? l' = none := by
            intro l' hl'
            have hne : l ≠ l' := fun h => hnodup.1 (h ▸ hl')
            rw [Table.find?_insert, if_neg hne]
            exact hnew l' (List.mem_cons_of_mem l hl')
          simp only [labelAddresses, hl]
          exact ih hnodup.2 a _ hrest
      | instr o operand => exact ih hnodup (a + 1) known hnew

section Resolving

variable {addresses : Table Label Nat} {op : Opcode} {operand : Operand} {items : List Item}

theorem resolveAll_instr_eq_ok {is : List Instruction} :
    resolveAll addresses (.instr op operand :: items) = .ok is ↔
      ∃ i js, resolve addresses op operand = .ok i ∧ resolveAll addresses items = .ok js ∧
        i :: js = is := by
  rw [resolveAll]
  cases resolve addresses op operand with
  | error e => simp [bind, Except.bind]
  | ok i => cases resolveAll addresses items <;> simp [bind, Except.bind, pure, Except.pure]

/-- The error of the first instruction hides those of the others. -/
theorem resolveAll_instr_eq_error {e : AssemblyError} :
    resolveAll addresses (.instr op operand :: items) = .error e ↔
      resolve addresses op operand = .error e ∨
        (∃ i, resolve addresses op operand = .ok i) ∧ resolveAll addresses items = .error e := by
  rw [resolveAll]
  cases resolve addresses op operand with
  | error e' => simp [bind, Except.bind]
  | ok i => cases resolveAll addresses items <;> simp [bind, Except.bind, pure, Except.pure]

theorem assemble_eq_ok_iff_resolveAll {p : Program} :
    assemble items = .ok p ↔
      ∃ t, labelAddresses 0 .empty items = .ok t ∧ resolveAll t items = .ok p.code := by
  unfold assemble
  cases labelAddresses 0 .empty items with
  | error e => simp [bind, Except.bind]
  | ok t =>
      cases hcode : resolveAll t items with
      | error e => simp [hcode, bind, Except.bind]
      | ok code =>
          cases p
          simp [hcode, bind, Except.bind, pure, Except.pure]

end Resolving

theorem resolveAll_append {addresses : Table Label Nat} {xs ys : List Item}
    {is js : List Instruction} (hx : resolveAll addresses xs = .ok is)
    (hy : resolveAll addresses ys = .ok js) :
    resolveAll addresses (xs ++ ys) = .ok (is ++ js) := by
  induction xs generalizing is with
  | nil =>
      cases hx
      exact hy
  | cons x xs ih =>
      cases x with
      | label l => exact ih hx
      | instr o operand =>
          obtain ⟨i, is', hi, hrest, rfl⟩ := resolveAll_instr_eq_ok.mp hx
          exact resolveAll_instr_eq_ok.mpr ⟨i, is' ++ js, hi, ih hrest, rfl⟩

/-- Symbolic code assembles when no label is defined twice and its instructions resolve in every
table that knows the labels defined in it. -/
theorem assemble_eq_ok {items : List Item} {code : List Instruction}
    (hnodup : (definedLabels items).Nodup)
    (hresolve : ∀ addresses : Table Label Nat,
      (∀ d ∈ definitions 0 items, addresses.find? d.1 = some d.2) →
        resolveAll addresses items = .ok code) :
    assemble items = .ok ⟨code⟩ := by
  have hlabels := labelAddresses_eq_ok hnodup 0 .empty (fun _ _ => rfl)
  have hcode := hresolve (Table.empty.insertAll (definitions 0 items)) fun d hd =>
    Table.find?_insertAll_of_mem (by rwa [map_fst_definitions]) hd _
  exact assemble_eq_ok_iff_resolveAll.mpr ⟨_, hlabels, hcode⟩

end DiceScript
