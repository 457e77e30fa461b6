import DiceScript.Proofs.Code.Placement
import DiceScript.Proofs.Compile.ScriptCode

/-!
# The terms that a program reduces

Most terms of a script are generated with reduction: operands, stored and printed values, items,
conditions and branches, and what modifiers and places ask for. Only the dice that a group hands on
are not. The code of each such term stands somewhere in the program.
-/

namespace DiceScript

open Code (op)

/-! ## Terms generated with reduction -/

mutual

/-- The terms in an expression whose code reduces them, with those inside of others. -/
def Expr.reduced : Expr → List Term
  | .print none value => value.reduced
  | .print (some target) value => value.reduced ++ target.reduced
  | .close handle => handle.reduced
  | .choose cs none => clausesReduced cs
  | .choose cs (some e) => clausesReduced cs ++ e.reduced
  | .store source none => source.reduced
  | .store source (some target) => source.reduced ++ target.reduced
  | .openFile _ path handle => path.reduced ++ handle.reduced

def clausesReduced : List Clause → List Term
  | [] => []
  | ⟨condition, result⟩ :: cs => condition.reduced ++ result.reduced ++ clausesReduced cs

def Source.reduced : Source → List Term
  | .math m => m.reduced
  | .prompt => []
  | .fileLine handle => handle.reduced

def Math.reduced : Math → List Term
  | .term t => t :: t.inner true
  | .unary _ operand => operand :: operand.inner true
  | .binary _ left right => left.reduced ++ right.reduced

/-- The terms that the code of a term reduces inside of it. The pool that a group hands on is not
among them. -/
def Term.inner (reduce : Bool) : Term → List Term
  | ⟨.roll count sides reroll, mods⟩ =>
    sides.reduced ++ count.reduced ++ mods.reduced (rerollReduced reroll)
  | ⟨.atom a, mods⟩ =>
    (match if !mods.isEmpty || !reduce then a.poolReduced? else none with
      | some ts => ts
      | none => a.reduced) ++ mods.reduced []
  | ⟨.load place, mods⟩ => place.reduced ++ mods.reduced []
  | ⟨.list items, mods⟩ => itemsReduced items ++ mods.reduced []

def itemsReduced : List Expr → List Term
  | [] => []
  | e :: es => e.reduced ++ itemsReduced es

def Atom.reduced : Atom → List Term
  | .number _ => []
  | .group e => e.reduced

def Atom.poolReduced? : Atom → Option (List Term)
  | .number _ => none
  | .group e => e.poolReduced?

def Expr.poolReduced? : Expr → Option (List Term)
  | .store (.math (.term t)) none => if t.isPool then some (t.inner false) else none
  | _ => none

def Place.reduced : Place → List Term
  | ⟨count, sides⟩ => sides.reduced ++ count.reduced

def Modifiers.reduced (reroll : List Term) : Modifiers → List Term
  | ⟨_, select, check⟩ => selectReduced select ++ reroll ++ checkReduced check

def selectReduced : Option Selection → List Term
  | none => []
  | some ⟨_, count⟩ => count.reduced

def rerollReduced : Option Reroll → List Term
  | none => []
  | some ⟨_, ⟨_, threshold⟩⟩ => threshold.reduced

def checkReduced : Option Comparison → List Term
  | none => []
  | some ⟨_, threshold⟩ => threshold.reduced

end

def toplevelReduced : List Expr → List Term
  | [] => []
  | e :: es => e.reduced ++ toplevelReduced es

def Script.reduced (script : Script) : List Term :=
  toplevelReduced script.body

/-! ## Code that contains the code of terms -/

/-- Wherever the code stands, the reducing code of each of the terms stands too. -/
def Contains (c : Code) (ts : List Term) : Prop :=
  ∀ code a, Placed code a (codeLayout a c) →
    ∀ t ∈ ts, ∃ b, Placed code b (codeLayout b (t.code true))

def BranchesContain (bs : List Branch) (ts : List Term) : Prop :=
  ∀ code finish a, Placed code a (branchLayout finish a bs) →
    ∀ t ∈ ts, ∃ b, Placed code b (codeLayout b (t.code true))

namespace Contains

variable {c d : Code} {ts us : List Term}

theorem nil : Contains c [] :=
  fun _ _ _ _ ht => nomatch ht

theorem self {t : Term} (h : Contains (t.code true) ts) : Contains (t.code true) (t :: ts) := by
  intro code a hplaced u hu
  rcases List.mem_cons.mp hu with rfl | hu
  · exact ⟨a, hplaced⟩
  · exact h code a hplaced u hu

theorem left (h : Contains c ts) : Contains (c ++ d) ts := by
  intro code a hplaced
  rw [codeLayout_append] at hplaced
  exact h code a hplaced.left

theorem right (h : Contains d ts) : Contains (c ++ d) ts := by
  intro code a hplaced
  rw [codeLayout_append] at hplaced
  have hright := hplaced.right
  rw [codeLayout_length] at hright
  exact h code _ hright

theorem both (h : Contains c ts) (h' : Contains c us) : Contains c (ts ++ us) := by
  intro code a hplaced t ht
  rcases List.mem_append.mp ht with ht | ht
  · exact h code a hplaced t ht
  · exact h' code a hplaced t ht

theorem append (hc : Contains c ts) (hd : Contains d us) : Contains (c ++ d) (ts ++ us) :=
  hc.left.both hd.right

theorem branches {bs : List Branch} (hbs : BranchesContain bs ts) :
    Contains [.choose bs c] ts := by
  intro code a hplaced
  rw [codeLayout, Block.layout] at hplaced
  exact hbs code _ a hplaced.left.left

theorem otherwise {bs : List Branch} (hc : Contains c ts) : Contains [.choose bs c] ts := by
  intro code a hplaced
  rw [codeLayout, Block.layout] at hplaced
  have hright := hplaced.left.right
  rw [branchLayout_length] at hright
  exact hc code _ hright

end Contains

namespace BranchesContain

theorem nil : BranchesContain [] [] :=
  fun _ _ _ _ _ ht => nomatch ht

theorem cons {c r : Code} {bs : List Branch} {ts us vs : List Term} (hc : Contains c ts)
    (hr : Contains r us) (hbs : BranchesContain bs vs) :
    BranchesContain (⟨c, r⟩ :: bs) (ts ++ us ++ vs) := by
  intro code finish a hplaced t ht
  rw [branchLayout] at hplaced
  have hjump := hplaced.right
  rw [codeLayout_length] at hjump
  have hafter := hjump.tail.right
  rw [codeLayout_length] at hafter
  rcases List.mem_append.mp ht with ht | ht
  · rcases List.mem_append.mp ht with ht | ht
    · exact hc code a hplaced.left t ht
    · exact hr code _ hjump.tail.left t ht
  · exact hbs code finish _ hafter.tail t ht

end BranchesContain

/-! ## Trees -/

mutual

theorem Expr.contains (nested : Bool) : ∀ e : Expr, Contains (e.code nested) e.reduced
  | .print none value => (value.contains true).left.left
  | .print (some target) value => ((value.contains true).left.append target.contains).left
  | .close handle => handle.contains.left
  | .choose cs none => .branches (clauses_contain cs)
  | .choose cs (some e) => .both (.branches (clauses_contain cs)) (.otherwise (e.contains true))
  | .store source none => by
    rw [Expr.code_value]
    exact source.contains
  | .store source (some target) => by
    rw [Expr.code_store]
    exact (source.contains.append target.contains).left
  | .openFile _ path handle => (path.contains.append handle.contains).left

theorem clauses_contain : ∀ cs : List Clause, BranchesContain (clauseCode cs) (clausesReduced cs)
  | [] => .nil
  | ⟨condition, result⟩ :: cs =>
    .cons (condition.contains true) (result.contains true) (clauses_contain cs)

theorem Source.contains : ∀ s : Source, Contains s.code s.reduced
  | .math m => m.contains
  | .prompt => .nil
  | .fileLine handle => handle.contains.left

theorem Math.contains : ∀ m : Math, Contains m.code m.reduced
  | .term t => (t.contains true).self
  | .unary _ operand => (operand.contains true).self.left
  | .binary _ left right => (left.contains.append right.contains).left

theorem Term.contains (reduce : Bool) : ∀ t : Term, Contains (t.code reduce) (t.inner reduce)
  | ⟨.roll count sides reroll, mods⟩ => by
    rw [Term.code_roll]
    exact ((sides.contains.left.append count.contains).left.append
      (mods.contains (reroll_contains reroll))).left
  | ⟨.atom a, mods⟩ => by
    rw [Term.code_atom, Term.inner]
    have hpassed : Option.Rel Contains (if !mods.isEmpty || !reduce then a.poolCode? else none)
        (if !mods.isEmpty || !reduce then a.poolReduced? else none) := by
      split
      · exact a.contains_pool
      · exact .none
    generalize (if !mods.isEmpty || !reduce then a.poolCode? else none) = pool,
      (if !mods.isEmpty || !reduce then a.poolReduced? else none) = ts at hpassed
    cases hpassed with
    | some hpool => exact (hpool.append (mods.contains .nil)).left
    | none => exact a.contains_code.append (mods.contains .nil)
  | ⟨.load place, mods⟩ => by
    rw [Term.code_load]
    exact place.contains.left.append (mods.contains .nil)
  | ⟨.list items, mods⟩ => by
    rw [Term.code_list]
    exact (items_contain items).left.append (mods.contains .nil)

theorem items_contain : ∀ es : List Expr, Contains (itemCode es) (itemsReduced es)
  | [] => .nil
  | e :: es => (e.contains true).append (items_contain es)

theorem Atom.contains_code : ∀ a : Atom, Contains a.code a.reduced
  | .number _ => .nil
  | .group e => e.contains true

theorem Atom.contains : ∀ a : Atom, Contains a.scalarCode a.reduced
  | .number _ => .nil
  | .group e => (e.contains true).left

/-- The code for the single dice of a group around nothing but a pool. -/
theorem Atom.contains_pool : ∀ a : Atom, Option.Rel Contains a.poolCode? a.poolReduced?
  | .number _ => .none
  | .group e => e.contains_pool

theorem Expr.contains_pool : ∀ e : Expr, Option.Rel Contains e.poolCode? e.poolReduced?
  | .store (.math (.term t)) none => by
    rw [Expr.poolCode?_term, Expr.poolReduced?]
    split
    · exact .some (t.contains false)
    · exact .none
  | .store (.math (.unary _ _)) none | .store (.math (.binary _ _ _)) none
  | .store .prompt none | .store (.fileLine _) none | .store _ (some _)
  | .print _ _ | .close _ | .choose _ _ | .openFile _ _ _ => by
    rw [Expr.poolCode?_eq_none (by nofun), Expr.poolReduced?]
    all_goals first | exact .none | nofun

theorem Place.contains : ∀ p : Place, Contains p.code p.reduced
  | ⟨count, sides⟩ => sides.contains.append count.contains

theorem Modifiers.contains {again : Code} {ts : List Term} (hagain : Contains again ts) :
    ∀ mods : Modifiers, Contains (mods.code again) (mods.reduced ts)
  | ⟨_, select, check⟩ =>
    ((select_contains select).right.append hagain).append (check_contains check)

theorem select_contains : ∀ s : Option Selection, Contains (selectCode s) (selectReduced s)
  | none => .nil
  | some ⟨_, count⟩ => count.contains_code.left

theorem reroll_contains : ∀ r : Option Reroll, Contains (rerollCode r) (rerollReduced r)
  | none => .nil
  | some ⟨_, ⟨_, threshold⟩⟩ => threshold.contains_code.left

theorem check_contains : ∀ c : Option Comparison, Contains (checkCode c) (checkReduced c)
  | none => .nil
  | some ⟨_, threshold⟩ => threshold.contains_code.left

end

theorem toplevel_contains (mode : Toplevel) : ∀ es : List Expr,
    Contains (toplevelCode mode es) (toplevelReduced es)
  | [] => .nil
  | e :: es => (e.contains false).left.append (toplevel_contains mode es)

end DiceScript
