import DiceScript.Compile

/-!
# The code of scripts

The code of a script is that of its tree. A script opens no file without a handle, and what is rolled
again is a roll, so its code can be told from the script itself.
-/

namespace DiceScript

open Code (op)

def Expr.code (nested : Bool) (e : Expr) : Code :=
  e.tree.code nested

def clauseCode (cs : List Clause) : List Branch :=
  Tree.clauseCode (clauseTrees cs)

def Source.code (s : Source) : Code :=
  s.tree.code

def Math.code (m : Math) : Code :=
  m.tree.code

def Term.code (reduce : Bool) (t : Term) : Code :=
  t.tree.code reduce

def itemCode (es : List Expr) : Code :=
  Tree.itemCode (itemTrees es)

def Atom.code (a : Atom) : Code :=
  a.tree.code

def Atom.scalarCode (a : Atom) : Code :=
  a.tree.scalarCode

def Atom.poolCode? (a : Atom) : Option Code :=
  a.tree.poolCode?

def Expr.poolCode? (e : Expr) : Option Code :=
  e.tree.poolCode?

def Place.code (p : Place) : Code :=
  p.tree.code

def selectCode (s : Option Selection) : Code :=
  Tree.selectCode (selectionTree s)

def rerollCode (r : Option Reroll) : Code :=
  Tree.rerollCode (rerollTree r)

def checkCode (c : Option Comparison) : Code :=
  Tree.checkCode (checkTree c)

/-- The modifiers of a roll have the code of its reroll among theirs. -/
def Modifiers.code (again : Code) (mods : Modifiers) : Code :=
  Tree.sortCode mods.sort ++ selectCode mods.select ++ again ++ checkCode mods.check

def toplevelCode (mode : Toplevel) (es : List Expr) : Code :=
  Tree.toplevelCode mode (itemTrees es)

def Script.code (mode : Toplevel) (s : Script) : Code :=
  toplevelCode mode s.body

/-! ## Parts of a tree -/

theorem length_itemTrees (es : List Expr) : (itemTrees es).length = es.length := by
  induction es with
  | nil => rfl
  | cons e es ih => rw [itemTrees, List.length_cons, ih, List.length_cons]

theorem Expr.isPrint_tree (e : Expr) : e.tree.isPrint = e.isPrint := by
  rcases e with ⟨_ | _, _⟩ | _ | ⟨_, _ | _⟩ | ⟨_, _ | _⟩ | _ <;> rfl

namespace Modifiers

variable (reroll : Option Tree.Reroll) (mods : Modifiers)

theorem isEmpty_tree : (mods.tree .none).isEmpty = mods.isEmpty := by
  obtain ⟨_ | order, _ | ⟨selector, count⟩, _ | condition⟩ := mods <;> rfl

theorem reroll_tree : (mods.tree reroll).reroll = reroll := by
  cases mods
  rfl

theorem isSome_check_tree : (mods.tree reroll).check.isSome = mods.check.isSome := by
  obtain ⟨sort, select, _ | condition⟩ := mods <;> rfl

theorem isNone_check_tree : (mods.tree reroll).check.isNone = mods.check.isNone := by
  rw [← Option.not_isSome, ← Option.not_isSome, mods.isSome_check_tree]

theorem code_tree : (mods.tree reroll).code = mods.code (Tree.rerollCode reroll) := by
  cases mods
  rfl

end Modifiers

mutual

theorem Term.isPool_tree : ∀ t : Term, t.tree.isPool = t.isPool
  | ⟨.atom (.group e), _⟩ => e.isPool_tree
  | ⟨.atom (.number _), _⟩ | ⟨.roll _ _ _, _⟩ | ⟨.load _, _⟩ | ⟨.list _, _⟩ => rfl

theorem Expr.isPool_tree : ∀ e : Expr, e.tree.isPool = e.isPool
  | .store (.math (.term t)) none => t.isPool_tree
  | .store (.math (.unary _ _)) none | .store (.math (.binary _ _ _)) none
  | .store .prompt none | .store (.fileLine _) none
  | .store (.math (.term _)) (some _) | .store (.math (.unary _ _)) (some _)
  | .store (.math (.binary _ _ _)) (some _) | .store .prompt (some _)
  | .store (.fileLine _) (some _) | .print none _ | .print (some _) _ | .close _ | .choose _ none
  | .choose _ (some _) | .openFile _ _ _ => rfl

end

/-! ## Code of each shape -/

section Shapes

variable (nested reduce : Bool)

namespace Expr

theorem code_print (value : Expr) :
    (print none value).code nested =
      value.code true ++ (if nested then [.copy] else []) ++ op .print := rfl

theorem code_filePrint (target : Place) (value : Expr) :
    (print (some target) value).code nested =
      value.code true ++ (if nested then [.copy] else []) ++ target.code ++ op .filePrint := rfl

theorem code_value (source : Source) : (store source none).code nested = source.code := by
  rcases source with _ | _ | _ <;> exact List.append_nil _

theorem code_store (source : Source) (target : Place) :
    (store source (some target)).code nested = source.code ++ target.code ++ op .store := by
  rcases source with _ | _ | _ <;> rfl

theorem code_openFile (access : Access) (path : Math) (handle : Place) :
    (openFile access path handle).code nested =
      path.code ++ handle.code ++ op (.openFile access) := rfl

/-- A pool hands on its single dice, and nothing else does. -/
theorem poolCode?_term (t : Term) :
    (store (.math (.term t)) none).poolCode? =
      if t.isPool then some (t.code false) else none := by
  rw [← t.isPool_tree]
  rfl

theorem poolCode?_eq_none {e : Expr} (he : ∀ t, e ≠ .store (.math (.term t)) none) :
    e.poolCode? = none := by
  rcases e with ⟨_ | _, _⟩ | _ | ⟨_, _ | _⟩ | ⟨(t | _ | _) | _ | _, _ | _⟩ | _
  case store.math.term.none => exact absurd rfl (he t)
  all_goals rfl

end Expr

theorem Atom.poolCode?_group (e : Expr) : (group e).poolCode? = e.poolCode? := rfl

theorem Math.code_binary (o : BinaryOp) (left right : Math) :
    (binary o left right).code = left.code ++ right.code ++ op o.opcode o.opcode_plain := rfl

theorem itemCode_nil : itemCode [] = [] := rfl

theorem itemCode_cons (e : Expr) (es : List Expr) :
    itemCode (e :: es) = e.code true ++ itemCode es := rfl

theorem checkCode_none : checkCode none = [] := rfl

theorem checkCode_some (relation : Relation) (threshold : Atom) :
    checkCode (some ⟨relation, threshold⟩) = threshold.code ++ op (.count relation) := rfl

theorem toplevelCode_nil (mode : Toplevel) : toplevelCode mode [] = [] := rfl

namespace Term

variable (mods : Modifiers)

theorem code_roll (count sides : Atom) (reroll : Option Reroll) :
    code reduce ⟨.roll count sides reroll, mods⟩ =
      sides.scalarCode ++ (if reroll.isSome then [.copy] else []) ++ count.scalarCode ++ op .roll ++
        mods.code (rerollCode reroll) ++ Tree.sumCode (reduce && mods.check.isNone) := by
  have hsome : (rerollTree reroll).isSome = reroll.isSome := by
    rcases reroll with _ | ⟨once, condition⟩ <;> rfl
  rw [code, tree, Tree.Term.code, mods.reroll_tree, hsome, mods.code_tree, mods.isNone_check_tree]
  rfl

/-- A group around a pool hands on the dice when modifiers, its own or outer ones, still need them. -/
theorem code_atom (a : Atom) :
    code reduce ⟨.atom a, mods⟩ =
      match if !mods.isEmpty || !reduce then a.poolCode? else none with
      | some pool => pool ++ mods.code [] ++ Tree.sumCode (reduce && mods.check.isNone)
      | none => a.code ++ mods.code [] := by
  rw [code, tree, Tree.Term.code, mods.isEmpty_tree, mods.code_tree, mods.isNone_check_tree]
  rfl

theorem code_load (place : Place) :
    code reduce ⟨.load place, mods⟩ = place.code ++ op .load ++ mods.code [] := by
  rw [code, tree, Tree.Term.code, mods.code_tree]
  rfl

theorem code_list (items : List Expr) :
    code reduce ⟨.list items, mods⟩ = itemCode items ++ [.list items.length] ++ mods.code [] := by
  rw [code, tree, Tree.Term.code, mods.code_tree, length_itemTrees]
  rfl

end Term

end Shapes

theorem toplevelCode_cons (mode : Toplevel) (e : Expr) (es : List Expr) :
    toplevelCode mode (e :: es) =
      e.code false ++
        (if e.isPrint || (mode == .keepLast && es.isEmpty) then [] else op .pop) ++
          toplevelCode mode es := by
  have hempty : (itemTrees es).isEmpty = es.isEmpty := by cases es <;> rfl
  rw [toplevelCode, itemTrees, Tree.toplevelCode, e.isPrint_tree, hempty]
  rfl

end DiceScript
