import DiceScript.Syntax

/-!
# Trees

Trees have the same shape everywhere: a reroll may stand among any modifiers, and a file may be opened
without a handle. Code and JSON are made for all trees. That of a script has its rerolls behind rolls
only, and names every handle.
-/

namespace DiceScript

namespace Tree

mutual

inductive Expr where
  | print (target : Option Place) (value : Expr)
  | close (handle : Place)
  | choose (clauses : List Clause) (otherwise : Option Expr)
  | store (source : Source) (target : Option Place)

structure Clause where
  condition : Expr
  result : Expr

inductive Source where
  | math (m : Math)
  | prompt
  | fileLine (handle : Place)
  /-- The handle is the place behind it. -/
  | openFile (access : Access) (path : Math)

inductive Math where
  | term (t : Term)
  | unary (op : UnaryOp) (operand : Term)
  | binary (op : BinaryOp) (left right : Math)

structure Term where
  base : Base
  modifiers : Modifiers

inductive Base where
  | atom (a : Atom)
  | roll (count sides : Atom)
  | load (place : Place)
  | list (items : List Expr)

inductive Atom where
  | number (x : Double)
  | group (e : Expr)

structure Place where
  count : Atom
  sides : Atom

structure Modifiers where
  sort : Option SortOrder
  select : Option Selection
  reroll : Option Reroll
  check : Option Comparison

structure Selection where
  selector : Selector
  count : Atom

structure Comparison where
  relation : Relation
  threshold : Atom

structure Reroll where
  once : Bool
  condition : Comparison

end

structure Script where
  body : List Expr

def Modifiers.none : Modifiers :=
  ⟨.none, .none, .none, .none⟩

def Modifiers.isEmpty (m : Modifiers) : Bool :=
  m.sort.isNone && m.select.isNone && m.reroll.isNone && m.check.isNone

theorem Modifiers.eq_none_of_isEmpty {m : Modifiers} (h : m.isEmpty = true) : m = .none := by
  obtain ⟨sort, select, reroll, check⟩ := m
  simp only [isEmpty, Bool.and_eq_true, Option.isNone_iff_eq_none] at h
  obtain ⟨⟨⟨rfl, rfl⟩, rfl⟩, rfl⟩ := h
  rfl

mutual

/-- The base gives single dice, which are summed unless something counts them. Modifiers do not
matter. -/
def Term.isPool : Term → Bool
  | ⟨.roll _ _, _⟩ => true
  | ⟨.atom (.group e), _⟩ => e.isPool
  | _ => false

def Expr.isPool : Expr → Bool
  | .store (.math (.term t)) .none => t.isPool
  | _ => false

end

def Expr.isPrint : Expr → Bool
  | .print _ _ => true
  | _ => false

end Tree

/-! ## The tree of a script -/

mutual

def Expr.tree : Expr → Tree.Expr
  | .print none value => .print none value.tree
  | .print (some target) value => .print (some target.tree) value.tree
  | .close handle => .close handle.tree
  | .choose cs none => .choose (clauseTrees cs) none
  | .choose cs (some e) => .choose (clauseTrees cs) (some e.tree)
  | .store source none => .store source.tree none
  | .store source (some target) => .store source.tree (some target.tree)
  | .openFile access path handle => .store (.openFile access path.tree) (some handle.tree)

def clauseTrees : List Clause → List Tree.Clause
  | [] => []
  | ⟨condition, result⟩ :: cs => ⟨condition.tree, result.tree⟩ :: clauseTrees cs

def Source.tree : Source → Tree.Source
  | .math m => .math m.tree
  | .prompt => .prompt
  | .fileLine handle => .fileLine handle.tree

def Math.tree : Math → Tree.Math
  | .term t => .term t.tree
  | .unary o operand => .unary o operand.tree
  | .binary o left right => .binary o left.tree right.tree

def Term.tree : Term → Tree.Term
  | ⟨.atom a, mods⟩ => ⟨.atom a.tree, mods.tree none⟩
  | ⟨.roll count sides reroll, mods⟩ =>
    ⟨.roll count.tree sides.tree, mods.tree (rerollTree reroll)⟩
  | ⟨.load place, mods⟩ => ⟨.load place.tree, mods.tree none⟩
  | ⟨.list items, mods⟩ => ⟨.list (itemTrees items), mods.tree none⟩

def itemTrees : List Expr → List Tree.Expr
  | [] => []
  | e :: es => e.tree :: itemTrees es

def Atom.tree : Atom → Tree.Atom
  | .number x => .number x
  | .group e => .group e.tree

def Place.tree : Place → Tree.Place
  | ⟨count, sides⟩ => ⟨count.tree, sides.tree⟩

/-- The reroll of a roll stands among its modifiers. -/
def Modifiers.tree (reroll : Option Tree.Reroll) : Modifiers → Tree.Modifiers
  | ⟨sort, select, check⟩ => ⟨sort, selectionTree select, reroll, checkTree check⟩

def selectionTree : Option Selection → Option Tree.Selection
  | none => none
  | some ⟨selector, count⟩ => some ⟨selector, count.tree⟩

def rerollTree : Option Reroll → Option Tree.Reroll
  | none => none
  | some ⟨once, condition⟩ => some ⟨once, condition.tree⟩

def checkTree : Option Comparison → Option Tree.Comparison
  | none => none
  | some condition => some condition.tree

def Comparison.tree : Comparison → Tree.Comparison
  | ⟨relation, threshold⟩ => ⟨relation, threshold.tree⟩

end

def Script.tree (s : Script) : Tree.Script :=
  ⟨itemTrees s.body⟩

end DiceScript
