import DiceScript.Modifier

/-!
# Scripts

The trees that the parser builds. What every script satisfies is in the types: opening a file names
its handle, and a reroll belongs to a roll.
-/

namespace DiceScript

inductive UnaryOp where
  | negate
  | fold
deriving DecidableEq, Repr

inductive BinaryOp where
  | and
  | or
  | add
  | sub
  | mul
  | div
  | mod
deriving DecidableEq, Repr

mutual

inductive Expr where
  /-- Print to the console, or to the file open at a place. -/
  | print (target : Option Place) (value : Expr)
  | close (handle : Place)
  /-- The result of the first clause whose condition is true, else the last expression, else 0. -/
  | choose (clauses : List Clause) (otherwise : Option Expr)
  | store (source : Source) (target : Option Place)
  | openFile (access : Access) (path : Math) (handle : Place)

structure Clause where
  condition : Expr
  result : Expr

inductive Source where
  | math (m : Math)
  | prompt
  | fileLine (handle : Place)

inductive Math where
  | term (t : Term)
  | unary (op : UnaryOp) (operand : Term)
  | binary (op : BinaryOp) (left right : Math)

structure Term where
  base : Base
  modifiers : Modifiers

inductive Base where
  | atom (a : Atom)
  | roll (count sides : Atom) (reroll : Option Reroll)
  | load (place : Place)
  | list (items : List Expr)

inductive Atom where
  | number (x : Double)
  | group (e : Expr)

/-- An address of the heap or of an open file. Both coordinates are evaluated, never rolled. -/
structure Place where
  count : Atom
  sides : Atom

structure Modifiers where
  sort : Option SortOrder
  select : Option Selection
  check : Option Comparison

structure Selection where
  selector : Selector
  count : Atom

structure Comparison where
  relation : Relation
  threshold : Atom

structure Reroll where
  once : Bool
  condition : Comparison

end

structure Script where
  body : List Expr

def Modifiers.none : Modifiers :=
  ⟨.none, .none, .none⟩

def Modifiers.isEmpty (m : Modifiers) : Bool :=
  m.sort.isNone && m.select.isNone && m.check.isNone

theorem Modifiers.eq_none_of_isEmpty {m : Modifiers} (h : m.isEmpty = true) : m = .none := by
  obtain ⟨sort, select, check⟩ := m
  simp only [isEmpty, Bool.and_eq_true, Option.isNone_iff_eq_none] at h
  obtain ⟨⟨rfl, rfl⟩, rfl⟩ := h
  rfl

mutual

/-- The base gives single dice, which are summed unless something counts them. A group around
nothing but a pool is a pool. -/
def Term.isPool : Term → Bool
  | ⟨.roll _ _ _, _⟩ => true
  | ⟨.atom (.group e), _⟩ => e.isPool
  | _ => false

def Expr.isPool : Expr → Bool
  | .store (.math (.term t)) none => t.isPool
  | _ => false

end

def Expr.isPrint : Expr → Bool
  | .print _ _ => true
  | _ => false

/-- The coordinates of a plain roll, which may stand as a place. -/
def Expr.place? : Expr → Option Place
  | .store (.math (.term ⟨.roll count sides none, m⟩)) none =>
    if m.isEmpty then some ⟨count, sides⟩ else none
  | _ => none

end DiceScript
