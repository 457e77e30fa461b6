import DiceScript.Compile
import DiceScript.State

/-!
# Evaluating trees

The value of a script read off its tree, in the order in which its parts stand, with no stack and no
jumps. An action that fails keeps what was done before.
-/

namespace DiceScript

variable {m : Type → Type} [Monad m] {h : Host m}

/-- The evaluated coordinates of a place. -/
structure Coordinates where
  count : Double
  sides : Double

/-- Both coordinates lose their fractions. -/
def Coordinates.reference (c : Coordinates) : Reference :=
  ⟨Binary64.toInt64 c.count, Binary64.toInt64 c.sides⟩

/-- Coordinates on top of a stack. -/
abbrev Coordinates.values (c : Coordinates) : List Value :=
  [.number c.count, .number c.sides]

def UnaryOp.eval (o : UnaryOp) (v : Value) : Action h Value := do
  let x ← Action.number o.opcode v
  match o with
  | negate => return .number (-x)
  | fold => return .number x

/-- The operands of an arithmetic operator. The right one is the first to be refused. -/
def numbers (op : Opcode) (left right : Value) : Action h (Double × Double) := do
  let y ← Action.number op right
  let x ← Action.number op left
  return (x, y)

def BinaryOp.eval (o : BinaryOp) (left right : Value) : Action h Value := do
  match o with
  | and => return .ofBool (left.truthy && right.truthy)
  | or => return .ofBool (left.truthy || right.truthy)
  | add =>
    let (x, y) ← numbers o.opcode left right
    return .number (x + y)
  | sub =>
    let (x, y) ← numbers o.opcode left right
    return .number (x - y)
  | mul =>
    let (x, y) ← numbers o.opcode left right
    return .number (x * y)
  | div =>
    let (x, y) ← numbers o.opcode left right
    if y == 0 then throw (.divisionByZero o.opcode)
    return .number (x / y)
  | mod =>
    let (x, y) ← numbers o.opcode left right
    if y == 0 then throw (.divisionByZero o.opcode)
    return .number (Binary64.remainder x y)

/-- The sum of single dice, where it is asked for. -/
def sumIf (c : Bool) (v : Value) : Action h Value := do
  if c then return .number (← Action.number .sum v) else return v

/-- A group around nothing but a pool is a pool. -/
def Atom.isPool : Atom → Bool
  | .number _ => false
  | .group e => e.isPool

/-! ## What modifiers do with the value before them -/

def evalSort : Option SortOrder → Value → Action h Value
  | none, v => return v
  | some order, v => do
    let pool ← Action.pool (.sort order) v
    return .ofPool (pool.sort order)

/-- Keep or discard `n` dice. -/
def selectDice (selector : Selector) (n v : Value) : Action h Value := do
  let n ← Action.number (.select selector) n
  let pool ← Action.pool (.select selector) v
  return .ofPool (pool.select selector (Pool.clampCount n pool.length))

def rerollDice (limits : Limits) (once : Bool) (relation : Relation) (sides : Double)
    (threshold v : Value) : Action h Value := do
  let x ← Action.number (.reroll once relation) threshold
  let pool ← Action.pool (.reroll once relation) v
  return .ofPool (← Action.reroll limits once relation x sides pool)

def countDice (relation : Relation) (threshold v : Value) : Action h Value := do
  let x ← Action.number (.count relation) threshold
  let pool ← Action.pool (.count relation) v
  return .number (Binary64.ofNat (pool.countMatching relation x))

/-! ## Trees -/

variable (limits : Limits)

mutual

def Expr.eval : Expr → Action h Value
  | .print none value => do
    let v ← value.eval
    Action.print v
    return v
  | .print (some target) value => do
    let v ← value.eval
    let place ← target.eval
    Action.filePrint place.reference v
    return v
  | .close handle => do
    let place ← handle.eval
    Action.close place.reference
    return .number 0
  | .choose clauses otherwise => do
    match ← evalClauses clauses with
    | some v => return v
    | none => evalOtherwise otherwise
  | .store source none => source.eval
  | .store source (some target) => do
    let v ← source.eval
    let place ← target.eval
    Action.store place.reference v
    return v
  | .openFile access path handle => do
    let v ← path.eval
    let place ← handle.eval
    Action.openFile access v.display place.reference
    return .text v.display

/-- The result of the first clause whose condition is true, and of no other. Conditions after that
one are not evaluated. -/
def evalClauses : List Clause → Action h (Option Value)
  | [] => return none
  | ⟨condition, result⟩ :: clauses => do
    let c ← condition.eval
    if c.truthy then return some (← result.eval) else evalClauses clauses

def evalOtherwise : Option Expr → Action h Value
  | none => return .number 0
  | some e => e.eval

def Source.eval : Source → Action h Value
  | .math m => m.eval
  | .prompt => return .text (← Action.prompt)
  | .fileLine handle => do
    let place ← handle.eval
    return .text (← Action.fileRead place.reference)

/-- Both operands of an operator are evaluated, the left one first. -/
def Math.eval : Math → Action h Value
  | .term t => t.eval true
  | .unary o operand => do
    let v ← operand.eval true
    o.eval v
  | .binary o left right => do
    let v ← left.eval
    let w ← right.eval
    o.eval v w

/-- The value of a term. When they are to be `summed` single dice are, unless something counted
them. -/
def Term.eval (summed : Bool) : Term → Action h Value
  | ⟨.roll count sides reroll, mods⟩ => do
    let sides ← sides.scalar
    let count ← count.scalar
    let pool ← Action.roll limits count sides
    let v ← mods.eval (evalReroll reroll sides) (.ofPool pool)
    sumIf (summed && mods.check.isNone) v
  | ⟨.atom a, mods⟩ => do
    let v ← a.dice
    let v ← mods.eval pure v
    sumIf (summed && a.isPool && mods.check.isNone) v
  | ⟨.load place, mods⟩ => do
    let place ← place.eval
    let v ← Action.load place.reference
    mods.eval pure v
  | ⟨.list items, mods⟩ => do
    let vs ← evalItems items
    mods.eval pure (.list vs)

def evalItems : List Expr → Action h (List Value)
  | [] => return []
  | e :: es => do
    let v ← e.eval
    let vs ← evalItems es
    return v :: vs

def Atom.eval : Atom → Action h Value
  | .number x => return .number x
  | .group e => e.eval

/-- An atom as modifiers see it: a group around nothing but a pool shows its single dice. -/
def Atom.dice : Atom → Action h Value
  | .number x => return .number x
  | .group (.store (.math (.term t)) none) => t.eval (!t.isPool)
  | .group e => e.eval

/-- An atom as one number. -/
def Atom.scalar : Atom → Action h Double
  | .number x => return x
  | .group e => do
    let v ← e.eval
    Action.number .sum v

/-- The sides are evaluated first. -/
def Place.eval : Place → Action h Coordinates
  | ⟨count, sides⟩ => do
    let sides ← sides.scalar
    let count ← count.scalar
    return ⟨count, sides⟩

/-- Sorting, then the selection, then the reroll that belongs to the base, then the check. -/
def Modifiers.eval (reroll : Value → Action h Value) : Modifiers → Value → Action h Value
  | ⟨sort, select, check⟩, v => do
    let v ← evalSort sort v
    let v ← evalSelect select v
    let v ← reroll v
    evalCheck check v

def evalSelect : Option Selection → Value → Action h Value
  | none, v => return v
  | some ⟨selector, count⟩, v => do
    let n ← count.eval
    selectDice selector n v

/-- The dice rolled again have the sides of the roll. -/
def evalReroll : Option Reroll → Double → Value → Action h Value
  | none, _, v => return v
  | some ⟨once, ⟨relation, threshold⟩⟩, sides, v => do
    let t ← threshold.eval
    rerollDice limits once relation sides t v

def evalCheck : Option Comparison → Value → Action h Value
  | none, v => return v
  | some ⟨relation, threshold⟩, v => do
    let t ← threshold.eval
    countDice relation t v

end

/-- Toplevel expressions in order. The value of the last one may be kept, but not that of a print. -/
def evalBody (mode : Toplevel) : List Expr → Action h (Option Value)
  | [] => return none
  | e :: es => do
    let v ← e.eval limits
    if mode == .keepLast && es.isEmpty && !e.isPrint then return some v
    else evalBody mode es

def Script.eval (mode : Toplevel) (script : Script) : Action h (Option Value) :=
  evalBody limits mode script.body

end DiceScript
