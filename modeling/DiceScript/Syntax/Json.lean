import DiceScript.Json.Basic
import DiceScript.Syntax.Tree

/-!
# Trees as JSON

A choice between forms is an object with the name of the form as its only key, or the name alone
where the form has no parts. What is absent is null.
-/

namespace DiceScript

def SortOrder.name : SortOrder → String
  | ascending => "Ascending"
  | descending => "Descending"

def Selector.name : Selector → String
  | ⟨false, .high⟩ => "KeepHigh"
  | ⟨false, .low⟩ => "KeepLow"
  | ⟨false, .front⟩ => "KeepFront"
  | ⟨false, .rear⟩ => "KeepRear"
  | ⟨true, .high⟩ => "DiscardHigh"
  | ⟨true, .low⟩ => "DiscardLow"
  | ⟨true, .front⟩ => "DiscardFront"
  | ⟨true, .rear⟩ => "DiscardRear"

def Relation.name : Relation → String
  | greater => "Greater"
  | less => "Less"
  | equal => "Equal"

def UnaryOp.name : UnaryOp → String
  | negate => "Negate"
  | fold => "Fold"

def BinaryOp.name : BinaryOp → String
  | and => "And"
  | or => "Or"
  | add => "Add"
  | sub => "Sub"
  | mul => "Mul"
  | div => "Div"
  | mod => "Mod"

def Access.openName : Access → String
  | read => "OpenRead"
  | write => "OpenWrite"

namespace Json

def form (name : String) (content : Json) : Json :=
  object [(name, content)]

end Json

namespace Tree

open Json (form)

mutual

def Expr.toJson : Expr → Json
  | .print target value =>
    form "Print" (.object [("target", placeOptionJson target), ("value", value.toJson)])
  | .close handle => form "Close" (.object [("handle", handle.toJson)])
  | .choose cs otherwise =>
    form "If" (.object
      [("clauses", .array (clausesJson cs)), ("otherwise", exprOptionJson otherwise)])
  | .store source target =>
    form "Store" (.object [("source", source.toJson), ("target", placeOptionJson target)])

def exprOptionJson : Option Expr → Json
  | none => .null
  | some e => e.toJson

def clausesJson : List Clause → List Json
  | [] => []
  | ⟨condition, result⟩ :: cs =>
    .object [("condition", condition.toJson), ("then", result.toJson)] :: clausesJson cs

def exprsJson : List Expr → List Json
  | [] => []
  | e :: es => e.toJson :: exprsJson es

def Source.toJson : Source → Json
  | .math m => form "Math" m.toJson
  | .prompt => .string "Prompt"
  | .fileLine handle => form "FileRead" handle.toJson
  | .openFile access path => form access.openName path.toJson

def Math.toJson : Math → Json
  | .term t => form "Value" t.toJson
  | .unary o operand =>
    form "Unary" (.object [("op", .string o.name), ("operand", operand.toJson)])
  | .binary o left right =>
    form "Binary" (.object
      [("op", .string o.name), ("lhs", left.toJson), ("rhs", right.toJson)])

def Term.toJson : Term → Json
  | ⟨base, mods⟩ => .object [("base", base.toJson), ("modifiers", mods.toJson)]

def Base.toJson : Base → Json
  | .atom a => form "Atom" a.toJson
  | .roll count sides =>
    form "Dice" (.object [("count", count.toJson), ("sides", sides.toJson)])
  | .load place => form "Load" place.toJson
  | .list items => form "List" (.array (exprsJson items))

def Atom.toJson : Atom → Json
  | .number x => form "Number" (.real x)
  | .group e => form "Group" e.toJson

def Place.toJson : Place → Json
  | ⟨count, sides⟩ => .object [("count", count.toJson), ("sides", sides.toJson)]

def placeOptionJson : Option Place → Json
  | none => .null
  | some p => p.toJson

def Modifiers.toJson : Modifiers → Json
  | ⟨sort, select, reroll, check⟩ =>
    .object [("sort", sortJson sort), ("select", selectionJson select),
      ("repeat", rerollJson reroll), ("crit", checkJson check)]

def sortJson : Option SortOrder → Json
  | none => .null
  | some order => .string order.name

def selectionJson : Option Selection → Json
  | none => .null
  | some ⟨selector, count⟩ => .object [("mode", .string selector.name), ("count", count.toJson)]

def rerollJson : Option Reroll → Json
  | none => .null
  | some ⟨once, condition⟩ => .object [("once", .bool once), ("when", condition.toJson)]

def checkJson : Option Comparison → Json
  | none => .null
  | some condition => condition.toJson

def Comparison.toJson : Comparison → Json
  | ⟨relation, threshold⟩ =>
    .object [("op", .string relation.name), ("threshold", threshold.toJson)]

end

def Script.toJson (s : Script) : Json :=
  .object [("body", .array (exprsJson s.body))]

end Tree

end DiceScript
