import DiceScript.Syntax.Parser

/-!
# The grammar

Which token lists the language has, and the trees that they denote. Every predicate relates two
token lists: the tokens at the start of the first one, up to where the second one begins, are what
the predicate is about. So each token before the second list stands in one place of one rule.

The rules are ambiguous where an expression of a list ends in math and the next one begins with a
plus. A greedy derivation has no such place: there the plus belongs to the math.
-/

namespace DiceScript

/-- The expression ends in math, so that a plus behind it can go on with it. -/
def Expr.endsInMath : Expr → Bool
  | .print _ value => value.endsInMath
  | .store (.math _) none => true
  | _ => false

namespace Grammar

open DiceScript.Parser (Level number?)

/-! ## Words -/

inductive IsOperator : Level → TokenKind → BinaryOp → Prop
  | and : IsOperator .logic .and .and
  | or : IsOperator .logic .or .or
  | add : IsOperator .sum .plus .add
  | sub : IsOperator .sum .minus .sub
  | mul : IsOperator .product .star .mul
  | div : IsOperator .product .slash .div
  | mod : IsOperator .product .percent .mod

inductive IsPrefix : TokenKind → UnaryOp → Prop
  | negate : IsPrefix .negate .negate
  | fold : IsPrefix .plus .fold

inductive IsRelation : TokenKind → Relation → Prop
  | greater : IsRelation .greater .greater
  | less : IsRelation .less .less
  | equal : IsRelation .equals .equal

inductive IsSort : TokenKind → SortOrder → Prop
  | ascending : IsSort .sort .ascending
  | descending : IsSort .sortDescending .descending

inductive IsReroll : TokenKind → Bool → Prop
  | once : IsReroll .repeatOnce true
  | until : IsReroll .repeatUntil false

inductive IsSelector : TokenKind → Selector → Prop
  | keepHigh : IsSelector .keepHigh ⟨false, .high⟩
  | keepLow : IsSelector .keepLow ⟨false, .low⟩
  | keepFront : IsSelector .keepFront ⟨false, .front⟩
  | keepRear : IsSelector .keepRear ⟨false, .rear⟩
  | discardHigh : IsSelector .discardHigh ⟨true, .high⟩
  | discardLow : IsSelector .discardLow ⟨true, .low⟩
  | discardFront : IsSelector .discardFront ⟨true, .front⟩
  | discardRear : IsSelector .discardRear ⟨true, .rear⟩

inductive IsOpening : TokenKind → Access → Prop
  | read : IsOpening .openRead .read
  | write : IsOpening .openWrite .write

/-! ## Modifiers -/

/-- A modifier as it is written. -/
inductive Modifier where
  | sort (order : SortOrder)
  | select (s : Selection)
  | reroll (r : Reroll)
  | check (c : Comparison)

def Modifier.family : Modifier → Family
  | sort _ => .sort
  | select _ => .select
  | reroll _ => .reroll
  | check _ => .check

/-- The parts of a value that the modifiers written after it give it, in whatever order they were
written, and at most one of each family. -/
structure Collects (ms : List Modifier) (modifiers : Modifiers) (reroll : Option Reroll) :
    Prop where
  once : (ms.map Modifier.family).Nodup
  sort : ∀ order, modifiers.sort = some order ↔ .sort order ∈ ms
  select : ∀ s, modifiers.select = some s ↔ .select s ∈ ms
  check : ∀ c, modifiers.check = some c ↔ .check c ∈ ms
  reroll : ∀ r, reroll = some r ↔ .reroll r ∈ ms

/-! ## Trees -/

mutual

inductive IsExpr (greedy : Bool) : List Token → List Token → Expr → Prop
  | print {t : Token} {ts rest : List Token} {value : Expr} : t.kind = .print →
      IsExpr greedy ts rest value → IsExpr greedy (t :: ts) rest (.print none value)
  | filePrint {t : Token} {ts us rest : List Token} {target : Place} {value : Expr} :
      t.kind = .fileWrite → IsRef greedy .load ts us target → IsExpr greedy us rest value →
      IsExpr greedy (t :: ts) rest (.print (some target) value)
  | close {t : Token} {ts rest : List Token} {handle : Place} : t.kind = .pipe →
      IsRef greedy .load ts rest handle → IsExpr greedy (t :: ts) rest (.close handle)
  | choose {t : Token} {ts rest : List Token} {clauses : List Clause} {otherwise : Option Expr} :
      t.kind = .leftBrace → IsBlock greedy ts rest clauses otherwise →
      IsExpr greedy (t :: ts) rest (.choose clauses otherwise)
  | math {ts us rest : List Token} {m : Math} {target : Option Place} :
      IsMath greedy .logic ts us m → IsTarget greedy us rest target →
      IsExpr greedy ts rest (.store (.math m) target)
  | prompt {t : Token} {ts rest : List Token} {target : Option Place} : t.kind = .prompt →
      IsTarget greedy ts rest target → IsExpr greedy (t :: ts) rest (.store .prompt target)
  | fileLine {t : Token} {ts us rest : List Token} {handle : Place} {target : Option Place} :
      t.kind = .fileRead → IsRef greedy .load ts us handle → IsTarget greedy us rest target →
      IsExpr greedy (t :: ts) rest (.store (.fileLine handle) target)
  | openFile {t : Token} {access : Access} {ts us rest : List Token} {path : Math}
      {handle : Place} : IsOpening t.kind access → IsMath greedy .logic ts us path →
      IsRef greedy .store us rest handle →
      IsExpr greedy (t :: ts) rest (.openFile access path handle)

/-- The clauses of a conditional block, and its closing brace. -/
inductive IsBlock (greedy : Bool) : List Token → List Token → List Clause → Option Expr → Prop
  | otherwise {t : Token} {ts rest : List Token} {e : Expr} : IsExpr greedy ts (t :: rest) e →
      t.kind = .rightBrace → IsBlock greedy ts rest [] (some e)
  | last {t s : Token} {ts us rest : List Token} {condition result : Expr} :
      IsExpr greedy ts (t :: us) condition → t.kind = .comma →
      IsExpr greedy us (s :: rest) result → s.kind = .rightBrace →
      IsBlock greedy ts rest [⟨condition, result⟩] none
  | clause {t s : Token} {ts us vs rest : List Token} {condition result : Expr}
      {clauses : List Clause} {otherwise : Option Expr} :
      IsExpr greedy ts (t :: us) condition → t.kind = .comma →
      IsExpr greedy us (s :: vs) result → s.kind = .pipe →
      IsBlock greedy vs rest clauses otherwise →
      IsBlock greedy ts rest (⟨condition, result⟩ :: clauses) otherwise

inductive IsTarget (greedy : Bool) : List Token → List Token → Option Place → Prop
  | none {rest : List Token} : IsTarget greedy rest rest none
  | some {ts rest : List Token} {target : Place} : IsRef greedy .store ts rest target →
      IsTarget greedy ts rest (some target)

/-- Operands joined by the operators of one level, which group to the left. -/
inductive IsMath (greedy : Bool) : Level → List Token → List Token → Math → Prop
  | operand {level : Level} {ts rest : List Token} {m : Math} :
      IsOperand greedy level ts rest m → IsMath greedy level ts rest m
  | binary {level : Level} {t : Token} {op : BinaryOp} {ts us rest : List Token}
      {left right : Math} : IsMath greedy level ts (t :: us) left →
      IsOperator level t.kind op → IsOperand greedy level us rest right →
      IsMath greedy level ts rest (.binary op left right)

/-- What stands between the operators of a level. -/
inductive IsOperand (greedy : Bool) : Level → List Token → List Token → Math → Prop
  | sum {ts rest : List Token} {m : Math} : IsMath greedy .sum ts rest m →
      IsOperand greedy .logic ts rest m
  | product {ts rest : List Token} {m : Math} : IsMath greedy .product ts rest m →
      IsOperand greedy .sum ts rest m
  | term {ts rest : List Token} {value : Term} : IsTerm greedy ts rest value →
      IsOperand greedy .product ts rest (.term value)
  | unary {t : Token} {op : UnaryOp} {ts rest : List Token} {value : Term} :
      IsPrefix t.kind op → IsTerm greedy ts rest value →
      IsOperand greedy .product (t :: ts) rest (.unary op value)

inductive IsTerm (greedy : Bool) : List Token → List Token → Term → Prop
  | atom {ts us rest : List Token} {a : Atom} {ms : List Modifier} {modifiers : Modifiers} :
      IsAtom greedy ts us a → IsModifiers greedy us rest ms → Collects ms modifiers none →
      IsTerm greedy ts rest ⟨.atom a, modifiers⟩
  | roll {t : Token} {ts us vs rest : List Token} {count sides : Atom} {ms : List Modifier}
      {modifiers : Modifiers} {reroll : Option Reroll} : IsAtom greedy ts (t :: us) count →
      t.kind = .roll → IsAtom greedy us vs sides → IsModifiers greedy vs rest ms →
      Collects ms modifiers reroll → IsTerm greedy ts rest ⟨.roll count sides reroll, modifiers⟩
  | load {ts us rest : List Token} {place : Place} {ms : List Modifier} {modifiers : Modifiers} :
      IsRef greedy .load ts us place → IsModifiers greedy us rest ms →
      Collects ms modifiers none → IsTerm greedy ts rest ⟨.load place, modifiers⟩
  | list {t s : Token} {ts us rest : List Token} {items : List Expr} {ms : List Modifier}
      {modifiers : Modifiers} : t.kind = .leftBracket → IsExprs greedy ts (s :: us) items →
      s.kind = .rightBracket → IsModifiers greedy us rest ms → Collects ms modifiers none →
      IsTerm greedy (t :: ts) rest ⟨.list items, modifiers⟩

/-- Expressions in a row. In a greedy derivation a plus never follows math. -/
inductive IsExprs (greedy : Bool) : List Token → List Token → List Expr → Prop
  | nil {rest : List Token} : IsExprs greedy rest rest []
  | cons {ts us rest : List Token} {e : Expr} {es : List Expr} : IsExpr greedy ts us e →
      (greedy = true → e.endsInMath = true → ∀ t ∈ us.head?, t.kind ≠ .plus) →
      IsExprs greedy us rest es → IsExprs greedy ts rest (e :: es)

inductive IsAtom (greedy : Bool) : List Token → List Token → Atom → Prop
  | number {t : Token} {rest : List Token} {x : Double} : t.kind = .number →
      number? t.text = some x → IsAtom greedy (t :: rest) rest (.number x)
  | group {t s : Token} {ts rest : List Token} {e : Expr} : t.kind = .leftParen →
      IsExpr greedy ts (s :: rest) e → s.kind = .rightParen →
      IsAtom greedy (t :: ts) rest (.group e)

inductive IsModifiers (greedy : Bool) : List Token → List Token → List Modifier → Prop
  | nil {rest : List Token} : IsModifiers greedy rest rest []
  | cons {ts us rest : List Token} {m : Modifier} {ms : List Modifier} :
      IsModifier greedy ts us m → IsModifiers greedy us rest ms →
      IsModifiers greedy ts rest (m :: ms)

inductive IsModifier (greedy : Bool) : List Token → List Token → Modifier → Prop
  | sort {t : Token} {order : SortOrder} {rest : List Token} : IsSort t.kind order →
      IsModifier greedy (t :: rest) rest (.sort order)
  | select {t : Token} {selector : Selector} {ts rest : List Token} {count : Atom} :
      IsSelector t.kind selector → IsAtom greedy ts rest count →
      IsModifier greedy (t :: ts) rest (.select ⟨selector, count⟩)
  | reroll {t s : Token} {once : Bool} {relation : Relation} {ts rest : List Token}
      {threshold : Atom} : IsReroll t.kind once → IsRelation s.kind relation →
      IsAtom greedy ts rest threshold →
      IsModifier greedy (t :: s :: ts) rest (.reroll ⟨once, ⟨relation, threshold⟩⟩)
  /-- Without a relation the threshold is to be equalled. -/
  | rerollEqual {t : Token} {once : Bool} {ts rest : List Token} {threshold : Atom} :
      IsReroll t.kind once → IsAtom greedy ts rest threshold →
      IsModifier greedy (t :: ts) rest (.reroll ⟨once, ⟨.equal, threshold⟩⟩)
  | check {t : Token} {relation : Relation} {ts rest : List Token} {threshold : Atom} :
      IsRelation t.kind relation → IsAtom greedy ts rest threshold →
      IsModifier greedy (t :: ts) rest (.check ⟨relation, threshold⟩)

/-- A marker and the coordinates of a place, which may be a plain roll in parentheses. -/
inductive IsRef (greedy : Bool) : TokenKind → List Token → List Token → Place → Prop
  | coordinates {marker : TokenKind} {t d : Token} {ts us rest : List Token}
      {count sides : Atom} : t.kind = marker → IsAtom greedy ts (d :: us) count →
      d.kind = .roll → IsAtom greedy us rest sides →
      IsRef greedy marker (t :: ts) rest ⟨count, sides⟩
  | grouped {marker : TokenKind} {t l d r : Token} {ts us rest : List Token}
      {count sides : Atom} : t.kind = marker → l.kind = .leftParen →
      IsAtom greedy ts (d :: us) count → d.kind = .roll → IsAtom greedy us (r :: rest) sides →
      r.kind = .rightParen → IsRef greedy marker (t :: l :: ts) rest ⟨count, sides⟩

end

/-- The token list is a program, and the script is its tree. -/
def IsScript (greedy : Bool) (tokens : List Token) (script : Script) : Prop :=
  IsExprs greedy tokens [] script.body

end Grammar

end DiceScript
