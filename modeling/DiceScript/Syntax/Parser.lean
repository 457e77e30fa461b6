import DiceScript.Number.Reader
import DiceScript.Syntax
import DiceScript.Syntax.Error

/-!
# From tokens to scripts

A recursive descent without going back. Every function that consumes tokens returns the rest
together with the fact that it is shorter, which is why the recursion ends.
-/

namespace DiceScript.Parser

/-- A value read from a token list, and the tokens after it. -/
structure Parsed (α : Type) (tokens : List Token) where
  value : α
  rest : List Token
  shorter : rest.length < tokens.length

/-- A value whose text may be empty. -/
structure Trailing (α : Type) (tokens : List Token) where
  value : α
  rest : List Token
  notLonger : rest.length ≤ tokens.length

/-- The levels of binary operators, from loose to tight. -/
inductive Level where
  | logic
  | sum
  | product
deriving DecidableEq

def Level.operator? : Level → TokenKind → Option BinaryOp
  | logic, .and => some .and
  | logic, .or => some .or
  | sum, .plus => some .add
  | sum, .minus => some .sub
  | product, .star => some .mul
  | product, .slash => some .div
  | product, .percent => some .mod
  | _, _ => none

/-- Tighter levels come first. -/
def Level.rank : Level → Nat
  | product => 0
  | sum => 1
  | logic => 2

theorem Level.rank_le (level : Level) : level.rank ≤ 2 := by
  cases level <;> decide

def relation? : TokenKind → Option Relation
  | .greater => some .greater
  | .less => some .less
  | .equals => some .equal
  | _ => none

/-- What a token begins among the modifiers of a value. -/
inductive Role where
  | sort (order : SortOrder)
  | reroll (once : Bool)
  | check
  | select (selector : Selector)

def role? : TokenKind → Option Role
  | .sort => some (.sort .ascending)
  | .sortDescending => some (.sort .descending)
  | .repeatOnce => some (.reroll true)
  | .repeatUntil => some (.reroll false)
  | .greater | .less | .equals => some .check
  | .keepHigh => some (.select ⟨false, .high⟩)
  | .keepLow => some (.select ⟨false, .low⟩)
  | .keepFront => some (.select ⟨false, .front⟩)
  | .keepRear => some (.select ⟨false, .rear⟩)
  | .discardHigh => some (.select ⟨true, .high⟩)
  | .discardLow => some (.select ⟨true, .low⟩)
  | .discardFront => some (.select ⟨true, .front⟩)
  | .discardRear => some (.select ⟨true, .rear⟩)
  | _ => none

def unary? : TokenKind → Option UnaryOp
  | .negate => some .negate
  | .plus => some .fold
  | _ => none

def number? (text : String) : Option Double :=
  Reader.float? text.toList

/-- The modifiers of a value read so far, in whatever order they came. -/
structure Draft where
  sort : Option SortOrder
  select : Option Selection
  reroll : Option Reroll
  check : Option Comparison

def Draft.empty : Draft :=
  ⟨none, none, none, none⟩

def Draft.modifiers (d : Draft) : Modifiers :=
  ⟨d.sort, d.select, d.check⟩

/-- The place that a parenthesised expression stands for; `t` is the marker before it. -/
def grouped {tokens : List Token} (t : Token) (e : Expr) (rest : List Token)
    (h : rest.length < tokens.length) : Except Refusal (Parsed Place tokens) :=
  match e.place? with
  | some p => .ok ⟨p, rest, h⟩
  | none => .error (.unexpected t .notAReference)

mutual

def expr (tokens : List Token) : Except Refusal (Parsed Expr tokens) :=
  match tokens with
  | [] => .error .endOfInput
  | t :: rest =>
    match t.kind with
    | .print => do
      let ⟨value, rest₁, h₁⟩ ← expr rest
      return ⟨.print none value, rest₁, by grind⟩
    | .fileWrite => do
      let ⟨target, rest₁, h₁⟩ ← place .load rest
      let ⟨value, rest₂, h₂⟩ ← expr rest₁
      return ⟨.print (some target) value, rest₂, by grind⟩
    | .pipe => do
      let ⟨handle, rest₁, h₁⟩ ← place .load rest
      return ⟨.close handle, rest₁, by grind⟩
    | .leftBrace => do
      let ⟨(cs, otherwise), rest₁, h₁⟩ ← clauses rest
      return ⟨.choose cs otherwise, rest₁, by grind⟩
    | _ => store (t :: rest)
termination_by 16 * tokens.length + 11
decreasing_by all_goals grind [Level.rank, Level.rank_le]

/-- A conditional block from one clause on, and its closing brace. -/
def clauses (tokens : List Token) :
    Except Refusal (Parsed (List Clause × Option Expr) tokens) := do
  match ← expr tokens with
  | ⟨_, [], _⟩ => .error .endOfInput
  | ⟨condition, t :: rest, h⟩ =>
    match t.kind with
    | .comma =>
      match ← expr rest with
      | ⟨_, [], _⟩ => .error .endOfInput
      | ⟨result, s :: rest₁, h₁⟩ =>
        match s.kind with
        | .pipe => do
          let ⟨(cs, otherwise), rest₂, h₂⟩ ← clauses rest₁
          return ⟨(⟨condition, result⟩ :: cs, otherwise), rest₂, by grind⟩
        | .rightBrace => return ⟨([⟨condition, result⟩], none), rest₁, by grind⟩
        | _ => .error (.unexpected s .expectedSeparator)
    | .rightBrace => return ⟨([], some condition), rest, by grind⟩
    | _ => .error (.unexpected t .strayInBlock)
termination_by 16 * tokens.length + 12
decreasing_by all_goals grind [Level.rank, Level.rank_le]

def store (tokens : List Token) : Except Refusal (Parsed Expr tokens) :=
  match tokens with
  | [] => .error .endOfInput
  | t :: rest =>
    match t.kind with
    | .prompt => do
      let ⟨target, rest₁, h₁⟩ ← target? rest
      return ⟨.store .prompt target, rest₁, by grind⟩
    | .fileRead => do
      let ⟨handle, rest₁, h₁⟩ ← place .load rest
      let ⟨target, rest₂, h₂⟩ ← target? rest₁
      return ⟨.store (.fileLine handle) target, rest₂, by grind⟩
    | .openRead => opening .read t rest
    | .openWrite => opening .write t rest
    | _ => do
      let ⟨m, rest₁, h₁⟩ ← chain .logic (t :: rest)
      let ⟨target, rest₂, h₂⟩ ← target? rest₁
      return ⟨.store (.math m) target, rest₂, by grind⟩
termination_by 16 * tokens.length + 10
decreasing_by all_goals grind [Level.rank, Level.rank_le]

/-- The path and the handle of a file to open; `t` is the marker before them. -/
def opening (access : Access) (t : Token) (rest : List Token) :
    Except Refusal (Parsed Expr (t :: rest)) := do
  let ⟨path, rest₁, h₁⟩ ← chain .logic rest
  let ⟨target, rest₂, h₂⟩ ← target? rest₁
  match target with
  | some handle => return ⟨.openFile access path handle, rest₂, by grind⟩
  | none => .error (.unexpected t .openWithoutHandle)
termination_by 16 * rest.length + 12
decreasing_by all_goals grind [Level.rank, Level.rank_le]

/-- Where a value is stored, when a store marker follows. -/
def target? (tokens : List Token) : Except Refusal (Trailing (Option Place) tokens) :=
  match tokens with
  | [] => return ⟨none, [], Nat.le_refl _⟩
  | t :: rest =>
    if t.kind = .store then do
      let ⟨p, rest₁, h₁⟩ ← place .store (t :: rest)
      return ⟨some p, rest₁, Nat.le_of_lt h₁⟩
    else
      return ⟨none, t :: rest, Nat.le_refl _⟩
termination_by 16 * tokens.length + 2
decreasing_by all_goals grind [Level.rank, Level.rank_le]

/-- A chain of operands joined by the operators of one level. -/
def chain (level : Level) (tokens : List Token) : Except Refusal (Parsed Math tokens) := do
  let ⟨first, rest₁, h₁⟩ ← operand level tokens
  let ⟨m, rest₂, h₂⟩ ← chainFrom level first rest₁
  return ⟨m, rest₂, Nat.lt_of_le_of_lt h₂ h₁⟩
termination_by 16 * tokens.length + 2 * level.rank + 5
decreasing_by all_goals grind [Level.rank, Level.rank_le]

/-- An operand at one level: a chain of the next tighter level, or a unary. -/
def operand (level : Level) (tokens : List Token) : Except Refusal (Parsed Math tokens) :=
  match level with
  | .logic => chain .sum tokens
  | .sum => chain .product tokens
  | .product => unary tokens
termination_by 16 * tokens.length + 2 * level.rank + 4
decreasing_by all_goals grind [Level.rank, Level.rank_le]

/-- The rest of a chain after its first operands, which group to the left. -/
def chainFrom (level : Level) (left : Math) (tokens : List Token) :
    Except Refusal (Trailing Math tokens) :=
  match tokens with
  | [] => return ⟨left, [], Nat.le_refl _⟩
  | t :: rest =>
    match level.operator? t.kind with
    | none => return ⟨left, t :: rest, Nat.le_refl _⟩
    | some op => do
      let ⟨right, rest₁, h₁⟩ ← operand level rest
      let ⟨m, rest₂, h₂⟩ ← chainFrom level (.binary op left right) rest₁
      return ⟨m, rest₂, by grind⟩
termination_by 16 * tokens.length
decreasing_by all_goals grind [Level.rank, Level.rank_le]

def unary (tokens : List Token) : Except Refusal (Parsed Math tokens) :=
  match tokens with
  | [] => .error .endOfInput
  | t :: rest =>
    match unary? t.kind with
    | some op => do
      let ⟨operand, rest₁, h₁⟩ ← term rest
      return ⟨.unary op operand, rest₁, by grind⟩
    | none => do
      let ⟨value, rest₁, h₁⟩ ← term (t :: rest)
      return ⟨.term value, rest₁, h₁⟩
termination_by 16 * tokens.length + 3
decreasing_by all_goals grind [Level.rank, Level.rank_le]

def term (tokens : List Token) : Except Refusal (Parsed Term tokens) :=
  match tokens with
  | [] => .error .endOfInput
  | t :: rest =>
    match t.kind with
    | .load => do
      let ⟨p, rest₁, h₁⟩ ← place .load (t :: rest)
      let ⟨draft, rest₂, h₂⟩ ← modifiers false .empty rest₁
      return ⟨⟨.load p, draft.modifiers⟩, rest₂, Nat.lt_of_le_of_lt h₂ h₁⟩
    | .leftBracket => do
      let ⟨es, rest₁, h₁⟩ ← items rest
      let ⟨draft, rest₂, h₂⟩ ← modifiers false .empty rest₁
      return ⟨⟨.list es, draft.modifiers⟩, rest₂, by grind⟩
    | _ => do
      match ← atom (t :: rest) with
      | ⟨count, [], h⟩ => return ⟨⟨.atom count, .none⟩, [], h⟩
      | ⟨count, d :: rest₁, h₁⟩ =>
        if d.kind = .roll then do
          let ⟨sides, rest₂, h₂⟩ ← atom rest₁
          let ⟨draft, rest₃, h₃⟩ ← modifiers true .empty rest₂
          return ⟨⟨.roll count sides draft.reroll, draft.modifiers⟩, rest₃, by grind⟩
        else do
          let ⟨draft, rest₂, h₂⟩ ← modifiers false .empty (d :: rest₁)
          return ⟨⟨.atom count, draft.modifiers⟩, rest₂, Nat.lt_of_le_of_lt h₂ h₁⟩
termination_by 16 * tokens.length + 2
decreasing_by all_goals grind [Level.rank, Level.rank_le]

/-- The expressions of a list, and its closing bracket. -/
def items (tokens : List Token) : Except Refusal (Parsed (List Expr) tokens) :=
  match tokens with
  | [] => .error .endOfInput
  | t :: rest =>
    if t.kind = .rightBracket then
      return ⟨[], rest, Nat.lt_succ_self _⟩
    else do
      let ⟨e, rest₁, h₁⟩ ← expr (t :: rest)
      let ⟨es, rest₂, h₂⟩ ← items rest₁
      return ⟨e :: es, rest₂, Nat.lt_trans h₂ h₁⟩
termination_by 16 * tokens.length + 12
decreasing_by all_goals grind [Level.rank, Level.rank_le]

def atom (tokens : List Token) : Except Refusal (Parsed Atom tokens) :=
  match tokens with
  | [] => .error .endOfInput
  | t :: rest =>
    match t.kind with
    | .number =>
      match number? t.text with
      | some x => return ⟨.number x, rest, Nat.lt_succ_self _⟩
      | none => .error (.unexpected t .malformedNumber)
    | .leftParen => do
      match ← expr rest with
      | ⟨_, [], _⟩ => .error .endOfInput
      | ⟨e, s :: rest₁, h₁⟩ =>
        if s.kind = .rightParen then return ⟨.group e, rest₁, by grind⟩
        else .error (.unexpected s (.expected .rightParen))
    | .unknown => .error (.unexpected t .unrecognised)
    | _ => .error (.unexpected t .expectedAtom)
termination_by 16 * tokens.length
decreasing_by all_goals grind [Level.rank, Level.rank_le]

/-- The modifiers at the start, added to those of a draft. -/
def modifiers (rolled : Bool) (draft : Draft) (tokens : List Token) :
    Except Refusal (Trailing Draft tokens) :=
  match tokens with
  | [] => return ⟨draft, [], Nat.le_refl _⟩
  | t :: rest =>
    match role? t.kind with
    | some (.sort order) =>
      if draft.sort.isSome then .error (.unexpected t (.repeated .sort))
      else do
        let ⟨d, rest₁, h₁⟩ ← modifiers rolled { draft with sort := some order } rest
        return ⟨d, rest₁, Nat.le_succ_of_le h₁⟩
    | some (.reroll once) =>
      if draft.reroll.isSome then .error (.unexpected t (.repeated .reroll))
      else if !rolled then .error (.unexpected t .rerollWithoutRoll)
      else do
        let ⟨c, rest₁, h₁⟩ ← condition rest
        let ⟨d, rest₂, h₂⟩ ← modifiers rolled { draft with reroll := some ⟨once, c⟩ } rest₁
        return ⟨d, rest₂, by grind⟩
    | some .check =>
      if draft.check.isSome then .error (.unexpected t (.repeated .check))
      else do
        let ⟨c, rest₁, h₁⟩ ← condition (t :: rest)
        let ⟨d, rest₂, h₂⟩ ← modifiers rolled { draft with check := some c } rest₁
        return ⟨d, rest₂, Nat.le_trans h₂ (Nat.le_of_lt h₁)⟩
    | some (.select selector) =>
      if draft.select.isSome then .error (.unexpected t (.repeated .select))
      else do
        let ⟨count, rest₁, h₁⟩ ← atom rest
        let ⟨d, rest₂, h₂⟩ ← modifiers rolled { draft with select := some ⟨selector, count⟩ } rest₁
        return ⟨d, rest₂, by grind⟩
    | none => return ⟨draft, t :: rest, Nat.le_refl _⟩
termination_by 16 * tokens.length + 2
decreasing_by all_goals grind [Level.rank, Level.rank_le]

/-- A relation and its threshold; a bare threshold is to be equalled. -/
def condition (tokens : List Token) : Except Refusal (Parsed Comparison tokens) :=
  match tokens with
  | [] => .error .endOfInput
  | t :: rest =>
    match relation? t.kind with
    | some relation => do
      let ⟨threshold, rest₁, h₁⟩ ← atom rest
      return ⟨⟨relation, threshold⟩, rest₁, by grind⟩
    | none => do
      let ⟨threshold, rest₁, h₁⟩ ← atom (t :: rest)
      return ⟨⟨.equal, threshold⟩, rest₁, h₁⟩
termination_by 16 * tokens.length + 1
decreasing_by all_goals grind [Level.rank, Level.rank_le]

/-- A marker and the coordinates after it, which may stand in parentheses. -/
def place (marker : TokenKind) (tokens : List Token) : Except Refusal (Parsed Place tokens) :=
  match tokens with
  | [] => .error .endOfInput
  | t :: rest =>
    if t.kind ≠ marker then .error (.unexpected t (.expected marker))
    else do
      match ← atom rest with
      | ⟨.group e, [], h₁⟩ => grouped t e [] (by grind)
      | ⟨.number _, [], _⟩ => .error .endOfInput
      | ⟨count, s :: rest₁, h₁⟩ =>
        if s.kind = .roll then do
          let ⟨sides, rest₂, h₂⟩ ← atom rest₁
          return ⟨⟨count, sides⟩, rest₂, by grind⟩
        else
          match count with
          | .group e => grouped t e (s :: rest₁) (by grind)
          | .number _ => .error (.unexpected s .expectedRoll)
termination_by 16 * tokens.length + 1
decreasing_by all_goals grind [Level.rank, Level.rank_le]

end

def exprs (tokens : List Token) : Except Refusal (List Expr) :=
  match tokens with
  | [] => return []
  | t :: rest => do
    let ⟨e, rest₁, _h₁⟩ ← expr (t :: rest)
    let es ← exprs rest₁
    return e :: es
termination_by tokens.length
decreasing_by exact _h₁

end DiceScript.Parser

namespace DiceScript

/-- The script that a token list denotes, or the first error. -/
def parse (tokens : List Token) : Except ParseError Script :=
  match Parser.exprs tokens with
  | .ok body => .ok ⟨body⟩
  | .error refusal => .error (refusal.toError tokens)

end DiceScript
