import DiceScript.Machine

/-!
# One instruction

What each instruction does to the machine, and where the next one stands.
-/

namespace DiceScript

def Arith.apply : Arith → Double → Double → Double
  | add, x, y => x + y
  | sub, x, y => x - y
  | mul, x, y => x * y
  | div, x, y => x / y
  | mod, x, y => Binary64.remainder x y
  | pow, x, y => x.pow y

/-- Only division and remainder refuse a second operand, and only zero. -/
def Arith.refuses : Arith → Double → Bool
  | div, y => y == 0
  | mod, y => y == 0
  | _, _ => false

def Order.holds : Order → Double → Double → Bool
  | less, x, y => x < y
  | atMost, x, y => x ≤ y
  | greater, x, y => y < x
  | atLeast, x, y => y ≤ x

def Adjust.apply : Adjust → Double → Double
  | inc, x => x + 1
  | dec, x => x - 1
  | floor, x => Binary64.floor x
  | ceil, x => Binary64.ceil x
  | negate, x => -x

/-- Where the next instruction is. -/
inductive Flow where
  | next
  | jump (target : Nat)
deriving DecidableEq, Repr

namespace Instruction

/-- An operand that counts stack entries. -/
def count? (i : Instruction) : Option Nat :=
  match i.imm with
  | .int n => if 0 ≤ n then some n.toNat else none
  | _ => none

def target? (i : Instruction) : Option Nat :=
  match i.imm with
  | .address target => some target
  | _ => none

/-- The value that a push pushes. -/
def literal? (i : Instruction) : Option Value :=
  match i.op, i.imm with
  | .push, .num x => some (.number x)
  | .push, .int n => some (.number (Binary64.ofInt n))
  | .pushText, .text s => some (.text s)
  | _, _ => none

end Instruction

namespace Exec

variable {m : Type → Type} [Monad m] {h : Host m}

/-- The part of an instruction that it has to carry. -/
def required {α : Type} (op : Opcode) : Option α → Exec h α
  | some a => return a
  | none => throw (.badOperand op)

/-- What an instruction does, where the next one comes after it in any case. -/
def perform (limits : Limits) (i : Instruction) : Exec h Unit := do
  match i.op with
  | .arith f =>
    let y ← popNumber i.op
    let x ← popNumber i.op
    if f.refuses y then throw (.divisionByZero i.op)
    push (.number (f.apply x y))
  | .and =>
    let y ← pop i.op
    let x ← pop i.op
    push (.ofBool (x.truthy && y.truthy))
  | .or =>
    let y ← pop i.op
    let x ← pop i.op
    push (.ofBool (x.truthy || y.truthy))
  | .not =>
    let x ← pop i.op
    push (.ofBool !x.truthy)
  | .compare order =>
    let y ← popNumber i.op
    let x ← popNumber i.op
    push (.ofBool (order.holds x y))
  | .equal =>
    let y ← pop i.op
    let x ← pop i.op
    push (.ofBool (x.equals y))
  | .notEqual =>
    let y ← pop i.op
    let x ← pop i.op
    push (.ofBool !(x.equals y))
  | .push => push (← required i.op i.literal?)
  | .pushText => push (← required i.op i.literal?)
  | .dup =>
    let times ← required i.op i.count?
    match (← get).stack with
    | [] => throw (.stackUnderflow i.op)
    | v :: _ => modify fun s => { s with stack := List.replicate times v ++ s.stack }
  | .pop => discard (pop i.op)
  | .list =>
    let n ← required i.op i.count?
    let stack := (← get).stack
    if stack.length < n then throw (.stackUnderflow i.op)
    modify fun s => { s with stack := .list (stack.take n).reverse :: stack.drop n }
  | .sort order => push (.ofPool (Pool.sort order (← popPool i.op)))
  | .select selector =>
    let n ← popNumber i.op
    let pool ← popPool i.op
    push (.ofPool (Pool.select selector (Pool.clampCount n pool.length) pool))
  | .count relation =>
    let threshold ← popNumber i.op
    let pool ← popPool i.op
    push (.number (Binary64.ofNat (Pool.countMatching relation threshold pool)))
  | .reroll once relation =>
    let threshold ← popNumber i.op
    let pool ← popPool i.op
    let sides ← popNumber i.op
    push (.ofPool (← act (.reroll limits once relation threshold sides pool)))
  | .sum => push (.number (← popNumber i.op))
  | .roll =>
    let count ← popNumber i.op
    let sides ← popNumber i.op
    push (.ofPool (← act (.roll limits count sides)))
  | .load =>
    let r ← popReference i.op
    push (← act (.load r))
  | .store =>
    let r ← popReference i.op
    let v ← pop i.op
    act (.store r v)
    push v
  | .read => push (.text (← act .prompt))
  | .print => act (.print (← pop i.op))
  | .filePrint =>
    let r ← popReference i.op
    let v ← pop i.op
    act (.filePrint r v)
  | .openFile access =>
    let r ← popReference i.op
    let path := (← pop i.op).display
    act (.openFile access path r)
    push (.text path)
  | .fileRead =>
    let r ← popReference i.op
    push (.text (← act (.fileRead r)))
  | .close =>
    let r ← popReference i.op
    act (.close r)
    push (.number 0)
  | .adjust f => push (.number (f.apply (← popNumber i.op)))
  | .time => push (.number (Binary64.ofNat (← act (.ask h.clock))))
  | .seed =>
    let x ← popNumber i.op
    modify fun s => { s with random := .ofInt (Binary64.toInt64 x) }
  | .random => push (.number (← act (.draw Random.unit)))
  | .jump | .jumpIfFalse => return ()

/-- Execute one instruction. -/
def step (limits : Limits) (i : Instruction) : Exec h Flow := do
  match i.op with
  | .jump => return .jump (← required i.op i.target?)
  | .jumpIfFalse =>
    let target ← required i.op i.target?
    let condition ← pop i.op
    return if condition.truthy then .next else .jump target
  | _ =>
    perform limits i
    return .next

end Exec

end DiceScript
